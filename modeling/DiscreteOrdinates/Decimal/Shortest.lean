import DiscreteOrdinates.Decimal.Binary

/-!
# Shortest decimals

The decimal with the fewest digits that reads back as a given float, and the
plain text of a float, which writes that decimal without an exponent.
-/

namespace DiscreteOrdinates

namespace Binary

/-- The decimals that round to `significand · 2 ^ exponent`, as bounds on
`value · 2 ^ (2 - exponent)`. Below the first significand of a binade the next
float is only half as far away. -/
def neighbourhood (significand : Nat) (exponent : Int) : Nat × Nat :=
  let below := if significand = hiddenBit ∧ leastExponent < exponent then 1 else 2
  (4 * significand - below, 4 * significand + 2)

/-- The decimal on the grid `10 ^ grid` that is nearest to the value and rounds
to it, the larger one of two. -/
def onGrid (significand : Nat) (exponent grid : Int) : Option Decimal :=
  let (low, high) := neighbourhood significand exponent
  let (unit, unitDen) := scaledRatio 1 2 (exponent - 2)
  let (step, stepDen) := scaledRatio 1 10 grid
  -- value and candidates in multiples of `1 / (unitDen · stepDen)`
  let value := 4 * significand * unit * stepDen
  let step := step * unitDen
  let inside (d : Nat) : Bool :=
    if significand % 2 = 0 then
      low * unit * stepDen ≤ d * step && d * step ≤ high * unit * stepDen
    else
      low * unit * stepDen < d * step && d * step < high * unit * stepDen
  let lower := value / step
  let upper := lower + 1
  let preferLower := value - lower * step < upper * step - value
  match inside lower, inside upper with
  | true, true => some ⟨if preferLower then lower else upper, grid⟩
  | true, false => some ⟨lower, grid⟩
  | false, true => some ⟨upper, grid⟩
  | false, false => none

/-- The first of the grids with one, two, … digits that holds a decimal which
reads back. Seventeen digits always do. -/
def shortest (significand : Nat) (exponent : Int) : Decimal :=
  let (num, den) := scaledRatio significand 2 exponent
  let top := decade num den
  let found := (List.range 17).findSome? fun n : Nat =>
    -- Rounding up can carry into the next decade.
    (onGrid significand exponent (top - n)).map fun d =>
      if d.coefficient = Nat.pow 10 (n + 1) then ⟨1, top + 1⟩ else d
  found.getD ⟨0, 0⟩

/-- The plain text: shortest digits, no exponent, no point in a whole number. -/
def text : Binary → String
  | .undefined => "NaN"
  | .infinite negative => if negative then "-inf" else "inf"
  | .finite negative significand exponent =>
    let digits := if significand = 0 then ['0'] else (shortest significand exponent).positional
    String.ofList (if negative then '-' :: digits else digits)

end Binary

/-- The plain text of a float. -/
def floatText (x : Float) : String :=
  (Binary.ofFloat x).text

end DiscreteOrdinates
