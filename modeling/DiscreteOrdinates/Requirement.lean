/-!
# Requirements

A condition that has to hold before a construction goes on, what it means that a
sequence of them succeeds, and when two sequences look alike.
-/

namespace DiscreteOrdinates

/-- A sequence succeeds if both of its parts do. -/
theorem bind_eq_ok {ε α β : Type} {x : Except ε α} {next : α → Except ε β} {b : β} :
    (x >>= next) = .ok b ↔ ∃ a, x = .ok a ∧ next a = .ok b := by
  cases x with
  | error e => simp [bind, Except.bind]
  | ok a => simp [bind, Except.bind]

/-- A sequence fails with its first part, or with the second if the first succeeds. -/
theorem bind_eq_error {ε α β : Type} {x : Except ε α} {next : α → Except ε β} {e : ε} :
    (x >>= next) = .error e ↔ x = .error e ∨ ∃ a, x = .ok a ∧ next a = .error e := by
  cases x with
  | error e' => simp [bind, Except.bind]
  | ok a => simp [bind, Except.bind]

/-- A check in front of a sequence has to pass. -/
theorem check_bind_eq_ok {ε α : Type} {x : Except ε Unit} {next : Unit → Except ε α} {a : α} :
    (x >>= next) = .ok a ↔ x = .ok () ∧ next () = .ok a := by
  rw [bind_eq_ok]
  exact ⟨fun ⟨(), h⟩ => h, fun h => ⟨(), h⟩⟩

/-- Two sequences look alike if what follows their common first part does. -/
theorem map_bind_congr {ε α β γ : Type} {x : Except ε α} {f f' : α → Except ε β} {g : β → γ}
    (h : ∀ a, (f a).map g = (f' a).map g) : (x >>= f).map g = (x >>= f').map g := by
  cases x with
  | error e => rfl
  | ok a => exact h a

/-- Goes on if a condition holds and fails with `cause` otherwise. -/
def require {ε : Type} (p : Prop) [Decidable p] (cause : ε) : Except ε Unit :=
  if p then .ok () else .error cause

theorem require_eq_error {ε : Type} {p : Prop} [Decidable p] {cause e : ε} :
    require p cause = .error e ↔ ¬ p ∧ cause = e := by
  unfold require
  split
  · simp [*]
  · simp [*]

theorem require_bind_eq_ok {ε α : Type} {p : Prop} [Decidable p] {cause : ε}
    {next : Unit → Except ε α} {a : α} :
    (require p cause >>= next) = .ok a ↔ p ∧ next () = .ok a := by
  unfold require
  split
  · simp [*, bind, Except.bind]
  · simp [*, bind, Except.bind]

end DiscreteOrdinates
