import DiscreteOrdinates.Proofs.Moments.Candidates

/-!
# Greedy selection

The selection of moments by a test that compares each candidate with those kept
before it, and what holds of every moment of an increasing list of candidates
behind it.
-/

namespace DiscreteOrdinates

namespace MomentIndex

open Classical in
/-- Visits candidates until `count` moments are kept. A candidate is kept if it
passes the test against all that are kept before it. -/
noncomputable def greedy (passes : List MomentIndex → MomentIndex → Prop) (count : ℕ)
    (kept : List MomentIndex) : List MomentIndex → List MomentIndex
  | [] => kept
  | i :: candidates =>
    if kept.length = count then kept
    else if passes kept i then greedy passes count (kept ++ [i]) candidates
    else greedy passes count kept candidates

variable {passes : List MomentIndex → MomentIndex → Prop} {count : ℕ}

theorem greedy_of_full {kept : List MomentIndex} (h : kept.length = count)
    (candidates : List MomentIndex) : greedy passes count kept candidates = kept := by
  cases candidates with
  | nil => rfl
  | cons i candidates => rw [greedy, if_pos h]

theorem greedy_append (kept xs ys : List MomentIndex) :
    greedy passes count kept (xs ++ ys) =
      greedy passes count (greedy passes count kept xs) ys := by
  induction xs generalizing kept with
  | nil => rfl
  | cons i xs ih =>
    by_cases hfull : kept.length = count
    · rw [greedy_of_full hfull, greedy_of_full hfull, greedy_of_full hfull]
    · rw [List.cons_append, greedy, greedy, if_neg hfull, if_neg hfull]
      split
      · exact ih _
      · exact ih _

/-- The moments of a list that come before `i`. -/
def before (i : MomentIndex) (is : List MomentIndex) : List MomentIndex :=
  is.filter (·.Precedes i)

end MomentIndex

end DiscreteOrdinates
