/-!
# Lists in batches

Long lists are worked on in batches of a fixed size; only the last one may be
shorter.
-/

namespace Beaver

/-- Cuts a list into batches of at most `n`, for positive `n`. -/
def batches {α : Type} (n : Nat) (xs : List α) : List (List α) :=
  if _h : xs = [] ∨ n = 0 then []
  else xs.take n :: batches n (xs.drop n)
termination_by xs.length
decreasing_by
  have hpos : xs.length ≠ 0 := by simp_all
  simp only [List.length_drop]
  omega

end Beaver
