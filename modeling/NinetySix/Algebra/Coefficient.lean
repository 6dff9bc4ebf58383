import NinetySix.Error

set_option autoImplicit false

/-! # Checked coefficients

Coefficients are integers of 64 bits. They are kept as unbounded integers, and every sum and every
product passes through `checked`, which refuses what does not fit; a result that comes out is
therefore the exact one.
-/

namespace NinetySix

/-- The integer fits a signed word of 64 bits. -/
def InRange (n : Int) : Prop := -0x8000000000000000 ≤ n ∧ n < 0x8000000000000000

instance (n : Int) : Decidable (InRange n) := inferInstanceAs (Decidable (_ ∧ _))

/-- The integer itself, if it fits. -/
def checked (n : Int) : Except AlgebraError Int :=
  if InRange n then .ok n else .error .coefficientOverflow

theorem checked_of_inRange {n : Int} (h : InRange n) : checked n = .ok n := if_pos h

theorem checked_of_not_inRange {n : Int} (h : ¬ InRange n) :
    checked n = .error .coefficientOverflow := if_neg h

/-- A result that comes out is the exact one, and it fits. -/
theorem checked_eq_ok_iff {n m : Int} : checked n = .ok m ↔ InRange n ∧ n = m := by
  unfold checked
  by_cases h : InRange n <;> simp [h]

end NinetySix
