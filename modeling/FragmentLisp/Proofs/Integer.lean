import FragmentLisp.Integer
import Mathlib.Algebra.Ring.Int.Defs
import Mathlib.Tactic.Common

/-!
Numbers that a machine integer can hold, and division of such numbers. Division toward zero leaves a
remainder with the sign of the dividend, floored division one with the sign of the divisor; the two differ
by one divisor or not at all.
-/

namespace FragmentLisp

def Fits (value : Int) : Prop :=
  -2 ^ 63 ≤ value ∧ value < 2 ^ 63

theorem fits_toInt (value : Int64) : Fits value.toInt :=
  ⟨Int64.le_toInt value, Int64.toInt_lt value⟩

theorem int64?_eq_some_iff {value : Int} {fitting : Int64} :
    int64? value = some fitting ↔ fitting.toInt = value := by
  rw [int64?]
  split
  next within =>
    rw [Int64.toInt_minValue, Int64.toInt_maxValue] at within
    rw [Option.some.injEq]
    constructor
    · rintro rfl
      exact Int64.toInt_ofInt_of_le within.1 (Int.lt_of_le_sub_one within.2)
    · rintro rfl
      exact Int64.ofInt_toInt fitting
  next outside =>
    refine iff_of_false (by simp) ?_
    rintro rfl
    exact outside ⟨Int64.minValue_le_toInt fitting, Int64.toInt_le fitting⟩

theorem int64?_eq_none_iff {value : Int} : int64? value = none ↔ ¬ Fits value := by
  rw [int64?, Int64.toInt_minValue, Int64.toInt_maxValue, Fits]
  split
  · simp only [reduceCtorEq, false_iff, not_not]
    omega
  · simp only [true_iff]
    omega

section Division

variable {dividend divisor : Int}

/-- What division toward zero leaves is smaller than the divisor and has the sign of the dividend. -/
theorem tmod_bounds (nonzero : divisor ≠ 0) :
    (dividend.tmod divisor).natAbs < divisor.natAbs ∧ (0 ≤ dividend → 0 ≤ dividend.tmod divisor) ∧
      (dividend ≤ 0 → dividend.tmod divisor ≤ 0) := by
  refine ⟨?_, Int.tmod_nonneg divisor, fun negative => ?_⟩
  · rw [Int.natAbs_tmod]
    exact Nat.mod_lt _ (by omega)
  · have opposite := Int.tmod_nonneg divisor (Int.neg_nonneg_of_nonpos negative)
    rw [Int.neg_tmod] at opposite
    omega

/-- The remainder of floored division is that of division toward zero, moved by one divisor if it is not
zero and has the other sign. -/
theorem fmod_eq_moved (nonzero : divisor ≠ 0) :
    dividend.fmod divisor =
      if dividend.tmod divisor ≠ 0 ∧ (dividend.tmod divisor < 0 ↔ ¬ divisor < 0)
      then dividend.tmod divisor + divisor else dividend.tmod divisor := by
  have divided := Int.tmod_add_mul_tdiv dividend divisor
  have bounds := (@tmod_bounds dividend divisor nonzero).1
  have moved : dividend.tmod divisor + divisor + divisor * (dividend.tdiv divisor - 1) = dividend := by
    rw [Int.mul_sub, Int.mul_one]
    omega
  rcases Int.lt_or_gt_of_ne nonzero with negative | positive
  · split
    · exact ((Int.fdiv_fmod_unique' negative).mpr ⟨moved, by omega, by omega⟩).2
    · exact ((Int.fdiv_fmod_unique' negative).mpr ⟨divided, by omega, by omega⟩).2
  · split
    · exact ((Int.fdiv_fmod_unique positive).mpr ⟨moved, by omega, by omega⟩).2
    · exact ((Int.fdiv_fmod_unique positive).mpr ⟨divided, by omega, by omega⟩).2

/-- The remainder of floored division lies between zero and the divisor. -/
theorem fmod_sign (nonzero : divisor ≠ 0) :
    dividend.fmod divisor = 0 ∨ (dividend.fmod divisor < 0 ↔ divisor < 0) := by
  have bounds := (@tmod_bounds dividend divisor nonzero).1
  rw [fmod_eq_moved nonzero]
  split <;> omega

/-- Of the quotients of numbers that fit only that of the least one and minus one does not. -/
theorem fits_tdiv_iff (fits : Fits dividend) (nonzero : divisor ≠ 0) :
    Fits (dividend.tdiv divisor) ↔ ¬ (dividend = -2 ^ 63 ∧ divisor = -1) := by
  constructor
  · rintro quotientFits ⟨rfl, rfl⟩
    exact absurd quotientFits.2 (by decide)
  · intro other
    unfold Fits at fits ⊢
    by_cases unit : divisor.natAbs = 1
    · rcases Int.natAbs_eq_iff.mp unit with rfl | rfl
      · rwa [Int.natCast_one, Int.tdiv_one]
      · rw [Int.natCast_one, Int.tdiv_neg, Int.tdiv_one]
        omega
    · have halved : (dividend.tdiv divisor).natAbs ≤ dividend.natAbs / 2 := by
        rw [Int.natAbs_tdiv]
        exact Nat.div_le_div_left (by omega) (by decide)
      omega

end Division
end FragmentLisp
