import Acrobe.Stapl.Evaluate

/-!
# Division and remainder

The quotient of the interpreter is truncated toward zero, and its remainder is the one of the floor.
-/

namespace Acrobe.Stapl

/-- `(a / b) * b + a % b` -/
def recombine (a b : Int) : Except Error Int := do
  let quotient ← evalBinop .div a b
  let product ← evalBinop .mul quotient b
  let remainder ← evalBinop .mod a b
  evalBinop .add product remainder

/-- The quotient and the remainder make up the dividend, and the remainder is smaller than the divisor. -/
structure Divides (a b : Int) : Prop where
  recombined : recombine a b = .ok a
  small : ∃ remainder, evalBinop .mod a b = .ok remainder ∧ remainder.natAbs < b.natAbs

theorem toSigned32_dvd (value : Int) : (2 : Int) ^ 32 ∣ value - toSigned32 value := by
  unfold toSigned32
  split <;> omega

theorem toSigned32_congr {value other : Int} (same : (2 : Int) ^ 32 ∣ value - other) : toSigned32 value = toSigned32 other := by
  have residue : value % 2 ^ 32 = other % 2 ^ 32 := Int.emod_eq_emod_iff_emod_sub_eq_zero.mpr (Int.emod_eq_zero_of_dvd same)
  unfold toSigned32
  rw [residue]

theorem evalBinop_div {a b : Int} (first : InRange a) (second : InRange b) (nonzero : b ≠ 0) :
    evalBinop .div a b = .ok (toSigned32 (a.tdiv b)) := by
  unfold InRange at first second
  have exact := DoubleDivision.truncated_exact (a := a) (b := b) nonzero (by omega) (by omega)
  simp only [evalBinop, if_neg nonzero, exact]

theorem natAbs_fmod_lt {a b : Int} (nonzero : b ≠ 0) : (a.fmod b).natAbs < b.natAbs := by
  rcases Int.lt_or_gt_of_ne nonzero with negative | positive
  · have mirrored : a.fmod b = -((-a).fmod (-b)) := by rw [Int.neg_fmod_neg, Int.neg_neg]
    have low := Int.fmod_nonneg_of_pos (-a) (show 0 < -b by omega)
    have high := Int.fmod_lt_of_pos (-a) (show 0 < -b by omega)
    omega
  · have low := Int.fmod_nonneg_of_pos a positive
    have high := Int.fmod_lt_of_pos a positive
    omega

theorem recombine_eq {a b : Int} (first : InRange a) (second : InRange b) (nonzero : b ≠ 0) :
    recombine a b = .ok (toSigned32 (a + (a.fmod b - a.tmod b))) := by
  have product : (2 : Int) ^ 32 ∣ a.tdiv b * b - toSigned32 (a.tdiv b) * b := by
    rw [← Int.sub_mul]
    exact Dvd.dvd.mul_right (toSigned32_dvd _) b
  have whole := Int.tdiv_mul_add_tmod a b
  have wrapped := toSigned32_dvd (toSigned32 (a.tdiv b) * b)
  rw [recombine, evalBinop_div first second nonzero]
  simp only [evalBinop, if_neg nonzero]
  refine congrArg Except.ok (toSigned32_congr ?_)
  omega

theorem fmod_sub_tmod {a b : Int} (nonzero : b ≠ 0) :
    a.fmod b - a.tmod b = if b ∣ a ∨ 0 ≤ a * b then 0 else b := by
  have same := Int.fmod_eq_tmod (a := a) (b := b)
  by_cases divides : b ∣ a
  · rw [if_pos divides] at same
    rw [if_pos (.inl divides)]
    omega
  · have a_ne : a ≠ 0 := by
      rintro rfl
      exact divides (dvd_zero b)
    rw [if_neg divides] at same
    rcases Int.lt_or_gt_of_ne a_ne with a_neg | a_pos <;> rcases Int.lt_or_gt_of_ne nonzero with b_neg | b_pos
    · rw [if_pos (.inr (Int.le_of_lt (Int.mul_pos_of_neg_of_neg a_neg b_neg)))]
      rw [if_neg (by omega), if_neg (by omega)] at same
      omega
    · rw [if_neg (by simpa [divides] using Int.mul_neg_of_neg_of_pos a_neg b_pos)]
      rw [if_neg (by omega), if_pos (by omega)] at same
      omega
    · rw [if_neg (by simpa [divides] using Int.mul_neg_of_pos_of_neg a_pos b_neg)]
      rw [if_pos (by omega), if_neg (by omega)] at same
      omega
    · rw [if_pos (.inr (Int.le_of_lt (Int.mul_pos a_pos b_pos)))]
      rw [if_pos (by omega), if_pos (by omega)] at same
      omega

/-- Quotient and remainder belong together for operands of one sign, and where the division is exact. -/
theorem divides_iff {a b : Int} (first : InRange a) (second : InRange b) (nonzero : b ≠ 0) :
    Divides a b ↔ b ∣ a ∨ 0 ≤ a * b := by
  have combined := recombine_eq first second nonzero
  rw [fmod_sub_tmod nonzero] at combined
  constructor
  · intro divides
    by_contra apart
    rw [if_neg apart, divides.recombined] at combined
    have same := Except.ok.inj combined
    have wrapped := toSigned32_dvd (a + b)
    unfold InRange at first second
    omega
  · intro agrees
    rw [if_pos agrees, Int.add_zero, (toSigned32_eq_iff a).mpr first] at combined
    exact ⟨combined, a.fmod b, by simp only [evalBinop, if_neg nonzero], natAbs_fmod_lt nonzero⟩

theorem divides_lowest : InRange (-2 ^ 31) ∧ InRange (-1) ∧ Divides (-2 ^ 31) (-1) := by
  refine ⟨by decide, by decide, (divides_iff (by decide) (by decide) (by decide)).mpr ?_⟩
  exact .inr (by decide)

theorem remainder_of_floor : ¬∀ a b, InRange a → InRange b → b ≠ 0 → Divides a b := by
  intro divides
  have recombined := (divides (-7) 2 (by decide) (by decide) (by decide)).recombined
  exact absurd recombined (by decide)

end Acrobe.Stapl
