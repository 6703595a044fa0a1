import Mathlib

/-!
# Division through double precision

The quotient of two integers rounded to 53 significant bits, ties to even, and then truncated
toward zero.
-/

namespace DoubleDivision

def bitLength (value : Nat) : Nat := if value = 0 then 0 else value.log2 + 1

def roundHalfEven (num den : Nat) : Nat :=
  if 2 * (num % den) < den ∨ 2 * (num % den) = den ∧ num / den % 2 = 0 then num / den else num / den + 1

/-- The whole part of the rounded quotient; `none` beyond the largest double. -/
def quotient (num den : Nat) : Option Nat :=
  let bits := bitLength (num / den)
  if bits ≤ 53 then
    some (roundHalfEven (num * 2 ^ (53 - bits)) den / 2 ^ (53 - bits))
  else
    let rounded := roundHalfEven num (den * 2 ^ (bits - 53)) * 2 ^ (bits - 53)
    if rounded < 2 ^ 1024 then some rounded else none

def truncated (a b : Int) : Option Int :=
  (quotient a.natAbs b.natAbs).map fun value : Nat => a.sign * b.sign * (value : Int)

theorem two_pow_le_of_bitLength {value bits : Nat} (long : bits < bitLength value) : 2 ^ bits ≤ value := by
  unfold bitLength at long
  split at long
  · omega
  · rename_i nonzero
    exact (Nat.le_log2 nonzero).mp (by omega)

theorem roundHalfEven_cases (num den : Nat) :
    roundHalfEven num den = num / den ∨ roundHalfEven num den = num / den + 1 := by
  unfold roundHalfEven
  split
  · exact Or.inl rfl
  · exact Or.inr rfl

theorem quotient_cases {num den value : Nat} (short : bitLength (num / den) ≤ 53)
    (result : quotient num den = some value) : value = num / den ∨ value = num / den + 1 := by
  unfold quotient at result
  rw [if_pos short] at result
  have scale : 0 < 2 ^ (53 - bitLength (num / den)) := Nat.two_pow_pos _
  generalize 2 ^ (53 - bitLength (num / den)) = factor at result scale
  have same : num * factor / den / factor = num / den := by
    rw [Nat.div_div_eq_div_mul, Nat.mul_comm num, Nat.mul_comm den, Nat.mul_div_mul_left _ _ scale]
  cases result
  rcases roundHalfEven_cases (num * factor) den with rounded | rounded
  · rw [rounded]
    exact Or.inl same
  · rw [rounded]
    have step : (num * factor / den + 1) / factor ≤ (num * factor / den + factor) / factor :=
      Nat.div_le_div_right (by omega)
    have low : num * factor / den / factor ≤ (num * factor / den + 1) / factor :=
      Nat.div_le_div_right (by omega)
    rw [Nat.add_div_right _ scale] at step
    omega

theorem tdiv_eq_sign (a b : Int) : a.tdiv b = a.sign * b.sign * (a.natAbs / b.natAbs : Nat) := by
  rcases Int.eq_nat_or_neg a with ⟨m, rfl | rfl⟩ <;> rcases Int.eq_nat_or_neg b with ⟨n, rfl | rfl⟩ <;>
    rcases Nat.eq_zero_or_pos m with rfl | first <;> rcases Nat.eq_zero_or_pos n with rfl | second <;>
    simp_all [Int.sign_eq_one_of_pos, Int.neg_tdiv, Int.tdiv_neg, ← Int.natCast_ediv]

theorem fdiv_near_tdiv (a b : Int) : a.fdiv b = a.tdiv b ∨ a.fdiv b = a.tdiv b - 1 := by
  have same := Int.fdiv_eq_tdiv (a := a) (b := b)
  have nonneg : 0 ≤ b → b.sign = 0 ∨ b.sign = 1 := fun low => by
    rcases Int.lt_or_eq_of_le low with pos | rfl
    · exact Or.inr (Int.sign_eq_one_of_pos pos)
    · exact Or.inl rfl
  have negative : ¬0 ≤ b → b.sign = -1 := fun low => Int.sign_eq_neg_one_of_neg (by omega)
  split_ifs at same <;> omega

/-- The truncated result lies next to the floor unless the quotient has more than 53 bits. -/
theorem truncated_near_floor {a b value : Int} (result : truncated a b = some value)
    (small : (a.fdiv b).natAbs < 2 ^ 53 - 1) : (value - a.fdiv b).natAbs ≤ 2 := by
  have floor := fdiv_near_tdiv a b
  have whole := tdiv_eq_sign a b
  have magnitude : (a.tdiv b).natAbs = a.natAbs / b.natAbs := Int.natAbs_tdiv a b
  have short : bitLength (a.natAbs / b.natAbs) ≤ 53 := by
    by_contra long
    have large := two_pow_le_of_bitLength (Nat.lt_of_not_le long)
    omega
  obtain ⟨rounded, quotientResult, rfl⟩ := Option.map_eq_some_iff.mp result
  have sign : a.sign * b.sign = 1 ∨ a.sign * b.sign = -1 ∨ a.sign * b.sign = 0 := by
    rcases Int.sign_trichotomy a with sa | sa | sa <;> rcases Int.sign_trichotomy b with sb | sb | sb <;>
      simp [sa, sb]
  rcases quotient_cases short quotientResult with rfl | rfl <;> rcases sign with one | one | one <;>
    rw [one] at whole ⊢ <;> omega

/-! ### Short operands -/

theorem roundHalfEven_scaled {num den bits : Nat} (positive : 0 < den) (small : num < 2 ^ 53) (narrow : den < 2 ^ 54)
    (short : bits ≤ 53) (whole : bits = 0 ∨ 2 ^ (bits - 1) ≤ num / den) :
    roundHalfEven (num * 2 ^ (53 - bits)) den / 2 ^ (53 - bits) = num / den := by
  have same : num * 2 ^ (53 - bits) / den / 2 ^ (53 - bits) = num / den := by
    rw [Nat.div_div_eq_div_mul, Nat.mul_comm num, Nat.mul_comm den, Nat.mul_div_mul_left _ _ (Nat.two_pow_pos _)]
  unfold roundHalfEven
  split
  · exact same
  · rename_i up
    by_contra crossed
    have divides : 2 ^ (53 - bits) ∣ num * 2 ^ (53 - bits) / den + 1 := by
      by_contra within
      exact crossed ((Nat.succ_div_of_not_dvd within).trans same)
    obtain ⟨k, next⟩ := divides
    -- what is missing to the next multiple is at most half the divisor, and a multiple of the scale
    have missing : den * k * 2 ^ (53 - bits) = num * 2 ^ (53 - bits) + (den - num * 2 ^ (53 - bits) % den) := by
      have split := Nat.div_add_mod (num * 2 ^ (53 - bits)) den
      have rest := Nat.mod_lt (num * 2 ^ (53 - bits)) positive
      have grown : den * (num * 2 ^ (53 - bits) / den + 1) = den * (num * 2 ^ (53 - bits) / den) + den := by ring
      rw [next] at grown
      have ordered : den * k * 2 ^ (53 - bits) = den * (2 ^ (53 - bits) * k) := by ring
      omega
    have rest := Nat.mod_lt (num * 2 ^ (53 - bits)) positive
    have above : num < den * k := by
      by_contra below
      have bound := Nat.mul_le_mul_right (2 ^ (53 - bits)) (Nat.le_of_not_lt below)
      omega
    have scale_le : 2 * 2 ^ (53 - bits) ≤ den := by
      have bound := Nat.mul_le_mul_right (2 ^ (53 - bits)) (Nat.succ_le_of_lt above)
      rw [Nat.succ_mul] at bound
      omega
    rcases whole with rfl | large
    · omega
    · cases bits with
      | zero => omega
      | succ bits =>
        have long : 2 ^ bits * den ≤ num := (Nat.le_div_iff_mul_le positive).mp large
        have wide := Nat.mul_le_mul_left (2 ^ bits) scale_le
        have power : 2 ^ bits * (2 * 2 ^ (53 - (bits + 1))) = 2 ^ 53 := by
          rw [← Nat.pow_succ', ← Nat.pow_add]
          congr 1
          omega
        omega

theorem quotient_exact {num den : Nat} (positive : 0 < den) (small : num < 2 ^ 53) (narrow : den < 2 ^ 54) :
    quotient num den = some (num / den) := by
  have short : bitLength (num / den) ≤ 53 := by
    by_contra long
    have large := two_pow_le_of_bitLength (Nat.lt_of_not_le long)
    have bound := Nat.div_le_self num den
    omega
  have whole : bitLength (num / den) = 0 ∨ 2 ^ (bitLength (num / den) - 1) ≤ num / den := by
    by_cases zero : bitLength (num / den) = 0
    · exact .inl zero
    · exact .inr (two_pow_le_of_bitLength (by omega))
  unfold quotient
  rw [if_pos short, roundHalfEven_scaled positive small narrow short whole]

/-- Operands of at most 53 bits are divided exactly. -/
theorem truncated_exact {a b : Int} (nonzero : b ≠ 0) (small : a.natAbs < 2 ^ 53) (narrow : b.natAbs < 2 ^ 54) :
    truncated a b = some (a.tdiv b) := by
  unfold truncated
  rw [quotient_exact (Int.natAbs_pos.mpr nonzero) small narrow, tdiv_eq_sign]
  rfl

end DoubleDivision
