import Mathlib

/-!
# Bits of integers

The bits of an integer in two's complement.
-/

namespace IntBits

theorem two_pow_pos (n : Nat) : (0 : Int) < 2 ^ n := Int.pow_pos (by decide)

theorem testBit_succ (n : Int) (i : Nat) : n.testBit (i + 1) = (n / 2).testBit i := by
  conv_lhs => rw [← Int.bit_decomp n]
  rw [Int.testBit_bit_succ, Int.div2_val]

theorem testBit_eq (n : Int) (i : Nat) : n.testBit i = decide (n / 2 ^ i % 2 = 1) := by
  induction i generalizing n with
  | zero =>
    conv_lhs => rw [← Int.bit_decomp n]
    rw [Int.testBit_bit_zero, pow_zero, Int.ediv_one]
    have decomposed := Int.bodd_add_div2 n
    cases odd : n.bodd <;> rw [odd] at decomposed <;> simp at decomposed ⊢ <;> omega
  | succ i ih =>
    rw [testBit_succ, ih, Int.ediv_ediv_of_nonneg (by decide), pow_succ, Int.mul_comm]

theorem eq_of_testBit_eq {a b : Int} (same : ∀ i, a.testBit i = b.testBit i) : a = b := by
  -- far up, only the sign is left
  have high (n : Nat) : ∃ k, ∀ i ≥ k, n.testBit i = false :=
    ⟨n, fun i above => Nat.testBit_lt_two_pow (lt_of_le_of_lt above (Nat.lt_two_pow_self))⟩
  cases a with
  | ofNat m =>
    cases b with
    | ofNat n => exact congrArg Int.ofNat (Nat.eq_of_testBit_eq same)
    | negSucc n =>
      obtain ⟨k, none⟩ := high m
      obtain ⟨l, none'⟩ := high n
      have there : m.testBit (max k l) = !n.testBit (max k l) := same _
      rw [none _ (le_max_left k l), none' _ (le_max_right k l)] at there
      cases there
  | negSucc m =>
    cases b with
    | ofNat n =>
      obtain ⟨k, none⟩ := high m
      obtain ⟨l, none'⟩ := high n
      have there : (!m.testBit (max k l)) = n.testBit (max k l) := same _
      rw [none _ (le_max_left k l), none' _ (le_max_right k l)] at there
      cases there
    | negSucc n =>
      have flipped (i : Nat) : m.testBit i = n.testBit i := by
        have there : (!m.testBit i) = !n.testBit i := same i
        simpa using there
      exact congrArg Int.negSucc (Nat.eq_of_testBit_eq flipped)

theorem testBit_div (n : Int) (shift i : Nat) : (n / 2 ^ shift).testBit i = n.testBit (i + shift) := by
  rw [testBit_eq, testBit_eq, Int.ediv_ediv_of_nonneg (two_pow_pos shift).le, ← pow_add, Nat.add_comm shift i]

theorem testBit_mul (n : Int) (shift i : Nat) :
    (n * 2 ^ shift).testBit i = (decide (shift ≤ i) && n.testBit (i - shift)) := by
  by_cases above : shift ≤ i
  · obtain ⟨j, rfl⟩ := Nat.exists_eq_add_of_le' above
    have moved := testBit_div (n * 2 ^ shift) shift j
    rw [Int.mul_ediv_cancel _ (two_pow_pos shift).ne'] at moved
    rw [← moved]
    simp
  · obtain ⟨j, rfl⟩ : ∃ j, shift = i + (j + 1) := ⟨shift - i - 1, by omega⟩
    have even : n * 2 ^ (i + (j + 1)) = n * 2 ^ j * 2 * 2 ^ i := by ring
    rw [testBit_eq, even, Int.mul_ediv_cancel _ (two_pow_pos i).ne', Int.mul_emod_left]
    simp

theorem testBit_mod (n : Int) (width i : Nat) : (n % 2 ^ width).testBit i = (decide (i < width) && n.testBit i) := by
  have whole := Int.emod_add_mul_ediv n (2 ^ width)
  have low := Int.emod_nonneg n (two_pow_pos width).ne'
  have high := Int.emod_lt_of_pos n (two_pow_pos width)
  by_cases inside : i < width
  · obtain ⟨j, rfl⟩ : ∃ j, width = i + (j + 1) := ⟨width - i - 1, by omega⟩
    have above : n = n % 2 ^ (i + (j + 1)) + n / 2 ^ (i + (j + 1)) * 2 ^ j * 2 * 2 ^ i := by
      conv_lhs => rw [← whole]
      ring
    have quotient : n / 2 ^ i = n % 2 ^ (i + (j + 1)) / 2 ^ i + n / 2 ^ (i + (j + 1)) * 2 ^ j * 2 := by
      conv_lhs => rw [above]
      exact Int.add_mul_ediv_right _ _ (two_pow_pos i).ne'
    rw [testBit_eq, testBit_eq, quotient, Int.add_mul_emod_self_right]
    simp [inside]
  · have small : n % 2 ^ width / 2 ^ i = 0 :=
      Int.ediv_eq_zero_of_lt low (lt_of_lt_of_le high (by exact_mod_cast Nat.pow_le_pow_right (by decide) (by omega)))
    rw [testBit_eq, small]
    simp [inside]

theorem testBit_mask (width i : Nat) : ((2 : Int) ^ width - 1).testBit i = decide (i < width) := by
  have natural : (2 : Int) ^ width - 1 = ((2 ^ width - 1 : Nat) : Int) := by
    rw [Nat.cast_sub Nat.one_le_two_pow]
    push_cast
    rfl
  rw [natural]
  exact Nat.testBit_two_pow_sub_one width i

theorem land_mask (n : Int) (width : Nat) : Int.land n (2 ^ width - 1) = n % 2 ^ width := by
  refine eq_of_testBit_eq fun i => ?_
  rw [Int.testBit_land, testBit_mask, testBit_mod, Bool.and_comm]

theorem testBit_two_pow (k i : Nat) : ((2 : Int) ^ k).testBit i = decide (k = i) := by
  have natural : (2 : Int) ^ k = ((2 ^ k : Nat) : Int) := by push_cast; rfl
  rw [natural]
  exact Nat.testBit_two_pow

theorem land_two_pow (n : Int) (k : Nat) : Int.land n (2 ^ k) ≠ 0 ↔ n / 2 ^ k % 2 = 1 := by
  have bit : (Int.land n (2 ^ k)).testBit k = n.testBit k := by
    rw [Int.testBit_land, testBit_two_pow, decide_eq_true rfl, Bool.and_true]
  rw [← decide_eq_true_iff (p := n / 2 ^ k % 2 = 1), ← testBit_eq]
  constructor
  · intro some
    by_contra clear
    refine some (eq_of_testBit_eq fun i => ?_)
    rw [Int.testBit_land, testBit_two_pow]
    by_cases here : k = i
    · subst here
      rw [Bool.not_eq_true] at clear
      rw [clear]
      simp [testBit_eq]
    · simp [here, testBit_eq]
  · intro set zero
    rw [zero, set] at bit
    simp [testBit_eq] at bit

theorem clear_top (n : Int) (k : Nat) : (if Int.land n (2 ^ k) ≠ 0 then n - 2 ^ k else n) % 2 ^ (k + 1) < 2 ^ k := by
  have split := Int.mul_ediv_add_emod n (2 ^ k)
  have low := Int.emod_nonneg n (two_pow_pos k).ne'
  have high := Int.emod_lt_of_pos n (two_pow_pos k)
  have parity := Int.mul_ediv_add_emod (n / 2 ^ k) 2
  have small (m : Int) : (n % 2 ^ k + 2 ^ (k + 1) * m) % 2 ^ (k + 1) < 2 ^ k := by
    rw [Int.add_mul_emod_self_left, Int.emod_eq_of_lt low (by rw [pow_succ]; omega)]
    exact high
  split_ifs with set
  · rw [land_two_pow] at set
    have shape : n - 2 ^ k = n % 2 ^ k + 2 ^ (k + 1) * (n / 2 ^ k / 2) := by
      rw [set] at parity
      conv_lhs => rw [← split, ← parity]
      ring
    rw [shape]
    exact small _
  · rw [land_two_pow] at set
    have shape : n = n % 2 ^ k + 2 ^ (k + 1) * (n / 2 ^ k / 2) := by
      have even : n / 2 ^ k % 2 = 0 := by omega
      rw [even] at parity
      conv_lhs => rw [← split, ← parity]
      ring
    rw [shape]
    exact small _

end IntBits
