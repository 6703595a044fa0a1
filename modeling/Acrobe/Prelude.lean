import Mathlib

/-!
# Bit strings and exceptions

Bit strings are lists of bits, least significant (first on the wire) first.
-/

namespace Acrobe

abbrev BitString := List Bool

namespace BitString

/-- `BitString(value, length)`: the low `length` bits of `value`. -/
def ofNat (value : Nat) : Nat → BitString
  | 0 => []
  | n + 1 => (value % 2 == 1) :: ofNat (value / 2) n

/-- `BitString(-1, length)`. -/
def ones (length : Nat) : BitString := List.replicate length true

def zeros (length : Nat) : BitString := List.replicate length false

def toNat : BitString → Nat
  | [] => 0
  | bit :: bits => bit.toNat + 2 * toNat bits

/-- `bits[start:stop]` for non-negative bounds. -/
def slice (bits : BitString) (start stop : Nat) : BitString := (bits.take stop).drop start

@[simp] theorem length_ofNat (value n : Nat) : (ofNat value n).length = n := by
  induction n generalizing value with
  | zero => rfl
  | succ n ih => rw [ofNat, List.length_cons, ih]

theorem ofNat_toNat (bits : BitString) : ofNat (toNat bits) bits.length = bits := by
  induction bits with
  | nil => rfl
  | cons bit bits ih =>
    have low : (bit.toNat + 2 * toNat bits) % 2 = bit.toNat := by cases bit <;> simp
    have high : (bit.toNat + 2 * toNat bits) / 2 = toNat bits := by cases bit <;> simp; omega
    rw [List.length_cons, ofNat, toNat, low, high, ih]
    cases bit <;> rfl

theorem toNat_lt (bits : BitString) : toNat bits < 2 ^ bits.length := by
  induction bits with
  | nil => exact Nat.one_pos
  | cons bit bits ih =>
    rw [toNat, List.length_cons, Nat.pow_succ]
    cases bit <;> simp <;> omega

theorem toNat_ofNat (value n : Nat) : toNat (ofNat value n) = value % 2 ^ n := by
  induction n generalizing value with
  | zero => rw [Nat.pow_zero, Nat.mod_one]; rfl
  | succ n ih =>
    have low : (value % 2 == 1).toNat = value % 2 := by
      rcases Nat.mod_two_eq_zero_or_one value with h | h <;> rw [h] <;> rfl
    rw [ofNat, toNat, ih, low, Nat.pow_succ, Nat.mul_comm _ 2, Nat.mod_mul]

theorem toNat_ones (n : Nat) : toNat (ones n) = 2 ^ n - 1 := by
  induction n with
  | zero => rfl
  | succ n ih =>
    have pos : 0 < 2 ^ n := Nat.two_pow_pos n
    rw [ones, List.replicate_succ, toNat, ← ones, ih, Nat.pow_succ]
    simp only [Bool.toNat_true]
    omega

theorem toNat_append (xs ys : BitString) : toNat (xs ++ ys) = toNat xs + 2 ^ xs.length * toNat ys := by
  induction xs with
  | nil => simp [toNat]
  | cons bit xs ih =>
    rw [List.cons_append, toNat, toNat, ih, List.length_cons, Nat.pow_succ, Nat.mul_comm _ 2, Nat.mul_assoc]
    omega

theorem toNat_zeros (n : Nat) : toNat (zeros n) = 0 := by
  induction n with
  | zero => rfl
  | succ n ih =>
    rw [zeros, List.replicate_succ, toNat, ← zeros, ih]
    rfl

@[simp] theorem length_zeros (n : Nat) : (zeros n).length = n := List.length_replicate

@[simp] theorem length_ones (n : Nat) : (ones n).length = n := List.length_replicate

theorem take_drop_ones {before n length : Nat} (rest : BitString) (inside : before + length ≤ n) :
    ((ones n ++ rest).drop before).take length = ones length := by
  have split : ones n = ones before ++ (ones length ++ ones (n - before - length)) := by
    rw [ones, ones, ones, ones, ← List.replicate_add, ← List.replicate_add]
    congr 1
    omega
  rw [split, List.append_assoc, List.drop_left' (length_ones before), List.append_assoc,
    List.take_left' (length_ones length)]

end BitString

inductive PyErr where
  | valueError (message : String)
  | runtimeError (message : String)
  | typeError (message : String)
  | keyError
  | assertionError
  | invalidStateError
  | openChain (detail : String)
  | refreshAmbiguity (message : String)
  deriving DecidableEq

end Acrobe
