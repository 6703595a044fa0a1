import Mathlib

/-!
# Gray code

A number is encoded by exclusive or with its half, and decoded by exclusive or with all its halves.
-/

namespace GrayCode

def encode (n : Nat) : Nat := n ^^^ n >>> 1

/-- `value` and the mask and all halves of the mask. -/
def decodeFrom (value mask : Nat) : Nat :=
  if mask = 0 then value else decodeFrom (value ^^^ mask) (mask >>> 1)
termination_by mask
decreasing_by omega

def decode (n : Nat) : Nat := decodeFrom n (n >>> 1)

theorem decodeFrom_zero (value : Nat) : decodeFrom value 0 = value := by
  rw [decodeFrom, if_pos rfl]

theorem decodeFrom_xor (value mask : Nat) : decodeFrom value mask = value ^^^ decode mask := by
  induction mask using Nat.strongRecOn generalizing value with
  | ind mask ih =>
    rw [decodeFrom, decode]
    split_ifs with zero
    · rw [zero, Nat.zero_shiftRight, decodeFrom_zero, Nat.xor_zero]
    · rw [ih (mask >>> 1) (by omega), ih (mask >>> 1) (by omega), Nat.xor_assoc]

theorem decode_eq (n : Nat) : decode n = n ^^^ decode (n >>> 1) := decodeFrom_xor n (n >>> 1)

theorem decode_zero : decode 0 = 0 := decodeFrom_zero 0

theorem decode_shiftRight (n : Nat) : decode n >>> 1 = decode (n >>> 1) := by
  induction n using Nat.strongRecOn with
  | ind n ih =>
    by_cases zero : n = 0
    · subst zero
      rw [decode_zero, Nat.zero_shiftRight, decode_zero]
    · rw [decode_eq n, Nat.shiftRight_xor_distrib, ih (n >>> 1) (by omega), ← decode_eq]

theorem encode_decode (n : Nat) : encode (decode n) = n := by
  rw [encode, decode_shiftRight, decode_eq n, Nat.xor_assoc, Nat.xor_self, Nat.xor_zero]

end GrayCode
