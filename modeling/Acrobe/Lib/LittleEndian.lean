import Mathlib

/-!
# Little-endian bytes

The value of a byte list, and the list of a given number of bytes that holds a value.
-/

namespace LittleEndian

abbrev Bytes := List UInt8

def combine : Bytes → Nat
  | [] => 0
  | byte :: bytes => byte.toNat + 256 * combine bytes

/-- The low `n` bytes of `value`. -/
def split (value : Nat) : Nat → Bytes
  | 0 => []
  | n + 1 => UInt8.ofNat value :: split (value / 256) n

@[simp] theorem length_split (value n : Nat) : (split value n).length = n := by
  induction n generalizing value with
  | zero => rfl
  | succ n ih => rw [split, List.length_cons, ih]

theorem combine_lt (bytes : Bytes) : combine bytes < 256 ^ bytes.length := by
  induction bytes with
  | nil => exact Nat.one_pos
  | cons byte bytes ih =>
    have bound : byte.toNat < 256 := byte.toNat_lt
    rw [combine, List.length_cons, Nat.pow_succ]
    omega

theorem combine_split (value n : Nat) : combine (split value n) = value % 256 ^ n := by
  induction n generalizing value with
  | zero => rw [Nat.pow_zero, Nat.mod_one]; rfl
  | succ n ih =>
    have byte : (UInt8.ofNat value).toNat = value % 256 := UInt8.toNat_ofNat'
    rw [split, combine, ih, byte, Nat.pow_succ', Nat.mod_mul]

theorem split_combine (bytes : Bytes) : split (combine bytes) bytes.length = bytes := by
  induction bytes with
  | nil => rfl
  | cons byte bytes ih =>
    have bound : byte.toNat < 256 := byte.toNat_lt
    have low : UInt8.ofNat (byte.toNat + 256 * combine bytes) = byte := by
      apply UInt8.toNat_inj.mp
      rw [UInt8.toNat_ofNat']
      omega
    have high : (byte.toNat + 256 * combine bytes) / 256 = combine bytes := by omega
    rw [List.length_cons, combine, split, low, high, ih]

theorem split_add (value m n : Nat) : split value (m + n) = split value m ++ split (value / 256 ^ m) n := by
  induction m generalizing value with
  | zero => rw [Nat.zero_add, Nat.pow_zero, Nat.div_one]; rfl
  | succ m ih =>
    rw [show m + 1 + n = (m + n) + 1 by omega, split, split, ih, Nat.div_div_eq_div_mul,
      Nat.pow_succ', List.cons_append]

theorem split_mod (value n : Nat) : split (value % 256 ^ n) n = split value n := by
  rw [← combine_split]
  have roundTrip := split_combine (split value n)
  rwa [length_split] at roundTrip

theorem split_congr {value other n : Nat} (same : value % 256 ^ n = other % 256 ^ n) :
    split value n = split other n := by
  rw [← split_mod value, same, split_mod]

theorem combine_append (front back : Bytes) :
    combine (front ++ back) = combine front + 256 ^ front.length * combine back := by
  induction front with
  | nil => rw [List.nil_append, combine, List.length_nil, Nat.pow_zero, Nat.one_mul, Nat.zero_add]
  | cons byte front ih =>
    rw [List.cons_append, combine, combine, ih, List.length_cons, Nat.pow_succ', Nat.mul_assoc]
    omega

theorem combine_replicate_zero (n : Nat) : combine (List.replicate n 0) = 0 := by
  induction n with
  | zero => rfl
  | succ n ih => rw [List.replicate_succ, combine, ih]; rfl

theorem combine_drop_take (value n low high : Nat) (inside : high ≤ n) (ordered : low ≤ high) :
    combine (((split value n).take high).drop low) = value / 256 ^ low % 256 ^ (high - low) := by
  have whole : split value n = split value low ++ (split (value / 256 ^ low) (high - low) ++
      split (value / 256 ^ low / 256 ^ (high - low)) (n - high)) := by
    rw [← split_add, ← split_add]
    congr 1
    omega
  rw [whole, ← List.append_assoc, List.take_left' (by simp; omega), List.drop_left' (by simp),
    combine_split]

theorem getElem_split (value n i : Nat) (inside : i < n) :
    (split value n)[i]? = some (UInt8.ofNat (value / 256 ^ i)) := by
  rw [show n = i + (n - i - 1 + 1) by omega, split_add, List.getElem?_append_right (by simp),
    length_split, Nat.sub_self, split]
  rfl

end LittleEndian
