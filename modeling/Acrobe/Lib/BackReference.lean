import Mathlib

/-!
# Back-references

A back-reference repeats the end of what was written so far. Written one element at a time it may
read what it has just written; copied as one block into a buffer filled in advance it reads the
filling instead.
-/

namespace Acrobe.Lib

namespace BackReference
variable {α : Type*}

/-- One element at a time: `out[pos] = out[pos - offset]`. -/
def run (fill : α) (offset : Nat) (out : List α) : Nat → List α
  | 0 => out
  | count + 1 =>
    let soFar := run fill offset out count
    soFar ++ [soFar.getD (soFar.length - offset) fill]

/-- One block, out of a buffer that holds the filling behind what was written. -/
def block (fill : α) (offset : Nat) (out : List α) (count : Nat) : List α :=
  out ++ (out.drop (out.length - offset) ++ List.replicate count fill).take count

variable {fill : α} {offset : Nat} {out : List α}

@[simp] theorem length_run (count : Nat) : (run fill offset out count).length = out.length + count := by
  induction count with
  | zero => rfl
  | succ count ih =>
    rw [run, List.length_append, ih]
    rfl

@[simp] theorem length_block (count : Nat) : (block fill offset out count).length = out.length + count := by
  rw [block, List.length_append, List.length_take, List.length_append, List.length_replicate]
  omega

theorem run_extends (count : Nat) : out <+: run fill offset out count := by
  induction count with
  | zero => exact List.prefix_rfl
  | succ count ih => exact ih.trans (List.prefix_append _ _)

theorem block_extends (count : Nat) : out <+: block fill offset out count := List.prefix_append _ _

theorem block_succ (inside : offset ≤ out.length) (count : Nat) :
    block fill offset out (count + 1) = block fill offset out count ++
      [if count < offset then out.getD (out.length - offset + count) fill else fill] := by
  have source : (out.drop (out.length - offset)).length = offset := by
    rw [List.length_drop]
    omega
  unfold block
  rw [List.append_assoc, List.append_cancel_left_eq]
  split
  · rename_i early
    rw [List.take_append_of_le_length (by omega), List.take_append_of_le_length (by omega),
      List.take_add_one, List.getElem?_drop, List.getD_eq_getElem?_getD,
      List.getElem?_eq_getElem (show out.length - offset + count < out.length by omega)]
    rfl
  · rename_i late
    have filled (n : Nat) (enough : offset ≤ n) :
        (out.drop (out.length - offset) ++ List.replicate n fill).take n =
          out.drop (out.length - offset) ++ List.replicate (n - offset) fill := by
      rw [List.take_append, List.take_of_length_le (by omega), source, List.take_replicate,
        Nat.min_eq_left (by omega)]
    rw [filled (count + 1) (by omega), filled count (by omega), List.append_assoc,
      show count + 1 - offset = count - offset + 1 by omega, List.replicate_succ']

theorem getD_of_extends {front whole : List α} (below : front <+: whole) {i : Nat} (early : i < front.length) :
    whole.getD i fill = front.getD i fill := by
  obtain ⟨rest, rfl⟩ := below
  exact List.getD_append front rest fill i early

theorem getD_block {count k : Nat} (inside : offset ≤ out.length) (early : k < count) :
    (block fill offset out count).getD (out.length + k) fill =
      if k < offset then out.getD (out.length - offset + k) fill else fill := by
  induction count with
  | zero => omega
  | succ count ih =>
    rw [block_succ inside]
    by_cases last : k = count
    · subst last
      rw [List.getD_append_right _ _ _ _ (Nat.le_of_eq (by rw [length_block])), length_block, Nat.sub_self]
      rfl
    · rw [List.getD_append _ _ _ _ (by rw [length_block]; omega)]
      exact ih (by omega)

theorem getD_run {count k : Nat} (inside : offset ≤ out.length) (positive : 0 < offset) (early : k < count) :
    (run fill offset out count).getD (out.length + k) fill =
      (run fill offset out count).getD (out.length + k - offset) fill := by
  induction count with
  | zero => omega
  | succ count ih =>
    have before : (run fill offset out (count + 1)).getD (out.length + k - offset) fill =
        (run fill offset out count).getD (out.length + k - offset) fill :=
      List.getD_append _ _ _ _ (by rw [length_run]; omega)
    rw [before]
    by_cases last : k = count
    · subst last
      rw [run, List.getD_append_right _ _ _ _ (Nat.le_of_eq (by rw [length_run])), length_run, Nat.sub_self]
      rfl
    · rw [run, List.getD_append _ _ _ _ (by rw [length_run]; omega)]
      exact ih (by omega)

/-- What a back-reference reads of its own output. -/
def Repeats (fill : α) (offset : Nat) (out : List α) (count : Nat) : Prop :=
  ∀ k, k < offset → offset + k < count → out.getD (out.length - offset + k) fill = fill

/-- The two ways agree exactly when nothing but the filling is read back. -/
theorem run_eq_block_iff (inside : offset ≤ out.length) (positive : 0 < offset) (count : Nat) :
    run fill offset out count = block fill offset out count ↔ Repeats fill offset out count := by
  constructor
  · intro same k early late
    have copied : (block fill offset out count).getD (out.length + (offset + k)) fill = fill := by
      rw [getD_block inside late, if_neg (by omega)]
    have first : (block fill offset out count).getD (out.length + k) fill =
        out.getD (out.length - offset + k) fill := by
      rw [getD_block inside (by omega), if_pos early]
    have again : (run fill offset out count).getD (out.length + (offset + k)) fill =
        (run fill offset out count).getD (out.length + k) fill := by
      rw [getD_run inside positive late]
      congr 1
      omega
    rw [same, copied, first] at again
    exact again.symm
  · intro repeats
    induction count with
    | zero => simp [run, block]
    | succ count ih =>
      have soFar := ih fun k early late => repeats k early (by omega)
      rw [run, soFar, block_succ inside, List.append_cancel_left_eq, length_block]
      congr 1
      split
      · rename_i early
        rw [getD_of_extends (block_extends count) (by omega)]
        congr 1
        omega
      · rename_i late
        rw [show out.length + count - offset = out.length + (count - offset) by omega,
          getD_block inside (by omega)]
        split
        · rename_i early
          exact repeats (count - offset) early (by omega)
        · rfl

end BackReference
end Acrobe.Lib
