import Mathlib

/-!
# Ring buffers

Cyclic cells hold a window of a stream. A position counts the elements of the stream, and its slot is the
offset of its cell.
-/

namespace Ring

variable {α : Type} {size base : Nat}

def slot (size base position : Nat) : Nat := (base + position) % size

def set (cells : Nat → α) (offset : Nat) (value : α) : Nat → α := fun k => if k = offset then value else cells k

def distance (size back front : Nat) : Nat := (front + size - back) % size

def contents (cells : Nat → α) (size offset n : Nat) : List α := (List.range n).map fun k => cells ((offset + k) % size)

/-- The offsets from one to another, in at most two spans. -/
def spans (size back front : Nat) : List Nat :=
  if back < front then List.range' back (front - back)
  else List.range' back (size - back) ++ List.range' 0 front

/-! ### Slots -/

theorem slot_lt (positive : 0 < size) (position : Nat) : slot size base position < size := Nat.mod_lt _ positive

theorem slot_add (position n : Nat) : (slot size base position + n) % size = slot size base (position + n) := by
  rw [slot, slot, Nat.mod_add_mod, Nat.add_assoc]

theorem slot_cases {i j : Nat} (ordered : i ≤ j) (round : j < i + size) :
    (slot size base i + (j - i) < size ∧ slot size base j = slot size base i + (j - i)) ∨
      (size ≤ slot size base i + (j - i) ∧ slot size base j + size = slot size base i + (j - i)) := by
  have positive : 0 < size := by omega
  have small := @slot_lt size base positive i
  have moved : slot size base j = (slot size base i + (j - i)) % size := by
    rw [slot_add, Nat.add_sub_cancel' ordered]
  rw [moved]
  by_cases within : slot size base i + (j - i) < size
  · exact .inl ⟨within, Nat.mod_eq_of_lt within⟩
  · refine .inr ⟨by omega, ?_⟩
    rw [Nat.mod_eq_sub_mod (by omega), Nat.mod_eq_of_lt (by omega)]
    omega

theorem slot_inj {i j : Nat} (ordered : i ≤ j) (round : j < i + size) (same : slot size base i = slot size base j) :
    i = j := by
  rcases @slot_cases size base i j ordered round with ⟨-, moved⟩ | ⟨-, moved⟩ <;> omega

theorem distance_slot {i j : Nat} (ordered : i ≤ j) (round : j < i + size) :
    distance size (slot size base i) (slot size base j) = j - i := by
  have small := @slot_lt size base (show 0 < size by omega) i
  rw [distance]
  rcases @slot_cases size base i j ordered round with ⟨-, moved⟩ | ⟨-, moved⟩
  · rw [moved, show slot size base i + (j - i) + size - slot size base i = (j - i) + size by omega, Nat.add_mod_right,
      Nat.mod_eq_of_lt (by omega)]
  · rw [show slot size base j + size - slot size base i = j - i by omega, Nat.mod_eq_of_lt (by omega)]

theorem range'_slots {i : Nat} (n : Nat) (within : slot size base i + n ≤ size) :
    List.range' (slot size base i) n = (List.range n).map fun k => slot size base (i + k) := by
  rw [List.range'_eq_map_range]
  refine List.map_congr_left fun k member => ?_
  have below := List.mem_range.mp member
  rw [← slot_add, Nat.mod_eq_of_lt (by omega)]

theorem spans_slots {i j : Nat} (ordered : i < j) (round : j < i + size) :
    spans size (slot size base i) (slot size base j) = (List.range (j - i)).map fun k => slot size base (i + k) := by
  have small := @slot_lt size base (show 0 < size by omega) i
  rw [spans]
  rcases @slot_cases size base i j (Nat.le_of_lt ordered) round with ⟨within, moved⟩ | ⟨beyond, moved⟩
  · rw [if_pos (by omega), show slot size base j - slot size base i = j - i by omega]
    exact range'_slots (j - i) (Nat.le_of_lt within)
  · rw [if_neg (by omega), range'_slots (size - slot size base i) (by omega)]
    have wrapped : slot size base (i + (size - slot size base i)) = 0 := by
      rw [← slot_add, Nat.add_sub_cancel' (Nat.le_of_lt small), Nat.mod_self]
    have second := @range'_slots size base (i + (size - slot size base i)) (slot size base j) (by
      rw [wrapped]
      have bound := @slot_lt size base (show 0 < size by omega) j
      omega)
    rw [wrapped] at second
    rw [second, show j - i = (size - slot size base i) + slot size base j by omega, List.range_add, List.map_append,
      List.map_map]
    congr 1
    refine List.map_congr_left fun k _ => ?_
    rw [Function.comp_apply, Nat.add_assoc]

theorem free_slots {i j : Nat} (ordered : i ≤ j) (round : j < i + size) :
    (if slot size base j < slot size base i then slot size base i - slot size base j - 1
      else size - slot size base j + slot size base i - 1) = size - 1 - (j - i) := by
  have front := @slot_lt size base (show 0 < size by omega) j
  rcases @slot_cases size base i j ordered round with ⟨-, moved⟩ | ⟨-, moved⟩
  · rw [if_neg (by omega)]
    omega
  · rw [if_pos (by omega)]
    omega

/-! ### The window -/

/-- The cells hold the stream from a position on, and are never all in use. -/
structure Holds (size base : Nat) (cells : Nat → α) (stream : List α) (tail : Nat) : Prop where
  behind : tail ≤ stream.length
  room : stream.length < tail + size
  cell : ∀ i x, tail ≤ i → stream[i]? = some x → cells (slot size base i) = x

theorem Holds.push {cells : Nat → α} {stream : List α} {tail : Nat} (holds : Holds size base cells stream tail) (x : α)
    (free : stream.length + 1 < tail + size) :
    Holds size base (set cells (slot size base stream.length) x) (stream ++ [x]) tail where
  behind := by
    rw [List.length_append]
    exact Nat.le_add_right_of_le holds.behind
  room := by
    rw [List.length_append]
    exact free
  cell := by
    intro i y behind here
    by_cases old : i < stream.length
    · rw [List.getElem?_append_left old] at here
      rw [set, if_neg, holds.cell i y behind here]
      intro same
      exact absurd (slot_inj (Nat.le_of_lt old) (by omega) same) (Nat.ne_of_lt old)
    · rw [List.getElem?_append_right (by omega)] at here
      obtain ⟨place, same⟩ := List.getElem?_eq_some_iff.mp here
      rw [List.length_singleton] at place
      have last : i = stream.length := by omega
      subst last
      rw [set, if_pos rfl, ← same]
      simp

theorem Holds.advance {cells : Nat → α} {stream : List α} {tail next : Nat} (holds : Holds size base cells stream tail)
    (forward : tail ≤ next) (inside : next ≤ stream.length) : Holds size base cells stream next where
  behind := inside
  room := by
    have room := holds.room
    omega
  cell := fun i x behind => holds.cell i x (Nat.le_trans forward behind)

theorem Holds.contents {cells : Nat → α} {stream : List α} {tail i n : Nat} (holds : Holds size base cells stream tail)
    (behind : tail ≤ i) (inside : i + n ≤ stream.length) :
    contents cells size (slot size base i) n = (stream.drop i).take n := by
  apply List.ext_getElem?
  intro k
  rw [Ring.contents, List.getElem?_map, List.getElem?_take]
  by_cases below : k < n
  · obtain ⟨x, here⟩ : ∃ x, stream[i + k]? = some x := ⟨_, List.getElem?_eq_getElem (by omega)⟩
    rw [List.getElem?_range below, if_pos below, List.getElem?_drop, here, Option.map_some, slot_add,
      holds.cell (i + k) x (by omega) here]
  · rw [List.getElem?_eq_none (by rw [List.length_range]; omega), if_neg below]
    rfl

end Ring
