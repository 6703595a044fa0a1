import Mathlib

/-!
# Overlays

A chunk is a list of values from an address on. Of several chunks that are laid over each other the last one that
covers an address gives its value.
-/

namespace Overlay

variable {β : Type}

abbrev Chunk (β : Type) := Int × List β

def stop (chunk : Chunk β) : Int := chunk.1 + chunk.2.length

def valueAt (a : Int) (chunk : Chunk β) : Option β := if chunk.1 ≤ a then chunk.2[(a - chunk.1).toNat]? else none

def Covers (a : Int) (chunk : Chunk β) : Prop := chunk.1 ≤ a ∧ a < stop chunk

instance (a : Int) (chunk : Chunk β) : Decidable (Covers a chunk) :=
  inferInstanceAs (Decidable (chunk.1 ≤ a ∧ a < stop chunk))

def ByAddress (front back : Chunk β) : Prop := front.1 ≤ back.1

instance : DecidableRel (@ByAddress β) := fun front back => inferInstanceAs (Decidable (front.1 ≤ back.1))

instance : Std.Total (@ByAddress β) := ⟨fun front back => Int.le_total front.1 back.1⟩

instance : IsTrans (Chunk β) ByAddress := ⟨fun _ _ _ => Int.le_trans⟩

def sorted (chunks : List (Chunk β)) : List (Chunk β) := chunks.insertionSort ByAddress

def lookup (a : Int) : List (Chunk β) → Option β
  | [] => none
  | chunk :: chunks => (lookup a chunks).or (valueAt a chunk)

def lastCovering (a : Int) : List (Chunk β) → Option (Chunk β)
  | [] => none
  | chunk :: chunks => (lastCovering a chunks).or (if Covers a chunk then some chunk else none)

/-- The chunk that starts last of those that cover an address, and the last of these. -/
def topmost (a : Int) : List (Chunk β) → Option (Chunk β)
  | [] => none
  | chunk :: chunks =>
    match topmost a chunks with
    | none => if Covers a chunk then some chunk else none
    | some top => if Covers a chunk ∧ top.1 < chunk.1 then some chunk else some top

/-- `data[offset:offset + len(piece)] = piece` -/
def splice (data : List β) (offset : Nat) (piece : List β) : List β :=
  data.take offset ++ piece ++ data.drop (offset + piece.length)

/-- Each chunk ends before the next one starts, and not right before. -/
def Separated (chunks : List (Chunk β)) : Prop := chunks.Pairwise fun front back => stop front < back.1

/-! ### Values -/

theorem valueAt_isSome {a : Int} {chunk : Chunk β} : (valueAt a chunk).isSome ↔ Covers a chunk := by
  rw [valueAt, Covers, stop]
  split
  · rw [Option.isSome_iff_ne_none, Ne, List.getElem?_eq_none_iff]
    omega
  · rename_i before
    exact ⟨nofun, fun covers => absurd covers.1 before⟩

theorem valueAt_eq_none {a : Int} {chunk : Chunk β} : valueAt a chunk = none ↔ ¬Covers a chunk := by
  rw [← valueAt_isSome, Option.not_isSome_iff_eq_none]

theorem lookup_append (a : Int) (front back : List (Chunk β)) :
    lookup a (front ++ back) = (lookup a back).or (lookup a front) := by
  induction front with
  | nil => rw [List.nil_append, lookup, Option.or_none]
  | cons chunk front ih => rw [List.cons_append, lookup, ih, lookup, Option.or_assoc]

theorem lastCovering_mem {a : Int} {chunks : List (Chunk β)} {last : Chunk β}
    (covering : lastCovering a chunks = some last) : last ∈ chunks ∧ Covers a last := by
  induction chunks with
  | nil => cases covering
  | cons chunk chunks ih =>
    rw [lastCovering] at covering
    cases later : lastCovering a chunks with
    | some found =>
      rw [later, Option.some_or] at covering
      cases covering
      exact ⟨List.mem_cons_of_mem _ (ih later).1, (ih later).2⟩
    | none =>
      rw [later, Option.none_or] at covering
      split at covering
      · rename_i covers
        cases covering
        exact ⟨List.mem_cons_self, covers⟩
      · cases covering

theorem lookup_eq (a : Int) (chunks : List (Chunk β)) : lookup a chunks = (lastCovering a chunks).bind (valueAt a) := by
  induction chunks with
  | nil => rfl
  | cons chunk chunks ih =>
    rw [lookup, lastCovering, ih]
    cases later : lastCovering a chunks with
    | some last =>
      have present : (valueAt a last).isSome := valueAt_isSome.mpr (lastCovering_mem later).2
      rw [Option.some_or, Option.bind_some, Option.or_of_isSome present]
    | none =>
      rw [Option.none_or, Option.bind_none, Option.none_or]
      split
      · rfl
      · rename_i outside
        exact valueAt_eq_none.mpr outside

theorem lookup_isSome {a : Int} {chunks : List (Chunk β)} :
    (lookup a chunks).isSome ↔ ∃ chunk ∈ chunks, Covers a chunk := by
  induction chunks with
  | nil => exact ⟨nofun, fun ⟨_, member, _⟩ => nomatch member⟩
  | cons chunk chunks ih =>
    rw [lookup, Option.isSome_or, Bool.or_eq_true, ih, valueAt_isSome]
    constructor
    · rintro (⟨found, member, covers⟩ | covers)
      · exact ⟨found, List.mem_cons_of_mem _ member, covers⟩
      · exact ⟨chunk, List.mem_cons_self, covers⟩
    · rintro ⟨found, member, covers⟩
      rcases List.mem_cons.mp member with rfl | member
      · exact .inr covers
      · exact .inl ⟨found, member, covers⟩

theorem getElem?_splice {data piece : List β} {offset : Nat} (inside : offset + piece.length ≤ data.length) (k : Nat) :
    (splice data offset piece)[k]? = if offset ≤ k ∧ k < offset + piece.length then piece[k - offset]? else data[k]? := by
  have front : (data.take offset).length = offset := by
    rw [List.length_take]
    omega
  rw [splice, List.append_assoc]
  by_cases before : k < offset
  · rw [List.getElem?_append_left (by omega), List.getElem?_take_of_lt before, if_neg (by omega)]
  · rw [List.getElem?_append_right (by omega), front]
    by_cases within : k < offset + piece.length
    · rw [List.getElem?_append_left (by omega), if_pos (by omega)]
    · rw [List.getElem?_append_right (by omega), if_neg (by omega), List.getElem?_drop,
        show offset + piece.length + (k - offset - piece.length) = k by omega]

theorem length_splice {data piece : List β} {offset : Nat} (inside : offset + piece.length ≤ data.length) :
    (splice data offset piece).length = data.length := by
  rw [splice, List.length_append, List.length_append, List.length_take, List.length_drop]
  omega

/-! ### Order of address -/

theorem lastCovering_orderedInsert (a : Int) (chunk : Chunk β) {chunks : List (Chunk β)}
    (sorted : chunks.Pairwise ByAddress) :
    lastCovering a (chunks.orderedInsert ByAddress chunk) =
      match lastCovering a chunks with
      | none => if Covers a chunk then some chunk else none
      | some last => if Covers a chunk ∧ last.1 < chunk.1 then some chunk else some last := by
  induction chunks with
  | nil => rfl
  | cons head chunks ih =>
    obtain ⟨above, rest⟩ := List.pairwise_cons.mp sorted
    by_cases first : ByAddress chunk head
    · rw [List.orderedInsert_cons_of_le _ _ first, lastCovering]
      cases covering : lastCovering a (head :: chunks) with
      | none => rw [Option.none_or]
      | some last =>
        have behind : chunk.1 ≤ last.1 := by
          rcases List.mem_cons.mp (lastCovering_mem covering).1 with rfl | member
          · exact first
          · exact Int.le_trans first (above last member)
        rw [Option.some_or]
        dsimp only
        rw [if_neg (by omega)]
    · rw [List.orderedInsert_of_not_le _ _ first, lastCovering, ih rest, lastCovering]
      cases lastCovering a chunks with
      | some last =>
        rw [Option.some_or]
        dsimp only
        split <;> rfl
      | none =>
        rw [Option.none_or]
        dsimp only
        by_cases covers : Covers a chunk
        · rw [if_pos covers, Option.some_or]
          by_cases under : Covers a head
          · rw [if_pos under]
            dsimp only
            rw [if_pos ⟨covers, Int.lt_of_not_ge first⟩]
          · rw [if_neg under]
        · rw [if_neg covers, Option.none_or]
          by_cases under : Covers a head
          · rw [if_pos under]
            dsimp only
            rw [if_neg fun both => covers both.1]
          · rw [if_neg under]

theorem pairwise_sorted (chunks : List (Chunk β)) : (sorted chunks).Pairwise ByAddress :=
  List.pairwise_insertionSort ByAddress chunks

theorem lastCovering_sorted (a : Int) (chunks : List (Chunk β)) : lastCovering a (sorted chunks) = topmost a chunks := by
  induction chunks with
  | nil => rfl
  | cons chunk chunks ih =>
    have inserted := lastCovering_orderedInsert a chunk (pairwise_sorted chunks)
    rw [ih] at inserted
    exact inserted

theorem lookup_sorted (a : Int) (chunks : List (Chunk β)) :
    lookup a (sorted chunks) = (topmost a chunks).bind (valueAt a) := by
  rw [lookup_eq, lastCovering_sorted]

theorem lookup_sorted_isSome (a : Int) (chunks : List (Chunk β)) :
    (lookup a (sorted chunks)).isSome = (lookup a chunks).isSome := by
  rw [Bool.eq_iff_iff, lookup_isSome, lookup_isSome]
  constructor
  · rintro ⟨chunk, member, covers⟩
    exact ⟨chunk, (List.mem_insertionSort ByAddress).mp member, covers⟩
  · rintro ⟨chunk, member, covers⟩
    exact ⟨chunk, (List.mem_insertionSort ByAddress).mpr member, covers⟩

theorem sorted_separated {chunks : List (Chunk β)} (apart : Separated chunks) : sorted chunks = chunks := by
  apply List.Pairwise.insertionSort_eq
  refine apart.imp fun {front back} gap => ?_
  rw [stop] at gap
  rw [ByAddress]
  omega

theorem lookup_separated {chunks : List (Chunk β)} (apart : Separated chunks) {chunk : Chunk β}
    (member : chunk ∈ chunks) {a : Int} (covers : Covers a chunk) : lookup a chunks = valueAt a chunk := by
  induction chunks with
  | nil => cases member
  | cons head chunks ih =>
    obtain ⟨gap, rest⟩ := List.pairwise_cons.mp apart
    rw [lookup]
    rcases List.mem_cons.mp member with rfl | later
    · have nothing : lookup a chunks = none := by
        rw [← Option.not_isSome_iff_eq_none, lookup_isSome]
        rintro ⟨other, present, again⟩
        have before := gap other present
        rw [Covers] at covers again
        omega
      rw [nothing, Option.none_or]
    · have outside : ¬Covers a head := by
        intro both
        have before := gap chunk later
        rw [Covers] at covers both
        omega
      rw [valueAt_eq_none.mpr outside, Option.or_none, ih rest later]

end Overlay
