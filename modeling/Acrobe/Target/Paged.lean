import Mathlib
import Acrobe.Target.Region

/-!
# Pages of a memory map

`paged` pads every chunk of the simplified map to pages of its own. Two chunks may so bring the same page.
-/

namespace Acrobe.Target
open LittleEndian Overlay

namespace MemoryMap

/-- `paged`, or `none` where it raises a `ZeroDivisionError`: for every chunk it divides by the length of the fill. -/
def pagedChecked (self : MemoryMap) (pageSize : Nat) (fill : Bytes) : Option MemoryMap :=
  if fill = [] ∧ self.simplified.chunks ≠ [] then none else some (self.paged pageSize fill)

def Disjoint (front back : Chunk UInt8) : Prop := ∀ a, ¬(Covers a front ∧ Covers a back)

/-- Aligned chunks of whole pages, apart from each other, on the pages of the map, with its bytes and the fill. -/
structure PagesOnce (image : MemoryMap) (pageSize : Nat) (fill : Bytes) (out : MemoryMap) : Prop where
  aligned : ∀ chunk ∈ out.chunks, (pageSize : Int) ∣ chunk.1 ∧ pageSize ∣ chunk.2.length
  disjoint : out.chunks.Pairwise Disjoint
  covered : ∀ a, (∃ chunk ∈ out.chunks, Covers a chunk) ↔
    ∃ b, b / (pageSize : Int) = a / pageSize ∧ ∃ chunk ∈ image.chunks, Covers b chunk
  content : ∀ chunk ∈ out.chunks, ∀ a, Covers a chunk →
    valueAt a chunk = (lookup a image.simplified.chunks).or fill[(a - chunk.1).toNat % fill.length]?

/-- The chunks of the simplified map lie on pages of their own, and empty ones at the start of a page. -/
def OwnPages (self : MemoryMap) (pageSize : Nat) : Prop :=
  (self.simplified.chunks.Pairwise fun front back =>
      (Overlay.stop front - 1) / (pageSize : Int) < back.1 / pageSize) ∧
    ∀ chunk ∈ self.simplified.chunks, chunk.2 = [] → (pageSize : Int) ∣ chunk.1

/-! ### Pages of the map -/

variable {pageSize : Nat}

theorem merge_ne_nil {out rest : List (Chunk UInt8)} {curAddr : Int} {curData : Bytes} :
    merge out curAddr curData rest ≠ [] := by
  induction rest generalizing out curAddr curData with
  | nil => simp [merge]
  | cons chunk rest ih =>
    rw [merge]
    dsimp only
    split
    · exact ih
    · exact ih

theorem simplified_eq_nil {self : MemoryMap} : self.simplified.chunks = [] ↔ self.chunks = [] := by
  have length := List.length_insertionSort ByAddress self.chunks
  rw [simplified]
  split
  · rename_i nothing
    rw [sorted] at nothing
    rw [nothing] at length
    exact iff_of_true rfl (List.length_eq_zero_iff.mp length.symm)
  · rename_i curAddr cur rest some_
    rw [sorted] at some_
    refine iff_of_false merge_ne_nil fun nothing => ?_
    rw [some_, nothing] at length
    cases length

theorem covers_simplified {self : MemoryMap} {b : Int} :
    (∃ chunk ∈ self.simplified.chunks, Covers b chunk) ↔ ∃ chunk ∈ self.chunks, Covers b chunk := by
  rw [← lookup_isSome, ← lookup_isSome, lookup_simplified, lookup_sorted_isSome]

theorem covers_ediv {chunk : Chunk UInt8} {b : Int} (positive : 0 < pageSize) (covers : Covers b chunk) :
    chunk.1 / pageSize ≤ b / pageSize ∧ b / pageSize ≤ (Overlay.stop chunk - 1) / pageSize := by
  have size : (0 : Int) < pageSize := by omega
  rw [Covers] at covers
  exact ⟨Int.ediv_le_ediv size covers.1, Int.ediv_le_ediv size (by omega)⟩

theorem aligned_ediv {a : Int} (positive : 0 < pageSize) (aligned : (pageSize : Int) ∣ a) :
    (a - 1) / pageSize < a / pageSize := by
  have size : (0 : Int) < pageSize := by omega
  rw [Int.ediv_lt_iff_lt_mul size, Int.ediv_mul_cancel aligned]
  omega

theorem ediv_sub_one {a : Int} (positive : 0 < pageSize) (off : ¬(pageSize : Int) ∣ a) :
    (a - 1) / pageSize = a / pageSize := by
  have whole := Int.mul_ediv_add_emod a pageSize
  have rest := Int.emod_nonneg a (show (pageSize : Int) ≠ 0 by omega)
  have below := Int.emod_lt_of_pos a (show (0 : Int) < pageSize by omega)
  have some_ : a % (pageSize : Int) ≠ 0 := fun zero => off (Int.dvd_of_emod_eq_zero zero)
  rw [Int.ediv_eq_iff_of_pos (by omega), Int.mul_comm (a / (pageSize : Int))]
  omega

theorem merge_separated {out rest : List (Chunk UInt8)} {curAddr : Int} {curData : Bytes}
    (apart : Separated ((curAddr, curData) :: rest)) :
    merge out curAddr curData rest = out ++ (curAddr, curData) :: rest := by
  induction rest generalizing out curAddr curData with
  | nil => rfl
  | cons chunk rest ih =>
    obtain ⟨gap, later⟩ := List.pairwise_cons.mp apart
    have behind := gap chunk List.mem_cons_self
    rw [Overlay.stop] at behind
    rw [merge]
    dsimp only at behind ⊢
    rw [if_neg (by omega), ih later, List.append_assoc]
    rfl

theorem simplified_separated {self : MemoryMap} (apart : Separated self.chunks) : self.simplified = self := by
  obtain ⟨chunks⟩ := self
  rw [simplified]
  dsimp only
  rw [sorted_separated apart]
  cases chunks with
  | nil => rfl
  | cons chunk rest => exact congrArg MemoryMap.mk (merge_separated apart)

theorem byte_in_page (positive : 0 < pageSize) {chunk : Chunk UInt8} (some_ : chunk.2 ≠ []) {a : Int}
    (between : chunk.1 / pageSize ≤ a / pageSize ∧ a / pageSize ≤ (Overlay.stop chunk - 1) / pageSize) :
    ∃ b, b / (pageSize : Int) = a / pageSize ∧ Covers b chunk := by
  have size : (0 : Int) < pageSize := by omega
  have length : 0 < chunk.2.length := List.length_pos_iff.mpr some_
  by_cases first : chunk.1 / (pageSize : Int) = a / pageSize
  · exact ⟨chunk.1, first, Int.le_refl _, by rw [Overlay.stop]; omega⟩
  · have low : chunk.1 < a / pageSize * pageSize := by
      rw [← Int.ediv_lt_iff_lt_mul size]
      omega
    have high : a / pageSize * pageSize ≤ Overlay.stop chunk - 1 := by
      rw [← Int.le_ediv_iff_mul_le size]
      exact between.2
    exact ⟨a / pageSize * pageSize, Int.mul_ediv_cancel _ (by omega), by omega, by omega⟩

section
variable {self : MemoryMap} {fill : Bytes} (positive : 0 < pageSize)
include positive

theorem disjoint_of_ownPages (some_ : fill ≠ []) (own : self.OwnPages pageSize) :
    (self.paged pageSize fill).chunks.Pairwise Disjoint := by
  rw [paged, List.pairwise_map]
  refine own.1.imp fun {front back} apart a both => ?_
  rw [covers_page positive some_, covers_page positive some_] at both
  omega

theorem eq_of_page (some_ : fill ≠ []) (disjoint : (self.paged pageSize fill).chunks.Pairwise Disjoint)
    {chunk other : Chunk UInt8} (member : chunk ∈ self.simplified.chunks) (present : other ∈ self.simplified.chunks)
    {a : Int} (covers : Covers a (page pageSize fill chunk)) (again : Covers a other) : chunk = other := by
  by_contra different
  rw [paged, List.pairwise_map] at disjoint
  have symmetric : Std.Symm fun front back => Disjoint (page pageSize fill front) (page pageSize fill back) :=
    ⟨fun front back apart a both => apart a both.symm⟩
  refine disjoint.forall member present different a ⟨covers, ?_⟩
  rw [covers_page positive some_]
  exact covers_ediv positive again

theorem pagesOnce_of_ownPages (some_ : fill ≠ []) (own : self.OwnPages pageSize) :
    self.PagesOnce pageSize fill (self.paged pageSize fill) := by
  have disjoint := disjoint_of_ownPages positive some_ own
  refine ⟨fun chunk member => ?_, disjoint, fun a => ⟨?_, ?_⟩, fun chunk member a covers => ?_⟩
  · obtain ⟨source, -, rfl⟩ := List.mem_map.mp member
    have bounds := page_bounds positive source
    refine ⟨Int.dvd_mul_left _ _, ?_⟩
    rw [page_eq, length_splice (page_room positive some_ source), length_pageFill _ some_, ← Int.natCast_dvd_natCast,
      Int.toNat_of_nonneg (by omega)]
    exact Int.dvd_sub (Int.dvd_mul_left _ _) (Int.dvd_mul_left _ _)
  · rintro ⟨chunk, member, covers⟩
    obtain ⟨source, present, rfl⟩ := List.mem_map.mp member
    rw [covers_page positive some_] at covers
    have full : source.2 ≠ [] := by
      intro empty
      have before := aligned_ediv positive (own.2 source present empty)
      rw [Overlay.stop, empty, List.length_nil] at covers
      simp only [Int.natCast_zero, Int.add_zero] at covers
      omega
    obtain ⟨b, same, here⟩ := byte_in_page positive full covers
    exact ⟨b, same, covers_simplified.mp ⟨source, present, here⟩⟩
  · rintro ⟨b, same, covered⟩
    obtain ⟨source, present, here⟩ := covers_simplified.mpr covered
    refine ⟨page pageSize fill source, List.mem_map_of_mem present, ?_⟩
    rw [covers_page positive some_, ← same]
    exact covers_ediv positive here
  · obtain ⟨source, present, rfl⟩ := List.mem_map.mp member
    by_cases own : Covers a source
    · rw [valueAt_page_own positive some_ own, lookup_separated self.separated_simplified present own,
        Option.or_of_isSome (valueAt_isSome.mpr own)]
    · have nothing : lookup a self.simplified.chunks = none := by
        rw [← Option.not_isSome_iff_eq_none, lookup_isSome]
        rintro ⟨other, elsewhere, again⟩
        rw [eq_of_page positive some_ disjoint present elsewhere covers again] at own
        exact own again
      rw [valueAt_page_fill positive some_ covers own, nothing, Option.none_or]

theorem ownPages_of_pagesOnce (some_ : fill ≠ [])
    (once : self.PagesOnce pageSize fill (self.paged pageSize fill)) : self.OwnPages pageSize := by
  have aligned : ∀ chunk ∈ self.simplified.chunks, chunk.2 = [] → (pageSize : Int) ∣ chunk.1 := by
    intro chunk member empty
    by_contra inside
    -- the page of an empty chunk off the start of a page
    have stop : Overlay.stop chunk = chunk.1 := by rw [Overlay.stop, empty]; exact Int.add_zero _
    have same := ediv_sub_one positive inside
    have covers : ∀ b : Int, b / pageSize = chunk.1 / pageSize → Covers b (page pageSize fill chunk) := by
      intro b here
      rw [covers_page positive some_, stop, same, here]
      exact ⟨Int.le_refl _, Int.le_refl _⟩
    obtain ⟨b, here, covered⟩ := (once.covered chunk.1).mp ⟨_, List.mem_map_of_mem member, covers _ rfl⟩
    obtain ⟨other, present, again⟩ := covers_simplified.mpr covered
    rw [← eq_of_page positive some_ once.disjoint member present (covers b here) again, Covers, stop] at again
    omega
  refine ⟨?_, aligned⟩
  have disjoint := once.disjoint
  rw [paged, List.pairwise_map] at disjoint
  have both := disjoint.and self.separated_simplified
  rw [List.pairwise_iff_forall_sublist] at both ⊢
  intro front back pair
  obtain ⟨apart, gap⟩ := both pair
  have present : back ∈ self.simplified.chunks := pair.subset (by simp)
  have size : (0 : Int) < pageSize := by omega
  by_contra shared
  by_cases empty : back.2 = []
  · have before := aligned_ediv positive (aligned back present empty)
    have order : (Overlay.stop front - 1) / (pageSize : Int) ≤ (back.1 - 1) / pageSize :=
      Int.ediv_le_ediv size (by omega)
    omega
  · have length : 0 < back.2.length := List.length_pos_iff.mpr empty
    refine apart back.1 ⟨?_, ?_⟩
    · rw [covers_page positive some_]
      rw [Overlay.stop] at gap
      exact ⟨Int.ediv_le_ediv size (by omega), Int.not_lt.mp shared⟩
    · rw [covers_page positive some_, Overlay.stop]
      exact ⟨Int.le_refl _, Int.ediv_le_ediv size (by omega)⟩

end

/-- The pages come out once just where no two chunks share one, and there is a fill. -/
theorem pagesOnce_iff (self : MemoryMap) {pageSize : Nat} (positive : 0 < pageSize) (fill : Bytes) :
    (∃ out, self.pagedChecked pageSize fill = some out ∧ self.PagesOnce pageSize fill out) ↔
      (fill ≠ [] ∨ self.chunks = []) ∧ self.OwnPages pageSize := by
  simp only [pagedChecked, ne_eq, simplified_eq_nil]
  by_cases nothing : self.chunks = []
  · have empty := simplified_eq_nil.mpr nothing
    rw [if_neg fun both => both.2 nothing]
    refine iff_of_true ⟨_, rfl, ?_⟩ ⟨.inr nothing, ?_⟩
    · constructor <;> simp [paged, empty, nothing]
    · simp [OwnPages, empty]
  · by_cases filled : fill = []
    · rw [if_pos ⟨filled, nothing⟩]
      exact iff_of_false nofun fun both => both.1.elim (fun some_ => some_ filled) nothing
    · rw [if_neg fun both => filled both.1]
      constructor
      · rintro ⟨out, same, once⟩
        cases same
        exact ⟨.inl filled, ownPages_of_pagesOnce positive filled once⟩
      · rintro ⟨-, own⟩
        exact ⟨_, rfl, pagesOnce_of_ownPages positive filled own⟩

theorem pagesOnce_spaced : ∃ out, pagedChecked ⟨[(9, [2]), (2, [1])]⟩ 4 [0xFF] = some out ∧
    PagesOnce ⟨[(9, [2]), (2, [1])]⟩ 4 [0xFF] out := by
  refine (@pagesOnce_iff ⟨[(9, [2]), (2, [1])]⟩ 4 (by decide) [0xFF]).mpr ⟨.inl (by decide), ?_⟩
  rw [OwnPages, show simplified ⟨[(9, [2]), (2, [1])]⟩ = ⟨[(2, [1]), (9, [2])]⟩ by decide]
  exact ⟨by decide, by decide⟩

/-- Two chunks that do not touch, in one page. -/
theorem page_comes_twice : ¬∀ (self : MemoryMap) (pageSize : Nat), 0 < pageSize → ∀ fill,
    ∃ out, self.pagedChecked pageSize fill = some out ∧ self.PagesOnce pageSize fill out := by
  intro all
  obtain ⟨out, same, once⟩ := all ⟨[(0, [1]), (2, [2])]⟩ 4 (by decide) [0xFF]
  have twice : pagedChecked ⟨[(0, [1]), (2, [2])]⟩ 4 [0xFF] =
      some ⟨[(0, [1, 0xFF, 0xFF, 0xFF]), (0, [0xFF, 0xFF, 2, 0xFF])]⟩ := by decide
  rw [twice] at same
  cases same
  have apart := (List.pairwise_cons.mp once.disjoint).1 _ (List.mem_singleton_self _) 0
  exact apart ⟨by decide, by decide⟩

end MemoryMap

end Acrobe.Target
