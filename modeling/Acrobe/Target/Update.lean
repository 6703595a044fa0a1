import Acrobe.Target.Loadable
import Acrobe.Target.Paged

/-!
# Updates of a flash

A call of `Loadable.write` without `do_erase` has a flash erase the pages of the image and write it. The flash is to stay
as it is beside these pages.
-/

namespace Acrobe.Target
open LittleEndian Overlay

namespace Flash

/-- The part of an image that goes to the flash. -/
def part (self : Flash) (image : MemoryMap) : MemoryMap :=
  image.simplified.within self.geometry.address (self.geometry.address + self.geometry.size)

/-- The offsets that `_erase_for` hands to `erase`. -/
def erasePages (self : Flash) (regionMap : MemoryMap) : List Nat :=
  (regionMap.chunks.flatMap self.touched).dedup.insertionSort (· ≤ ·)

/-- The pages that a call erases in `plan_update`. -/
def erases (self : Flash) (call : Call) : List Nat :=
  let ready := self.preProgram call
  let regionMap := ready.part call.image
  if regionMap.chunks = [] then [] else if ready.isBlank then [] else ready.erasePages regionMap

/-- What a call hands to `write`. -/
def writes (self : Flash) (call : Call) : List (Nat × Bytes) :=
  let ready := self.preProgram call
  let regionMap := ready.part call.image
  if regionMap.chunks = [] then [] else ready.planned regionMap

/-- The image has a byte in an erase page of the flash. -/
def Intersects (self : Flash) (image : MemoryMap) (page : Nat) : Prop :=
  ∃ k < self.geometry.size, k / self.geometry.erasePageSize = page ∧
    (lookup (self.geometry.address + k) image.chunks).isSome

structure Framed (flash : Flash) (call : Call) : Prop where
  frame : ∀ k < flash.geometry.size, ¬flash.Intersects call.image (k / flash.geometry.erasePageSize) →
    ((Region.flash flash).write call).cells k = flash.cells k
  once : ∀ page, flash.Intersects call.image page → (flash.erases call).count (page * flash.geometry.erasePageSize) = 1
  inside : ∀ step ∈ flash.writes call, step.2.length = flash.geometry.writePageSize ∧
    flash.geometry.writePageSize ∣ step.1 ∧ step.1 + step.2.length ≤ flash.geometry.size

/-- A cell in an erase page of which the image has nothing is erased already where an empty chunk lies in that page and
not at its start, and has no bits to lose to the fill of a write page. -/
def OutsideKept (self : Flash) (call : Call) : Prop :=
  ∀ k < self.geometry.size, ¬self.Intersects call.image (k / self.geometry.erasePageSize) →
    ∀ chunk ∈ (self.part call.image).chunks,
      (call.assumeClean = false → chunk.2 = [] →
        ¬(self.geometry.erasePageSize : Int) ∣ chunk.1 - self.geometry.address →
        (chunk.1 - self.geometry.address) / (self.geometry.erasePageSize : Int) =
          (k / self.geometry.erasePageSize : Nat) →
        self.cells k = self.geometry.erasedValue) ∧
      (chunk.1 / (self.geometry.writePageSize : Int) ≤ (self.geometry.address + k) / self.geometry.writePageSize →
        (self.geometry.address + k) / self.geometry.writePageSize ≤
          (Overlay.stop chunk - 1) / (self.geometry.writePageSize : Int) →
        self.cells k &&& self.geometry.erasedValue = self.cells k)

/-! ### What a call issues -/

theorem planned_congr {one other : Flash} (same : one.geometry = other.geometry) (regionMap : MemoryMap) :
    one.planned regionMap = other.planned regionMap := by
  rw [planned, planned, same]

/-- The erases and the writes are all that a call does to a flash. -/
theorem write_eq (self : Flash) (call : Call) : (Region.flash self).write call =
    .flash ((self.writes call).foldl (fun flash step => flash.write step.1 step.2)
      ((self.erases call).foldl (fun flash page => flash.erase page self.geometry.erasePageSize)
        (self.preProgram call))) := by
  have geometry := self.preProgram_geometry call
  change (if ((self.preProgram call).part call.image).chunks = [] then .flash (self.preProgram call) else
    .flash ((self.preProgram call).program ((self.preProgram call).part call.image)) : Region) = _
  rw [writes, erases]
  split
  · rfl
  · rw [program]
    split
    · rfl
    · rw [planned_congr (eraseFor_geometry (self.preProgram call) _), eraseFor, geometry]
      rfl

theorem writes_eq (self : Flash) (call : Call) : self.writes call = self.planned (self.part call.image) := by
  have geometry := self.preProgram_geometry call
  have part_eq : (self.preProgram call).part call.image = self.part call.image := by rw [part, part, geometry]
  rw [writes, part_eq]
  split
  · rename_i nothing
    rw [planned, MemoryMap.paged, MemoryMap.simplified_eq_nil.mpr nothing]
    rfl
  · exact planned_congr geometry _

theorem preProgram_dirty {self : Flash} {call : Call} (spares : call.doErase = false) (dirty : self.isBlank = false) :
    self.preProgram call = { self with isBlank := call.assumeClean } := by
  simp only [preProgram, spares, Bool.false_eq_true, if_false]
  split
  · rename_i clean
    rw [clean]
  · rename_i clean
    rw [Bool.not_eq_true] at clean
    rw [clean, ← dirty]

theorem erases_eq {self : Flash} {call : Call} (spares : call.doErase = false) (dirty : self.isBlank = false) :
    self.erases call = if call.assumeClean then [] else self.erasePages (self.part call.image) := by
  rw [erases, preProgram_dirty spares dirty]
  change (if (self.part call.image).chunks = [] then [] else
    if call.assumeClean then [] else self.erasePages (self.part call.image)) = _
  split
  · rename_i nothing
    rw [erasePages, nothing]
    split <;> rfl
  · rfl

/-! ### Chunks of the part -/

theorem part_bounds {self : Flash} {image : MemoryMap} {chunk : Chunk UInt8} (member : chunk ∈ (self.part image).chunks) :
    self.geometry.address ≤ chunk.1 ∧ Overlay.stop chunk ≤ self.geometry.address + self.geometry.size := by
  obtain ⟨source, -, kept⟩ := List.mem_filterMap.mp member
  rw [MemoryMap.clip] at kept
  split at kept
  · cases kept
  · rename_i meets
    cases kept
    simp only [Overlay.stop, List.length_take, List.length_drop] at meets ⊢
    omega

theorem simplified_part (self : Flash) (image : MemoryMap) : (self.part image).simplified = self.part image :=
  MemoryMap.simplified_separated (MemoryMap.separated_within image.separated_simplified _ _)

theorem lookup_part {self : Flash} {image : MemoryMap} {k : Nat} (inside : k < self.geometry.size) :
    (lookup (self.geometry.address + k) (self.part image).chunks).isSome =
      (lookup (self.geometry.address + k) image.chunks).isSome := by
  rw [part, MemoryMap.lookup_within ⟨by omega, by omega⟩, MemoryMap.lookup_simplified, lookup_sorted_isSome]

theorem intersects_iff {self : Flash} {image : MemoryMap} {page : Nat} : self.Intersects image page ↔
    ∃ k, k / self.geometry.erasePageSize = page ∧ ∃ chunk ∈ (self.part image).chunks,
      Covers (self.geometry.address + k) chunk := by
  constructor
  · rintro ⟨k, inside, same, covered⟩
    rw [← lookup_part inside, lookup_isSome] at covered
    exact ⟨k, same, covered⟩
  · rintro ⟨k, same, chunk, member, covers⟩
    have bounds := part_bounds member
    rw [Covers] at covers
    have inside : k < self.geometry.size := by omega
    refine ⟨k, inside, same, ?_⟩
    rw [← lookup_part inside, lookup_isSome]
    exact ⟨chunk, member, covers⟩

def local_ (self : Flash) (chunk : Chunk UInt8) : Chunk UInt8 := (chunk.1 - self.geometry.address, chunk.2)

theorem covers_local {self : Flash} {chunk : Chunk UInt8} {k : Int} :
    Covers k (self.local_ chunk) ↔ Covers (self.geometry.address + k) chunk := by
  simp only [Covers, local_, Overlay.stop]
  omega

theorem mem_touched_local {self : Flash} {chunk : Chunk UInt8} (above : self.geometry.address ≤ chunk.1) {q : Nat} :
    q * self.geometry.erasePageSize ∈ self.touched chunk ↔
      (self.local_ chunk).1 / (self.geometry.erasePageSize : Int) ≤ q ∧
        (q : Int) ≤ (Overlay.stop (self.local_ chunk) - 1) / self.geometry.erasePageSize := by
  have positive := self.erasePage_pos
  have size : (0 : Int) < self.geometry.erasePageSize := by omega
  have place : (self.local_ chunk).1 = (chunk.1 - (self.geometry.address : Int)).toNat := by
    rw [local_]
    omega
  have last : Overlay.stop (self.local_ chunk) = (chunk.1 - (self.geometry.address : Int)).toNat + chunk.2.length := by
    rw [Overlay.stop, place]
    rfl
  rw [mem_touched_iff, place, last]
  generalize (chunk.1 - (self.geometry.address : Int)).toNat = offset
  generalize self.geometry.erasePageSize = page at positive size ⊢
  have front : (offset : Int) / page ≤ q ↔ offset / page ≤ q := by
    rw [← Int.natCast_ediv, Int.ofNat_le]
  have back : (q : Int) ≤ (offset + chunk.2.length - 1) / page ↔ q < (offset + chunk.2.length + page - 1) / page := by
    rw [Int.le_ediv_iff_mul_le size, Nat.lt_iff_add_one_le, Nat.le_div_iff_mul_le positive, Nat.succ_mul,
      ← Int.natCast_mul]
    omega
  rw [front, back]
  constructor
  · rintro ⟨other, same, between⟩
    rw [Nat.eq_of_mul_eq_mul_right positive same] at between
    exact between
  · exact fun between => ⟨q, rfl, between⟩

theorem mem_erasePages {self : Flash} {image : MemoryMap} {offset : Nat} :
    offset ∈ self.erasePages (self.part image) ↔ ∃ chunk ∈ (self.part image).chunks, offset ∈ self.touched chunk := by
  rw [erasePages, List.mem_insertionSort, List.mem_dedup, List.mem_flatMap]

theorem nodup_erasePages (self : Flash) (regionMap : MemoryMap) : (self.erasePages regionMap).Nodup :=
  (List.perm_insertionSort _ _).nodup_iff.mpr (List.nodup_dedup _)

theorem erased_iff {self : Flash} {image : MemoryMap} {k : Nat}
    (outside : ¬self.Intersects image (k / self.geometry.erasePageSize)) :
    (∃ offset ∈ self.erasePages (self.part image), offset ≤ k ∧ k < offset + self.geometry.erasePageSize) ↔
      ∃ chunk ∈ (self.part image).chunks, chunk.2 = [] ∧
        ¬(self.geometry.erasePageSize : Int) ∣ chunk.1 - self.geometry.address ∧
        (chunk.1 - self.geometry.address) / (self.geometry.erasePageSize : Int) =
          (k / self.geometry.erasePageSize : Nat) := by
  have positive := self.erasePage_pos
  have size : (0 : Int) < self.geometry.erasePageSize := by omega
  constructor
  · rintro ⟨offset, member, behind, below⟩
    obtain ⟨chunk, present, touches⟩ := mem_erasePages.mp member
    have above := (part_bounds present).1
    obtain ⟨q, rfl, -⟩ := (mem_touched_iff self chunk offset).mp touches
    have page : k / self.geometry.erasePageSize = q := by
      rw [Nat.div_eq_iff positive]
      omega
    have between := (mem_touched_local above).mp touches
    have empty : chunk.2 = [] := by
      by_contra full
      rw [← page, Int.natCast_ediv] at between
      obtain ⟨b, same, covers⟩ := MemoryMap.byte_in_page positive (show (self.local_ chunk).2 ≠ [] from full) between
      refine outside (intersects_iff.mpr ⟨b.toNat, ?_, chunk, present, ?_⟩)
      · have low : 0 ≤ b := by
          rw [Covers, local_] at covers
          omega
        rw [← Int.natCast_ediv] at same
        obtain ⟨n, rfl⟩ := Int.eq_ofNat_of_zero_le low
        rw [← Int.natCast_ediv, Int.natCast_inj] at same
        rw [Int.toNat_natCast, same]
      · rw [← covers_local, Int.toNat_of_nonneg]
        · exact covers
        · rw [Covers, local_] at covers
          omega
    rw [Overlay.stop, local_, empty, List.length_nil, Int.natCast_zero, Int.add_zero] at between
    dsimp only at between
    refine ⟨chunk, present, empty, fun aligned => ?_, ?_⟩
    · have before := MemoryMap.aligned_ediv positive aligned
      omega
    · have order : (chunk.1 - self.geometry.address - 1) / (self.geometry.erasePageSize : Int) ≤
          (chunk.1 - self.geometry.address) / self.geometry.erasePageSize := Int.ediv_le_ediv size (by omega)
      rw [page]
      omega
  · rintro ⟨chunk, present, empty, off, same⟩
    have above := (part_bounds present).1
    refine ⟨k / self.geometry.erasePageSize * self.geometry.erasePageSize, ?_, Nat.div_mul_le_self _ _,
      Nat.lt_div_mul_add positive⟩
    refine mem_erasePages.mpr ⟨chunk, present, (mem_touched_local above).mpr ?_⟩
    rw [Overlay.stop, local_, empty, List.length_nil, Int.natCast_zero, Int.add_zero, ← same]
    exact ⟨Int.le_refl _, Int.le_of_eq (MemoryMap.ediv_sub_one positive off).symm⟩

/-! ### Cells beside the image -/

theorem fills_cells {steps : List (Nat × Bytes)} {k : Nat} {fill : UInt8}
    (fills : ∀ step ∈ steps, ∀ byte, byteFor k step = some byte → byte = fill) (self : Flash) :
    (steps.foldl (fun flash step => flash.write step.1 step.2) self).cells k =
      if ∃ step ∈ steps, (byteFor k step).isSome then self.cells k &&& fill else self.cells k := by
  induction steps generalizing self with
  | nil => rw [if_neg (by rintro ⟨_, member, _⟩; exact absurd member List.not_mem_nil)]; rfl
  | cons step steps ih =>
    rw [List.foldl_cons, ih fun later member => fills later (List.mem_cons_of_mem _ member), write_cells]
    simp only [List.mem_cons, exists_eq_or_imp]
    cases here : byteFor k step with
    | none => simp only [Option.isSome_none, Bool.false_eq_true, false_or]
    | some byte =>
      rw [fills step List.mem_cons_self byte here]
      simp only [Option.isSome_some, true_or, if_true]
      split
      · rw [UInt8.and_assoc, UInt8.and_self]
      · rfl

theorem written_iff {self : Flash} {image : MemoryMap} {k : Nat} :
    (∃ step ∈ self.planned (self.part image), (byteFor k step).isSome) ↔ ∃ chunk ∈ (self.part image).chunks,
      chunk.1 / (self.geometry.writePageSize : Int) ≤ (self.geometry.address + k) / self.geometry.writePageSize ∧
        (self.geometry.address + k) / self.geometry.writePageSize ≤
          (Overlay.stop chunk - 1) / (self.geometry.writePageSize : Int) := by
  have positive := self.writePage_pos
  have above := fun chunk member => (@part_bounds self image chunk member).1
  have merged := self.simplified_part image
  constructor
  · rintro ⟨step, member, present⟩
    obtain ⟨byte, here⟩ := Option.isSome_iff_exists.mp present
    obtain ⟨chunk, member, value⟩ := planned_byte above member here
    rw [merged] at member
    have covers := valueAt_isSome.mp (Option.isSome_iff_exists.mpr ⟨byte, value⟩)
    rw [MemoryMap.covers_page positive (List.cons_ne_nil _ _)] at covers
    exact ⟨chunk, member, covers⟩
  · rintro ⟨chunk, member, between⟩
    rw [← MemoryMap.covers_page positive (List.cons_ne_nil self.geometry.erasedValue []), ← valueAt_isSome] at between
    obtain ⟨byte, value⟩ := Option.isSome_iff_exists.mp between
    rw [← merged] at member
    obtain ⟨step, piece, here⟩ := pieces_byteFor positive ((byteFor_page above member k byte).mpr value)
    refine ⟨step, List.mem_flatMap.mpr ⟨_, List.mem_map_of_mem member, piece⟩, ?_⟩
    rw [here]
    rfl

theorem frame_iff {self : Flash} {call : Call} (spares : call.doErase = false) (dirty : self.isBlank = false) :
    (∀ k < self.geometry.size, ¬self.Intersects call.image (k / self.geometry.erasePageSize) →
      ((Region.flash self).write call).cells k = self.cells k) ↔ self.OutsideKept call := by
  unfold OutsideKept
  refine forall₃_congr fun k inside outside => ?_
  have spare : lookup (self.geometry.address + k) (self.part call.image).chunks = none := by
    rw [← Option.not_isSome_iff_eq_none, lookup_isSome]
    exact fun covered => outside (intersects_iff.mpr ⟨k, rfl, covered⟩)
  have fills : ∀ step ∈ self.planned (self.part call.image), ∀ byte, byteFor k step = some byte →
      byte = self.geometry.erasedValue := by
    intro step member byte here
    have above := fun chunk member => (@part_bounds self call.image chunk member).1
    obtain ⟨chunk, source, written⟩ := planned_byte above member here
    rw [simplified_part] at source
    refine (MemoryMap.valueAt_page self.writePage_pos _ chunk _).2 (fun covers => ?_) byte written
    have covered : (lookup (self.geometry.address + k) (self.part call.image).chunks).isSome :=
      lookup_isSome.mpr ⟨chunk, source, covers⟩
    rw [spare] at covered
    cases covered
  have erased := erased_iff outside
  have written := @written_iff self call.image k
  rw [write_eq]
  change Flash.cells _ k = _ ↔ _
  rw [writes_eq, fills_cells fills, erase_cells, erases_eq spares dirty, preProgram_dirty spares dirty]
  dsimp only
  constructor
  · intro kept chunk member
    constructor
    · intro clean empty off same
      have here := erased.mpr ⟨chunk, member, empty, off, same⟩
      simp only [clean, Bool.false_eq_true, if_false, if_pos here, UInt8.and_self, ite_self] at kept
      exact kept.symm
    · intro first last
      rw [if_pos (written.mpr ⟨chunk, member, first, last⟩)] at kept
      rw [← kept, UInt8.and_assoc, UInt8.and_self]
  · intro kept
    have again : (if ∃ offset ∈ (if call.assumeClean then [] else self.erasePages (self.part call.image)),
        offset ≤ k ∧ k < offset + self.geometry.erasePageSize then self.geometry.erasedValue else self.cells k) =
          self.cells k := by
      by_cases here : ∃ offset ∈ (if call.assumeClean then [] else self.erasePages (self.part call.image)),
          offset ≤ k ∧ k < offset + self.geometry.erasePageSize
      · rw [if_pos here]
        cases clean : call.assumeClean with
        | true => simp [clean] at here
        | false =>
          simp only [clean, Bool.false_eq_true, if_false] at here
          obtain ⟨chunk, member, empty, off, same⟩ := erased.mp here
          exact ((kept chunk member).1 clean empty off same).symm
      · rw [if_neg here]
    rw [again]
    split
    · rename_i here
      obtain ⟨chunk, member, first, last⟩ := written.mp here
      exact (kept chunk member).2 first last
    · rfl

theorem once_iff {self : Flash} {call : Call} (spares : call.doErase = false) (dirty : self.isBlank = false) :
    (∀ page, self.Intersects call.image page → (self.erases call).count (page * self.geometry.erasePageSize) = 1) ↔
      call.assumeClean = false ∨ ∀ page, ¬self.Intersects call.image page := by
  rw [erases_eq spares dirty]
  cases clean : call.assumeClean with
  | true =>
    simp
  | false =>
    simp only [Bool.false_eq_true, if_false, true_or, iff_true]
    intro page meets
    refine List.count_eq_one_of_mem (nodup_erasePages self _) ?_
    obtain ⟨k, rfl, chunk, member, covers⟩ := intersects_iff.mp meets
    rw [← covers_local] at covers
    rw [mem_erasePages]
    refine ⟨chunk, member, (mem_touched_local (part_bounds member).1).mpr ?_⟩
    rw [Int.natCast_ediv]
    exact MemoryMap.covers_ediv self.erasePage_pos covers

theorem pieces_whole {page offset n : Nat} (positive : 0 < page) {data : Bytes} (whole : data.length = n * page)
    {step : Nat × Bytes} (member : step ∈ pieces page offset data) :
    step.2.length = page ∧ ∃ i < n, step.1 = offset + i * page := by
  obtain ⟨i, below, rfl⟩ := List.mem_map.mp member
  have count : (n * page + page - 1) / page = n := by
    rw [Nat.add_sub_assoc positive, Nat.mul_comm, Nat.mul_add_div positive, Nat.div_eq_of_lt (by omega), Nat.add_zero]
  rw [whole, count, List.mem_range] at below
  have room : (i + 1) * page ≤ n * page := Nat.mul_le_mul_right page below
  rw [Nat.succ_mul] at room
  refine ⟨?_, i, below, rfl⟩
  rw [List.length_take, List.length_drop, whole]
  omega

theorem page_between {page first n : Nat} (positive : 0 < page) {chunk : Chunk UInt8}
    (low : ((first * page : Nat) : Int) ≤ chunk.1) (high : Overlay.stop chunk ≤ ((first * page + n * page : Nat) : Int)) :
    ∃ a b : Nat, a ≤ b ∧ b ≤ n ∧ MemoryMap.pageStart page chunk = ((first * page + a * page : Nat) : Int) ∧
      MemoryMap.pageEnd page chunk = ((first * page + b * page : Nat) : Int) := by
  have size : (0 : Int) < page := by omega
  have bounds := MemoryMap.page_bounds positive chunk
  have start : MemoryMap.pageStart page chunk = chunk.1 / page * page := rfl
  have stop := MemoryMap.pageEnd_eq positive chunk
  rw [← Nat.add_mul, Int.natCast_mul] at high
  rw [Int.natCast_mul] at low
  have behind : (first : Int) ≤ chunk.1 / page := (Int.le_ediv_iff_mul_le size).mpr low
  have below : (Overlay.stop chunk - 1) / (page : Int) < (first + n : Nat) :=
    (Int.ediv_lt_iff_lt_mul size).mpr (by omega)
  have order : chunk.1 / page ≤ (Overlay.stop chunk - 1) / (page : Int) + 1 := by
    refine Int.le_of_mul_le_mul_right ?_ size
    rw [← start, ← stop]
    omega
  obtain ⟨a, first_⟩ := Int.eq_ofNat_of_zero_le (show 0 ≤ chunk.1 / (page : Int) - first by omega)
  obtain ⟨b, last⟩ := Int.eq_ofNat_of_zero_le (show 0 ≤ (Overlay.stop chunk - 1) / (page : Int) + 1 - first by omega)
  refine ⟨a, b, by omega, by omega, ?_, ?_⟩
  · rw [start, ← Nat.add_mul, Int.natCast_mul, show chunk.1 / (page : Int) = (first + a : Nat) by omega]
  · rw [stop, ← Nat.add_mul, Int.natCast_mul,
      show (Overlay.stop chunk - 1) / (page : Int) + 1 = (first + b : Nat) by omega]

theorem writes_inside (self : Flash) (call : Call) : ∀ step ∈ self.writes call,
    step.2.length = self.geometry.writePageSize ∧ self.geometry.writePageSize ∣ step.1 ∧
      step.1 + step.2.length ≤ self.geometry.size := by
  have positive := self.writePage_pos
  rw [writes_eq]
  intro step member
  obtain ⟨paged, place, piece⟩ := List.mem_flatMap.mp member
  obtain ⟨chunk, source, rfl⟩ := List.mem_map.mp place
  rw [simplified_part] at source
  have bounds := part_bounds source
  obtain ⟨⟨m, address⟩, n, size⟩ := self.geometry.writeAligned
  rw [Nat.mul_comm] at address size
  obtain ⟨a, b, order, last, start, stop⟩ := @page_between _ m n positive chunk (by rw [← address]; exact bounds.1)
    (by rw [← address, ← size]; exact bounds.2)
  have offset : (MemoryMap.pageStart self.geometry.writePageSize chunk - (self.geometry.address : Int)).toNat =
      a * self.geometry.writePageSize := by
    rw [start, ← address]
    omega
  have length : (MemoryMap.page self.geometry.writePageSize [self.geometry.erasedValue] chunk).2.length =
      (b - a) * self.geometry.writePageSize := by
    have filled : [self.geometry.erasedValue] ≠ [] := List.cons_ne_nil _ _
    rw [MemoryMap.page_eq, length_splice (MemoryMap.page_room positive filled chunk), MemoryMap.length_pageFill _ filled,
      start, stop, Nat.sub_mul]
    omega
  obtain ⟨whole, i, inside, place⟩ := pieces_whole positive length piece
  have place : step.1 = (a + i) * self.geometry.writePageSize := by
    rw [place, Nat.add_mul, ← offset]
    rfl
  have room : (a + i + 1) * self.geometry.writePageSize ≤ n * self.geometry.writePageSize :=
    Nat.mul_le_mul_right _ (by omega)
  refine ⟨whole, ⟨a + i, by rw [place, Nat.mul_comm]⟩, ?_⟩
  rw [place, whole, ← Nat.succ_mul, size]
  exact room

theorem framed_iff (self : Flash) (call : Call) (spares : call.doErase = false) (dirty : self.isBlank = false) :
    self.Framed call ↔
      (call.assumeClean = false ∨ ∀ page, ¬self.Intersects call.image page) ∧ self.OutsideKept call := by
  rw [← once_iff spares dirty, ← frame_iff spares dirty]
  exact ⟨fun framed => ⟨framed.once, framed.frame⟩, fun both => ⟨both.2, both.1, self.writes_inside call⟩⟩

theorem framed_chunk : Framed ⟨⟨0, 8, 2, 4, 0xFF, ⟨1, rfl⟩, ⟨2, rfl⟩, by decide, by decide⟩, false, fun _ => 0⟩
    ⟨⟨[(5, [1])]⟩, false, false⟩ := by
  rw [framed_iff _ _ rfl rfl]
  refine ⟨.inl rfl, fun k inside outside chunk member => ?_⟩
  have whole : part ⟨⟨0, 8, 2, 4, 0xFF, ⟨1, rfl⟩, ⟨2, rfl⟩, by decide, by decide⟩, false, fun _ => 0⟩ ⟨[(5, [1])]⟩ =
      ⟨[(5, [1])]⟩ := by decide
  dsimp only at member
  rw [whole, List.mem_singleton] at member
  subst member
  exact ⟨fun _ nothing => (nomatch nothing), fun _ _ => show (0 : UInt8) &&& 0xFF = 0 by decide⟩

/-- An empty chunk inside a page has it erased. -/
theorem empty_chunk_erases : ¬∀ (self : Flash) (call : Call), call.doErase = false → self.isBlank = false →
    call.assumeClean = false → self.Framed call := by
  intro all
  have framed := all ⟨⟨0, 4, 4, 4, 0xFF, ⟨2, rfl⟩, ⟨2, rfl⟩, by decide, by decide⟩, false, fun _ => 0⟩
    ⟨⟨[(2, [])]⟩, false, false⟩ rfl rfl rfl
  have here := framed.frame 0 (by decide) (by
    rintro ⟨k, -, -, covered⟩
    rw [lookup_isSome] at covered
    obtain ⟨chunk, member, covers⟩ := covered
    rw [List.mem_singleton] at member
    subst member
    rw [Covers, Overlay.stop] at covers
    dsimp only [List.length_nil] at covers
    omega)
  revert here
  decide

end Flash

end Acrobe.Target
