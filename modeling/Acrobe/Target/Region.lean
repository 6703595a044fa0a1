import Mathlib
import Acrobe.Target.MemoryMap

/-!
# Regions

A region takes the part of an image that lies in it. A `Flash` erases the pages that the image touches, unless it is
known to be blank, and writes whole pages with the erased value around the image. Erasing sets the cells of a page to
the erased value, and a write can only clear bits.
-/

namespace Acrobe.Target
open LittleEndian Overlay

namespace MemoryMap

def clip (start stop : Int) (chunk : Chunk UInt8) : Option (Chunk UInt8) :=
  let segEnd := Overlay.stop chunk
  if segEnd ≤ start ∨ stop ≤ chunk.1 then none
  else
    let first := max chunk.1 start
    let last := min segEnd stop
    some (first, (chunk.2.drop (first - chunk.1).toNat).take (last - first).toNat)

def within (self : MemoryMap) (start stop : Int) : MemoryMap := ⟨self.chunks.filterMap (clip start stop)⟩

/-- One chunk of `paged`. -/
def page (pageSize : Nat) (fill : Bytes) (chunk : Chunk UInt8) : Chunk UInt8 :=
  let pageStart := chunk.1 / pageSize * pageSize
  let pageEnd := (chunk.1 + chunk.2.length + pageSize - 1) / pageSize * pageSize
  let total := (pageEnd - pageStart).toNat
  let pageData := (List.replicate ((total + fill.length - 1) / fill.length) fill).flatten.take total
  (pageStart, splice pageData (chunk.1 - pageStart).toNat chunk.2)

def paged (self : MemoryMap) (pageSize : Nat) (fill : Bytes) : MemoryMap :=
  ⟨self.simplified.chunks.map (page pageSize fill)⟩

end MemoryMap

/-! ### Flash -/

/-- Where a flash is, and its pages; the erase page is the smallest one. -/
structure Geometry where
  address : Nat
  size : Nat
  writePageSize : Nat
  erasePageSize : Nat
  erasedValue : UInt8
  writePage : ∃ k, writePageSize = 2 ^ k
  erasePage : ∃ k, erasePageSize = 2 ^ k
  writeAligned : writePageSize ∣ address ∧ writePageSize ∣ size
  eraseAligned : erasePageSize ∣ address ∧ erasePageSize ∣ size

structure Flash where
  geometry : Geometry
  isBlank : Bool
  cells : Nat → UInt8

namespace Flash

def erase (self : Flash) (offset size : Nat) : Flash :=
  { self with
    cells := fun k => if offset ≤ k ∧ k < offset + size then self.geometry.erasedValue else self.cells k
    isBlank := self.isBlank || (offset == 0 && size == self.geometry.size) }

def write (self : Flash) (offset : Nat) (data : Bytes) : Flash :=
  { self with
    cells := fun k =>
      if offset ≤ k then
        match data[k - offset]? with
        | some byte => self.cells k &&& byte
        | none => self.cells k
      else self.cells k }

/-- `offset & ~(page - 1)` -/
def alignDown (offset page : Nat) : Nat := offset - (offset &&& (page - 1))

/-- The erase pages that a chunk touches. -/
def touched (self : Flash) (chunk : Chunk UInt8) : List Nat :=
  let page := self.geometry.erasePageSize
  let offset := (chunk.1 - self.geometry.address).toNat
  let start := alignDown offset page
  let stop := alignDown (offset + chunk.2.length + page - 1) page
  List.range' start ((stop - start + page - 1) / page) page

def eraseFor (self : Flash) (regionMap : MemoryMap) : Flash :=
  let pages := (regionMap.chunks.flatMap self.touched).dedup.insertionSort (· ≤ ·)
  pages.foldl (fun flash page => flash.erase page self.geometry.erasePageSize) self

/-- One chunk in pieces of a page. -/
def pieces (page offset : Nat) (data : Bytes) : List (Nat × Bytes) :=
  (List.range ((data.length + page - 1) / page)).map fun i => (offset + i * page, (data.drop (i * page)).take page)

/-- What `plan_update` yields when it has erased what it has to. -/
def planned (self : Flash) (regionMap : MemoryMap) : List (Nat × Bytes) :=
  (regionMap.paged self.geometry.writePageSize [self.geometry.erasedValue]).chunks.flatMap fun chunk =>
    pieces self.geometry.writePageSize (chunk.1 - (self.geometry.address : Int)).toNat chunk.2

def program (self : Flash) (regionMap : MemoryMap) : Flash :=
  let self := if self.isBlank then self else self.eraseFor regionMap
  (self.planned regionMap).foldl (fun flash step => flash.write step.1 step.2) self

end Flash

/-! ### Clipping -/

namespace MemoryMap

theorem valueAt_clip {start stop a : Int} (inside : start ≤ a ∧ a < stop) (chunk : Chunk UInt8) :
    (clip start stop chunk).bind (valueAt a) = valueAt a chunk := by
  rw [clip]
  split
  · rename_i apart
    have outside : ¬Covers a chunk := by
      rw [Covers]
      omega
    exact (valueAt_eq_none.mpr outside).symm
  · rename_i meets
    dsimp only
    rw [Option.bind_some]
    by_cases covers : Covers a chunk
    · rw [Covers] at covers
      rw [valueAt, if_pos (by omega), valueAt, if_pos covers.1, List.getElem?_take_of_lt (by omega), List.getElem?_drop]
      congr 1
      omega
    · rw [valueAt_eq_none.mpr covers, valueAt_eq_none]
      simp only [Covers, Overlay.stop, List.length_take, List.length_drop] at covers meets ⊢
      omega

theorem lookup_within {start stop a : Int} (inside : start ≤ a ∧ a < stop) (self : MemoryMap) :
    lookup a (self.within start stop).chunks = lookup a self.chunks := by
  obtain ⟨chunks⟩ := self
  rw [within]
  dsimp only
  induction chunks with
  | nil => rfl
  | cons chunk chunks ih =>
    have here := valueAt_clip inside chunk
    rw [lookup, ← here, ← ih, List.filterMap_cons]
    cases clip start stop chunk with
    | none => rw [Option.bind_none, Option.or_none]
    | some clipped => rfl

theorem clip_bounds {start stop : Int} {chunk clipped : Chunk UInt8} (kept : clip start stop chunk = some clipped) :
    start ≤ clipped.1 ∧ chunk.1 ≤ clipped.1 ∧ Overlay.stop clipped ≤ Overlay.stop chunk := by
  rw [clip] at kept
  split at kept
  · cases kept
  · rename_i meets
    cases kept
    simp only [Overlay.stop, List.length_take, List.length_drop] at meets ⊢
    omega

theorem separated_within {self : MemoryMap} (apart : Separated self.chunks) (start stop : Int) :
    Separated (self.within start stop).chunks := by
  rw [within, Separated, List.pairwise_filterMap]
  refine apart.imp fun {front back} gap => ?_
  intro first one last other
  have front := (clip_bounds one).2.2
  have behind := (clip_bounds other).2.1
  omega

theorem within_above {self : MemoryMap} {start stop : Int} {chunk : Chunk UInt8}
    (member : chunk ∈ (self.within start stop).chunks) : start ≤ chunk.1 := by
  obtain ⟨source, -, kept⟩ := List.mem_filterMap.mp member
  exact (clip_bounds kept).1

end MemoryMap

namespace MemoryMap

theorem mem_merge {out rest : List (Chunk UInt8)} {curAddr low : Int} {curData : Bytes}
    (done : ∀ chunk ∈ out, low ≤ chunk.1) (here : low ≤ curAddr) (above : ∀ chunk ∈ rest, low ≤ chunk.1)
    {chunk : Chunk UInt8} (member : chunk ∈ merge out curAddr curData rest) : low ≤ chunk.1 := by
  induction rest generalizing out curAddr curData with
  | nil =>
    rcases List.mem_append.mp member with old | last
    · exact done chunk old
    · rw [List.mem_singleton.mp last]
      exact here
  | cons next rest ih =>
    rw [merge] at member
    have later : ∀ chunk ∈ rest, low ≤ chunk.1 := fun chunk member => above chunk (List.mem_cons_of_mem _ member)
    dsimp only at member
    split at member
    · exact ih done here later member
    · refine ih (fun chunk member => ?_) (above next List.mem_cons_self) later member
      rcases List.mem_append.mp member with old | last
      · exact done chunk old
      · rw [List.mem_singleton.mp last]
        exact here

theorem simplified_above {self : MemoryMap} {low : Int} (above : ∀ chunk ∈ self.chunks, low ≤ chunk.1)
    {chunk : Chunk UInt8} (member : chunk ∈ self.simplified.chunks) : low ≤ chunk.1 := by
  have ordered : ∀ chunk ∈ sorted self.chunks, low ≤ chunk.1 :=
    fun chunk member => above chunk ((List.mem_insertionSort ByAddress).mp member)
  rw [simplified] at member
  split at member
  · cases member
  · rename_i curAddr cur rest shape
    rw [shape] at ordered
    exact mem_merge (fun _ nothing => absurd nothing List.not_mem_nil) (ordered (curAddr, cur) List.mem_cons_self)
      (fun chunk member => ordered chunk (List.mem_cons_of_mem _ member)) member

/-! ### One page -/

theorem getElem?_repeated {fill : Bytes} (n k : Nat) (inside : k < n * fill.length) :
    (List.replicate n fill).flatten[k]? = fill[k % fill.length]? := by
  induction n generalizing k with
  | zero => omega
  | succ n ih =>
    rw [List.replicate_succ, List.flatten_cons]
    by_cases first : k < fill.length
    · rw [List.getElem?_append_left first, Nat.mod_eq_of_lt first]
    · have rest : k - fill.length < n * fill.length := by
        rw [Nat.succ_mul] at inside
        omega
      rw [List.getElem?_append_right (by omega), ih _ rest, ← Nat.mod_eq_sub_mod (by omega)]

theorem length_repeated (n : Nat) (fill : Bytes) : (List.replicate n fill).flatten.length = n * fill.length := by
  induction n with
  | zero => simp
  | succ n ih => rw [List.replicate_succ, List.flatten_cons, List.length_append, ih, Nat.succ_mul, Nat.add_comm]

/-- The fill of a page. -/
def pageFill (total : Nat) (fill : Bytes) : Bytes :=
  (List.replicate ((total + fill.length - 1) / fill.length) fill).flatten.take total

theorem ceil_mul_ge (total : Nat) {size : Nat} (positive : 0 < size) : total ≤ (total + size - 1) / size * size := by
  have above := Nat.lt_div_mul_add (a := total + size - 1) positive
  omega

theorem length_pageFill (total : Nat) {fill : Bytes} (some_ : fill ≠ []) : (pageFill total fill).length = total := by
  have positive : 0 < fill.length := List.length_pos_iff.mpr some_
  have room := ceil_mul_ge total positive
  rw [pageFill, List.length_take, length_repeated]
  omega

theorem getElem?_pageFill {total k : Nat} {fill : Bytes} (some_ : fill ≠ []) (inside : k < total) :
    (pageFill total fill)[k]? = fill[k % fill.length]? := by
  have positive : 0 < fill.length := List.length_pos_iff.mpr some_
  have room := ceil_mul_ge total positive
  rw [pageFill, List.getElem?_take_of_lt inside, getElem?_repeated _ _ (by omega)]

variable {pageSize : Nat}

def pageStart (pageSize : Nat) (chunk : Chunk UInt8) : Int := chunk.1 / pageSize * pageSize

def pageEnd (pageSize : Nat) (chunk : Chunk UInt8) : Int :=
  (chunk.1 + chunk.2.length + pageSize - 1) / pageSize * pageSize

theorem page_bounds (positive : 0 < pageSize) (chunk : Chunk UInt8) :
    pageStart pageSize chunk ≤ chunk.1 ∧ chunk.1 + chunk.2.length ≤ pageEnd pageSize chunk := by
  have first := Int.ediv_mul_le chunk.1 (show (pageSize : Int) ≠ 0 by omega)
  have size : (0 : Int) < pageSize := by omega
  have last := Int.lt_ediv_add_one_mul_self (chunk.1 + chunk.2.length + pageSize - 1) size
  rw [Int.add_mul, Int.one_mul] at last
  rw [pageStart, pageEnd]
  omega

theorem page_eq (fill : Bytes) (chunk : Chunk UInt8) : page pageSize fill chunk =
    (pageStart pageSize chunk, splice (pageFill (pageEnd pageSize chunk - pageStart pageSize chunk).toNat fill)
      (chunk.1 - pageStart pageSize chunk).toNat chunk.2) := rfl

theorem page_room (positive : 0 < pageSize) {fill : Bytes} (some_ : fill ≠ []) (chunk : Chunk UInt8) :
    (chunk.1 - pageStart pageSize chunk).toNat + chunk.2.length ≤
      (pageFill (pageEnd pageSize chunk - pageStart pageSize chunk).toNat fill).length := by
  have bounds := page_bounds positive chunk
  rw [length_pageFill _ some_]
  omega

theorem stop_page (positive : 0 < pageSize) {fill : Bytes} (some_ : fill ≠ []) (chunk : Chunk UInt8) :
    Overlay.stop (page pageSize fill chunk) = pageEnd pageSize chunk := by
  have bounds := page_bounds positive chunk
  rw [page_eq, Overlay.stop, length_splice (page_room positive some_ chunk), length_pageFill _ some_]
  omega

theorem pageEnd_eq (positive : 0 < pageSize) (chunk : Chunk UInt8) :
    pageEnd pageSize chunk = ((Overlay.stop chunk - 1) / pageSize + 1) * pageSize := by
  have whole : chunk.1 + chunk.2.length + pageSize - 1 = (Overlay.stop chunk - 1) + pageSize := by
    rw [Overlay.stop]
    omega
  rw [pageEnd, whole, Int.add_ediv_of_dvd_right (Int.dvd_refl _), Int.ediv_self (by omega)]

theorem covers_page (positive : 0 < pageSize) {fill : Bytes} (some_ : fill ≠ []) (chunk : Chunk UInt8) (a : Int) :
    Covers a (page pageSize fill chunk) ↔
      chunk.1 / pageSize ≤ a / pageSize ∧ a / pageSize ≤ (Overlay.stop chunk - 1) / pageSize := by
  have size : (0 : Int) < pageSize := by omega
  rw [Covers, stop_page positive some_, pageEnd_eq positive]
  change chunk.1 / pageSize * pageSize ≤ a ∧ _ ↔ _
  rw [← Int.le_ediv_iff_mul_le size, ← Int.ediv_lt_iff_lt_mul size, Int.lt_add_one_iff]

theorem valueAt_page_own (positive : 0 < pageSize) {fill : Bytes} (some_ : fill ≠ []) {chunk : Chunk UInt8} {a : Int}
    (covers : Covers a chunk) : valueAt a (page pageSize fill chunk) = valueAt a chunk := by
  have bounds := page_bounds positive chunk
  rw [Covers, Overlay.stop] at covers
  rw [page_eq, valueAt, if_pos (by dsimp only; omega), getElem?_splice (page_room positive some_ chunk),
    if_pos (by dsimp only; omega), valueAt, if_pos covers.1]
  dsimp only
  congr 1
  omega

theorem valueAt_page_fill (positive : 0 < pageSize) {fill : Bytes} (some_ : fill ≠ []) {chunk : Chunk UInt8} {a : Int}
    (covers : Covers a (page pageSize fill chunk)) (outside : ¬Covers a chunk) :
    valueAt a (page pageSize fill chunk) = fill[(a - (page pageSize fill chunk).1).toNat % fill.length]? := by
  have bounds := page_bounds positive chunk
  rw [Covers, stop_page positive some_, page_eq] at covers
  rw [Covers, Overlay.stop] at outside
  dsimp only at covers
  rw [page_eq, valueAt, if_pos covers.1, getElem?_splice (page_room positive some_ chunk),
    if_neg (by dsimp only; omega), getElem?_pageFill some_ (by dsimp only; omega)]

theorem valueAt_page (positive : 0 < pageSize) (fill : UInt8) (chunk : Chunk UInt8) (a : Int) :
    (Covers a chunk → valueAt a (page pageSize [fill] chunk) = valueAt a chunk) ∧
      (¬Covers a chunk → ∀ byte, valueAt a (page pageSize [fill] chunk) = some byte → byte = fill) := by
  have some_ : [fill] ≠ [] := List.cons_ne_nil _ _
  constructor
  · intro covers
    exact valueAt_page_own positive some_ covers
  · intro outside byte here
    by_cases covers : Covers a (page pageSize [fill] chunk)
    · rw [valueAt_page_fill positive some_ covers outside, List.length_singleton, Nat.mod_one] at here
      exact (Option.some.inj here).symm
    · rw [valueAt_eq_none.mpr covers] at here
      cases here

end MemoryMap

/-! ### Erasing -/

namespace Flash

theorem erase_cells (self : Flash) (pages : List Nat) (page k : Nat) :
    (pages.foldl (fun flash offset => flash.erase offset page) self).cells k =
      if ∃ offset ∈ pages, offset ≤ k ∧ k < offset + page then self.geometry.erasedValue else self.cells k := by
  induction pages generalizing self with
  | nil => rw [if_neg (by rintro ⟨_, member, _⟩; exact absurd member List.not_mem_nil)]; rfl
  | cons offset pages ih =>
    have here : (self.erase offset page).cells k =
        if offset ≤ k ∧ k < offset + page then self.geometry.erasedValue else self.cells k := rfl
    rw [List.foldl_cons, ih, here]
    by_cases later : ∃ offset ∈ pages, offset ≤ k ∧ k < offset + page
    · obtain ⟨found, member, covers⟩ := later
      rw [if_pos ⟨found, member, covers⟩, if_pos ⟨found, List.mem_cons_of_mem _ member, covers⟩]
      rfl
    · rw [if_neg later]
      by_cases covers : offset ≤ k ∧ k < offset + page
      · rw [if_pos covers, if_pos ⟨offset, List.mem_cons_self, covers⟩]
      · rw [if_neg covers, if_neg]
        rintro ⟨found, member, again⟩
        rcases List.mem_cons.mp member with rfl | member
        · exact covers again
        · exact later ⟨found, member, again⟩

theorem alignDown_eq (offset : Nat) {page : Nat} (power : ∃ k, page = 2 ^ k) :
    alignDown offset page = offset / page * page := by
  obtain ⟨k, rfl⟩ := power
  have whole := Nat.div_add_mod offset (2 ^ k)
  rw [alignDown, Nat.and_two_pow_sub_one_eq_mod, Nat.mul_comm]
  omega

theorem erasePage_pos (self : Flash) : 0 < self.geometry.erasePageSize := by
  obtain ⟨j, same⟩ := self.geometry.erasePage
  rw [same]
  exact Nat.two_pow_pos j

theorem mem_touched_iff (self : Flash) (chunk : Chunk UInt8) (offset : Nat) : offset ∈ self.touched chunk ↔
    ∃ q, q * self.geometry.erasePageSize = offset ∧
      (chunk.1 - (self.geometry.address : Int)).toNat / self.geometry.erasePageSize ≤ q ∧
      q < ((chunk.1 - (self.geometry.address : Int)).toNat + chunk.2.length + self.geometry.erasePageSize - 1) /
        self.geometry.erasePageSize := by
  have power := self.geometry.erasePage
  have positive := self.erasePage_pos
  rw [touched]
  rw [alignDown_eq _ power, alignDown_eq _ power]
  generalize self.geometry.erasePageSize = page at positive ⊢
  generalize (chunk.1 - (self.geometry.address : Int)).toNat / page = first
  generalize (_ + chunk.2.length + page - 1) / page = stopPage
  have count : (stopPage * page - first * page + page - 1) / page = stopPage - first := by
    have rest : (page - 1) / page = 0 := Nat.div_eq_of_lt (by omega)
    rw [← Nat.sub_mul, Nat.add_sub_assoc positive, Nat.mul_comm, Nat.mul_add_div positive]
    exact congrArg (stopPage - first + ·) rest
  rw [List.mem_range', count]
  constructor
  · rintro ⟨i, below, rfl⟩
    exact ⟨first + i, by rw [Nat.add_mul, Nat.mul_comm i], by omega, by omega⟩
  · rintro ⟨q, rfl, behind, below⟩
    exact ⟨q - first, by omega, by rw [Nat.mul_comm page, ← Nat.add_mul, Nat.add_sub_cancel' behind]⟩

theorem mem_touched {self : Flash} {chunk : Chunk UInt8} (above : (self.geometry.address : Int) ≤ chunk.1) {k : Nat}
    (covers : Covers (self.geometry.address + k) chunk) :
    ∃ offset ∈ self.touched chunk, offset ≤ k ∧ k < offset + self.geometry.erasePageSize := by
  have positive := self.erasePage_pos
  rw [Covers, stop] at covers
  have whole := Nat.div_add_mod k self.geometry.erasePageSize
  have below := Nat.mod_lt k positive
  refine ⟨_, (mem_touched_iff self chunk _).mpr ⟨k / self.geometry.erasePageSize, rfl, ?_, ?_⟩, ?_, ?_⟩
  · exact Nat.div_le_div_right (by omega)
  · rw [Nat.lt_iff_add_one_le, ← Nat.add_div_right k positive]
    exact Nat.div_le_div_right (by omega)
  · rw [Nat.mul_comm]
    omega
  · rw [Nat.mul_comm]
    omega

theorem eraseFor_cells {self : Flash} {regionMap : MemoryMap} {chunk : Chunk UInt8} (member : chunk ∈ regionMap.chunks)
    (above : (self.geometry.address : Int) ≤ chunk.1) {k : Nat} (covers : Covers (self.geometry.address + k) chunk) :
    (self.eraseFor regionMap).cells k = self.geometry.erasedValue := by
  obtain ⟨offset, touches, inside⟩ := mem_touched above covers
  rw [eraseFor, erase_cells, if_pos]
  refine ⟨offset, (List.mem_insertionSort _).mpr (List.mem_dedup.mpr ?_), inside⟩
  exact List.mem_flatMap.mpr ⟨chunk, member, touches⟩

theorem erases_geometry (self : Flash) (pages : List Nat) (page : Nat) :
    (pages.foldl (fun flash offset => flash.erase offset page) self).geometry = self.geometry := by
  induction pages generalizing self with
  | nil => rfl
  | cons offset pages ih => exact ih _

theorem eraseFor_geometry (self : Flash) (regionMap : MemoryMap) : (self.eraseFor regionMap).geometry = self.geometry :=
  erases_geometry self _ _

/-! ### Writing -/

/-- The byte that a write has for a cell. -/
def byteFor (k : Nat) (step : Nat × Bytes) : Option UInt8 := if step.1 ≤ k then step.2[k - step.1]? else none

theorem write_cells (self : Flash) (step : Nat × Bytes) (k : Nat) :
    (self.write step.1 step.2).cells k = match byteFor k step with
      | some byte => self.cells k &&& byte
      | none => self.cells k := by
  rw [byteFor]
  change (if step.1 ≤ k then _ else _) = _
  split <;> rfl

theorem writes_keep {value : UInt8} {k : Nat} {steps : List (Nat × Bytes)}
    (all : ∀ step ∈ steps, ∀ byte, byteFor k step = some byte → byte &&& value = value) {self : Flash}
    (has : self.cells k &&& value = value) :
    (steps.foldl (fun flash step => flash.write step.1 step.2) self).cells k &&& value = value := by
  induction steps generalizing self with
  | nil => exact has
  | cons step steps ih =>
    refine ih (fun later member => all later (List.mem_cons_of_mem _ member)) ?_
    rw [write_cells]
    cases here : byteFor k step with
    | none => exact has
    | some byte =>
      dsimp only
      rw [UInt8.and_assoc, all step List.mem_cons_self byte here, has]

theorem writes_clear {value : UInt8} {k : Nat} {steps : List (Nat × Bytes)} (self : Flash)
    (done : self.cells k &&& value = self.cells k ∨ ∃ step ∈ steps, byteFor k step = some value) :
    (steps.foldl (fun flash step => flash.write step.1 step.2) self).cells k &&& value =
      (steps.foldl (fun flash step => flash.write step.1 step.2) self).cells k := by
  induction steps generalizing self with
  | nil =>
    rcases done with done | ⟨step, member, -⟩
    · exact done
    · cases member
  | cons step steps ih =>
    refine ih (self.write step.1 step.2) ?_
    rw [write_cells]
    rcases done with done | ⟨found, member, here⟩
    · refine .inl ?_
      cases byteFor k step with
      | none => exact done
      | some byte =>
        dsimp only
        rw [UInt8.and_assoc, UInt8.and_comm byte, ← UInt8.and_assoc, done]
    · rcases List.mem_cons.mp member with rfl | member
      · refine .inl ?_
        rw [here]
        dsimp only
        rw [UInt8.and_assoc, UInt8.and_self]
      · exact .inr ⟨found, member, here⟩

theorem byteFor_pieces {page offset k : Nat} {data : Bytes} {step : Nat × Bytes} (member : step ∈ pieces page offset data)
    {byte : UInt8} (here : byteFor k step = some byte) : byteFor k (offset, data) = some byte := by
  obtain ⟨i, -, rfl⟩ := List.mem_map.mp member
  rw [byteFor] at here ⊢
  dsimp only at here ⊢
  split at here
  · rename_i behind
    rw [if_pos (by omega)]
    by_cases inside : k - (offset + i * page) < page
    · rw [List.getElem?_take_of_lt inside, List.getElem?_drop] at here
      rw [← here]
      congr 1
      omega
    · rw [List.getElem?_eq_none (by rw [List.length_take]; omega)] at here
      cases here
  · cases here

theorem pieces_byteFor {page offset k : Nat} (positive : 0 < page) {data : Bytes} {byte : UInt8}
    (here : byteFor k (offset, data) = some byte) : ∃ step ∈ pieces page offset data, byteFor k step = some byte := by
  rw [byteFor] at here
  split at here
  · rename_i behind
    dsimp only at here behind
    have inside : k - offset < data.length := by
      obtain ⟨inside, -⟩ := List.getElem?_eq_some_iff.mp here
      exact inside
    have whole := Nat.div_add_mod (k - offset) page
    have below := Nat.mod_lt (k - offset) positive
    have split : (k - offset) / page * page ≤ k - offset := by
      rw [Nat.mul_comm]
      omega
    refine ⟨_, List.mem_map.mpr ⟨(k - offset) / page, List.mem_range.mpr ?_, rfl⟩, ?_⟩
    · have next : (k - offset) / page + 1 ≤ (data.length + page - 1) / page := by
        rw [← Nat.add_div_right _ positive]
        exact Nat.div_le_div_right (by omega)
      omega
    · rw [byteFor]
      dsimp only
      rw [if_pos (by omega), List.getElem?_take_of_lt, List.getElem?_drop, ← here]
      · congr 1
        omega
      · rw [Nat.mul_comm] at split ⊢
        omega
  · cases here

/-! ### Programming -/

theorem writePage_pos (self : Flash) : 0 < self.geometry.writePageSize := by
  obtain ⟨j, same⟩ := self.geometry.writePage
  rw [same]
  exact Nat.two_pow_pos j

theorem byteFor_page {self : Flash} {regionMap : MemoryMap}
    (above : ∀ chunk ∈ regionMap.chunks, (self.geometry.address : Int) ≤ chunk.1) {chunk : Chunk UInt8}
    (member : chunk ∈ regionMap.simplified.chunks) (k : Nat) (byte : UInt8) :
    byteFor k (((MemoryMap.page self.geometry.writePageSize [self.geometry.erasedValue] chunk).1 -
        (self.geometry.address : Int)).toNat,
        (MemoryMap.page self.geometry.writePageSize [self.geometry.erasedValue] chunk).2) = some byte ↔
      valueAt (self.geometry.address + k)
        (MemoryMap.page self.geometry.writePageSize [self.geometry.erasedValue] chunk) = some byte := by
  have low : (self.geometry.address : Int) ≤
      (MemoryMap.page self.geometry.writePageSize [self.geometry.erasedValue] chunk).1 := by
    have low := MemoryMap.simplified_above above member
    have positive := self.writePage_pos
    obtain ⟨m, aligned⟩ := self.geometry.writeAligned.1
    rw [aligned, Int.natCast_mul, Int.mul_comm] at low ⊢
    exact Int.mul_le_mul_of_nonneg_right (Int.le_ediv_of_mul_le (by omega) low) (by omega)
  generalize MemoryMap.page self.geometry.writePageSize [self.geometry.erasedValue] chunk = paged at low ⊢
  rw [byteFor, valueAt]
  dsimp only
  by_cases behind : paged.1 ≤ self.geometry.address + k
  · rw [if_pos (by omega), if_pos behind]
    rw [show k - (paged.1 - (self.geometry.address : Int)).toNat =
      ((self.geometry.address : Int) + k - paged.1).toNat by omega]
  · rw [if_neg (by omega), if_neg behind]

theorem planned_byte {self : Flash} {regionMap : MemoryMap}
    (above : ∀ chunk ∈ regionMap.chunks, (self.geometry.address : Int) ≤ chunk.1) {step : Nat × Bytes}
    (member : step ∈ self.planned regionMap) {k : Nat} {byte : UInt8} (here : byteFor k step = some byte) :
    ∃ chunk ∈ regionMap.simplified.chunks, valueAt (self.geometry.address + k)
      (MemoryMap.page self.geometry.writePageSize [self.geometry.erasedValue] chunk) = some byte := by
  obtain ⟨paged, place, piece⟩ := List.mem_flatMap.mp member
  obtain ⟨chunk, source, rfl⟩ := List.mem_map.mp place
  exact ⟨chunk, source, (byteFor_page above source k byte).mp (byteFor_pieces piece here)⟩

/-- The cells under the image get its bytes, if they and the fill have the bits for it. -/
theorem planned_cells {self : Flash} {regionMap : MemoryMap} (apart : Separated regionMap.chunks)
    (above : ∀ chunk ∈ regionMap.chunks, (self.geometry.address : Int) ≤ chunk.1) {k : Nat} {value : UInt8}
    (image : lookup (self.geometry.address + k) regionMap.chunks = some value)
    (fills : self.geometry.erasedValue &&& value = value) {flash : Flash} (has : flash.cells k &&& value = value) :
    ((self.planned regionMap).foldl (fun flash step => flash.write step.1 step.2) flash).cells k = value := by
  have positive := self.writePage_pos
  have merged : lookup (self.geometry.address + k) regionMap.simplified.chunks = some value := by
    rw [MemoryMap.lookup_simplified, sorted_separated apart, image]
  have inOrder := MemoryMap.separated_simplified regionMap
  have keeps := @writes_keep value k (self.planned regionMap) (by
    intro step member byte here
    obtain ⟨chunk, source, written⟩ := planned_byte above member here
    by_cases covers : Covers (self.geometry.address + k) chunk
    · rw [(MemoryMap.valueAt_page positive _ chunk _).1 covers,
        ← lookup_separated inOrder source covers, merged] at written
      rw [← Option.some.inj written, UInt8.and_self]
    · rw [(MemoryMap.valueAt_page positive _ chunk _).2 covers byte written]
      exact fills) flash has
  have clears := @writes_clear value k (self.planned regionMap) flash (by
    have covered : (lookup (self.geometry.address + k) regionMap.simplified.chunks).isSome := by
      rw [merged]
      rfl
    obtain ⟨chunk, source, covers⟩ := lookup_isSome.mp covered
    have here : valueAt (self.geometry.address + k)
        (MemoryMap.page self.geometry.writePageSize [self.geometry.erasedValue] chunk) = some value := by
      rw [(MemoryMap.valueAt_page positive _ chunk _).1 covers, ← lookup_separated inOrder source covers, merged]
    obtain ⟨step, piece, written⟩ := pieces_byteFor positive ((byteFor_page above source k value).mpr here)
    exact .inr ⟨step, List.mem_flatMap.mpr ⟨_, List.mem_map_of_mem source, piece⟩, written⟩)
  exact clears.symm.trans keeps

/-- An erased cell that the image does not cover stays erased. -/
theorem planned_spares {self : Flash} {regionMap : MemoryMap}
    (above : ∀ chunk ∈ regionMap.chunks, (self.geometry.address : Int) ≤ chunk.1) {k : Nat}
    (spare : lookup (self.geometry.address + k) regionMap.chunks = none) {flash : Flash}
    (erased : flash.cells k = self.geometry.erasedValue) :
    ((self.planned regionMap).foldl (fun flash step => flash.write step.1 step.2) flash).cells k =
      self.geometry.erasedValue := by
  have fill : ∀ step ∈ self.planned regionMap, ∀ byte, byteFor k step = some byte →
      byte = self.geometry.erasedValue := by
    intro step member byte here
    obtain ⟨chunk, source, written⟩ := planned_byte above member here
    have outside : ¬Covers (self.geometry.address + k) chunk := by
      intro covers
      have covered : (lookup (self.geometry.address + k) regionMap.simplified.chunks).isSome :=
        lookup_isSome.mpr ⟨chunk, source, covers⟩
      rw [MemoryMap.lookup_simplified, lookup_sorted_isSome, spare] at covered
      cases covered
    exact (MemoryMap.valueAt_page self.writePage_pos _ chunk _).2 outside byte written
  generalize self.planned regionMap = steps at fill ⊢
  induction steps generalizing flash with
  | nil => exact erased
  | cons step steps ih =>
    refine ih ?_ fun later member => fill later (List.mem_cons_of_mem _ member)
    rw [write_cells]
    cases here : byteFor k step with
    | none => exact erased
    | some byte =>
      dsimp only
      rw [fill step List.mem_cons_self byte here, erased, UInt8.and_self]

theorem program_geometry (self : Flash) (regionMap : MemoryMap) : (self.program regionMap).geometry = self.geometry := by
  have kept : ∀ (steps : List (Nat × Bytes)) (flash : Flash),
      (steps.foldl (fun flash step => flash.write step.1 step.2) flash).geometry = flash.geometry := by
    intro steps
    induction steps with
    | nil => exact fun flash => rfl
    | cons step steps ih => exact fun flash => ih _
  rw [program, kept]
  split
  · rfl
  · exact eraseFor_geometry self regionMap

/-- A flash that is not erased must have the bits of the image already. -/
def Has (self : Flash) (a : Int) (value : UInt8) : Prop :=
  self.geometry.erasedValue &&& value = value ∧
    (self.isBlank = true → self.cells (a - self.geometry.address).toNat &&& value = value)

theorem program_cells {self : Flash} {regionMap : MemoryMap} (apart : Separated regionMap.chunks)
    (above : ∀ chunk ∈ regionMap.chunks, (self.geometry.address : Int) ≤ chunk.1) {k : Nat} {value : UInt8}
    (image : lookup (self.geometry.address + k) regionMap.chunks = some value)
    (has : self.Has (self.geometry.address + k) value) : (self.program regionMap).cells k = value := by
  rw [program]
  split
  · rename_i blank
    have here := has.2 blank
    rw [show ((self.geometry.address : Int) + k - self.geometry.address).toNat = k by omega] at here
    exact planned_cells apart above image has.1 here
  · have covered : (lookup (self.geometry.address + k) regionMap.chunks).isSome := by
      rw [image]
      rfl
    obtain ⟨chunk, member, covers⟩ := lookup_isSome.mp covered
    have erased := eraseFor_cells member (above chunk member) covers
    have geometry := eraseFor_geometry self regionMap
    refine planned_cells apart ?_ ?_ ?_ ?_
    · rw [geometry]
      exact above
    · rw [geometry]
      exact image
    · rw [geometry]
      exact has.1
    · rw [erased]
      exact has.1

theorem program_spares {self : Flash} {regionMap : MemoryMap}
    (above : ∀ chunk ∈ regionMap.chunks, (self.geometry.address : Int) ≤ chunk.1) {k : Nat}
    (spare : lookup (self.geometry.address + k) regionMap.chunks = none)
    (erased : self.cells k = self.geometry.erasedValue) :
    (self.program regionMap).cells k = self.geometry.erasedValue := by
  rw [program]
  split
  · exact planned_spares above spare erased
  · have geometry := eraseFor_geometry self regionMap
    have again : (self.eraseFor regionMap).cells k = self.geometry.erasedValue := by
      rw [eraseFor, erase_cells, erased, ite_self]
    rw [← geometry] at above spare again ⊢
    exact planned_spares above spare again

end Flash

end Acrobe.Target
