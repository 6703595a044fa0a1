import Acrobe.Lib.LittleEndian
import Acrobe.Lib.Overlay

/-!
# Memory maps

A `MemoryMap` is a list of chunks, of which later ones overwrite earlier ones. `simplified` merges those that overlap
or touch, in the order of their addresses.
-/

namespace Acrobe.Target
open LittleEndian Overlay

structure MemoryMap where
  chunks : List (Chunk UInt8)
  deriving DecidableEq

namespace MemoryMap

/-- The loop of `simplified`. -/
def merge (out : List (Chunk UInt8)) (curAddr : Int) (curData : Bytes) : List (Chunk UInt8) → List (Chunk UInt8)
  | [] => out ++ [(curAddr, curData)]
  | (addr, data) :: rest =>
    let curEnd := curAddr + curData.length
    if addr ≤ curEnd then
      let newEnd := max curEnd (addr + data.length)
      let curData := if curEnd < newEnd then curData ++ List.replicate (newEnd - curEnd).toNat 0 else curData
      merge out curAddr (splice curData (addr - curAddr).toNat data) rest
    else merge (out ++ [(curAddr, curData)]) addr data rest

def simplified (self : MemoryMap) : MemoryMap :=
  match sorted self.chunks with
  | [] => ⟨[]⟩
  | (curAddr, cur) :: rest => ⟨merge [] curAddr cur rest⟩

/-- One pass of the loop of `read`. -/
def readChunk (address : Int) (size : Nat) (result : Bytes) (chunk : Chunk UInt8) : Bytes :=
  let start := max address chunk.1
  let stop := min (address + size) (Overlay.stop chunk)
  if stop ≤ start then result
  else
    let srcOffset := (start - chunk.1).toNat
    let dstOffset := (start - address).toNat
    let length := (stop - start).toNat
    splice result dstOffset ((chunk.2.drop srcOffset).take length)

def read (self : MemoryMap) (address : Int) (size : Nat) : Bytes :=
  self.chunks.foldl (readChunk address size) (List.replicate size 0)

/-! ### Reading -/

theorem length_readChunk {address : Int} {size : Nat} {result : Bytes} (whole : result.length = size)
    (chunk : Chunk UInt8) : (readChunk address size result chunk).length = size := by
  rw [readChunk, Overlay.stop]
  dsimp only
  split
  · exact whole
  · rw [length_splice, whole]
    rw [List.length_take, List.length_drop, whole]
    omega

theorem getElem?_readChunk {address : Int} {size : Nat} {result : Bytes} (whole : result.length = size)
    (chunk : Chunk UInt8) (k : Nat) (below : k < size) :
    (readChunk address size result chunk)[k]? = (valueAt (address + k) chunk).or result[k]? := by
  rw [readChunk]
  dsimp only
  split
  · rename_i apart
    have outside : ¬Covers (address + k) chunk := by
      rw [Covers]
      omega
    rw [valueAt_eq_none.mpr outside, Option.none_or]
  · rename_i meets
    have piece : ((chunk.2.drop (max address chunk.1 - chunk.1).toNat).take
        (min (address + size) (stop chunk) - max address chunk.1).toNat).length =
        (min (address + size) (stop chunk) - max address chunk.1).toNat := by
      rw [List.length_take, List.length_drop]
      rw [stop] at meets ⊢
      omega
    rw [getElem?_splice (by rw [piece, whole]; omega), piece]
    by_cases covers : Covers (address + k) chunk
    · obtain ⟨value, present⟩ := Option.isSome_iff_exists.mp (valueAt_isSome.mpr covers)
      rw [Covers] at covers
      rw [if_pos (by omega), present, Option.some_or, List.getElem?_take_of_lt (by omega), List.getElem?_drop, ← present,
        valueAt, if_pos covers.1]
      congr 1
      omega
    · rw [valueAt_eq_none.mpr covers, Option.none_or]
      rw [Covers] at covers
      rw [if_neg (by omega)]

theorem foldl_readChunk (address : Int) (size : Nat) (chunks : List (Chunk UInt8)) {result : Bytes}
    (whole : result.length = size) (k : Nat) (below : k < size) :
    (chunks.foldl (readChunk address size) result)[k]? = (lookup (address + k) chunks).or result[k]? := by
  induction chunks generalizing result with
  | nil => rw [lookup, Option.none_or]; rfl
  | cons chunk chunks ih =>
    rw [List.foldl_cons, ih (length_readChunk whole chunk), getElem?_readChunk whole chunk k below, lookup, Option.or_assoc]

theorem length_foldl_readChunk (address : Int) (size : Nat) (chunks : List (Chunk UInt8)) {result : Bytes}
    (whole : result.length = size) : (chunks.foldl (readChunk address size) result).length = size := by
  induction chunks generalizing result with
  | nil => exact whole
  | cons chunk chunks ih => exact ih (length_readChunk whole chunk)

theorem getElem?_read (self : MemoryMap) (address : Int) {size k : Nat} (below : k < size) :
    (self.read address size)[k]? = some ((lookup (address + k) self.chunks).getD 0) := by
  rw [read, foldl_readChunk address size self.chunks List.length_replicate k below, List.getElem?_replicate, if_pos below]
  cases lookup (address + k) self.chunks <;> rfl

theorem read_eq_iff (one other : MemoryMap) : (∀ address size, one.read address size = other.read address size) ↔
    ∀ a, (lookup a one.chunks).getD 0 = (lookup a other.chunks).getD 0 := by
  constructor
  · intro same a
    have here : (one.read a 1)[0]? = (other.read a 1)[0]? := by rw [same]
    rw [getElem?_read one a Nat.one_pos, getElem?_read other a Nat.one_pos] at here
    simpa using Option.some.inj here
  · intro same address size
    apply List.ext_getElem?
    intro k
    by_cases below : k < size
    · rw [getElem?_read one address below, getElem?_read other address below, same]
    · rw [List.getElem?_eq_none, List.getElem?_eq_none]
      · rw [read, length_foldl_readChunk address size _ List.length_replicate]
        omega
      · rw [read, length_foldl_readChunk address size _ List.length_replicate]
        omega

/-! ### Merging -/

theorem valueAt_merged {curAddr addr : Int} {curData data : Bytes} (after : curAddr ≤ addr)
    (touches : addr ≤ curAddr + curData.length) (a : Int) :
    let curEnd := curAddr + (curData.length : Int)
    let newEnd := max curEnd (addr + data.length)
    valueAt a (curAddr, splice (if curEnd < newEnd then curData ++ List.replicate (newEnd - curEnd).toNat 0 else curData)
        (addr - curAddr).toNat data) = (valueAt a (addr, data)).or (valueAt a (curAddr, curData)) := by
  intro curEnd newEnd
  generalize grown : (if curEnd < newEnd then curData ++ List.replicate (newEnd - curEnd).toNat 0 else curData) = whole
  have length : (whole.length : Int) = newEnd - curAddr := by
    rw [← grown]
    split
    · rw [List.length_append, List.length_replicate]
      omega
    · omega
  have front : ∀ k, k < curData.length → whole[k]? = curData[k]? := by
    intro k below
    rw [← grown]
    split
    · exact List.getElem?_append_left below
    · rfl
  by_cases before : a < curAddr
  · rw [valueAt, if_neg (by dsimp only; omega), valueAt, if_neg (by dsimp only; omega), valueAt, if_neg (by dsimp only; omega)]
    rfl
  · rw [valueAt, if_pos (by dsimp only; omega), getElem?_splice (by omega)]
    dsimp only
    by_cases covers : Covers a (addr, data)
    · obtain ⟨value, present⟩ := Option.isSome_iff_exists.mp (valueAt_isSome.mpr covers)
      rw [Covers, stop] at covers
      dsimp only at covers
      rw [if_pos (by omega), present, Option.some_or, ← present, valueAt, if_pos covers.1]
      dsimp only
      congr 1
      omega
    · rw [valueAt_eq_none.mpr covers, Option.none_or]
      rw [Covers, stop] at covers
      dsimp only at covers
      rw [if_neg (by omega), valueAt, if_pos (by omega)]
      dsimp only
      by_cases inside : (a - curAddr).toNat < curData.length
      · exact front _ inside
      · rw [List.getElem?_eq_none (by omega), List.getElem?_eq_none (by omega)]

theorem lookup_merge (a : Int) {out rest : List (Chunk UInt8)} {curAddr : Int} {curData : Bytes}
    (above : ∀ chunk ∈ rest, curAddr ≤ chunk.1) (order : rest.Pairwise ByAddress) :
    lookup a (merge out curAddr curData rest) = lookup a (out ++ (curAddr, curData) :: rest) := by
  induction rest generalizing out curAddr curData with
  | nil => rfl
  | cons chunk rest ih =>
    obtain ⟨addr, data⟩ := chunk
    obtain ⟨behind, later⟩ := List.pairwise_cons.mp order
    have after : curAddr ≤ addr := above (addr, data) List.mem_cons_self
    rw [merge]
    dsimp only
    split
    · rename_i touches
      rw [ih (fun chunk member => above chunk (List.mem_cons_of_mem _ member)) later, lookup_append, lookup_append,
        lookup, lookup, lookup, valueAt_merged after touches a]
      simp only [Option.or_assoc]
    · rw [ih (fun chunk member => behind chunk member) later, List.append_assoc]
      rfl

theorem separated_merge {out rest : List (Chunk UInt8)} {curAddr : Int} {curData : Bytes}
    (apart : Separated out) (below : ∀ chunk ∈ out, stop chunk < curAddr) :
    Separated (merge out curAddr curData rest) := by
  induction rest generalizing out curAddr curData with
  | nil =>
    refine List.pairwise_append.mpr ⟨apart, List.pairwise_singleton _ _, fun front member back last => ?_⟩
    rw [List.mem_singleton.mp last]
    exact below front member
  | cons chunk rest ih =>
    obtain ⟨addr, data⟩ := chunk
    rw [merge]
    dsimp only
    split
    · exact ih apart below
    · rename_i gap
      refine ih ?_ fun front member => ?_
      · refine List.pairwise_append.mpr ⟨apart, List.pairwise_singleton _ _, fun front member back last => ?_⟩
        rw [List.mem_singleton.mp last]
        exact below front member
      · rcases List.mem_append.mp member with old | last
        · have before := below front old
          omega
        · rw [List.mem_singleton.mp last, stop]
          exact Int.lt_of_not_ge gap

theorem lookup_simplified (self : MemoryMap) (a : Int) :
    lookup a self.simplified.chunks = lookup a (sorted self.chunks) := by
  rw [simplified]
  have order := pairwise_sorted self.chunks
  split
  · rename_i nothing
    rw [nothing]
  · rename_i curAddr cur rest some_
    rw [some_] at order ⊢
    obtain ⟨above, later⟩ := List.pairwise_cons.mp order
    exact lookup_merge a above later

theorem separated_simplified (self : MemoryMap) : Separated self.simplified.chunks := by
  rw [simplified]
  split
  · exact List.Pairwise.nil
  · exact separated_merge List.Pairwise.nil nofun

/-- At every address, the last chunk of the list and the one that starts last say the same. -/
def Agrees (self : MemoryMap) : Prop :=
  ∀ a, (topmost a self.chunks).bind (valueAt a) = (lastCovering a self.chunks).bind (valueAt a)

theorem agrees_iff (self : MemoryMap) :
    self.Agrees ↔ ∀ a, lookup a (sorted self.chunks) = lookup a self.chunks := by
  rw [Agrees]
  refine forall_congr' fun a => ?_
  rw [lookup_sorted, lookup_eq a self.chunks]

/-- The picture is kept just where the order of the addresses makes no difference. -/
theorem simplified_iff (self : MemoryMap) :
    ((∀ address size, self.simplified.read address size = self.read address size) ∧
      Separated self.simplified.chunks) ↔ self.Agrees := by
  rw [agrees_iff, read_eq_iff]
  constructor
  · rintro ⟨same, -⟩ a
    have here := same a
    have covered := lookup_sorted_isSome a self.chunks
    rw [lookup_simplified] at here
    cases one : lookup a (sorted self.chunks) <;> cases other : lookup a self.chunks
    · rfl
    · rw [one, other] at covered
      cases covered
    · rw [one, other] at covered
      cases covered
    · rw [one, other] at here
      exact congrArg some here
  · intro agrees
    refine ⟨fun a => ?_, separated_simplified self⟩
    rw [lookup_simplified, agrees]

/-- A chunk that is appended last, and covers one that starts later. -/
theorem nested_chunk_wins :
    ¬∀ (self : MemoryMap) (address : Int) (size : Nat), self.simplified.read address size = self.read address size := by
  intro same
  have here := same ⟨[(2, [0xAA]), (0, [1, 2, 3, 4])]⟩ 2 1
  revert here
  decide

end MemoryMap

end Acrobe.Target
