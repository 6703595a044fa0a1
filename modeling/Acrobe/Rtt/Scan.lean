import Mathlib
import Acrobe.Lib.ByteMemory
import Acrobe.Rtt.Descriptor

/-!
# The search for the control block

The host reads its memory in chunks that overlap and looks for the magic at every fourth byte of a
chunk. It finds the lowest aligned place of the magic if the memory begins at an aligned address and
a chunk has room for the magic.
-/

namespace Acrobe.Rtt
open Acrobe.Lib

/-- `RTT_MAGIC`: `b"SEGGER RTT"` and six zeros. -/
def rttMagic : List UInt8 := [0x53, 0x45, 0x47, 0x47, 0x45, 0x52, 0x20, 0x52, 0x54, 0x54, 0, 0, 0, 0, 0, 0]

def rttMagicLen : Nat := rttMagic.length

/-- `for offset in range(0, len(chunk) - RTT_MAGIC_LEN + 1, 4)`, up to the first match. -/
def findMagic (chunk : List UInt8) : Option Nat :=
  ((List.range ((chunk.length + 1 - rttMagicLen + 3) / 4)).map (4 * ·)).find? fun offset =>
    (chunk.drop offset).take rttMagicLen == rttMagic

/-- The loop of `scan`: nothing while it is running, then the address or the text of the error. -/
def scanFrom (memory : ByteMemory) (scanChunk : Nat) (ram : Ram) : Nat → Nat → Option (Except String Nat)
  | 0, _ => none
  | fuel + 1, cursor =>
    let chunkEnd := min (cursor + scanChunk) ram.stop
    if chunkEnd - cursor < rttMagicLen then some (.error s!"SEGGER RTT magic not found in {ram.name}")
    else
      match findMagic (memory.read cursor (chunkEnd - cursor)) with
      | some offset => some (.ok (cursor + offset))
      | none =>
        if chunkEnd = ram.stop then some (.error s!"SEGGER RTT magic not found in {ram.name}")
        else scanFrom memory scanChunk ram fuel ((chunkEnd - (rttMagicLen - 1) + 3) / 4 * 4)

def scan (memory : ByteMemory) (scanChunk : Nat) (ram : Ram) (fuel : Nat) : Option (Except String Nat) :=
  scanFrom memory scanChunk ram fuel ram.address

/-! ### Occurrences -/

/-- The whole magic at an address below `stop`. -/
def Occurs (memory : ByteMemory) (stop addr : Nat) : Prop :=
  addr + rttMagicLen ≤ stop ∧ memory.read addr rttMagicLen = rttMagic

/-- The aligned places of the magic from `first` on. -/
def places (memory : ByteMemory) (first stop : Nat) : Set Nat :=
  {addr | first ≤ addr ∧ addr % 4 = 0 ∧ Occurs memory stop addr}

/-- The lowest of the addresses, or an error when there is none. -/
def Reports (addrs : Set Nat) : Except String Nat → Prop
  | .ok addr => IsLeast addrs addr
  | .error _ => addrs = ∅

variable {memory : ByteMemory} {scanChunk cursor : Nat} {ram : Ram}

theorem findMagic_some {size offset : Nat} (found : findMagic (memory.read cursor size) = some offset) :
    offset % 4 = 0 ∧ Occurs memory (cursor + size) (cursor + offset) ∧
      ∀ k, 4 * k < offset → ¬Occurs memory (cursor + size) (cursor + 4 * k) := by
  unfold findMagic at found
  rw [List.find?_map, Option.map_eq_some_iff] at found
  obtain ⟨k, found, rfl⟩ := found
  obtain ⟨matched, member, before⟩ := List.find?_range_eq_some.mp found
  rw [ByteMemory.length_read] at member
  have inside := List.mem_range.mp member
  have length : rttMagicLen = 16 := rfl
  have fits : 4 * k + rttMagicLen ≤ size := by omega
  refine ⟨Nat.mul_mod_right 4 k, ⟨by omega, ?_⟩, ?_⟩
  · rw [Function.comp_apply, beq_iff_eq, ByteMemory.read_slice memory cursor fits] at matched
    exact matched
  · intro j early occurs
    have missed := before j (by omega)
    rw [Function.comp_apply, ByteMemory.read_slice memory cursor (by omega), occurs.2] at missed
    simp at missed

theorem findMagic_none {size : Nat} (missing : findMagic (memory.read cursor size) = none) (k : Nat) :
    ¬Occurs memory (cursor + size) (cursor + 4 * k) := by
  intro occurs
  unfold findMagic at missing
  rw [List.find?_map, Option.map_eq_none_iff, ByteMemory.length_read] at missing
  have fits := occurs.1
  have length : rttMagicLen = 16 := rfl
  have missed := List.find?_range_eq_none.mp missing k (by omega)
  rw [Function.comp_apply, ByteMemory.read_slice memory cursor (by omega), occurs.2] at missed
  simp at missed

theorem Occurs.mono {low high addr : Nat} (occurs : Occurs memory low addr) (wider : low ≤ high) :
    Occurs memory high addr := ⟨occurs.1.trans wider, occurs.2⟩

/-! ### The loop -/

theorem scanFrom_mono {fuel more : Nat} {found : Except String Nat}
    (done : scanFrom memory scanChunk ram fuel cursor = some found) (enough : fuel ≤ more) :
    scanFrom memory scanChunk ram more cursor = some found := by
  induction fuel generalizing cursor more with
  | zero => cases done
  | succ fuel ih =>
    obtain ⟨more, rfl⟩ : ∃ m, more = m + 1 := ⟨more - 1, by omega⟩
    unfold scanFrom at done ⊢
    dsimp only at done ⊢
    split
    · next short => rwa [if_pos short] at done
    · next room =>
      rw [if_neg room] at done
      split
      · next offset matched => rwa [matched] at done
      · next missing =>
        rw [missing] at done
        dsimp only at done
        split
        · next last => rwa [if_pos last] at done
        · next further =>
          rw [if_neg further] at done
          exact ih done (by omega)

theorem aligned_step {addr : Nat} (aligned : cursor % 4 = 0) (place : addr % 4 = 0) (after : cursor ≤ addr) :
    ∃ k, addr = cursor + 4 * k := ⟨(addr - cursor) / 4, by omega⟩

theorem scanFrom_aligned (room : rttMagicLen ≤ scanChunk) (aligned : cursor % 4 = 0) {fuel : Nat}
    (enough : ram.stop - cursor < fuel) :
    ∃ found, scanFrom memory scanChunk ram fuel cursor = some found ∧ Reports (places memory cursor ram.stop) found := by
  have length : rttMagicLen = 16 := rfl
  induction fuel generalizing cursor with
  | zero => omega
  | succ fuel ih =>
    unfold scanFrom
    dsimp only
    split
    · next short =>
      refine ⟨_, rfl, Set.eq_empty_of_forall_notMem ?_⟩
      intro addr place
      have fits := place.2.2.1
      have after := place.1
      omega
    · next long =>
      have whole : cursor + (min (cursor + scanChunk) ram.stop - cursor) = min (cursor + scanChunk) ram.stop := by
        omega
      split
      · next offset matched =>
        obtain ⟨multiple, occurs, before⟩ := findMagic_some matched
        rw [whole] at occurs before
        refine ⟨_, rfl, ⟨by omega, by omega, occurs.mono (Nat.min_le_right ..)⟩, ?_⟩
        intro addr place
        obtain ⟨after, other, here⟩ := place
        by_contra early
        obtain ⟨k, rfl⟩ := aligned_step aligned other after
        exact before k (by omega) ⟨by have fits := occurs.1; omega, here.2⟩
      · next missing =>
        have none := findMagic_none missing
        rw [whole] at none
        split
        · next last =>
          refine ⟨_, rfl, Set.eq_empty_of_forall_notMem ?_⟩
          intro addr place
          obtain ⟨after, other, here⟩ := place
          obtain ⟨k, rfl⟩ := aligned_step aligned other after
          rw [last] at none
          exact none k here
        · next further =>
          obtain ⟨found, done, reports⟩ := @ih ((min (cursor + scanChunk) ram.stop - (rttMagicLen - 1) + 3) / 4 * 4)
            (Nat.mul_mod_left ..) (by omega)
          refine ⟨found, done, ?_⟩
          have same : places memory ((min (cursor + scanChunk) ram.stop - (rttMagicLen - 1) + 3) / 4 * 4) ram.stop =
              places memory cursor ram.stop := by
            ext addr
            constructor
            · intro place
              exact ⟨by have after := place.1; omega, place.2⟩
            · intro place
              obtain ⟨after, other, here⟩ := place
              refine ⟨?_, other, here⟩
              by_contra early
              obtain ⟨k, rfl⟩ := aligned_step aligned other after
              exact none k ⟨by omega, here.2⟩
          rwa [← same]

/-! ### Unaligned memories and small chunks -/

/-- Where the second read begins, or the end of the memory when there is none. -/
def resume (scanChunk : Nat) (ram : Ram) : Nat :=
  if scanChunk < rttMagicLen ∨ ram.stop ≤ ram.address + scanChunk then ram.stop
  else (ram.address + scanChunk - (rttMagicLen - 1) + 3) / 4 * 4

/-- The magic is neither where the first read is searched nor at an aligned place that only this
read could find. -/
structure Spared (memory : ByteMemory) (scanChunk : Nat) (ram : Ram) : Prop where
  searched : rttMagicLen ≤ scanChunk → ∀ k, ¬Occurs memory (min (ram.address + scanChunk) ram.stop) (ram.address + 4 * k)
  skipped : ∀ addr, ram.address ≤ addr → addr < resume scanChunk ram → addr % 4 = 0 → ¬Occurs memory ram.stop addr

theorem not_occurs_empty {start stop : Nat} : places memory start stop = ∅ ↔
    ∀ addr, start ≤ addr → addr < stop → addr % 4 = 0 → ¬Occurs memory stop addr := by
  have length : rttMagicLen = 16 := rfl
  rw [Set.eq_empty_iff_forall_notMem]
  constructor
  · intro empty addr after _ aligned occurs
    exact empty addr ⟨after, aligned, occurs⟩
  · intro missing addr place
    have fits := place.2.2.1
    exact missing addr place.1 (by omega) place.2.1 place.2.2

theorem empty_iff_spared (ends : resume scanChunk ram = ram.stop)
    (searched : rttMagicLen ≤ scanChunk →
      ∀ k, ¬Occurs memory (min (ram.address + scanChunk) ram.stop) (ram.address + 4 * k)) :
    places memory ram.address ram.stop = ∅ ↔ Spared memory scanChunk ram := by
  rw [not_occurs_empty]
  constructor
  · intro missing
    exact ⟨searched, by rwa [ends]⟩
  · intro spared
    have skipped := spared.skipped
    rwa [ends] at skipped

theorem reports_later {start next stop : Nat} {found : Except String Nat} (later : start ≤ next)
    (reports : Reports (places memory next stop) found) :
    Reports (places memory start stop) found ↔
      ∀ addr, start ≤ addr → addr < next → addr % 4 = 0 → ¬Occurs memory stop addr := by
  have merge : (∀ addr, start ≤ addr → addr < next → addr % 4 = 0 → ¬Occurs memory stop addr) →
      places memory start stop = places memory next stop := by
    intro missing
    ext addr
    constructor
    · intro place
      obtain ⟨after, aligned, occurs⟩ := place
      refine ⟨?_, aligned, occurs⟩
      by_contra early
      exact missing addr after (by omega) aligned occurs
    · intro place
      exact ⟨later.trans place.1, place.2⟩
  constructor
  · intro lowest addr after early aligned occurs
    cases found with
    | error text =>
      have empty : places memory start stop = ∅ := lowest
      exact Set.eq_empty_iff_forall_notMem.mp empty addr ⟨after, aligned, occurs⟩
    | ok first =>
      have low := lowest.2 ⟨after, aligned, occurs⟩
      have high := reports.1.1
      omega
  · intro missing
    rwa [merge missing]

theorem scan_small (small : scanChunk < rttMagicLen) {fuel : Nat} (enough : 0 < fuel) :
    scan memory scanChunk ram fuel = some (.error s!"SEGGER RTT magic not found in {ram.name}") := by
  obtain ⟨fuel, rfl⟩ : ∃ n, fuel = n + 1 := ⟨fuel - 1, by omega⟩
  unfold scan scanFrom
  dsimp only
  rw [if_pos (by omega)]

/-- From an unaligned address: what the first read finds, or the places from the second read on. -/
theorem scan_unaligned (room : rttMagicLen ≤ scanChunk) (unaligned : ram.address % 4 ≠ 0) {fuel : Nat}
    (enough : ram.stop - ram.address < fuel) :
    ∃ found, scan memory scanChunk ram fuel = some found ∧
      (Reports (places memory ram.address ram.stop) found ↔ Spared memory scanChunk ram) := by
  have length : rttMagicLen = 16 := rfl
  obtain ⟨fuel, rfl⟩ : ∃ n, fuel = n + 1 := ⟨fuel - 1, by omega⟩
  unfold scan scanFrom
  dsimp only
  split
  · next short =>
    have ends : resume scanChunk ram = ram.stop := if_pos (by omega)
    refine ⟨_, rfl, empty_iff_spared ends ?_⟩
    intro _ k occurs
    have fits := occurs.1
    omega
  · next long =>
    have whole : ram.address + (min (ram.address + scanChunk) ram.stop - ram.address) =
        min (ram.address + scanChunk) ram.stop := by omega
    split
    · next offset matched =>
      obtain ⟨multiple, occurs, -⟩ := findMagic_some matched
      rw [whole] at occurs
      refine ⟨_, rfl, ?_⟩
      constructor
      · intro lowest
        have aligned := lowest.1.2.1
        omega
      · intro spared
        have step : ram.address + 4 * (offset / 4) = ram.address + offset := by omega
        have missing := spared.searched room (offset / 4)
        rw [step] at missing
        exact absurd occurs missing
    · next missing =>
      have none := findMagic_none missing
      rw [whole] at none
      split
      · next last =>
        have ends : resume scanChunk ram = ram.stop := if_pos (by omega)
        exact ⟨_, rfl, empty_iff_spared ends fun _ => none⟩
      · next further =>
        have ends : min (ram.address + scanChunk) ram.stop = ram.address + scanChunk := by omega
        have next : resume scanChunk ram = (ram.address + scanChunk - (rttMagicLen - 1) + 3) / 4 * 4 := if_neg (by omega)
        obtain ⟨found, done, reports⟩ := @scanFrom_aligned memory _ _ ram room
          (show resume scanChunk ram % 4 = 0 by rw [next]; exact Nat.mul_mod_left ..) fuel (by omega)
        rw [ends, ← next]
        refine ⟨found, done, ?_⟩
        rw [reports_later (by omega) reports]
        exact ⟨fun skipped => ⟨fun _ => none, skipped⟩, Spared.skipped⟩

/-- The scan ends, and it reports the lowest aligned place of the magic if and only if the memory is
aligned and a chunk has room for the magic, or the first read has nothing to miss. -/
theorem scan_lowest_iff (memory : ByteMemory) (scanChunk : Nat) (ram : Ram) :
    ∃ found, (∀ fuel, ram.stop - ram.address < fuel → scan memory scanChunk ram fuel = some found) ∧
      (Reports (places memory ram.address ram.stop) found ↔
        (ram.address % 4 = 0 ∧ rttMagicLen ≤ scanChunk) ∨ Spared memory scanChunk ram) := by
  have one : ∃ found, scan memory scanChunk ram (ram.stop - ram.address + 1) = some found ∧
      (Reports (places memory ram.address ram.stop) found ↔
        (ram.address % 4 = 0 ∧ rttMagicLen ≤ scanChunk) ∨ Spared memory scanChunk ram) := by
    by_cases room : rttMagicLen ≤ scanChunk
    · by_cases aligned : ram.address % 4 = 0
      · obtain ⟨found, done, reports⟩ := @scanFrom_aligned memory _ _ ram room aligned _ (Nat.lt_succ_self _)
        exact ⟨found, done, iff_of_true reports (Or.inl ⟨aligned, room⟩)⟩
      · obtain ⟨found, done, reports⟩ := @scan_unaligned memory _ ram room aligned _ (Nat.lt_succ_self _)
        refine ⟨found, done, reports.trans ?_⟩
        rw [or_iff_right (fun both => aligned both.1)]
    · refine ⟨_, scan_small (by omega) (Nat.succ_pos _), ?_⟩
      have ends : resume scanChunk ram = ram.stop := if_pos (Or.inl (by omega))
      rw [or_iff_right (fun both => room both.2)]
      exact empty_iff_spared ends fun large => absurd large room
  obtain ⟨found, done, reports⟩ := one
  refine ⟨found, ?_, reports⟩
  intro fuel enough
  exact scanFrom_mono done enough

/-- From address 2 the magic at address 4 is not looked at. -/
theorem scan_misses_aligned :
    (∀ fuel, 18 < fuel → scan (ByteMemory.write (fun _ => 0) 4 rttMagic) 4096 ⟨"ram", 2, 20⟩ fuel =
        some (.error "SEGGER RTT magic not found in ram")) ∧
      4 ∈ places (ByteMemory.write (fun _ => 0) 4 rttMagic) 2 20 := by
  constructor
  · intro fuel enough
    exact @scanFrom_mono _ _ _ _ 1 _ _ rfl (by omega)
  · exact ⟨by decide, by decide, by decide, by decide⟩

end Acrobe.Rtt
