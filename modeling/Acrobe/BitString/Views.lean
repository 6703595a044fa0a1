import Acrobe.BitString.SharingSound
import Acrobe.BitString.Concat

/-!
# Slice views

A view reads the data of its root. Its length, value and bytes are those of the bits in its range,
but an index is checked against the bytes of the root only, and so is the end of an iteration.
-/

namespace Acrobe.Sharing
open LittleEndian Exceptional
open Acrobe.Storage (BitStringSlice Ref Bits mask)
open Acrobe.BitString (toNat ofNat toNat_lt toNat_ofNat length_ofNat)

/-! ### The bits copied out -/

/-- The bytes that the `data` property of the object returns. -/
def Heap.dataOf (heap : Heap) (j : Nat) : Bytes :=
  match heap.objects[j]? with
  | some self => self.dataCache.getD (heap.flat self)
  | none => []

def bitsOf (data : Bytes) : Bits := ofNat (combine data) (8 * data.length)

def copied (data : Bytes) (view : BitStringSlice) : Bits := Acrobe.BitString.slice (bitsOf data) view.start view.stop

/-- Indexing a list of bits from either end. -/
def itemOf (bits : Bits) (idx : Int) : Except Error Bool :=
  if -bits.length ≤ idx ∧ idx < bits.length then
    match bits[(if idx < 0 then idx + bits.length else idx).toNat]? with
    | some bit => .ok bit
    | none => .error .indexError
  else .error .indexError

/-- The iteration of an object without `__iter__`: its items from `k` on, up to the first index error. -/
def iterate (impl : Impl) (ref : Ref) : Nat → Nat → Heap → Option (List Bool)
  | 0, _, _ => none
  | fuel + 1, k, heap =>
    match getItem impl ref k heap with
    | .ok bit after => (iterate impl ref fuel (k + 1) after).map (bit :: ·)
    | .error .indexError _ => some []
    | .error _ _ => none

/-- The view reads as the bits copied out: its length, the item at the index, the iteration, `int` and
`data`. -/
structure ReadsAs (heap : Heap) (i : Nat) (bits : Bits) (idx : Int) : Prop where
  len : (outcome (len (.slice i)) heap).1 = .ok bits.length
  item : (outcome (getItem .python (.slice i) idx) heap).1 = itemOf bits idx
  iteration : ∃ fuel, iterate .python (.slice i) fuel 0 heap = some bits
  int : (outcome (int .python (.slice i)) heap).1 = .ok (toNat bits)
  data : (outcome (data .python (.slice i)) heap).1 = .ok (Storage.Bits.pack bits)

/-! ### Reading the root -/

theorem pack_bitsOf (data : Bytes) : Storage.Bits.pack (bitsOf data) = data := by
  have small : combine data < 2 ^ (8 * data.length) := by
    have bound := combine_lt data
    rwa [Storage.two_pow_bytes] at bound
  rw [Storage.Bits.pack, bitsOf, toNat_ofNat, Nat.mod_eq_of_lt small, length_ofNat,
    show (8 * data.length + 7) / 8 = data.length by omega, split_combine]

/-- The data of the view's root can be read, now and again. -/
structure Readable (heap : Heap) (i : Nat) (view : BitStringSlice) (data : Bytes) : Prop where
  found : heap.slices[i]? = some view
  root : ∃ after, objectData .python view.bs heap = .ok data after ∧ after.slices = heap.slices ∧
    objectData .python view.bs after = .ok data after

theorem reached_readable {heap : Heap} {i : Nat} {view : BitStringSlice} (reached : Reached heap)
    (found : heap.slices[i]? = some view) : Readable heap i view (heap.dataOf view.bs) := by
  have rooted := reached.rooted view (List.mem_of_getElem? found)
  obtain ⟨self, stored⟩ : ∃ self, heap.objects[view.bs]? = some self := ⟨_, List.getElem?_eq_getElem rooted⟩
  have value : heap.dataOf view.bs = self.dataCache.getD (heap.flat self) := by rw [Heap.dataOf, stored]
  refine ⟨found, ?_⟩
  cases cached : self.dataCache with
  | some data =>
    have read := objectData_cached stored cached .python
    rw [value, cached, Option.getD_some]
    exact ⟨heap, read, rfl, read⟩
  | none =>
    have room := (reached.fits stored).room
    rw [value, cached, Option.getD_none]
    refine ⟨{ heap with objects := heap.objects.set view.bs { self with dataCache := some (heap.flat self) } }, ?_,
      rfl, ?_⟩
    · exact objectData_fill stored cached room .python
    · exact objectData_cached (List.getElem?_set_self rooted) rfl .python

/-! ### Items -/

/-- The bit of the root at a place counted from its start; a negative place counts from the end of its
bytes. -/
def rootItem (data : Bytes) (place : Int) : Except Error Bool :=
  match Storage.Heap.byteAt data (place / 8) with
  | .ok byte => .ok (byte.toNat &&& 1 <<< (place % 8).toNat != 0)
  | .error _ => .error .indexError

theorem byteAt_run (data : Bytes) (k : Int) (heap : Heap) :
    byteAt data k heap = match Storage.Heap.byteAt data k with
      | .ok byte => .ok byte heap
      | .error _ => .error .indexError heap := by
  rw [Storage.Heap.byteAt]
  unfold byteAt
  generalize (if k < 0 then k + data.length else k) = place
  by_cases negative : place < 0
  · rw [if_pos negative, if_pos negative]
    rfl
  · rw [if_neg negative, if_neg negative]
    cases data[place.toNat]? with
    | none => rfl
    | some byte => rfl

/-- The place in the root that an index of the view names. -/
def place (view : BitStringSlice) (idx : Int) : Int :=
  view.start + (if idx < 0 then idx + (view.stop - view.start : Nat) else idx)

section Readable
variable {heap : Heap} {i : Nat} {view : BitStringSlice} {data : Bytes}

theorem Readable.len (readable : Readable heap i view data) :
    len (.slice i) heap = .ok (view.stop - view.start) heap := by
  rw [Sharing.len, run_bind_ok (slice_run readable.found)]
  rfl

theorem Readable.getItem (readable : Readable heap i view data) :
    ∃ after, Readable after i view data ∧ ∀ idx, getItem .python (.slice i) idx heap =
      match rootItem data (place view idx) with
      | .ok bit => .ok bit after
      | .error error => .error error after := by
  obtain ⟨after, read, slices, again⟩ := readable.root
  refine ⟨after, ⟨slices ▸ readable.found, after, again, rfl, again⟩, ?_⟩
  intro idx
  rw [Sharing.getItem, run_bind_ok readable.len]
  change (slice i >>= fun base => Impl.cint .python (base.start + if idx < 0 then _ else idx) >>= fun absolute =>
    objectData .python base.bs >>= fun data => byteAt data (absolute / 8) >>= fun byte =>
      pure (byte.toNat &&& 1 <<< (absolute % 8).toNat != 0)) heap = _
  rw [run_bind_ok (slice_run readable.found)]
  change (objectData .python view.bs >>= fun data => byteAt data (place view idx / 8) >>= fun byte =>
    pure (byte.toNat &&& 1 <<< (place view idx % 8).toNat != 0)) heap = _
  rw [run_bind_ok read, rootItem]
  have byte := byteAt_run data (place view idx / 8) after
  cases found : Storage.Heap.byteAt data (place view idx / 8) with
  | ok value =>
    rw [found] at byte
    rw [run_bind_ok byte]
    rfl
  | error error =>
    rw [found] at byte
    rw [run_bind_error byte]

theorem rootItem_inside {k : Nat} {bit : Bool} (found : (bitsOf data)[k]? = some bit) :
    rootItem data k = .ok bit := by
  obtain ⟨byte, stored, tested⟩ := Storage.byteAt_pack found
  rw [pack_bitsOf] at stored
  rw [rootItem, show (k : Int) / 8 = (k / 8 : Nat) by omega, stored, show ((k : Int) % 8).toNat = k % 8 by omega]
  dsimp only
  rw [Nat.one_shiftLeft, Nat.and_two_pow, tested]
  cases bit <;> simp

theorem rootItem_outside {k : Int} (outside : ¬(-(data.length : Int) ≤ k / 8 ∧ k / 8 < data.length)) :
    rootItem data k = .error .indexError := by
  have missing : Storage.Heap.byteAt data (k / 8) = .error .indexError := by
    rw [Storage.Heap.byteAt]
    by_cases negative : k / 8 < 0
    · rw [if_pos negative, if_pos (by omega)]
    · rw [if_neg negative, if_neg (by omega), List.getElem?_eq_none (by omega)]
  rw [rootItem, missing]

theorem rootItem_bytes {k : Int} (inside : -(data.length : Int) ≤ k / 8 ∧ k / 8 < data.length) :
    ∃ bit, rootItem data k = .ok bit := by
  have place : ∃ j : Nat, (if k / 8 < 0 then k / 8 + data.length else k / 8) = j ∧ j < data.length := by
    split
    · exact ⟨(k / 8 + data.length).toNat, by omega, by omega⟩
    · exact ⟨(k / 8).toNat, by omega, by omega⟩
  obtain ⟨j, counted, below⟩ := place
  rw [rootItem, Storage.Heap.byteAt, counted, if_neg (by omega), Int.toNat_natCast, List.getElem?_eq_getElem below]
  exact ⟨_, rfl⟩

/-! ### Iteration -/

theorem length_bitsOf (data : Bytes) : (bitsOf data).length = 8 * data.length := length_ofNat _ _

theorem Readable.iterate (readable : Readable heap i view data) (fuel k : Nat) :
    iterate .python (.slice i) fuel k heap =
      if 8 * data.length - (view.start + k) < fuel then some ((bitsOf data).drop (view.start + k)) else none := by
  induction fuel generalizing k heap with
  | zero => rfl
  | succ fuel ih =>
    obtain ⟨after, next, items⟩ := readable.getItem
    have named : place view k = (view.start + k : Nat) := by
      rw [place, if_neg (by omega)]
      omega
    rw [Sharing.iterate, items k, named]
    by_cases inside : view.start + k < 8 * data.length
    · have within : view.start + k < (bitsOf data).length := by rwa [length_bitsOf]
      rw [rootItem_inside (List.getElem?_eq_getElem within)]
      dsimp only
      rw [ih next (k + 1)]
      by_cases enough : 8 * data.length - (view.start + k) < fuel + 1
      · rw [if_pos enough, if_pos (by omega), Option.map_some, List.drop_eq_getElem_cons within, Nat.add_assoc]
      · rw [if_neg enough, if_neg (by omega)]
        rfl
    · rw [rootItem_outside (by omega), if_pos (by omega), List.drop_eq_nil_of_le (by rw [length_bitsOf]; omega)]

theorem Readable.iteration_iff (readable : Readable heap i view data) (bits : Bits) :
    (∃ fuel, Sharing.iterate .python (.slice i) fuel 0 heap = some bits) ↔ bits = (bitsOf data).drop view.start := by
  constructor
  · rintro ⟨fuel, ended⟩
    rw [readable.iterate] at ended
    split at ended
    · exact (Option.some.inj ended).symm
    · cases ended
  · rintro rfl
    refine ⟨8 * data.length + 1, ?_⟩
    rw [readable.iterate, if_pos (by omega), Nat.add_zero]

theorem Readable.int (readable : Readable heap i view data) (ordered : view.start < view.stop)
    (inside : view.stop ≤ (bitsOf data).length) :
    ∃ after, int .python (.slice i) heap = .ok (toNat (copied data view)) after := by
  obtain ⟨after, read, -⟩ := readable.root
  have value := Storage.sliced_value inside (Nat.le_of_lt ordered)
  have blob : bytesBetween data (view.start / 8) (Impl.wrap .python (view.stop + 7) / 8) =
      (data.take ((view.stop + 7) / 8)).drop (view.start / 8) := by
    rw [bytesBetween, Impl.wrap, if_neg (by omega),
      show ((view.stop + 7 : Int) / 8).toNat = (view.stop + 7) / 8 by omega]
  rw [pack_bitsOf, Storage.fromBytes] at value
  refine ⟨after, ?_⟩
  rw [Sharing.int, run_bind_ok (slice_run readable.found), if_neg (by omega), run_bind_ok read, blob, value]
  rfl

theorem Readable.bytes (readable : Readable heap i view data) (ordered : view.start < view.stop)
    (inside : view.stop ≤ (bitsOf data).length) :
    ∃ after, Sharing.data .python (.slice i) heap = .ok (Storage.Bits.pack (copied data view)) after := by
  have length : (copied data view).length = view.stop - view.start := Storage.length_slice inside
  rw [Sharing.data, run_bind_ok (slice_run readable.found)]
  by_cases whole : view.start % 8 = 0 ∧ (view.stop - view.start) % 8 = 0
  · obtain ⟨after, read, -⟩ := readable.root
    have bytes := Storage.sliced_bytes inside (Nat.le_of_lt ordered) whole.1 whole.2
    rw [pack_bitsOf] at bytes
    refine ⟨after, ?_⟩
    rw [if_neg (by omega), if_pos whole, run_bind_ok read, bytes]
    rfl
  · obtain ⟨after, read⟩ := readable.int ordered inside
    refine ⟨after, ?_⟩
    have small := toNat_lt (copied data view)
    rw [if_neg (by omega), if_neg whole, run_bind_ok read, toBytes, if_pos, ← length]
    · rfl
    · rw [length] at small
      exact Nat.lt_of_lt_of_le small (Storage.pow_le_bytes (by omega))

end Readable

/-! ### The law -/

/-- The index is in the range of the view. -/
def InRange (view : BitStringSlice) (idx : Int) : Prop :=
  -((view.stop - view.start : Nat) : Int) ≤ idx ∧ idx < (view.stop - view.start : Nat)

/-- The byte that the index names is one of the root's bytes, counted from either end. -/
def InRoot (data : Bytes) (view : BitStringSlice) (idx : Int) : Prop :=
  -(data.length : Int) ≤ place view idx / 8 ∧ place view idx / 8 < data.length

theorem Readable.item_iff {heap : Heap} {i : Nat} {view : BitStringSlice} {data : Bytes}
    (readable : Readable heap i view data) (inside : view.stop ≤ (bitsOf data).length) (idx : Int) :
    (outcome (Sharing.getItem .python (.slice i) idx) heap).1 = itemOf (copied data view) idx ↔
      InRange view idx ∨ ¬InRoot data view idx := by
  have length : (copied data view).length = view.stop - view.start := Storage.length_slice inside
  obtain ⟨after, -, items⟩ := readable.getItem
  have read : (outcome (Sharing.getItem .python (.slice i) idx) heap).1 = rootItem data (place view idx) := by
    rw [outcome, items idx]
    cases rootItem data (place view idx) with
    | ok bit => rfl
    | error error => rfl
  rw [read, itemOf, length]
  by_cases within : InRange view idx
  · obtain ⟨k, named, below⟩ : ∃ k : Nat, (if idx < 0 then idx + (view.stop - view.start : Nat) else idx) = k ∧
        k < view.stop - view.start := by
      rw [InRange] at within
      exact ⟨(if idx < 0 then idx + (view.stop - view.start : Nat) else idx).toNat, by split <;> omega,
        by split <;> omega⟩
    have stored := List.getElem?_eq_getElem (by rwa [length] : k < (copied data view).length)
    have rooted : place view idx = (view.start + k : Nat) := by
      rw [place, named]
      omega
    have taken : -((view.stop - view.start : Nat) : Int) ≤ idx ∧ idx < (view.stop - view.start : Nat) := within
    rw [if_pos taken, named, Int.toNat_natCast, stored, rooted, rootItem_inside (Storage.getElem_slice stored)]
    exact ⟨fun _ => .inl within, fun _ => rfl⟩
  · have outside : ¬(-((view.stop - view.start : Nat) : Int) ≤ idx ∧ idx < (view.stop - view.start : Nat)) := within
    rw [if_neg outside]
    by_cases named : InRoot data view idx
    · obtain ⟨bit, found⟩ := rootItem_bytes named
      rw [found]
      constructor
      · intro same
        cases same
      · intro either
        exact absurd named (either.resolve_left within)
    · rw [rootItem_outside named]
      exact ⟨fun _ => .inr named, fun _ => rfl⟩

theorem Readable.reads_iff {heap : Heap} {i : Nat} {view : BitStringSlice} {data : Bytes}
    (readable : Readable heap i view data) (ordered : view.start < view.stop) (idx : Int) :
    ReadsAs heap i (copied data view) idx ↔
      view.stop = 8 * data.length ∧ (InRange view idx ∨ ¬InRoot data view idx) := by
  have total := length_bitsOf data
  have size : (copied data view).length = min view.stop (8 * data.length) - view.start := by
    rw [copied, Acrobe.BitString.slice, List.length_drop, List.length_take, total]
  have taken : (outcome (Sharing.len (.slice i)) heap).1 = .ok (view.stop - view.start) := by
    rw [outcome, readable.len]
  constructor
  · intro reads
    have len := reads.len
    rw [taken] at len
    have counted := Except.ok.inj len
    have inside : view.stop ≤ (bitsOf data).length := by omega
    have whole := congrArg List.length ((readable.iteration_iff _).mp reads.iteration)
    rw [List.length_drop, total] at whole
    exact ⟨by omega, (readable.item_iff inside idx).mp reads.item⟩
  · rintro ⟨last, either⟩
    have inside : view.stop ≤ (bitsOf data).length := by omega
    refine ⟨?_, (readable.item_iff inside idx).mpr either, (readable.iteration_iff _).mpr ?_, ?_, ?_⟩
    · rw [taken, size, last, Nat.min_self]
    · rw [copied, Acrobe.BitString.slice, List.take_of_length_le (by omega)]
    · obtain ⟨after, read⟩ := readable.int ordered inside
      rw [outcome, read]
    · obtain ⟨after, read⟩ := readable.bytes ordered inside
      rw [outcome, read]

/-- A view reads as its bits copied out exactly if it ends with the last byte of its root, and the index
is in its range or names no byte of the root at all. -/
theorem view_reads_iff (program : List Cmd) {i : Nat} {view : BitStringSlice}
    (found : (run .python .empty program).2.slices[i]? = some view) (idx : Int) :
    ReadsAs (run .python .empty program).2 i (copied ((run .python .empty program).2.dataOf view.bs) view) idx ↔
      view.stop = 8 * ((run .python .empty program).2.dataOf view.bs).length ∧
        (InRange view idx ∨ ¬InRoot ((run .python .empty program).2.dataOf view.bs) view idx) := by
  have reached := run_reached .python reached_empty program
  have ordered := reached.ordered view (List.mem_of_getElem? found)
  exact (reached_readable reached found).reads_iff ordered idx

/-- The upper half of two bytes, indexed from its end. -/
theorem view_reads_upper_byte :
    ReadsAs (run .python .empty [.newInt 0xABCD 16, .getSlice (.object 0) (some 8) none]).2 0
      (copied [0xCD, 0xAB] ⟨0, 8, 16⟩) (-1) := by
  have found : (run .python .empty [.newInt 0xABCD 16, .getSlice (.object 0) (some 8) none]).2.slices[0]? =
      some ⟨0, 8, 16⟩ := by decide
  apply (view_reads_iff _ found (-1)).mpr
  exact ⟨by decide, .inl ⟨by decide, by decide⟩⟩

/-- The low four bits of a byte: index 4 gives the next bit of the byte, not an index error. -/
theorem view_exposes_next_bit :
    ¬ReadsAs (run .python .empty [.newInt 0xF0 8, .getSlice (.object 0) none (some 4)]).2 0
      (copied [0xF0] ⟨0, 0, 4⟩) 4 := by
  intro reads
  have item := reads.item
  revert item
  decide

end Acrobe.Sharing
