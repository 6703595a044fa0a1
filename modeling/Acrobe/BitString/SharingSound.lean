import Acrobe.BitString.Sharing
import Acrobe.BitString.Object

/-!
# What every heap keeps

Objects refer to buffers that exist, their chunks have room for their length, and views are not
empty. Every operation keeps this, also when it raises.
-/

namespace Acrobe.Sharing
open LittleEndian Exceptional
open Acrobe.Storage (BitStringSlice Ref mask ljust)

/-- The chunks of the object exist, and they and the cache have room for its bits. -/
structure Fits (heap : Heap) (object : BitString) : Prop where
  below : ∀ k, .array k ∈ object.bytes → k < heap.arrays.length
  room : object.length ≤ 8 * (heap.flat object).length
  cached : ∀ data, object.dataCache = some data → object.length ≤ 8 * data.length

/-- The objects fit, and the views are not empty and belong to the first `roots` objects. -/
structure Sound (roots : Nat) (heap : Heap) : Prop where
  objects : ∀ self ∈ heap.objects, Fits heap self
  ordered : ∀ view ∈ heap.slices, view.start < view.stop
  rooted : ∀ view ∈ heap.slices, view.bs < roots
  count : roots ≤ heap.objects.length

theorem sound_empty : Sound 0 .empty where
  objects := by
    intro self member
    cases member
  ordered := by
    intro view member
    cases member
  rooted := by
    intro view member
    cases member
  count := Nat.le_refl 0

variable {roots : Nat}

/-! ### Buffers keep their sizes -/

/-- The buffers of `heap` are still there, with their sizes. -/
structure Extends (heap after : Heap) : Prop where
  count : heap.arrays.length ≤ after.arrays.length
  size : ∀ k, k < heap.arrays.length → (after.contents (.array k)).length = (heap.contents (.array k)).length

theorem extends_of_arrays {heap after : Heap} (same : after.arrays = heap.arrays) : Extends heap after where
  count := Nat.le_of_eq (by rw [same])
  size k _ := by rw [Heap.contents, Heap.contents, same]

theorem contents_of_arrays {heap after : Heap} (same : after.arrays = heap.arrays) :
    after.contents = heap.contents := by
  funext chunk
  cases chunk with
  | bytes data => rfl
  | array k => rw [Heap.contents, Heap.contents, same]

theorem flat_of_arrays {heap after : Heap} (same : after.arrays = heap.arrays) : after.flat = heap.flat := by
  funext self
  rw [Heap.flat, Heap.flat, Heap.joined, Heap.joined, contents_of_arrays same]

theorem length_flat (heap : Heap) (self : BitString) :
    (heap.flat self).length = (heap.joined self).length + (if self.length % 8 ≠ 0 then 1 else 0) := by
  rw [Heap.flat]
  split
  · rw [List.length_append, List.length_singleton]
  · rfl

theorem Extends.joined {heap after : Heap} {self : BitString} (grown : Extends heap after)
    (below : ∀ k, .array k ∈ self.bytes → k < heap.arrays.length) :
    (after.joined self).length = (heap.joined self).length := by
  have sizes : ∀ chunk ∈ self.bytes, (after.contents chunk).length = (heap.contents chunk).length := by
    intro chunk member
    cases chunk with
    | bytes data => rfl
    | array k => exact grown.size k (below k member)
  rw [Heap.joined, Heap.joined, List.length_flatten, List.length_flatten, List.map_map, List.map_map]
  congr 1
  exact List.map_congr_left sizes

theorem Fits.mono {heap after : Heap} {self : BitString} (fits : Fits heap self) (grown : Extends heap after) :
    Fits after self where
  below k member := Nat.lt_of_lt_of_le (fits.below k member) grown.count
  room := by
    have room := fits.room
    rw [length_flat, grown.joined fits.below]
    rwa [length_flat] at room
  cached := fits.cached

theorem Sound.grow {heap after : Heap} (sound : Sound roots heap) (grown : Extends heap after)
    (objects : after.objects = heap.objects) (slices : after.slices = heap.slices) : Sound roots after where
  objects self member := (sound.objects self (objects ▸ member)).mono grown
  ordered view member := sound.ordered view (slices ▸ member)
  rooted view member := sound.rooted view (slices ▸ member)
  count := by
    rw [objects]
    exact sound.count

/-! ### Access to the heap -/

section Access
variable {P R : Heap → Prop}

theorem object_ends (i : Nat) (raised : ∀ heap, P heap → R heap) :
    Ends P (object i) (fun self heap => P heap ∧ heap.objects[i]? = some self) R := by
  refine ends_get fun read => ?_
  cases found : read.objects[i]? with
  | none => exact ends_throw fun heap holds => raised heap holds.2
  | some self =>
    apply ends_pure
    rintro heap ⟨rfl, holds⟩
    exact ⟨holds, found⟩

theorem slice_ends (i : Nat) (raised : ∀ heap, P heap → R heap) :
    Ends P (slice i) (fun view heap => P heap ∧ heap.slices[i]? = some view) R := by
  refine ends_get fun read => ?_
  cases found : read.slices[i]? with
  | none => exact ends_throw fun heap holds => raised heap holds.2
  | some view =>
    apply ends_pure
    rintro heap ⟨rfl, holds⟩
    exact ⟨holds, found⟩

theorem cint_ends (impl : Impl) (value : Int) (raised : ∀ heap, P heap → R heap) :
    Ends P (impl.cint value) (fun result heap => P heap ∧ result = value) R := by
  cases impl with
  | python => exact ends_pure fun _ holds => ⟨holds, rfl⟩
  | cython past =>
    rw [Impl.cint]
    apply ends_ite
    · intro _
      exact ends_pure fun _ holds => ⟨holds, rfl⟩
    · intro _
      exact ends_throw raised

theorem toBytes_ends (value length : Nat) (raised : ∀ heap, P heap → R heap) :
    Ends P (toBytes value length) (fun raw heap => P heap ∧ raw.length = length) R := by
  rw [toBytes]
  apply ends_ite
  · intro _
    exact ends_pure fun _ holds => ⟨holds, length_split _ _⟩
  · intro _
    exact ends_throw raised

theorem lastOf_ends (data : Bytes) (raised : ∀ heap, P heap → R heap) : Ends P (lastOf data) (fun _ => P) R := by
  rw [lastOf]
  cases data.getLast? with
  | none => exact ends_throw raised
  | some byte => exact ends_pure fun _ holds => holds

theorem byteAt_keeps (data : Bytes) (k : Int) : Keeps P (byteAt data k) := by
  apply ends_ite
  · intro _
    exact ends_throw fun _ holds => holds
  · intro _
    cases data[(if k < 0 then k + data.length else k).toNat]? with
    | none => exact ends_throw fun _ holds => holds
    | some byte => exact ends_pure fun _ holds => holds

theorem len_ends (ref : Ref) (raised : ∀ heap, P heap → R heap) : Ends P (len ref) (fun _ => P) R := by
  cases ref with
  | object i => exact ends_bind (object_ends i raised) fun self => ends_pure fun _ holds => holds.1
  | slice i => exact ends_bind (slice_ends i raised) fun self => ends_pure fun _ holds => holds.1

theorem bound_keeps (impl : Impl) (value : Option Int) (missing length : Nat) :
    Keeps P (bound impl value missing length) := by
  cases value with
  | none => exact keeps_pure _
  | some value => exact ends_bind (cint_ends impl _ fun _ => id) fun result => ends_pure fun _ holds => holds.1

theorem borrow_ends (data : Chunk) :
    Ends P (borrow data) (fun _ heap => P heap ∧ ∀ k, data = .array k → k < heap.arrays.length) P := by
  cases data with
  | bytes raw => exact ends_pure fun _ holds => ⟨holds, fun k => by rintro ⟨⟩⟩
  | array k =>
    refine ends_get fun read => ?_
    cases found : read.arrays[k]? with
    | none => exact ends_throw fun _ holds => holds.2
    | some buffer =>
      apply ends_ite
      · intro _
        apply ends_pure
        rintro heap ⟨rfl, holds⟩
        refine ⟨holds, ?_⟩
        rintro k ⟨⟩
        exact (List.getElem?_eq_some_iff.mp found).1
      · intro _
        exact ends_throw fun _ holds => holds.2

end Access

/-! ### Updates -/

theorem Sound.put {heap : Heap} {i : Nat} {self : BitString} (sound : Sound roots heap) (fits : Fits heap self) :
    Sound roots { heap with objects := heap.objects.set i self } where
  objects other member := by
    obtain old | rfl := List.mem_or_eq_of_mem_set member
    · exact (sound.objects other old).mono (extends_of_arrays rfl)
    · exact fits.mono (extends_of_arrays rfl)
  ordered := sound.ordered
  rooted := sound.rooted
  count := by
    rw [List.length_set]
    exact sound.count

theorem Sound.alloc {heap : Heap} {self : BitString} (sound : Sound roots heap) (fits : Fits heap self) :
    Sound roots { heap with objects := heap.objects ++ [self] } where
  objects other member := by
    obtain old | new := List.mem_append.mp member
    · exact (sound.objects other old).mono (extends_of_arrays rfl)
    · rw [List.mem_singleton.mp new]
      exact fits.mono (extends_of_arrays rfl)
  ordered := sound.ordered
  rooted := sound.rooted
  count := by
    rw [List.length_append]
    exact Nat.le_add_right_of_le sound.count

theorem extends_allocArray (heap : Heap) (buffer : Buffer) :
    Extends heap { heap with arrays := heap.arrays ++ [buffer] } where
  count := by
    rw [List.length_append]
    exact Nat.le_add_right _ _
  size k below := by
    rw [Heap.contents, Heap.contents, List.getElem?_append_left below]

theorem contents_fresh (heap : Heap) (buffer : Buffer) :
    Heap.contents { heap with arrays := heap.arrays ++ [buffer] } (.array heap.arrays.length) = buffer.data := by
  rw [Heap.contents, List.getElem?_append_right (Nat.le_refl _), Nat.sub_self]
  rfl

theorem extends_modify (heap : Heap) (k byteIdx : Nat) (f : UInt8 → UInt8) :
    Extends heap { heap with
      arrays := heap.arrays.modify k fun buffer => { buffer with data := buffer.data.modify byteIdx f } } where
  count := Nat.le_of_eq (List.length_modify _ _ _).symm
  size j below := by
    rw [Heap.contents, Heap.contents, List.getElem?_modify, List.getElem?_eq_getElem below]
    change List.length (if k = j then _ else heap.arrays[j]).data = _
    split
    · exact List.length_modify _ _ _
    · rfl

section Updates
variable {P : Heap → Prop} {R : Heap → Prop}

theorem put_ends {i : Nat} {self : BitString} {Q : Unit → Heap → Prop}
    (holds : ∀ heap, P heap → Q () { heap with objects := heap.objects.set i self }) : Ends P (put i self) Q R :=
  ends_modifyGet holds

theorem put_sound {i : Nat} {self : BitString} :
    Ends (fun heap => Sound roots heap ∧ Fits heap self) (put i self) (fun _ => Sound roots) R :=
  put_ends fun _ holds => holds.1.put holds.2

theorem alloc_sound {self : BitString} :
    Ends (fun heap => Sound roots heap ∧ Fits heap self) (alloc self) (fun _ => Sound roots) R :=
  ends_modifyGet fun _ holds => holds.1.alloc holds.2

theorem allocArray_ends {data : Bytes} {given : Bool} {Q : Nat → Heap → Prop}
    (holds : ∀ heap, P heap → Q heap.arrays.length { heap with arrays := heap.arrays ++ [⟨data, given⟩] }) :
    Ends P (allocArray data given) Q R :=
  ends_modifyGet holds

theorem allocArray_sound (data : Bytes) (given : Bool) : Keeps (Sound roots) (allocArray data given) := by
  intro heap sound
  exact sound.grow (extends_allocArray heap _) rfl rfl

theorem writeBit_sound (k byteIdx bitIdx : Nat) (value : Bool) :
    Keeps (Sound roots) (writeBit k byteIdx bitIdx value) := by
  refine ends_get fun read => ?_
  apply ends_ite
  · intro _
    apply ends_set
    rintro heap ⟨rfl, sound⟩
    exact sound.grow (extends_modify heap k byteIdx _) rfl rfl
  · intro _
    exact ends_throw fun _ holds => holds.2

end Updates

theorem Sound.fits {heap : Heap} {i : Nat} {self : BitString} (sound : Sound roots heap)
    (found : heap.objects[i]? = some self) : Fits heap self :=
  sound.objects self (List.mem_of_getElem? found)

theorem object_fits (i : Nat) :
    Ends (Sound roots) (object i)
      (fun self heap => (Sound roots heap ∧ heap.objects[i]? = some self) ∧ Fits heap self) (Sound roots) :=
  (object_ends i fun _ => id).weaken (fun _ => id) (fun _ _ holds => ⟨holds, holds.1.fits holds.2⟩) fun _ => id

/-! ### Reading -/

section Reading
variable (impl : Impl)

theorem Fits.fill {heap : Heap} {self : BitString} (fits : Fits heap self) :
    Fits heap { self with dataCache := some (heap.flat self) } where
  below := fits.below
  room := fits.room
  cached data same := by
    rw [← Option.some.inj same]
    exact fits.room

theorem object_run {heap : Heap} {j : Nat} {self : BitString} (found : heap.objects[j]? = some self) :
    object j heap = .ok self heap := by
  unfold object
  simp only [bind, EStateM.bind, get, getThe, MonadStateOf.get, EStateM.get, found]
  rfl
theorem object_missing {heap : Heap} {j : Nat} (gone : heap.objects[j]? = none) :
    object j heap = .error .nameError heap := by
  unfold object
  simp only [bind, EStateM.bind, get, getThe, MonadStateOf.get, EStateM.get, gone]
  rfl
theorem slice_run {heap : Heap} {i : Nat} {view : BitStringSlice} (found : heap.slices[i]? = some view) :
    slice i heap = .ok view heap := by
  unfold slice
  simp only [bind, EStateM.bind, get, getThe, MonadStateOf.get, EStateM.get, found]
  rfl
theorem objectData_cached {heap : Heap} {j : Nat} {self : BitString} {data : Bytes}
    (found : heap.objects[j]? = some self) (cached : self.dataCache = some data) (impl : Impl) :
    objectData impl j heap = .ok data heap := by
  rw [objectData, run_bind_ok (object_run found), cached]
  rfl

theorem objectData_missing {heap : Heap} {j : Nat} (gone : heap.objects[j]? = none) (impl : Impl) :
    objectData impl j heap = .error .nameError heap := by
  rw [objectData, run_bind_error (object_missing gone)]

theorem objectData_fill {heap : Heap} {j : Nat} {self : BitString} (found : heap.objects[j]? = some self)
    (missing : self.dataCache = none) (room : self.length ≤ 8 * (heap.flat self).length) (impl : Impl) :
    objectData impl j heap = .ok (heap.flat self)
      { heap with objects := heap.objects.set j { self with dataCache := some (heap.flat self) } } := by
  rw [objectData, run_bind_ok (object_run found), missing]
  change (if impl.asserts ∧ ¬self.length ≤ (heap.flat self).length * 8 then throw Error.assertionError
    else (pure (heap.flat self) : Exec Bytes)) _ = _
  rw [if_neg (by omega)]
  rfl

theorem objectData_sound (i : Nat) : Keeps (Sound roots) (objectData impl i) := by
  refine ends_bind (object_fits i) fun self => ?_
  cases self.dataCache with
  | some cached => exact ends_pure fun _ holds => holds.1.1
  | none =>
    refine ends_get fun read => ?_
    refine ends_bind (Q := fun _ => Sound roots) (put_ends ?_) fun _ => ?_
    · rintro heap ⟨rfl, holds⟩
      exact holds.1.1.put holds.2.fill
    · apply ends_ite
      · intro _
        exact ends_throw fun _ holds => holds
      · intro _
        exact ends_pure fun _ holds => holds

theorem int_keeps {P : Heap → Prop} (read : ∀ j, Keeps P (objectData impl j)) (ref : Ref) :
    Keeps P (int impl ref) := by
  cases ref with
  | object i =>
    refine ends_bind (object_ends i fun _ => id) fun self => ?_
    apply ends_ite
    · intro _
      exact ends_pure fun _ holds => holds.1
    · intro _
      refine ends_bind ((read i).ends fun _ holds => holds.1) fun _ => ?_
      exact ends_pure fun _ holds => holds
  | slice i =>
    refine ends_bind (slice_ends i fun _ => id) fun self => ?_
    apply ends_ite
    · intro _
      exact ends_pure fun _ holds => holds.1
    · intro _
      refine ends_bind ((read self.bs).ends fun _ holds => holds.1) fun _ => ?_
      exact ends_pure fun _ holds => holds

theorem int_sound (ref : Ref) : Keeps (Sound roots) (int impl ref) := int_keeps impl (objectData_sound impl) ref

theorem data_sound (ref : Ref) : Keeps (Sound roots) (data impl ref) := by
  cases ref with
  | object i => exact objectData_sound impl i
  | slice i =>
    refine ends_bind (slice_ends i fun _ => id) fun self => ?_
    apply ends_ite
    · intro _
      exact ends_pure fun _ holds => holds.1
    · intro _
      apply ends_ite
      · intro _
        refine ends_bind ((objectData_sound impl self.bs).ends fun _ holds => holds.1) fun _ => ?_
        exact ends_pure fun _ holds => holds
      · intro _
        refine ends_bind ((int_sound impl (.slice i)).ends fun _ holds => holds.1) fun value => ?_
        exact (toBytes_ends value _ fun _ => id).weaken (fun _ => id) (fun _ _ holds => holds.1) fun _ => id

theorem getItem_sound (ref : Ref) (offset : Int) : Keeps (Sound roots) (getItem impl ref offset) := by
  refine ends_bind (len_ends ref fun _ => id) fun length => ?_
  cases ref with
  | object i =>
    apply ends_ite
    · intro _
      exact ends_throw fun _ holds => holds
    · intro _
      refine ends_bind (objectData_sound impl i) fun data => ?_
      refine ends_bind (byteAt_keeps data _) fun byte => ?_
      exact ends_pure fun _ holds => holds
  | slice i =>
    refine ends_bind (slice_ends i fun _ => id) fun base => ?_
    refine ends_bind ((cint_ends impl _ fun _ => id).weaken (fun _ holds => holds.1) (fun _ _ holds => holds.1)
      fun _ => id)
      fun absolute => ?_
    refine ends_bind (objectData_sound impl base.bs) fun data => ?_
    refine ends_bind (byteAt_keeps data _) fun byte => ?_
    exact ends_pure fun _ holds => holds

theorem eq_sound (left right : Ref) : Keeps (Sound roots) (eq impl left right) := by
  refine ends_bind (len_ends left fun _ => id) fun leftLen => ?_
  refine ends_bind (len_ends right fun _ => id) fun rightLen => ?_
  apply ends_ite
  · intro _
    exact ends_pure fun _ holds => holds
  · intro _
    refine ends_bind (data_sound impl left) fun leftData => ?_
    refine ends_bind (data_sound impl right) fun rightData => ?_
    exact ends_pure fun _ holds => holds

end Reading

/-! ### Appending -/

section Appending
variable (impl : Impl)

/-- The chunk exists and has room for `length` bits. -/
def Holds (data : Chunk) (length : Nat) (heap : Heap) : Prop :=
  (∀ k, data = .array k → k < heap.arrays.length) ∧ length ≤ 8 * (heap.contents data).length

/-- The length of the object, if it is there, is a multiple of 8 or not. -/
def Whole (i : Nat) (heap : Heap) : Prop := ∀ self, heap.objects[i]? = some self → self.length % 8 = 0

theorem joined_append (heap : Heap) (self : BitString) (chunk : Chunk) (last : UInt8) (length : Nat)
    (cache : Option Bytes) :
    heap.joined ⟨self.bytes ++ [chunk], last, length, cache⟩ = heap.joined self ++ heap.contents chunk := by
  rw [Heap.joined, Heap.joined, List.map_append, List.flatten_append]
  exact congrArg (_ ++ ·) (List.append_nil _)

theorem Fits.append {heap : Heap} {self : BitString} {chunk : Chunk} {last : UInt8} {length : Nat}
    (fits : Fits heap self) (whole : self.length % 8 = 0) (known : ∀ k, chunk = .array k → k < heap.arrays.length)
    (room : length ≤ 8 * ((heap.contents chunk).length + if (self.length + length) % 8 ≠ 0 then 1 else 0)) :
    Fits heap ⟨self.bytes ++ [chunk], last, self.length + length, none⟩ where
  below k member := by
    obtain old | new := List.mem_append.mp member
    · exact fits.below k old
    · exact known k (List.mem_singleton.mp new).symm
  room := by
    have before := fits.room
    rw [length_flat, if_neg (by omega), Nat.add_zero] at before
    rw [length_flat, joined_append, List.length_append]
    dsimp only
    omega
  cached data missing := by cases missing

theorem shorten_ends (self : BitString) (data : Chunk) (size : Nat) :
    Ends (fun heap => Sound roots heap ∧ Fits heap self ∧ (heap.contents data).length = size) (shorten data)
      (fun chunk heap => Sound roots heap ∧ Fits heap self ∧ (∀ k, chunk = .array k → k < heap.arrays.length) ∧
        (heap.contents chunk).length = size - 1) (Sound roots) := by
  cases data with
  | bytes raw =>
    apply ends_pure
    rintro heap ⟨sound, fits, rfl⟩
    exact ⟨sound, fits, fun k => by rintro ⟨⟩, List.length_dropLast⟩
  | array k =>
    refine ends_get fun read => ?_
    refine ends_bind (allocArray_ends ?_) fun fresh => ends_pure fun _ holds => holds
    rintro heap ⟨rfl, sound, fits, rfl⟩
    have grown := extends_allocArray heap ⟨(heap.contents (.array k)).dropLast, false⟩
    refine ⟨sound.grow grown rfl rfl, fits.mono grown, ?_, ?_⟩
    · rintro k ⟨⟩
      rw [List.length_append]
      exact Nat.lt_succ_self _
    · rw [contents_fresh, List.length_dropLast]

theorem finishAppend_sound (i : Nat) (data : Chunk) (length : Nat) :
    Ends (fun heap => Sound roots heap ∧ Whole i heap ∧ Holds data length heap) (finishAppend impl i data length)
      (fun _ => Sound roots) (Sound roots) := by
  refine ends_bind (object_ends i fun _ holds => holds.1) fun self => ?_
  refine ends_bind (cint_ends impl _ fun _ holds => holds.1.1) fun total => ?_
  refine ends_fact (c := total = (self.length + length : Nat) ∧ self.length % 8 = 0)
    (fun heap holds => ⟨holds.2, holds.1.1.2.1 self holds.1.2⟩) ?_
  rintro ⟨rfl, whole⟩
  dsimp only
  apply ends_ite
  · intro odd
    refine ends_get fun read => ?_
    cases ending : (read.contents data).getLast? with
    | none =>
      rintro heap ⟨rfl, ⟨⟨-, -, -, room⟩, -⟩, -⟩
      rw [List.getLast?_eq_none_iff.mp ending, List.length_nil] at room
      omega
    | some last =>
      refine ends_fact (c := length ≤ 8 * (read.contents data).length) ?_ fun room => ?_
      · rintro heap ⟨rfl, ⟨⟨-, -, -, room⟩, -⟩, -⟩
        exact room
      refine ends_bind ((shorten_ends self data (read.contents data).length).weaken ?_ (fun _ _ => id) fun _ => id)
        fun chunk => ?_
      · rintro heap ⟨rfl, ⟨⟨sound, -, -, -⟩, found⟩, -⟩
        exact ⟨sound, sound.fits found, rfl⟩
      · apply put_ends
        rintro heap ⟨sound, fits, known, size⟩
        apply sound.put
        apply fits.append whole known
        rw [size, if_pos (by omega)]
        omega
  · intro even
    apply put_ends
    rintro heap ⟨⟨⟨sound, -, known, room⟩, found⟩, -⟩
    apply sound.put
    apply (sound.fits found).append whole known
    omega

theorem Fits.cut {heap : Heap} {self : BitString} (fits : Fits heap self) (last : UInt8) :
    Fits heap { self with length := self.length / 8 * 8, lastByte := last } where
  below := fits.below
  room := by
    have room := fits.room
    have aligned : self.length / 8 * 8 % 8 = 0 := Nat.mul_mod_left _ 8
    rw [length_flat] at room
    rw [length_flat]
    change self.length / 8 * 8 ≤ 8 * ((heap.joined self).length + if self.length / 8 * 8 % 8 ≠ 0 then 1 else 0)
    rw [if_neg (by omega)]
    split at room <;> omega
  cached data same := Nat.le_trans (Nat.div_mul_le_self _ _) (fits.cached data same)

theorem merge_sound (i : Nat) (clears : Bool) (value length : Nat) :
    Keeps (Sound roots) (merge impl i clears value length) := by
  refine ends_bind (object_fits i) fun self => ?_
  refine ends_bind (Q := fun _ heap => Sound roots heap ∧ Whole i heap) (put_ends ?_) fun _ => ?_
  · rintro heap ⟨⟨sound, found⟩, fits⟩
    refine ⟨sound.put (fits.cut _), ?_⟩
    intro other stored
    rw [List.getElem?_set_self (List.getElem?_eq_some_iff.mp found).1] at stored
    cases stored
    exact Nat.mul_mod_left _ 8
  · refine ends_bind (toBytes_ends _ _ fun _ holds => holds.1) fun raw => ?_
    refine (finishAppend_sound impl i (.bytes raw) _).weaken ?_ (fun _ _ => id) fun _ => id
    rintro heap ⟨⟨sound, whole⟩, size⟩
    refine ⟨sound, whole, fun k => by rintro ⟨⟩, ?_⟩
    rw [Heap.contents, size]
    omega

theorem justified_ends (data : Chunk) (bits : Nat) :
    Ends (Sound roots) (justified data ((bits + 7) / 8))
      (fun chunk heap => Sound roots heap ∧ Holds chunk bits heap) (Sound roots) := by
  refine ends_get fun read => ?_
  cases data with
  | bytes raw =>
    apply ends_pure
    rintro heap ⟨rfl, sound⟩
    refine ⟨sound, fun k => by rintro ⟨⟩, ?_⟩
    change bits ≤ 8 * (ljust raw ((bits + 7) / 8)).length
    rw [Storage.BitString.length_ljust]
    omega
  | array k =>
    refine ends_bind (allocArray_ends ?_) fun fresh => ends_pure fun _ holds => holds
    rintro heap ⟨rfl, sound⟩
    refine ⟨sound.grow (extends_allocArray heap _) rfl rfl, ?_, ?_⟩
    · rintro k ⟨⟩
      rw [List.length_append]
      exact Nat.lt_succ_self _
    · rw [contents_fresh, Storage.BitString.length_ljust]
      omega

theorem appended_sound (i : Nat) (data : Chunk) (bits : Nat) :
    Ends (fun heap => Sound roots heap ∧ Holds data bits heap)
      (object i >>= fun self => if self.length % 8 ≠ 0 then
        get >>= fun heap => merge impl i true (combine (heap.contents data)) bits
      else finishAppend impl i data bits) (fun _ => Sound roots) (Sound roots) := by
  refine ends_bind (object_ends i fun _ holds => holds.1) fun self => ?_
  apply ends_ite
  · intro odd
    refine ends_get fun read => ?_
    exact (merge_sound impl i true _ bits).ends fun _ holds => holds.2.1.1
  · intro even
    refine (finishAppend_sound impl i data bits).weaken ?_ (fun _ _ => id) fun _ => id
    rintro heap ⟨⟨sound, room⟩, found⟩
    refine ⟨sound, ?_, room⟩
    intro other stored
    rw [found] at stored
    cases stored
    omega

theorem appendBytes_sound (i : Nat) (data : Chunk) (length : Option Nat) :
    Ends (fun heap => Sound roots heap ∧ ∀ k, data = .array k → k < heap.arrays.length) (appendBytes impl i data length)
      (fun _ => Sound roots) (Sound roots) := by
  refine ends_get fun read => ?_
  cases length with
  | none =>
    refine (appended_sound impl i data _).weaken ?_ (fun _ _ => id) fun _ => id
    rintro heap ⟨rfl, sound, known⟩
    refine ⟨sound, known, ?_⟩
    change (heap.contents data).length * 8 ≤ _
    omega
  | some bits =>
    refine ends_bind ((justified_ends data bits).weaken (fun _ holds => holds.2.1) (fun _ _ => id) fun _ => id)
      fun chunk => ?_
    exact appended_sound impl i chunk bits

theorem appendInt_sound (i : Nat) (value : Int) (length : Nat) :
    Keeps (Sound roots) (appendInt impl i value length) := by
  refine ends_bind (object_ends i fun _ => id) fun self => ?_
  apply ends_ite
  · intro odd
    exact (merge_sound impl i false _ length).ends fun _ holds => holds.1
  · intro even
    refine ends_bind (toBytes_ends _ _ fun _ holds => holds.1) fun raw => ?_
    refine (finishAppend_sound impl i (.bytes raw) length).weaken ?_ (fun _ _ => id) fun _ => id
    rintro heap ⟨⟨sound, found⟩, size⟩
    refine ⟨sound, ?_, fun k => by rintro ⟨⟩, ?_⟩
    · intro other stored
      rw [found] at stored
      cases stored
      omega
    · rw [Heap.contents, size]
      omega

theorem append_sound (i : Nat) (other : Ref) : Keeps (Sound roots) (append impl i other) := by
  refine ends_bind (len_ends other fun _ => id) fun length => ?_
  refine ends_bind (object_ends i fun _ => id) fun self => ?_
  apply ends_ite
  · intro odd
    refine ends_bind ((int_sound impl other).ends fun _ holds => holds.1) fun value => ?_
    exact appendInt_sound impl i value length
  · intro even
    refine ends_bind ((data_sound impl other).ends fun _ holds => holds.1) fun raw => ?_
    refine (appendBytes_sound impl i (.bytes raw) (some length)).weaken ?_ (fun _ _ => id) fun _ => id
    intro heap sound
    exact ⟨sound, fun k => by rintro ⟨⟩⟩

end Appending

/-! ### Construction -/

section Construction
variable (impl : Impl)

theorem fits_empty (heap : Heap) : Fits heap .empty where
  below k member := by cases member
  room := Nat.zero_le _
  cached data missing := by cases missing

theorem fits_bytes (heap : Heap) {chunk : Bytes} {last : UInt8} {length : Nat} {cache : Option Bytes}
    (room : length ≤ 8 * (chunk.length + if length % 8 ≠ 0 then 1 else 0))
    (cached : ∀ data, cache = some data → length ≤ 8 * data.length) :
    Fits heap ⟨[.bytes chunk], last, length, cache⟩ where
  below k member := by cases List.mem_singleton.mp member
  room := by
    rw [length_flat, Heap.joined]
    simpa [Heap.contents] using room
  cached := cached

theorem placed_ends {P : Heap → Prop} {raw : Bytes} {length : Nat} {cache : Option Bytes}
    (room : length ≤ 8 * raw.length) (cached : ∀ data, cache = some data → data = raw) :
    Ends P (placed impl raw length cache) (fun self heap => P heap ∧ Fits heap self) P := by
  have stored : ∀ data, cache = some data → length ≤ 8 * data.length := by
    intro data same
    rw [cached data same]
    exact room
  apply ends_ite
  · intro odd
    refine ends_bind (lastOf_ends raw fun _ => id) fun last => ?_
    refine ends_bind (cint_ends impl _ fun _ => id) fun total => ?_
    apply ends_pure
    rintro heap ⟨holds, rfl⟩
    refine ⟨holds, fits_bytes heap ?_ stored⟩
    rw [Int.toNat_natCast, if_pos odd, List.length_dropLast]
    omega
  · intro even
    refine ends_bind (cint_ends impl _ fun _ => id) fun total => ?_
    apply ends_pure
    rintro heap ⟨holds, rfl⟩
    refine ⟨holds, fits_bytes heap ?_ stored⟩
    rw [Int.toNat_natCast]
    omega

theorem some_of_ite {c : Prop} [Decidable c] {raw data : Bytes}
    (same : (if c then some raw else none) = some data) : data = raw := by
  split at same
  · exact (Option.some.inj same).symm
  · cases same

theorem newInt_sound (value : Int) (length : Nat) : Keeps (Sound roots) (newInt impl value length) := by
  refine ends_bind (toBytes_ends _ _ fun _ => id) fun raw => ?_
  refine ends_fact (c := raw.length = (length + 7) / 8) (fun _ holds => holds.2) fun size => ?_
  refine ends_bind ((placed_ends impl (by omega) fun _ => some_of_ite).weaken (fun _ holds => holds.1)
    (fun _ _ => id) fun _ => id) fun self => ?_
  exact alloc_sound

theorem build_sound {self : BitString} {fill : Nat → Exec Unit} {K : List Buffer → Prop}
    (filled : ∀ i, Ends (fun heap => Sound roots heap ∧ K heap.arrays) (fill i) (fun _ => Sound roots) (Sound roots)) :
    Ends (fun heap => Sound roots heap ∧ K heap.arrays ∧ Fits heap self) (build self fill) (fun _ => Sound roots)
      (Sound roots) := by
  rintro heap ⟨sound, holds, fits⟩
  have done := filled heap.objects.length { heap with objects := heap.objects ++ [self] } ⟨sound.alloc fits, holds⟩
  rw [build]
  cases ran : fill heap.objects.length { heap with objects := heap.objects ++ [self] } with
  | ok value after =>
    rw [ran] at done
    exact done
  | error error after =>
    rw [ran] at done
    refine ⟨?_, done.ordered, done.rooted, ?_⟩
    · intro other member
      exact (done.objects other (List.mem_of_mem_take member)).mono (extends_of_arrays rfl)
    · have before := sound.count
      have count := done.count
      rw [List.length_take]
      omega

theorem newBytes_sound (data : Chunk) (length : Option Nat) :
    Ends (fun heap => Sound roots heap ∧ ∀ k, data = .array k → k < heap.arrays.length) (newBytes impl data length)
      (fun _ => Sound roots) (Sound roots) := by
  have built : ∀ length, Ends (fun heap => Sound roots heap ∧ ∀ k, data = .array k → k < heap.arrays.length)
      (build .empty fun i => appendBytes impl i data length) (fun _ => Sound roots) (Sound roots) := by
    intro length
    refine (build_sound (K := fun arrays => ∀ k, data = .array k → k < arrays.length)
      fun i => appendBytes_sound impl i data length).weaken ?_ (fun _ _ => id) fun _ => id
    intro heap holds
    exact ⟨holds.1, holds.2, fits_empty heap⟩
  refine ends_get fun read => ?_
  cases length with
  | none => exact (built none).weaken (fun _ holds => holds.2) (fun _ _ => id) fun _ => id
  | some bits =>
    apply ends_ite
    · intro size
      refine ends_bind ((placed_ends impl (by omega) fun _ same => (Option.some.inj same).symm).weaken
        (fun _ holds => holds.2.1) (fun _ _ => id) fun _ => id) fun self => ?_
      exact alloc_sound
    · intro _
      exact (built (some bits)).weaken (fun _ holds => holds.2) (fun _ _ => id) fun _ => id

theorem buildAppend_sound (self : BitString) (other : Ref) :
    Ends (fun heap => Sound roots heap ∧ Fits heap self) (build self fun i => append impl i other)
      (fun _ => Sound roots) (Sound roots) := by
  refine (build_sound (K := fun _ => True) fun i => (append_sound impl i other).ends fun _ holds => holds.1).weaken
    ?_ (fun _ _ => id) fun _ => id
  intro heap holds
  exact ⟨holds.1, trivial, holds.2⟩

theorem clone_sound (other : Ref) (length : Option Nat) : Keeps (Sound roots) (clone impl other length) := by
  have built : Keeps (Sound roots) (len other >>= fun _ => build .empty fun i => append impl i other) := by
    refine ends_bind (len_ends other fun _ => id) fun _ => ?_
    exact (buildAppend_sound impl .empty other).weaken (fun heap sound => ⟨sound, fits_empty heap⟩) (fun _ _ => id)
      fun _ => id
  cases other with
  | slice i => exact built
  | object i =>
    cases length with
    | some bits => exact built
    | none =>
      refine ends_bind (object_fits i) fun self => ?_
      exact alloc_sound.weaken (fun _ holds => ⟨holds.1.1, holds.2⟩) (fun _ _ => id) fun _ => id

theorem add_sound (left right : Ref) : Keeps (Sound roots) (add impl left right) := by
  cases left with
  | object i =>
    refine ends_bind (object_fits i) fun self => ?_
    refine ends_bind (len_ends right fun _ holds => holds.1.1) fun otherLen => ?_
    apply ends_ite
    · intro _
      exact alloc_sound.weaken (fun _ holds => ⟨holds.1.1, holds.2⟩) (fun _ _ => id) fun _ => id
    · intro _
      apply ends_ite
      · intro _
        cases right with
        | object j =>
          refine ends_bind ((object_fits j).weaken (fun _ holds => holds.1.1) (fun _ _ => id) fun _ => id)
            fun other => ?_
          exact alloc_sound.weaken (fun _ holds => ⟨holds.1.1, holds.2⟩) (fun _ _ => id) fun _ => id
        | slice j =>
          refine ends_bind ((int_sound impl (.slice j)).ends fun _ holds => holds.1.1) fun value => ?_
          exact newInt_sound impl value otherLen
      · intro _
        apply ends_ite
        · intro _
          refine ends_bind ((int_sound impl (.object i)).ends fun _ holds => holds.1.1) fun low => ?_
          refine ends_bind (int_sound impl right) fun high => ?_
          exact newInt_sound impl _ _
        · intro _
          exact (buildAppend_sound impl self right).weaken (fun _ holds => ⟨holds.1.1, holds.2⟩) (fun _ _ => id)
            fun _ => id
  | slice i =>
    refine ends_bind (int_sound impl (.slice i)) fun value => ?_
    refine ends_bind (len_ends (.slice i) fun _ => id) fun length => ?_
    refine ends_bind (toBytes_ends _ _ fun _ => id) fun raw => ?_
    refine ends_fact (c := raw.length = (length + 7) / 8) (fun _ holds => holds.2) fun size => ?_
    refine ends_bind ((placed_ends impl (by omega) fun _ => some_of_ite).weaken (fun _ holds => holds.1)
      (fun _ _ => id) fun _ => id) fun self => ?_
    refine ends_bind (len_ends right fun _ holds => holds.1) fun _ => ?_
    exact buildAppend_sound impl self right

theorem Fits.uncached {heap : Heap} {self : BitString} (fits : Fits heap self) (last : UInt8) :
    Fits heap { self with lastByte := last, dataCache := none } where
  below := fits.below
  room := by
    have room := fits.room
    rw [length_flat] at room
    rw [length_flat]
    exact room
  cached data missing := by cases missing

theorem iadd_sound (i : Nat) (other : Ref) : Keeps (Sound roots) (iadd impl i other) := by
  refine ends_bind (object_ends i fun _ => id) fun self => ?_
  cases other with
  | object j =>
    refine ends_bind ((object_fits j).weaken (fun _ holds => holds.1) (fun _ _ => id) fun _ => id) fun source => ?_
    apply ends_ite
    · intro _
      apply put_ends
      intro heap holds
      exact holds.1.1.put (holds.2.uncached source.lastByte)
    · intro _
      apply ends_ite
      · intro _
        exact (append_sound impl i (.object j)).ends fun _ holds => holds.1.1
      · intro _
        exact ends_pure fun _ holds => holds.1.1
  | slice j =>
    refine ends_bind (len_ends (.slice j) fun _ holds => holds.1) fun otherLen => ?_
    apply ends_ite
    · intro _
      exact (append_sound impl i (.slice j)).ends fun _ holds => holds.1
    · intro _
      exact ends_pure fun _ holds => holds.1

end Construction

/-! ### Assignment -/

section Assignment
variable (impl : Impl)

/-- The buffer exists and has room for all bits of the object. -/
def Backed (i k : Nat) (heap : Heap) : Prop :=
  k < heap.arrays.length ∧
    ∀ self, heap.objects[i]? = some self → self.length ≤ 8 * (heap.contents (.array k)).length

theorem fits_array {heap : Heap} {k length : Nat} {last : UInt8} {cache : Option Bytes} (below : k < heap.arrays.length)
    (room : length ≤ 8 * ((heap.contents (.array k)).length + if length % 8 ≠ 0 then 1 else 0))
    (cached : ∀ data, cache = some data → length ≤ 8 * data.length) : Fits heap ⟨[.array k], last, length, cache⟩ where
  below j member := by
    cases List.mem_singleton.mp member
    exact below
  room := by
    rw [length_flat, Heap.joined]
    simpa using room
  cached := cached

theorem fresh_below (heap : Heap) (buffer : Buffer) : heap.arrays.length < (heap.arrays ++ [buffer]).length := by
  rw [List.length_append]
  exact Nat.lt_succ_self _

theorem soleArray_sound (i : Nat) : Keeps (Sound roots) (soleArray i) := by
  refine ends_bind (object_fits i) fun self => ?_
  split
  · exact ends_pure fun _ holds => holds.1.1
  · refine ends_get fun read => ?_
    refine ends_bind (Q := fun k heap => Sound roots heap ∧
      Fits heap { self with bytes := [.array k] }) (allocArray_ends ?_) fun k => ?_
    · rintro heap ⟨rfl, ⟨sound, -⟩, fits⟩
      refine ⟨sound.grow (extends_allocArray heap _) rfl rfl, ?_⟩
      have room := fits.room
      rw [length_flat] at room
      apply fits_array (fresh_below heap _) _ fits.cached
      rw [contents_fresh]
      exact room
    · refine ends_bind put_sound fun _ => ?_
      exact ends_pure fun _ holds => holds

theorem setItem_sound (i : Nat) (offset : Int) (value : Bool) : Keeps (Sound roots) (setItem impl i offset value) := by
  refine ends_bind (object_fits i) fun self => ?_
  apply ends_ite
  · intro _
    exact ends_throw fun _ holds => holds.1.1
  · intro _
    refine ends_get fun read => ?_
    refine ends_bind ((cint_ends impl _ fun _ => id).weaken (fun _ holds => holds.2) (fun _ _ holds => holds.1)
      fun _ holds => holds.1.1) fun boundary => ?_
    apply ends_ite
    · intro _
      refine ends_bind ((soleArray_sound i).ends fun _ holds => holds.1.1) fun k => ?_
      refine ends_bind (writeBit_sound k _ _ value) fun _ => ?_
      refine ends_bind (object_fits i) fun self => ?_
      apply put_ends
      intro heap holds
      exact holds.1.1.put (holds.2.uncached self.lastByte)
    · intro _
      apply put_ends
      intro heap holds
      exact holds.1.1.put (holds.2.uncached _)

theorem coalesce_ends (i : Nat) :
    Ends (Sound roots) (coalesce i) (fun k heap => Sound roots heap ∧ Backed i k heap) (Sound roots) := by
  refine ends_bind (object_fits i) fun self => ?_
  refine ends_get fun read => ?_
  refine ends_bind (Q := fun k heap => Sound roots heap ∧ k < heap.arrays.length ∧
    self.length ≤ 8 * (heap.contents (.array k)).length ∧ heap.objects[i]? = some self) (allocArray_ends ?_) fun k => ?_
  · rintro heap ⟨rfl, ⟨sound, found⟩, fits⟩
    refine ⟨sound.grow (extends_allocArray heap _) rfl rfl, fresh_below heap _, ?_, found⟩
    rw [contents_fresh]
    exact fits.room
  · refine ends_bind (Q := fun _ heap => Sound roots heap ∧ Backed i k heap) (put_ends ?_)
      fun _ => ends_pure fun _ holds => holds
    rintro heap ⟨sound, below, room, found⟩
    refine ⟨sound.put (fits_array below (by omega) fun data missing => by cases missing), below, ?_⟩
    intro other stored
    rw [List.getElem?_set_self (List.getElem?_eq_some_iff.mp found).1] at stored
    cases stored
    exact room

theorem backed_put {i k j : Nat} {heap : Heap} {self : BitString} (backed : Backed i k heap)
    (found : heap.objects[j]? = some self) (cache : Option Bytes) :
    Backed i k { heap with objects := heap.objects.set j { self with dataCache := cache } } := by
  refine ⟨backed.1, ?_⟩
  intro other stored
  by_cases here : j = i
  · subst here
    rw [List.getElem?_set_self (List.getElem?_eq_some_iff.mp found).1] at stored
    cases stored
    exact backed.2 self found
  · rw [List.getElem?_set_ne here] at stored
    exact backed.2 other stored

theorem objectData_backed (i k j : Nat) : Keeps (Backed i k) (objectData impl j) := by
  refine ends_bind (object_ends j fun _ => id) fun self => ?_
  cases self.dataCache with
  | some cached => exact ends_pure fun _ holds => holds.1
  | none =>
    refine ends_get fun read => ?_
    refine ends_bind (Q := fun _ => Backed i k) (put_ends ?_) fun _ => ?_
    · rintro heap ⟨rfl, backed, found⟩
      exact backed_put backed found _
    · apply ends_ite
      · intro _
        exact ends_throw fun _ holds => holds
      · intro _
        exact ends_pure fun _ holds => holds

theorem writeBit_backed (i k j byteIdx bitIdx : Nat) (value : Bool) :
    Keeps (Backed i k) (writeBit j byteIdx bitIdx value) := by
  refine ends_get fun read => ?_
  apply ends_ite
  · intro _
    apply ends_set
    rintro heap ⟨rfl, below, room⟩
    have grown := extends_modify heap j byteIdx fun byte => setBit byte bitIdx value
    refine ⟨Nat.lt_of_lt_of_le below grown.count, ?_⟩
    intro self stored
    rw [grown.size k below]
    exact room self stored
  · intro _
    exact ends_throw fun _ holds => holds.2

theorem writeBits_keeps {P : Heap → Prop} {k : Nat}
    (written : ∀ byteIdx bitIdx value, Keeps P (writeBit k byteIdx bitIdx value))
    (b value count i : Nat) : Keeps P (writeBits impl k b value count i) := by
  induction count generalizing i with
  | zero => exact keeps_pure ()
  | succ count ih => exact keeps_bind (written _ _ _) fun _ => ih (i + 1)

theorem resplit_sound (i k : Nat) :
    Ends (fun heap => Sound roots heap ∧ Backed i k heap) (resplit i k) (fun _ => Sound roots) (Sound roots) := by
  refine ends_bind (object_ends i fun _ holds => holds.1) fun self => ?_
  refine ends_get fun read => ?_
  apply ends_ite
  · intro odd
    refine ends_bind (lastOf_ends _ fun _ holds => holds.2.1.1) fun last => ?_
    refine ends_bind (Q := fun k heap => Sound roots heap ∧ Fits heap ⟨[.array k], last, self.length, none⟩)
      (allocArray_ends ?_) fun k => put_sound
    rintro heap ⟨rfl, ⟨sound, below, room⟩, found⟩
    have enough := room self found
    refine ⟨sound.grow (extends_allocArray heap _) rfl rfl, ?_⟩
    apply fits_array (fresh_below heap _) _ fun data missing => by cases missing
    rw [contents_fresh, if_pos odd, List.length_dropLast]
    omega
  · intro even
    apply put_ends
    rintro heap ⟨rfl, ⟨sound, below, room⟩, found⟩
    have enough := room self found
    exact sound.put (fits_array below (by omega) fun data missing => by cases missing)

theorem setSlice_sound (i : Nat) (start stop : Option Int) (value : Ref) :
    Keeps (Sound roots) (setSlice impl i start stop value) := by
  refine ends_bind (object_ends i fun _ => id) fun self => ?_
  refine ends_bind ((bound_keeps impl start 0 self.length).ends fun _ holds => holds.1) fun b => ?_
  refine ends_bind (bound_keeps impl stop self.length self.length) fun e => ?_
  refine ends_bind (len_ends value fun _ => id) fun valueLen => ?_
  apply ends_ite
  · intro _
    exact ends_throw fun _ holds => holds
  · intro _
    apply ends_ite
    · intro _
      exact ends_pure fun _ holds => holds
    · intro _
      refine ends_bind (coalesce_ends i) fun k => ?_
      refine ends_bind (Q := fun _ heap => Sound roots heap ∧ Backed i k heap)
        (((int_sound impl value).and (int_keeps impl (objectData_backed impl i k) value)).raising
          fun _ holds => holds.1) fun bits => ?_
      refine ends_bind (Q := fun _ heap => Sound roots heap ∧ Backed i k heap)
        ((writeBits_keeps impl (fun byteIdx bitIdx value => (writeBit_sound k byteIdx bitIdx value).and
          (writeBit_backed i k k byteIdx bitIdx value)) b bits (e - b) 0).raising fun _ holds => holds.1) fun _ => ?_
      exact resplit_sound i k

end Assignment

/-! ### Programs -/

/-- The views of a heap belong to its objects. -/
def Reached (heap : Heap) : Prop := Sound heap.objects.length heap

theorem Sound.reached {heap : Heap} (sound : Sound roots heap) : Reached heap where
  objects := sound.objects
  ordered := sound.ordered
  rooted view member := Nat.lt_of_lt_of_le (sound.rooted view member) sound.count
  count := Nat.le_refl _

theorem reached_empty : Reached .empty := sound_empty

theorem keeps_reached {α : Type} {x : Exec α} (kept : ∀ roots, Keeps (Sound roots) x) : Keeps Reached x := by
  intro heap reached
  have done := kept heap.objects.length heap reached
  cases ran : x heap with
  | ok value after =>
    rw [ran] at done
    exact done.reached
  | error error after =>
    rw [ran] at done
    exact done.reached

theorem Reached.addSlice {heap : Heap} {view : BitStringSlice} (reached : Reached heap)
    (ordered : view.start < view.stop) (rooted : view.bs < heap.objects.length) :
    Reached { heap with slices := heap.slices ++ [view] } where
  objects self member := (reached.objects self member).mono (extends_of_arrays rfl)
  ordered other member := by
    obtain old | new := List.mem_append.mp member
    · exact reached.ordered other old
    · rw [List.mem_singleton.mp new]
      exact ordered
  rooted other member := by
    obtain old | new := List.mem_append.mp member
    · exact reached.rooted other old
    · rw [List.mem_singleton.mp new]
      exact rooted
  count := Nat.le_refl _

theorem getSlice_reached (impl : Impl) (self : Ref) (start stop : Option Int) :
    Keeps Reached (getSlice impl self start stop) := by
  have named : Ends Reached (len self) (fun _ heap => Reached heap ∧ ∀ i, self = .object i → i < heap.objects.length)
      Reached := by
    cases self with
    | object i =>
      refine ends_bind (object_ends i fun _ => id) fun object => ?_
      apply ends_pure
      rintro heap ⟨reached, found⟩
      refine ⟨reached, ?_⟩
      rintro i ⟨⟩
      exact (List.getElem?_eq_some_iff.mp found).1
    | slice i =>
      refine ends_bind (slice_ends i fun _ => id) fun view => ?_
      apply ends_pure
      rintro heap ⟨reached, found⟩
      exact ⟨reached, fun i => by rintro ⟨⟩⟩
  refine ends_bind named fun length => ?_
  refine ends_bind ((bound_keeps impl start 0 length).raising fun _ holds => holds.1) fun b => ?_
  refine ends_bind ((bound_keeps impl stop length length).raising fun _ holds => holds.1) fun e => ?_
  apply ends_ite
  · intro _
    exact (keeps_reached fun roots => newInt_sound impl 0 0).ends fun _ holds => holds.1
  · intro nonempty
    cases self with
    | object i =>
      apply ends_modifyGet
      rintro heap ⟨reached, below⟩
      exact reached.addSlice (Nat.lt_of_not_le nonempty) (below i rfl)
    | slice i =>
      refine ends_bind (slice_ends i fun _ holds => holds.1) fun base => ?_
      apply ends_modifyGet
      rintro heap ⟨⟨reached, -⟩, found⟩
      refine reached.addSlice ?_ (reached.rooted base (List.mem_of_getElem? found))
      exact Nat.add_lt_add_left (Nat.lt_of_not_le nonempty) base.start

theorem keeps_returning {α β : Type} {P : Heap → Prop} {x : Exec α} (f : α → β) (kept : Keeps P x) :
    Keeps P (x >>= fun value => pure (f value)) :=
  keeps_bind kept fun _ => keeps_pure _

theorem step_reached (impl : Impl) (cmd : Cmd) : Keeps Reached (step impl cmd) := by
  cases cmd with
  | newArray data => exact keeps_returning _ (keeps_reached fun roots => allocArray_sound data true)
  | new =>
    refine keeps_returning _ (keeps_reached fun roots => ?_)
    intro heap sound
    exact sound.alloc (fits_empty heap)
  | newInt value length => exact keeps_returning _ (keeps_reached fun roots => newInt_sound impl value length)
  | newBytes data length =>
    refine keeps_reached fun roots => ends_bind (borrow_ends data) fun _ => ?_
    refine ends_bind (newBytes_sound impl data length) fun _ => ?_
    exact ends_pure fun _ holds => holds
  | newBits other length => exact keeps_returning _ (keeps_reached fun roots => clone_sound impl other length)
  | append i other => exact keeps_returning _ (keeps_reached fun roots => append_sound impl i other)
  | appendInt i value length => exact keeps_returning _ (keeps_reached fun roots => appendInt_sound impl i value length)
  | appendBytes i data length =>
    refine keeps_reached fun roots => ends_bind (borrow_ends data) fun _ => ?_
    refine ends_bind (appendBytes_sound impl i data length) fun _ => ?_
    exact ends_pure fun _ holds => holds
  | add left right => exact keeps_returning _ (keeps_reached fun roots => add_sound impl left right)
  | iadd i other => exact keeps_returning _ (keeps_reached fun roots => iadd_sound impl i other)
  | getSlice self start stop => exact keeps_returning _ (getSlice_reached impl self start stop)
  | getItem self offset => exact keeps_returning _ (keeps_reached fun roots => getItem_sound impl self offset)
  | setItem i offset value => exact keeps_returning _ (keeps_reached fun roots => setItem_sound impl i offset value)
  | setSlice i start stop value =>
    exact keeps_returning _ (keeps_reached fun roots => setSlice_sound impl i start stop value)
  | len self => exact keeps_returning _ (len_ends self fun _ => id)
  | int self => exact keeps_returning _ (keeps_reached fun roots => int_sound impl self)
  | data self => exact keeps_returning _ (keeps_reached fun roots => data_sound impl self)
  | eq left right => exact keeps_returning _ (keeps_reached fun roots => eq_sound impl left right)

theorem outcome_keeps {α : Type} {P : Heap → Prop} {x : Exec α} {heap : Heap} (kept : Keeps P x) (holds : P heap) :
    P (outcome x heap).2 := by
  have done := kept heap holds
  rw [outcome]
  cases ran : x heap with
  | ok value after =>
    rw [ran] at done
    exact done
  | error error after =>
    rw [ran] at done
    exact done

theorem run_reached (impl : Impl) {heap : Heap} (reached : Reached heap) (program : List Cmd) :
    Reached (run impl heap program).2 := by
  induction program generalizing heap with
  | nil => exact reached
  | cons cmd program ih => exact ih (outcome_keeps (step_reached impl cmd) reached)

end Acrobe.Sharing
