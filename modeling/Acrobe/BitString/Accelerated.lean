import Acrobe.BitString.Aliasing

/-!
# The extension module

The extension runs the statements of the pure Python classes with C integers. Where their values fit
in 32 bits, the two return the same results and raise the same errors.
-/

namespace Acrobe.Sharing
open LittleEndian Exceptional
open Acrobe.Storage (BitStringSlice Ref mask ljust)

/-! ### Values that fit -/

def fitsInt (value : Int) : Bool := decide (-2 ^ 31 ≤ value ∧ value < 2 ^ 31)

def fitsBound (value : Option Int) (length : Nat) : Bool :=
  match value with
  | none => true
  | some value => fitsInt (if value < 0 then value + length else value)

/-- The bound that is computed from `start` or `stop`. -/
def boundOf (value : Option Int) (missing length : Nat) : Nat :=
  match value with
  | none => min missing length
  | some value => (max 0 (min (if value < 0 then value + length else value) length)).toNat

namespace Heap

def lenOf (heap : Heap) : Ref → Nat
  | .object i => (heap.objects.map BitString.length).getD i 0
  | .slice i => (heap.slices[i]?).elim 0 fun view => view.stop - view.start

/-- `_end + 7` fits where the value of a view is read. -/
def readable (heap : Heap) : Ref → Bool
  | .object _ => true
  | .slice i => (heap.slices[i]?).all fun view => view.stop + 7 < 2 ^ 31

/-- No empty object with a filled cache holds the buffer. -/
def quiet (heap : Heap) (k : Nat) : Bool :=
  heap.objects.all fun self => self.length != 0 || self.dataCache.isNone || !self.bytes.contains (.array k)

/-- The bit assignment fits: the bytes of the chunks can be counted, and a buffer that is written in
place is not held by an empty object whose data are cached. -/
def smallItem (heap : Heap) (self : BitString) (offset : Int) : Bool :=
  let offset := if offset < 0 then offset + self.length else offset
  !(decide (0 ≤ offset ∧ offset < self.length)) || fitsInt (heap.joined self).length &&
    match self.bytes with
    | [.array k] => heap.quiet k
    | _ => true

/-- Every C integer that the command computes fits, and a slice assignment is of at most 32 bits. -/
def small (heap : Heap) : Cmd → Bool
  | .newArray _ | .new | .len _ | .getItem (.object _) _ | .newBits (.object _) none => true
  | .newInt _ length => length < 2 ^ 31
  | .newBytes data length => length.getD ((heap.contents data).length * 8) < 2 ^ 31
  | .newBits other _ => heap.lenOf other < 2 ^ 31 && heap.readable other
  | .append i other => heap.lenOf (.object i) + heap.lenOf other < 2 ^ 31 && heap.readable other
  | .appendInt i _ length => heap.lenOf (.object i) + length < 2 ^ 31
  | .appendBytes i data length => heap.lenOf (.object i) + length.getD ((heap.contents data).length * 8) < 2 ^ 31
  | .add left right =>
    heap.lenOf left + heap.lenOf right < 2 ^ 31 && heap.readable left && heap.readable right
  | .iadd i other => heap.lenOf (.object i) + heap.lenOf other < 2 ^ 31 && heap.readable other
  | .getSlice self start stop => fitsBound start (heap.lenOf self) && fitsBound stop (heap.lenOf self)
  | .getItem (.slice i) offset =>
    (heap.slices[i]?).all fun view =>
      fitsInt (view.start + if offset < 0 then offset + (view.stop - view.start : Nat) else offset)
  | .setItem i offset _ => (heap.objects[i]?).all fun self => heap.smallItem self offset
  | .setSlice i start stop value =>
    let length := heap.lenOf (.object i)
    fitsBound start length && fitsBound stop length &&
      (boundOf start 0 length + heap.lenOf value != boundOf stop length length ||
        heap.lenOf value ≤ 32 && heap.readable value)
  | .int self | .data self => heap.readable self
  | .eq left right => heap.lenOf left != heap.lenOf right || heap.readable left && heap.readable right

end Heap

/-! ### The two heaps -/

/-- The same object; the cache of an empty one may be filled in the first heap only. -/
def TwinObject (heap : Heap) (self other : BitString) : Prop :=
  other = self ∨
    self.length = 0 ∧ (∀ k, .array k ∈ self.bytes → k < heap.arrays.length) ∧
      self.dataCache = some (heap.flat self) ∧ other = { self with dataCache := none }

structure Twin (heap other : Heap) : Prop where
  arrays : other.arrays = heap.arrays
  slices : other.slices = heap.slices
  count : other.objects.length = heap.objects.length
  objects : ∀ (i : Nat) (object : BitString), heap.objects[i]? = some object →
    ∃ twin, other.objects[i]? = some twin ∧ TwinObject heap object twin

theorem twin_refl (heap : Heap) : Twin heap heap where
  arrays := rfl
  slices := rfl
  count := rfl
  objects _ self found := ⟨self, found, .inl rfl⟩

namespace TwinObject
variable {heap after : Heap} {self other : BitString}

theorem length (pair : TwinObject heap self other) : other.length = self.length := by
  obtain rfl | ⟨-, -, -, rfl⟩ := pair
  · rfl
  · rfl

theorem recached (pair : TwinObject heap self other) : ∃ cache, other = { self with dataCache := cache } := by
  obtain rfl | ⟨-, -, -, rfl⟩ := pair
  · exact ⟨other.dataCache, rfl⟩
  · exact ⟨none, rfl⟩

theorem mono (pair : TwinObject heap self other) (count : heap.arrays.length ≤ after.arrays.length)
    (kept : self.length = 0 → self.dataCache.isSome = true →
      ∀ k, k < heap.arrays.length → .array k ∈ self.bytes → after.contents (.array k) = heap.contents (.array k)) :
    TwinObject after self other := by
  obtain rfl | ⟨empty, below, cached, rfl⟩ := pair
  · exact .inl rfl
  · have contents : ∀ chunk ∈ self.bytes, after.contents chunk = heap.contents chunk := by
      intro chunk member
      cases chunk with
      | bytes data => rfl
      | array k =>
        rw [cached] at kept
        exact kept empty rfl k (below k member) member
    refine .inr ⟨empty, fun k member => Nat.lt_of_lt_of_le (below k member) count, ?_, rfl⟩
    rw [cached, Heap.flat, Heap.flat, Heap.joined, Heap.joined, List.map_congr_left contents]

end TwinObject

namespace Twin
variable {heap other : Heap}

theorem contents (twin : Twin heap other) : other.contents = heap.contents := contents_of_arrays twin.arrays

theorem flat (twin : Twin heap other) : other.flat = heap.flat := flat_of_arrays twin.arrays

theorem missing (twin : Twin heap other) {i : Nat} (gone : heap.objects[i]? = none) : other.objects[i]? = none := by
  rw [List.getElem?_eq_none_iff, twin.count]
  exact List.getElem?_eq_none_iff.mp gone

theorem put (twin : Twin heap other) (i : Nat) {self now : BitString} (pair : TwinObject heap self now) :
    Twin { heap with objects := heap.objects.set i self } { other with objects := other.objects.set i now } where
  arrays := twin.arrays
  slices := twin.slices
  count := by rw [List.length_set, List.length_set, twin.count]
  objects j stored found := by
    by_cases same : i = j
    · subst same
      have inside : i < heap.objects.length := by
        have bound := (List.getElem?_eq_some_iff.mp found).1
        rwa [List.length_set] at bound
      rw [List.getElem?_set_self inside] at found
      cases found
      exact ⟨now, List.getElem?_set_self (by rwa [twin.count]), pair.mono (Nat.le_refl _) fun _ _ _ _ _ => rfl⟩
    · rw [List.getElem?_set_ne same] at found
      obtain ⟨twin', kept, pair'⟩ := twin.objects j stored found
      exact ⟨twin', (List.getElem?_set_ne same).trans kept, pair'.mono (Nat.le_refl _) fun _ _ _ _ _ => rfl⟩

theorem alloc (twin : Twin heap other) {self now : BitString} (pair : TwinObject heap self now) :
    Twin { heap with objects := heap.objects ++ [self] } { other with objects := other.objects ++ [now] } where
  arrays := twin.arrays
  slices := twin.slices
  count := by rw [List.length_append, List.length_append, twin.count]; rfl
  objects j stored found := by
    by_cases old : j < heap.objects.length
    · rw [List.getElem?_append_left old] at found
      obtain ⟨twin', kept, pair'⟩ := twin.objects j stored found
      refine ⟨twin', ?_, pair'.mono (Nat.le_refl _) fun _ _ _ _ _ => rfl⟩
      rw [List.getElem?_append_left (by rwa [twin.count]), kept]
    · have last : j = heap.objects.length := by
        have bound := (List.getElem?_eq_some_iff.mp found).1
        rw [List.length_append, List.length_singleton] at bound
        omega
      subst last
      rw [List.getElem?_concat_length] at found
      cases found
      refine ⟨now, ?_, pair.mono (Nat.le_refl _) fun _ _ _ _ _ => rfl⟩
      rw [← twin.count, List.getElem?_concat_length]

theorem allocArray (twin : Twin heap other) (buffer : Buffer) :
    Twin { heap with arrays := heap.arrays ++ [buffer] } { other with arrays := other.arrays ++ [buffer] } where
  arrays := by rw [twin.arrays]
  slices := twin.slices
  count := twin.count
  objects j stored found := by
    obtain ⟨twin', kept, pair'⟩ := twin.objects j stored found
    refine ⟨twin', kept, pair'.mono (by rw [List.length_append]; omega) ?_⟩
    intro _ _ k below _
    rw [Heap.contents, Heap.contents, List.getElem?_append_left below]

theorem write (twin : Twin heap other) {k : Nat} (quiet : heap.quiet k = true) (f : Buffer → Buffer) :
    Twin { heap with arrays := heap.arrays.modify k f } { other with arrays := other.arrays.modify k f } where
  arrays := by rw [twin.arrays]
  slices := twin.slices
  count := twin.count
  objects j stored found := by
    obtain ⟨twin', kept, pair'⟩ := twin.objects j stored found
    refine ⟨twin', kept, pair'.mono (Nat.le_of_eq (List.length_modify ..).symm) ?_⟩
    intro empty cached j _ member
    have loud : k ≠ j := by
      rintro rfl
      rw [Heap.quiet, List.all_eq_true] at quiet
      have free := quiet stored (List.mem_of_getElem? found)
      rw [empty, Option.isNone_eq_false_iff.mpr cached, List.contains_iff_mem.mpr member] at free
      cases free
    rw [Heap.contents, Heap.contents, List.getElem?_modify_ne f heap.arrays loud]

theorem refill (twin : Twin heap other) {i : Nat} {self now : BitString} (found : heap.objects[i]? = some self)
    (filled : now = self) : Twin heap { other with objects := other.objects.set i now } := by
  subst filled
  have same : heap.objects.set i now = heap.objects := by
    obtain ⟨inside, rfl⟩ := List.getElem?_eq_some_iff.mp found
    exact List.set_getElem_self inside
  have both := twin.put i (.inl rfl : TwinObject heap now now)
  rwa [same] at both

theorem fillFirst (twin : Twin heap other) {i : Nat} {self : BitString} (found : heap.objects[i]? = some self)
    (empty : self.length = 0) (below : ∀ k, .array k ∈ self.bytes → k < heap.arrays.length)
    (missing : self.dataCache = none) :
    Twin { heap with objects := heap.objects.set i { self with dataCache := some (heap.flat self) } } other := by
  obtain ⟨now, stored, pair⟩ := twin.objects i self found
  have plain : now = { self with dataCache := none } := by
    obtain rfl | ⟨-, -, cached, -⟩ := pair
    · rw [← missing]
    · rw [missing] at cached
      cases cached
  have same : other.objects.set i now = other.objects := by
    obtain ⟨inside, rfl⟩ := List.getElem?_eq_some_iff.mp stored
    exact List.set_getElem_self inside
  have both := twin.put i (.inr ⟨empty, below, rfl, plain⟩ :
    TwinObject heap { self with dataCache := some (heap.flat self) } now)
  rwa [same] at both

end Twin

/-! ### Reading -/

section Reading
variable (past : Nat → Nat → Bool) (roots : Nat)

theorem objectData_together (i : Nat) :
    Together (fun heap other => Twin heap other ∧ Sound roots heap) (objectData .python i)
      (objectData (.cython past) i) (fun data data' heap other => data' = data ∧ Twin heap other) Twin := by
  rintro heap other ⟨twin, sound⟩
  cases found : heap.objects[i]? with
  | none =>
    rw [objectData_missing found, objectData_missing (twin.missing found)]
    exact ⟨rfl, twin⟩
  | some self =>
    obtain ⟨now, stored, pair⟩ := twin.objects i self found
    have fits := sound.fits found
    cases cached : self.dataCache with
    | some data =>
      rw [objectData_cached found cached]
      obtain rfl | ⟨empty, -, filled, rfl⟩ := pair
      · rw [objectData_cached stored cached]
        exact ⟨rfl, twin⟩
      · have flat : other.flat { self with dataCache := none } = heap.flat self := by
          rw [twin.flat]
          rfl
        rw [objectData_fill stored rfl (by rw [empty]; exact Nat.zero_le _), flat]
        have same : { self with dataCache := some (heap.flat self) } = self := by rw [← filled]
        exact ⟨Option.some.inj (filled.symm.trans cached), twin.refill found same⟩
    | none =>
      obtain rfl | ⟨-, -, filled, -⟩ := pair
      · rw [objectData_fill found cached fits.room,
          objectData_fill stored cached (by rw [twin.flat]; exact fits.room), twin.flat]
        exact ⟨rfl, twin.put i (.inl rfl)⟩
      · rw [cached] at filled
        cases filled

/-- The lengths of the objects and the views are those of `start`. -/
def Shape (start heap : Heap) : Prop :=
  heap.objects.map BitString.length = start.objects.map BitString.length ∧ heap.slices = start.slices

theorem Shape.lenOf {start heap : Heap} (shape : Shape start heap) : heap.lenOf = start.lenOf := by
  funext ref
  cases ref with
  | object i => rw [Heap.lenOf, Heap.lenOf, shape.1]
  | slice i => rw [Heap.lenOf, Heap.lenOf, shape.2]

theorem shape_put {start heap : Heap} {i : Nat} {self now : BitString} (shape : Shape start heap)
    (found : heap.objects[i]? = some self) (length : now.length = self.length) :
    Shape start { heap with objects := heap.objects.set i now } := by
  refine ⟨?_, shape.2⟩
  have kept : (heap.objects.map BitString.length)[i]? = some now.length := by
    rw [List.getElem?_map, found, length]
    rfl
  obtain ⟨inside, value⟩ := List.getElem?_eq_some_iff.mp kept
  rw [← shape.1, List.map_set, ← value]
  exact List.set_getElem_self inside

theorem objectData_shape (start : Heap) (impl : Impl) (i : Nat) : Keeps (Shape start) (objectData impl i) := by
  refine ends_bind (object_ends i fun _ => id) fun self => ?_
  cases self.dataCache with
  | some data => exact ends_pure fun _ holds => holds.1
  | none =>
    refine ends_get fun read => ?_
    refine ends_bind (Q := fun _ => Shape start) (put_ends ?_) fun _ => ?_
    · rintro heap ⟨rfl, shape, found⟩
      exact shape_put shape found rfl
    · apply ends_ite
      · intro _
        exact ends_throw fun _ holds => holds
      · intro _
        exact ends_pure fun _ holds => holds

/-- Twins whose first heap is in order and has the shape of `start`. -/
def Alike (roots : Nat) (start heap other : Heap) : Prop :=
  Twin heap other ∧ Sound roots heap ∧ Shape start heap

theorem objectData_alike (start : Heap) (i : Nat) :
    Together (Alike roots start) (objectData .python i) (objectData (.cython past) i)
      (fun data data' heap other => data' = data ∧ Alike roots start heap other) Twin := by
  have kept : Keeps (fun heap => Sound roots heap ∧ Shape start heap) (objectData .python i) :=
    (objectData_sound .python i).and (objectData_shape start .python i)
  refine ((objectData_together past roots i).alongside kept).weaken ?_ ?_ fun _ _ => id
  · rintro heap other ⟨twin, sound, shape⟩
    exact ⟨⟨twin, sound⟩, sound, shape⟩
  · rintro data data' heap other ⟨⟨same, twin⟩, sound, shape⟩
    exact ⟨same, twin, sound, shape⟩

end Reading

section Access
variable (past : Nat → Nat → Bool) {P : Heap → Heap → Prop} (twins : ∀ heap other, P heap other → Twin heap other)

include twins in
theorem object_together (i : Nat) :
    Together P (object i) (object i)
      (fun self now heap other => P heap other ∧ heap.objects[i]? = some self ∧ TwinObject heap self now) Twin := by
  intro heap other holds
  have twin := twins heap other holds
  cases found : heap.objects[i]? with
  | none =>
    rw [object_missing found, object_missing (twin.missing found)]
    exact ⟨rfl, twin⟩
  | some self =>
    obtain ⟨now, stored, pair⟩ := twin.objects i self found
    rw [object_run found, object_run stored]
    exact ⟨holds, found, pair⟩

include twins in
theorem slice_together (i : Nat) :
    Together P (slice i) (slice i)
      (fun view view' heap other => view' = view ∧ P heap other ∧ heap.slices[i]? = some view) Twin := by
  refine together_get fun read other => ?_
  refine together_fact (c := other.slices = read.slices) ?_ fun same => ?_
  · rintro heap after ⟨⟨rfl, rfl⟩, holds⟩
    exact (twins heap after holds).slices
  · rw [same]
    cases found : read.slices[i]? with
    | none => exact together_throw fun heap after holds => twins heap after holds.2
    | some view =>
      apply together_pure
      rintro heap after ⟨⟨rfl, rfl⟩, holds⟩
      exact ⟨rfl, holds, found⟩

theorem lenOf_object {heap : Heap} {i : Nat} {self : BitString} (found : heap.objects[i]? = some self) :
    heap.lenOf (.object i) = self.length := by
  rw [Heap.lenOf, List.getD_eq_getElem?_getD, List.getElem?_map, found]
  rfl

theorem lenOf_slice {heap : Heap} {i : Nat} {view : BitStringSlice} (found : heap.slices[i]? = some view) :
    heap.lenOf (.slice i) = view.stop - view.start := by
  rw [Heap.lenOf, found]
  rfl

def Heap.Has (heap : Heap) : Ref → Prop
  | .object i => i < heap.objects.length
  | .slice i => i < heap.slices.length

include twins in
theorem len_together (ref : Ref) :
    Together P (len ref) (len ref)
      (fun length length' heap other => length' = length ∧ (length = heap.lenOf ref ∧ heap.Has ref) ∧ P heap other)
      Twin := by
  cases ref with
  | object i =>
    refine together_bind (object_together twins i) fun self now => ?_
    apply together_pure
    rintro heap other ⟨holds, found, pair⟩
    exact ⟨pair.length, ⟨(lenOf_object found).symm, (List.getElem?_eq_some_iff.mp found).1⟩, holds⟩
  | slice i =>
    refine together_bind (slice_together twins i) fun view view' => ?_
    apply together_pure
    rintro heap other ⟨rfl, holds, found⟩
    exact ⟨rfl, ⟨(lenOf_slice found).symm, (List.getElem?_eq_some_iff.mp found).1⟩, holds⟩

theorem cint_together {value : Int} (fits : fitsInt value = true) :
    Together P (Impl.cint .python value) (Impl.cint (.cython past) value)
      (fun result result' heap other => result' = result ∧ result = value ∧ P heap other) Twin := by
  rw [Impl.cint, Impl.cint, if_pos (of_decide_eq_true fits)]
  exact together_pure fun heap other holds => ⟨rfl, rfl, holds⟩

include twins in
theorem toBytes_together (value length : Nat) :
    Together P (toBytes value length) (toBytes value length)
      (fun raw raw' heap other => (raw' = raw ∧ raw.length = length) ∧ P heap other) Twin := by
  apply together_ite
  · intro _
    exact together_pure fun heap other holds => ⟨⟨rfl, length_split _ _⟩, holds⟩
  · intro _
    exact together_throw twins

include twins in
theorem lastOf_together (data : Bytes) :
    Together P (lastOf data) (lastOf data) (fun last last' heap other => last' = last ∧ P heap other) Twin := by
  rw [lastOf]
  cases data.getLast? with
  | none => exact together_throw twins
  | some last => exact together_pure fun heap other holds => ⟨rfl, holds⟩

include twins in
theorem byteAt_together (data : Bytes) (k : Int) :
    Together P (byteAt data k) (byteAt data k) (fun byte byte' heap other => byte' = byte ∧ P heap other) Twin := by
  apply together_ite
  · intro _
    exact together_throw twins
  · intro _
    cases data[(if k < 0 then k + data.length else k).toNat]? with
    | none => exact together_throw twins
    | some byte => exact together_pure fun heap other holds => ⟨rfl, holds⟩

theorem bound_together {value : Option Int} {length : Nat} (missing : Nat) (fits : fitsBound value length = true) :
    Together P (bound .python value missing length) (bound (.cython past) value missing length)
      (fun result result' heap other => result' = result ∧ result = boundOf value missing length ∧ P heap other) Twin := by
  cases value with
  | none => exact together_pure fun heap other holds => ⟨rfl, rfl, holds⟩
  | some value =>
    refine together_bind (cint_together past fits) fun result result' => ?_
    apply together_pure
    rintro heap other ⟨rfl, rfl, holds⟩
    exact ⟨rfl, rfl, holds⟩

end Access

/-! ### Values -/

section Values
variable (past : Nat → Nat → Bool) (roots : Nat) (start : Heap)

theorem alike_twin : ∀ heap other, Alike roots start heap other → Twin heap other := fun _ _ alike => alike.1

theorem mask_lt (value length : Nat) : mask value length < 2 ^ length := by
  rw [Storage.mask_natCast]
  exact Nat.mod_lt _ (Nat.pow_pos (by decide))

theorem emptyInt_together (i : Nat) (self : BitString) (empty : self.length = 0) :
    Together (fun heap other => Alike roots start heap other ∧ heap.objects[i]? = some self)
      (objectData .python i >>= fun data => pure (mask (combine data) self.length)) (pure 0)
      (fun value value' heap other => (value' = value ∧ value = 0) ∧ Alike roots start heap other) Twin := by
  rintro heap other ⟨⟨twin, sound, shape⟩, found⟩
  have fits := sound.fits found
  have zero : ∀ data : Bytes, mask (combine data) self.length = 0 := by
    intro data
    have bound := mask_lt (combine data) self.length
    rw [empty] at bound
    rw [empty]
    omega
  cases cached : self.dataCache with
  | some data =>
    rw [run_bind_ok (objectData_cached found cached .python), zero]
    exact ⟨⟨rfl, rfl⟩, twin, sound, shape⟩
  | none =>
    rw [run_bind_ok (objectData_fill found cached fits.room .python), zero]
    exact ⟨⟨rfl, rfl⟩, twin.fillFirst found empty fits.below cached, sound.put fits.fill, shape_put shape found rfl⟩

theorem int_together {ref : Ref} (readable : start.readable ref = true) :
    Together (Alike roots start) (int .python ref) (int (.cython past) ref)
      (fun value value' heap other => (value' = value ∧ value < 2 ^ start.lenOf ref) ∧ Alike roots start heap other)
      Twin := by
  cases ref with
  | object i =>
    refine together_bind (object_together (alike_twin roots start) i) fun self now => ?_
    refine together_fact (c := now.length = self.length ∧ start.lenOf (.object i) = self.length) ?_ ?_
    · rintro heap other ⟨alike, found, pair⟩
      refine ⟨pair.length, ?_⟩
      rw [← alike.2.2.lenOf]
      exact lenOf_object found
    rintro ⟨length, size⟩
    rw [length, size, if_neg (by simp [Impl.skipsEmpty])]
    by_cases empty : self.length = 0
    · rw [if_pos ⟨rfl, empty⟩]
      refine (emptyInt_together roots start i self empty).weaken (fun heap other holds => ⟨holds.1, holds.2.1⟩) ?_
        fun _ _ => id
      rintro value value' heap other ⟨⟨same, zero⟩, alike⟩
      refine ⟨⟨same, ?_⟩, alike⟩
      rw [zero]
      exact Nat.pow_pos (by decide)
    · rw [if_neg fun both => empty both.2]
      refine together_bind ((objectData_alike past roots start i).weaken (fun heap other holds => holds.1)
        (fun _ _ _ _ => id) fun _ _ => id) fun data data' => ?_
      apply together_pure
      rintro heap other ⟨rfl, alike⟩
      exact ⟨⟨rfl, mask_lt _ _⟩, alike⟩
  | slice i =>
    refine together_bind (slice_together (alike_twin roots start) i) fun view view' => ?_
    refine together_fact (c := view' = view ∧ start.slices[i]? = some view) ?_ ?_
    · rintro heap other ⟨same, alike, found⟩
      exact ⟨same, alike.2.2.2 ▸ found⟩
    rintro ⟨rfl, found⟩
    have room : view'.stop + 7 < 2 ^ 31 := by
      rw [Heap.readable, found, Option.all_some] at readable
      exact of_decide_eq_true readable
    have wrapped : Impl.wrap (.cython past) (view'.stop + 7) = Impl.wrap .python (view'.stop + 7) := by
      rw [Impl.wrap, Impl.wrap]
      omega
    rw [lenOf_slice found, wrapped]
    apply together_ite
    · intro _
      apply together_pure
      rintro heap other ⟨-, alike, -⟩
      exact ⟨⟨rfl, Nat.pow_pos (by decide)⟩, alike⟩
    · intro _
      refine together_bind ((objectData_alike past roots start view'.bs).weaken (fun heap other holds => holds.2.1)
        (fun _ _ _ _ => id) fun _ _ => id) fun data data' => ?_
      apply together_pure
      rintro heap other ⟨rfl, alike⟩
      exact ⟨⟨rfl, mask_lt _ _⟩, alike⟩

theorem data_together {ref : Ref} (readable : start.readable ref = true) :
    Together (Alike roots start) (data .python ref) (data (.cython past) ref)
      (fun data data' heap other => data' = data ∧ Alike roots start heap other) Twin := by
  cases ref with
  | object i => exact objectData_alike past roots start i
  | slice i =>
    refine together_bind (slice_together (alike_twin roots start) i) fun view view' => ?_
    refine together_fact (c := view' = view) (fun heap other holds => holds.1) ?_
    rintro rfl
    apply together_ite
    · intro _
      exact together_pure fun heap other holds => ⟨rfl, holds.2.1⟩
    · intro _
      apply together_ite
      · intro _
        refine together_bind ((objectData_alike past roots start view'.bs).weaken (fun heap other holds => holds.2.1)
          (fun _ _ _ _ => id) fun _ _ => id) fun data data' => ?_
        apply together_pure
        rintro heap other ⟨rfl, alike⟩
        exact ⟨rfl, alike⟩
      · intro _
        refine together_bind ((int_together past roots start readable).weaken (fun heap other holds => holds.2.1)
          (fun _ _ _ _ => id) fun _ _ => id) fun value value' => ?_
        refine together_fact (c := value' = value) (fun heap other holds => holds.1.1) ?_
        rintro rfl
        exact (toBytes_together (fun heap other holds => holds.2.1) value' _).weaken (fun _ _ => id)
          (fun _ _ _ _ holds => ⟨holds.1.1, holds.2.2⟩) fun _ _ => id

theorem eq_together {left right : Ref}
    (readable : start.lenOf left = start.lenOf right → start.readable left = true ∧ start.readable right = true) :
    Together (Alike roots start) (eq .python left right) (eq (.cython past) left right)
      (fun same same' heap other => same' = same ∧ Twin heap other) Twin := by
  refine together_bind (len_together (alike_twin roots start) left) fun leftLen leftLen' => ?_
  refine together_bind (len_together (fun heap other holds => holds.2.2.1) right) fun rightLen rightLen' => ?_
  refine together_fact (c := (leftLen' = leftLen ∧ leftLen = start.lenOf left) ∧
    rightLen' = rightLen ∧ rightLen = start.lenOf right) ?_ ?_
  · rintro heap other ⟨second, ⟨size, -⟩, first, ⟨length, -⟩, alike⟩
    rw [alike.2.2.lenOf] at size length
    exact ⟨⟨first, length⟩, second, size⟩
  rintro ⟨⟨rfl, rfl⟩, rfl, rfl⟩
  apply together_ite
  · intro _
    exact together_pure fun heap other holds => ⟨rfl, holds.2.2.2.2.1⟩
  · intro same
    obtain ⟨first, second⟩ := readable (not_not.mp same)
    refine together_bind ((data_together past roots start first).weaken (fun heap other holds => holds.2.2.2.2)
      (fun _ _ _ _ => id) fun _ _ => id) fun data data' => ?_
    refine together_fact (c := data' = data) (fun heap other holds => holds.1) ?_
    rintro rfl
    refine together_bind ((data_together past roots start second).weaken (fun heap other holds => holds.2)
      (fun _ _ _ _ => id) fun _ _ => id) fun more more' => ?_
    apply together_pure
    rintro heap other ⟨rfl, alike⟩
    exact ⟨rfl, alike.1⟩

theorem getItem_together {ref : Ref} {offset : Int} (fits : start.small (.getItem ref offset) = true) :
    Together (Alike roots start) (getItem .python ref offset) (getItem (.cython past) ref offset)
      (fun bit bit' heap other => bit' = bit ∧ Twin heap other) Twin := by
  refine together_bind (len_together (alike_twin roots start) ref) fun length length' => ?_
  refine together_fact (c := length' = length ∧ length = start.lenOf ref) ?_ ?_
  · rintro heap other ⟨same, ⟨size, -⟩, alike⟩
    exact ⟨same, alike.2.2.lenOf ▸ size⟩
  rintro ⟨rfl, rfl⟩
  cases ref with
  | object i =>
    apply together_ite
    · intro _
      exact together_throw fun heap other holds => holds.2.2.1
    · intro _
      refine together_bind ((objectData_alike past roots start i).weaken (fun heap other holds => holds.2.2)
        (fun _ _ _ _ => id) fun _ _ => id) fun data data' => ?_
      refine together_fact (c := data' = data) (fun heap other holds => holds.1) ?_
      rintro rfl
      refine together_bind (byteAt_together (fun heap other holds => holds.2.1) data' _) fun byte byte' => ?_
      apply together_pure
      rintro heap other ⟨rfl, -, alike⟩
      exact ⟨rfl, alike.1⟩
  | slice i =>
    refine together_bind (slice_together (fun heap other holds => holds.2.2.1) i) fun view view' => ?_
    refine together_fact (c := view' = view ∧ start.slices[i]? = some view) ?_ ?_
    · rintro heap other ⟨same, ⟨-, -, alike⟩, found⟩
      exact ⟨same, alike.2.2.2 ▸ found⟩
    rintro ⟨rfl, found⟩
    rw [Heap.small, found, Option.all_some] at fits
    rw [lenOf_slice found]
    refine together_bind (cint_together past fits) fun place place' => ?_
    refine together_fact (c := place' = place) (fun heap other holds => holds.1) ?_
    rintro rfl
    refine together_bind ((objectData_alike past roots start view'.bs).weaken
      (fun heap other holds => holds.2.2.2.1.2.2) (fun _ _ _ _ => id) fun _ _ => id) fun data data' => ?_
    refine together_fact (c := data' = data) (fun heap other holds => holds.1) ?_
    rintro rfl
    refine together_bind (byteAt_together (fun heap other holds => holds.2.1) data' _) fun byte byte' => ?_
    apply together_pure
    rintro heap other ⟨rfl, -, alike⟩
    exact ⟨rfl, alike.1⟩

end Values

/-! ### Appending -/

section Appending
variable (past : Nat → Nat → Bool)

/-- The object has a whole number of bytes and room for `length` more bits. -/
def Extensible (i length : Nat) (heap : Heap) : Prop :=
  ∀ self, heap.objects[i]? = some self → self.length % 8 = 0 ∧ self.length + length < 2 ^ 31

theorem together_contents {α : Type} {P : Heap → Heap → Prop} {Q : α → α → Heap → Heap → Prop} {f g : Heap → Exec α}
    (twins : ∀ heap other, P heap other → Twin heap other)
    (rest : ∀ read other, other.contents = read.contents →
      Together (fun heap after => (heap = read ∧ after = other) ∧ P heap after) (f read) (g other) Q Twin) :
    Together P (get >>= f) (get >>= g) Q Twin := by
  refine together_get fun read other => together_fact ?_ (rest read other)
  rintro heap after ⟨⟨rfl, rfl⟩, holds⟩
  exact (twins heap after holds).contents

theorem shorten_together (data : Chunk) :
    Together Twin (shorten data) (shorten data) (fun chunk chunk' heap other => chunk' = chunk ∧ Twin heap other)
      Twin := by
  cases data with
  | bytes raw => exact together_pure fun heap other twin => ⟨rfl, twin⟩
  | array k =>
    refine together_contents (fun _ _ holds => holds) fun read other same => ?_
    rw [same]
    refine together_bind (Q := fun fresh fresh' heap other => fresh' = fresh ∧ Twin heap other)
      (together_modifyGet ?_) fun fresh fresh' => ?_
    · rintro heap after ⟨-, twin⟩
      exact ⟨by rw [twin.arrays], twin.allocArray _⟩
    · apply together_pure
      rintro heap after ⟨rfl, twin⟩
      exact ⟨rfl, twin⟩

theorem finishAppend_together (i : Nat) (data : Chunk) (length : Nat) :
    Together (fun heap other => Twin heap other ∧ Extensible i length heap ∧ length ≤ 8 * (heap.contents data).length)
      (finishAppend .python i data length) (finishAppend (.cython past) i data length)
      (fun _ _ => Twin) Twin := by
  refine together_bind (object_together (fun heap other holds => holds.1) i) fun self now => ?_
  refine together_fact (c := (self.length % 8 = 0 ∧ self.length + length < 2 ^ 31) ∧
    ∃ cache, now = { self with dataCache := cache }) ?_ ?_
  · rintro heap other ⟨⟨-, room, -⟩, found, pair⟩
    exact ⟨room self found, pair.recached⟩
  rintro ⟨⟨whole, room⟩, cache, rfl⟩
  have fits : fitsInt ((self.length + length : Nat) : Int) = true := decide_eq_true (by omega)
  dsimp only
  generalize sum : ((self.length + length : Nat) : Int) = value at fits ⊢
  refine together_bind (cint_together past fits) fun total total' => ?_
  refine together_fact (c := total' = total ∧ total = value) (fun heap other holds => ⟨holds.1, holds.2.1⟩) ?_
  rintro ⟨rfl, rfl⟩
  apply together_ite
  · intro odd
    refine together_get fun read other => ?_
    refine together_fact (c := other.contents = read.contents ∧ length ≤ 8 * (read.contents data).length) ?_ ?_
    · rintro heap after ⟨⟨rfl, rfl⟩, -, -, ⟨twin, -, enough⟩, -⟩
      exact ⟨twin.contents, enough⟩
    rintro ⟨contents, enough⟩
    rw [contents]
    cases ending : (read.contents data).getLast? with
    | none =>
      rw [List.getLast?_eq_none_iff.mp ending, List.length_nil] at enough
      omega
    | some last =>
      refine together_bind ((shorten_together data).weaken (fun heap after holds => holds.2.2.2.1.1) (fun _ _ _ _ => id)
        fun _ _ => id) fun chunk chunk' => ?_
      apply together_modifyGet
      rintro heap after ⟨rfl, twin⟩
      exact twin.put i (.inl rfl)
  · intro even
    apply together_modifyGet
    rintro heap after ⟨-, -, ⟨twin, -, -⟩, -⟩
    exact twin.put i (.inl rfl)

/-- The object has room for `length` more bits. -/
def Growable (i length : Nat) (heap : Heap) : Prop :=
  ∀ self, heap.objects[i]? = some self → self.length + length < 2 ^ 31

theorem TwinObject.eq {heap : Heap} {self now : BitString} (pair : TwinObject heap self now)
    (filled : self.length ≠ 0) : now = self := by
  obtain rfl | ⟨empty, -⟩ := pair
  · rfl
  · exact absurd empty filled

theorem merge_together (i : Nat) (clears : Bool) (value length : Nat) :
    Together (fun heap other => Twin heap other ∧ Growable i length heap ∧
        ∀ self, heap.objects[i]? = some self → self.length % 8 ≠ 0)
      (merge .python i clears value length) (merge (.cython past) i clears value length) (fun _ _ => Twin) Twin := by
  refine together_bind (object_together (fun heap other holds => holds.1) i) fun self now => ?_
  refine together_fact (c := (self.length + length < 2 ^ 31 ∧ self.length % 8 ≠ 0) ∧ now = self) ?_ ?_
  · rintro heap other ⟨⟨-, room, odd⟩, found, pair⟩
    have part := odd self found
    exact ⟨⟨room self found, part⟩, pair.eq (by omega)⟩
  rintro ⟨⟨room, odd⟩, rfl⟩
  refine together_bind (Q := fun _ _ heap other => Twin heap other ∧ Extensible i (length + now.length % 8) heap)
    (together_modifyGet ?_) fun _ _ => ?_
  · rintro heap other ⟨⟨twin, -, -⟩, found, -⟩
    refine ⟨twin.put i (.inl rfl), ?_⟩
    intro stored cut
    rw [List.getElem?_set_self (List.getElem?_eq_some_iff.mp found).1] at cut
    cases cut
    dsimp only
    omega
  · refine together_bind (toBytes_together (fun heap other holds => holds.1) _ _) fun raw raw' => ?_
    refine together_fact (c := raw' = raw ∧ raw.length = (length + now.length % 8 + 7) / 8)
      (fun heap other holds => holds.1) ?_
    rintro ⟨rfl, size⟩
    refine (finishAppend_together past i (.bytes raw') _).weaken ?_ (fun _ _ _ _ => id) fun _ _ => id
    rintro heap other ⟨-, twin, room⟩
    refine ⟨twin, room, ?_⟩
    rw [Heap.contents, size]
    omega

theorem justified_together {K : Heap → Prop} (data : Chunk) (bits : Nat)
    (kept : ∀ heap buffer, K heap → K { heap with arrays := heap.arrays ++ [buffer] }) :
    Together (fun heap other => Twin heap other ∧ K heap) (justified data ((bits + 7) / 8))
      (justified data ((bits + 7) / 8))
      (fun chunk chunk' heap other => chunk' = chunk ∧ (Twin heap other ∧ K heap) ∧
        bits ≤ 8 * (heap.contents chunk).length) Twin := by
  refine together_contents (fun _ _ holds => holds.1) fun read other same => ?_
  rw [same]
  cases data with
  | bytes raw =>
    apply together_pure
    rintro heap after ⟨-, holds⟩
    refine ⟨rfl, holds, ?_⟩
    change bits ≤ 8 * (ljust raw ((bits + 7) / 8)).length
    rw [Storage.BitString.length_ljust]
    omega
  | array k =>
    refine together_bind (Q := fun fresh fresh' heap other => fresh' = fresh ∧ (Twin heap other ∧ K heap) ∧
      bits ≤ 8 * (heap.contents (.array fresh)).length) (together_modifyGet ?_) fun fresh fresh' => ?_
    · rintro heap after ⟨-, twin, holds⟩
      refine ⟨by rw [twin.arrays], ⟨twin.allocArray _, kept heap _ holds⟩, ?_⟩
      rw [contents_fresh, Storage.BitString.length_ljust]
      omega
    · apply together_pure
      rintro heap after ⟨rfl, holds⟩
      exact ⟨rfl, holds⟩

theorem appended_together (i : Nat) (data : Chunk) (bits : Nat) :
    Together (fun heap other => (Twin heap other ∧ Growable i bits heap) ∧ bits ≤ 8 * (heap.contents data).length)
      (object i >>= fun self => if self.length % 8 ≠ 0 then
        get >>= fun heap => merge .python i true (combine (heap.contents data)) bits
      else finishAppend .python i data bits)
      (object i >>= fun self => if self.length % 8 ≠ 0 then
        get >>= fun heap => merge (.cython past) i true (combine (heap.contents data)) bits
      else finishAppend (.cython past) i data bits) (fun _ _ => Twin) Twin := by
  refine together_bind (object_together (fun heap other holds => holds.1.1) i) fun self now => ?_
  refine together_fact (c := now.length = self.length) (fun heap other holds => holds.2.2.length) fun length => ?_
  rw [length]
  have only : ∀ heap other, (((Twin heap other ∧ Growable i bits heap) ∧ bits ≤ 8 * (heap.contents data).length) ∧
      heap.objects[i]? = some self ∧ TwinObject heap self now) →
      ∀ stored, heap.objects[i]? = some stored → stored = self := by
    rintro heap other ⟨-, found, -⟩ stored again
    rw [found] at again
    exact (Option.some.inj again).symm
  apply together_ite
  · intro odd
    refine together_contents (fun _ _ holds => holds.1.1.1) fun read other same => ?_
    rw [same]
    refine (merge_together past i true _ bits).weaken ?_ (fun _ _ _ _ => id) fun _ _ => id
    rintro heap after ⟨-, holds⟩
    refine ⟨holds.1.1.1, holds.1.1.2, ?_⟩
    intro stored found
    rw [only heap after holds stored found]
    exact odd
  · intro even
    refine (finishAppend_together past i data bits).weaken ?_ (fun _ _ _ _ => id) fun _ _ => id
    intro heap after holds
    refine ⟨holds.1.1.1, ?_, holds.1.2⟩
    intro stored found
    refine ⟨?_, holds.1.1.2 stored found⟩
    rw [only heap after holds stored found]
    omega

theorem appendBytes_together (i : Nat) (data : Chunk) (length : Option Nat) :
    Together (fun heap other => Twin heap other ∧ Growable i (length.getD ((heap.contents data).length * 8)) heap)
      (appendBytes .python i data length) (appendBytes (.cython past) i data length) (fun _ _ => Twin) Twin := by
  refine together_contents (fun _ _ holds => holds.1) fun read other same => ?_
  rw [same]
  cases length with
  | none =>
    refine (appended_together past i data _).weaken ?_ (fun _ _ _ _ => id) fun _ _ => id
    rintro heap after ⟨⟨rfl, -⟩, twin, room⟩
    refine ⟨⟨twin, room⟩, ?_⟩
    change (heap.contents data).length * 8 ≤ _
    omega
  | some bits =>
    refine together_bind ((justified_together (K := Growable i bits) data bits fun heap buffer room => room).weaken ?_
      (fun _ _ _ _ => id) fun _ _ => id) fun chunk chunk' => ?_
    · rintro heap after ⟨-, holds⟩
      exact holds
    · refine together_fact (c := chunk' = chunk) (fun heap other holds => holds.1) ?_
      rintro rfl
      exact (appended_together past i chunk' bits).weaken (fun heap other holds => holds.2) (fun _ _ _ _ => id)
        fun _ _ => id

theorem appendInt_together (i : Nat) (value : Int) (length : Nat) :
    Together (fun heap other => Twin heap other ∧ Growable i length heap) (appendInt .python i value length)
      (appendInt (.cython past) i value length) (fun _ _ => Twin) Twin := by
  refine together_bind (object_together (fun heap other holds => holds.1) i) fun self now => ?_
  refine together_fact (c := now.length = self.length) (fun heap other holds => holds.2.2.length) fun same => ?_
  rw [same]
  have only : ∀ heap other, (Twin heap other ∧ Growable i length heap) ∧ heap.objects[i]? = some self ∧
      TwinObject heap self now → ∀ stored, heap.objects[i]? = some stored → stored = self := by
    rintro heap other ⟨-, found, -⟩ stored again
    rw [found] at again
    exact (Option.some.inj again).symm
  apply together_ite
  · intro odd
    refine (merge_together past i false _ length).weaken ?_ (fun _ _ _ _ => id) fun _ _ => id
    intro heap other holds
    refine ⟨holds.1.1, holds.1.2, ?_⟩
    intro stored found
    rw [only heap other holds stored found]
    exact odd
  · intro even
    refine together_bind (toBytes_together (fun heap other holds => holds.1.1) _ _) fun raw raw' => ?_
    refine together_fact (c := raw' = raw ∧ raw.length = (length + 7) / 8) (fun heap other holds => holds.1) ?_
    rintro ⟨rfl, size⟩
    refine (finishAppend_together past i (.bytes raw') length).weaken ?_ (fun _ _ _ _ => id) fun _ _ => id
    rintro heap other ⟨-, holds⟩
    refine ⟨holds.1.1, ?_, ?_⟩
    · intro stored found
      refine ⟨?_, holds.1.2 stored found⟩
      rw [only heap other holds stored found]
      omega
    · rw [Heap.contents, size]
      omega

theorem Shape.growable {start heap : Heap} {i length : Nat} (shape : Shape start heap)
    (room : start.lenOf (.object i) + length < 2 ^ 31) : Growable i length heap := by
  intro self found
  rw [← lenOf_object found, shape.lenOf]
  exact room

theorem append_together (roots : Nat) (start : Heap) {i : Nat} {other : Ref}
    (room : start.lenOf (.object i) + start.lenOf other < 2 ^ 31) (readable : start.readable other = true) :
    Together (Alike roots start) (append .python i other) (append (.cython past) i other) (fun _ _ => Twin) Twin := by
  refine together_bind (len_together (alike_twin roots start) other) fun length length' => ?_
  refine together_fact (c := length' = length ∧ length = start.lenOf other) ?_ ?_
  · rintro heap after ⟨same, ⟨size, -⟩, alike⟩
    exact ⟨same, alike.2.2.lenOf ▸ size⟩
  rintro ⟨rfl, rfl⟩
  refine together_bind (object_together (fun heap after holds => holds.2.2.1) i) fun self now => ?_
  refine together_fact (c := now.length = self.length) (fun heap after holds => holds.2.2.length) fun same => ?_
  rw [same]
  apply together_ite
  · intro odd
    refine together_bind ((int_together past roots start readable).weaken (fun heap after holds => holds.1.2.2)
      (fun _ _ _ _ => id) fun _ _ => id) fun value value' => ?_
    refine together_fact (c := value' = value) (fun heap after holds => holds.1.1) ?_
    rintro rfl
    refine (appendInt_together past i value' _).weaken ?_ (fun _ _ _ _ => id) fun _ _ => id
    rintro heap after ⟨-, twin, -, shape⟩
    exact ⟨twin, shape.growable room⟩
  · intro even
    refine together_bind ((data_together past roots start readable).weaken (fun heap after holds => holds.1.2.2)
      (fun _ _ _ _ => id) fun _ _ => id) fun raw raw' => ?_
    refine together_fact (c := raw' = raw) (fun heap after holds => holds.1) ?_
    rintro rfl
    refine (appendBytes_together past i (.bytes raw') _).weaken ?_ (fun _ _ _ _ => id) fun _ _ => id
    rintro heap after ⟨-, twin, -, shape⟩
    exact ⟨twin, shape.growable room⟩

end Appending

/-! ### Construction -/

theorem Twin.dropLast {heap other : Heap} (twin : Twin heap other) (count : Nat) :
    Twin { heap with objects := heap.objects.take count } { other with objects := other.objects.take count } where
  arrays := twin.arrays
  slices := twin.slices
  count := by rw [List.length_take, List.length_take, twin.count]
  objects i stored found := by
    rw [List.getElem?_take] at found
    split at found
    · rename_i below
      obtain ⟨now, kept, pair⟩ := twin.objects i stored found
      refine ⟨now, ?_, pair.mono (Nat.le_refl _) fun _ _ _ _ _ => rfl⟩
      rw [List.getElem?_take_of_lt below, kept]
    · cases found

theorem Twin.allocSlice {heap other : Heap} (twin : Twin heap other) (view : BitStringSlice) :
    Twin { heap with slices := heap.slices ++ [view] } { other with slices := other.slices ++ [view] } where
  arrays := twin.arrays
  slices := by rw [twin.slices]
  count := twin.count
  objects i stored found := by
    obtain ⟨now, kept, pair⟩ := twin.objects i stored found
    exact ⟨now, kept, pair.mono (Nat.le_refl _) fun _ _ _ _ _ => rfl⟩

section Construction
variable (past : Nat → Nat → Bool) {P : Heap → Heap → Prop} (twins : ∀ heap other, P heap other → Twin heap other)

theorem alloc_together {self now : BitString}
    (pairs : ∀ heap other, P heap other → Twin heap other ∧ TwinObject heap self now) :
    Together P (alloc self) (alloc now) (fun ref ref' heap other => ref' = ref ∧ Twin heap other) Twin := by
  apply together_modifyGet
  intro heap other holds
  obtain ⟨twin, pair⟩ := pairs heap other holds
  exact ⟨by rw [twin.count], twin.alloc pair⟩

include twins in
theorem placed_together (raw : Bytes) {length : Nat} (cache : Option Bytes) (room : length < 2 ^ 31) :
    Together P (placed .python raw length cache) (placed (.cython past) raw length cache)
      (fun self now heap other => (now = self ∧ self.length = length) ∧ P heap other) Twin := by
  have fits : fitsInt (length : Int) = true := decide_eq_true (by omega)
  have back : (length : Int).toNat = length := Int.toNat_natCast length
  unfold placed
  generalize (length : Int) = value at fits back ⊢
  apply together_ite
  · intro _
    refine together_bind (lastOf_together twins raw) fun last last' => ?_
    refine together_bind (cint_together past fits) fun total total' => ?_
    apply together_pure
    rintro heap other ⟨rfl, rfl, rfl, holds⟩
    exact ⟨⟨rfl, back⟩, holds⟩
  · intro _
    refine together_bind (cint_together past fits) fun total total' => ?_
    apply together_pure
    rintro heap other ⟨rfl, rfl, holds⟩
    exact ⟨⟨rfl, back⟩, holds⟩

include twins in
theorem newInt_together (value : Int) {length : Nat} (room : length < 2 ^ 31) :
    Together P (newInt .python value length) (newInt (.cython past) value length)
      (fun ref ref' heap other => ref' = ref ∧ Twin heap other) Twin := by
  refine together_bind (toBytes_together twins _ _) fun raw raw' => ?_
  refine together_fact (c := raw' = raw) (fun heap other holds => holds.1.1) ?_
  rintro rfl
  refine together_bind (placed_together past (fun heap other holds => twins heap other holds.2) raw' _ room)
    fun self now => ?_
  apply alloc_together
  rintro heap other ⟨⟨rfl, -⟩, -, holds⟩
  exact ⟨twins heap other holds, .inl rfl⟩

include twins in
theorem build_together {Q : Nat → Heap → Heap → Prop} {self now : BitString} {fill fill' : Nat → Exec Unit}
    (begun : ∀ heap other, P heap other → Q heap.objects.length { heap with objects := heap.objects ++ [self] }
      { other with objects := other.objects ++ [now] })
    (filled : ∀ i, Together (Q i) (fill i) (fill' i) (fun _ _ => Twin) Twin) :
    Together P (build self fill) (build now fill') (fun ref ref' heap other => ref' = ref ∧ Twin heap other) Twin := by
  intro heap other holds
  have done := filled heap.objects.length _ _ (begun heap other holds)
  have count := (twins heap other holds).count
  rw [build, build, count]
  cases left : fill heap.objects.length { heap with objects := heap.objects ++ [self] } with
  | ok _ after =>
    cases right : fill' heap.objects.length { other with objects := other.objects ++ [now] } with
    | ok _ after' =>
      rw [left, right] at done
      exact ⟨rfl, done⟩
    | error error after' =>
      rw [left, right] at done
      exact done.elim
  | error error after =>
    cases right : fill' heap.objects.length { other with objects := other.objects ++ [now] } with
    | ok _ after' =>
      rw [left, right] at done
      exact done.elim
    | error error' after' =>
      rw [left, right] at done
      exact ⟨done.1, done.2.dropLast _⟩

theorem newBytes_together (data : Chunk) (length : Option Nat) :
    Together (fun heap other => Twin heap other ∧ length.getD ((heap.contents data).length * 8) < 2 ^ 31)
      (newBytes .python data length) (newBytes (.cython past) data length)
      (fun ref ref' heap other => ref' = ref ∧ Twin heap other) Twin := by
  have built : Together (fun heap other => Twin heap other ∧ length.getD ((heap.contents data).length * 8) < 2 ^ 31)
      (build .empty fun i => appendBytes .python i data length)
      (build .empty fun i => appendBytes (.cython past) i data length)
      (fun ref ref' heap other => ref' = ref ∧ Twin heap other) Twin := by
    refine build_together (fun heap other holds => holds.1) ?_ fun i => appendBytes_together past i data length
    rintro heap other ⟨twin, room⟩
    refine ⟨twin.alloc (.inl rfl), ?_⟩
    intro self found
    rw [List.getElem?_concat_length] at found
    cases found
    exact (Nat.zero_add _).symm ▸ room
  refine together_contents (fun _ _ holds => holds.1) fun read other same => ?_
  rw [same]
  cases length with
  | none => exact built.weaken (fun heap after holds => holds.2) (fun _ _ _ _ => id) fun _ _ => id
  | some bits =>
    apply together_ite
    · intro _
      refine together_fact (c := bits < 2 ^ 31) (fun heap after holds => holds.2.2) fun room => ?_
      refine together_bind (placed_together past (fun heap after holds => holds.2.1) _ _ room) fun self now => ?_
      apply alloc_together
      rintro heap after ⟨⟨rfl, -⟩, -, twin, -⟩
      exact ⟨twin, .inl rfl⟩
    · intro _
      exact built.weaken (fun heap after holds => holds.2) (fun _ _ _ _ => id) fun _ _ => id

end Construction

theorem Shape.has {start heap : Heap} (shape : Shape start heap) {ref : Ref} (has : heap.Has ref) : start.Has ref := by
  cases ref with
  | object i =>
    have count := congrArg List.length shape.1
    rw [List.length_map, List.length_map] at count
    rw [Heap.Has] at has ⊢
    omega
  | slice i =>
    rw [Heap.Has] at has ⊢
    rw [← shape.2]
    exact has

theorem lenOf_alloc {start : Heap} {ref : Ref} (has : start.Has ref) (self : BitString) :
    Heap.lenOf { start with objects := start.objects ++ [self] } ref = start.lenOf ref := by
  cases ref with
  | object i =>
    have inside : i < (start.objects.map BitString.length).length := by
      rw [List.length_map]
      exact has
    rw [Heap.lenOf, Heap.lenOf, List.map_append, List.getD_eq_getElem?_getD, List.getElem?_append_left inside,
      ← List.getD_eq_getElem?_getD]
  | slice i => rfl

section Sums
variable (past : Nat → Nat → Bool) (roots : Nat) (start : Heap)

theorem buildAppend_together {self : BitString} {other : Ref} (has : start.Has other)
    (room : self.length + start.lenOf other < 2 ^ 31) (readable : start.readable other = true) :
    Together (fun heap after => Alike roots start heap after ∧ Fits heap self)
      (build self fun i => append .python i other) (build self fun i => append (.cython past) i other)
      (fun ref ref' heap after => ref' = ref ∧ Twin heap after) Twin := by
  refine build_together
    (Q := fun i heap after => i = start.objects.length ∧ Alike roots { start with objects := start.objects ++ [self] } heap after)
    (fun heap after holds => holds.1.1) ?_ fun i => ?_
  · rintro heap after ⟨⟨twin, sound, shape⟩, fits⟩
    have count := congrArg List.length shape.1
    rw [List.length_map, List.length_map] at count
    refine ⟨count, twin.alloc (.inl rfl), sound.alloc fits, ?_, shape.2⟩
    rw [List.map_append, List.map_append, shape.1]
  · refine together_fact (c := i = start.objects.length) (fun heap after holds => holds.1) ?_
    rintro rfl
    refine (append_together past roots { start with objects := start.objects ++ [self] } ?_ readable).weaken
      (fun heap after holds => holds.2) (fun _ _ _ _ => id) fun _ _ => id
    rw [lenOf_alloc has, lenOf_object List.getElem?_concat_length]
    exact room

theorem clone_together {other : Ref} {length : Option Nat} (fits : start.small (.newBits other length) = true) :
    Together (Alike roots start) (clone .python other length) (clone (.cython past) other length)
      (fun ref ref' heap after => ref' = ref ∧ Twin heap after) Twin := by
  have built : (start.lenOf other < 2 ^ 31 && start.readable other) = true →
      Together (Alike roots start) (len other >>= fun _ => build .empty fun i => append .python i other)
      (len other >>= fun _ => build .empty fun i => append (.cython past) i other)
      (fun ref ref' heap after => ref' = ref ∧ Twin heap after) Twin := by
    intro fits
    rw [Bool.and_eq_true, decide_eq_true_eq] at fits
    refine together_bind (len_together (alike_twin roots start) other) fun size size' => ?_
    refine together_fact (c := start.Has other) (fun heap after holds => holds.2.2.2.2.has holds.2.1.2) fun has => ?_
    refine (buildAppend_together past roots start has ?_ fits.2).weaken ?_ (fun _ _ _ _ => id) fun _ _ => id
    · exact (Nat.zero_add _).symm ▸ fits.1
    · intro heap after holds
      exact ⟨holds.2.2, fits_empty heap⟩
  cases other with
  | slice i => exact built fits
  | object i =>
    cases length with
    | some bits => exact built fits
    | none =>
      refine together_bind (object_together (alike_twin roots start) i) fun self now => ?_
      apply alloc_together
      rintro heap after ⟨alike, -, pair⟩
      exact ⟨alike.1, pair⟩

theorem addObject_together {i : Nat} {right : Ref} (fits : start.small (.add (.object i) right) = true) :
    Together (Alike roots start) (add .python (.object i) right) (add (.cython past) (.object i) right)
      (fun ref ref' heap after => ref' = ref ∧ Twin heap after) Twin := by
  rw [Heap.small, Bool.and_eq_true, Bool.and_eq_true, decide_eq_true_eq] at fits
  obtain ⟨⟨room, first⟩, second⟩ := fits
  refine together_bind (object_together (alike_twin roots start) i) fun self now => ?_
  refine together_fact (c := now.length = self.length ∧ start.lenOf (.object i) = self.length) ?_ ?_
  · rintro heap after ⟨alike, found, pair⟩
    refine ⟨pair.length, ?_⟩
    rw [← alike.2.2.lenOf]
    exact lenOf_object found
  rintro ⟨length, size⟩
  refine together_bind (len_together (fun heap after holds => holds.1.1) right) fun otherLen otherLen' => ?_
  refine together_fact (c := (otherLen' = otherLen ∧ otherLen = start.lenOf right) ∧ start.Has right) ?_ ?_
  · rintro heap after ⟨same, ⟨size, has⟩, alike, -⟩
    exact ⟨⟨same, alike.2.2.lenOf ▸ size⟩, alike.2.2.has has⟩
  rintro ⟨⟨rfl, rfl⟩, has⟩
  rw [size] at room
  rw [length]
  apply together_ite
  · intro _
    apply alloc_together
    rintro heap after ⟨-, -, alike, -, pair⟩
    exact ⟨alike.1, pair⟩
  · intro _
    apply together_ite
    · intro _
      cases right with
      | object j =>
        refine together_bind (object_together (fun heap after holds => holds.2.2.1.1) j) fun other other' => ?_
        apply alloc_together
        rintro heap after ⟨⟨-, -, alike, -⟩, -, pair⟩
        exact ⟨alike.1, pair⟩
      | slice j =>
        refine together_bind ((int_together past roots start second).weaken (fun heap after holds => holds.2.2.1)
          (fun _ _ _ _ => id) fun _ _ => id) fun value value' => ?_
        refine together_fact (c := value' = value) (fun heap after holds => holds.1.1) ?_
        rintro rfl
        exact newInt_together past (fun heap after holds => holds.2.1) _ (by omega)
    · intro filled
      apply together_ite
      · intro _
        refine together_bind ((int_together past roots start first).weaken (fun heap after holds => holds.2.2.1)
          (fun _ _ _ _ => id) fun _ _ => id) fun low low' => ?_
        refine together_fact (c := low' = low) (fun heap after holds => holds.1.1) ?_
        rintro rfl
        refine together_bind ((int_together past roots start second).weaken (fun heap after holds => holds.2)
          (fun _ _ _ _ => id) fun _ _ => id) fun high high' => ?_
        refine together_fact (c := high' = high) (fun heap after holds => holds.1.1) ?_
        rintro rfl
        exact newInt_together past (fun heap after holds => holds.2.1) _ room
      · intro _
        refine together_fact (c := now = self) (fun heap after holds => holds.2.2.2.2.eq filled) ?_
        rintro rfl
        refine (buildAppend_together past roots start has room second).weaken ?_ (fun _ _ _ _ => id) fun _ _ => id
        rintro heap after ⟨-, -, alike, found, -⟩
        exact ⟨alike, alike.2.1.fits found⟩

theorem addSlice_together {i : Nat} {right : Ref} (fits : start.small (.add (.slice i) right) = true) :
    Together (Alike roots start) (add .python (.slice i) right) (add (.cython past) (.slice i) right)
      (fun ref ref' heap after => ref' = ref ∧ Twin heap after) Twin := by
  rw [Heap.small, Bool.and_eq_true, Bool.and_eq_true, decide_eq_true_eq] at fits
  obtain ⟨⟨room, first⟩, second⟩ := fits
  refine together_bind (int_together past roots start first) fun value value' => ?_
  refine together_fact (c := value' = value) (fun heap after holds => holds.1.1) ?_
  rintro rfl
  refine together_bind (len_together (fun heap after holds => holds.2.1) (.slice i)) fun length length' => ?_
  refine together_fact (c := length' = length ∧ length = start.lenOf (.slice i)) ?_ ?_
  · rintro heap after ⟨same, ⟨size, -⟩, -, alike⟩
    exact ⟨same, alike.2.2.lenOf ▸ size⟩
  rintro ⟨rfl, rfl⟩
  refine together_bind (toBytes_together (fun heap after holds => holds.2.2.2.1) _ _) fun raw raw' => ?_
  refine together_fact (c := raw' = raw ∧ raw.length = (start.lenOf (.slice i) + 7) / 8)
    (fun heap after holds => holds.1) ?_
  rintro ⟨rfl, size⟩
  have stored := (placed_together past (alike_twin roots start) raw'
    (if start.lenOf (.slice i) ≠ 0 then some raw' else none) (Nat.lt_of_le_of_lt (Nat.le_add_right _ _) room)).alongside
    (placed_ends (P := fun _ => True) .python (by omega) fun _ => some_of_ite)
  refine together_bind (stored.weaken (fun heap after holds => ⟨holds.2.2.2.2, trivial⟩) (fun _ _ _ _ => id)
    fun _ _ => id) fun self now => ?_
  refine together_fact (c := now = self ∧ self.length = start.lenOf (.slice i)) (fun heap after holds => holds.1.1) ?_
  rintro ⟨rfl, length⟩
  refine together_bind (len_together (fun heap after holds => holds.1.2.1) right) fun otherLen otherLen' => ?_
  refine together_fact (c := start.Has right) ?_ fun has => ?_
  · rintro heap after ⟨-, ⟨-, has⟩, ⟨-, alike⟩, -⟩
    exact alike.2.2.has has
  · refine (buildAppend_together past roots start has (by omega) second).weaken ?_ (fun _ _ _ _ => id) fun _ _ => id
    rintro heap after ⟨-, -, ⟨-, alike⟩, -, fits⟩
    exact ⟨alike, fits⟩

theorem add_together {left right : Ref} (fits : start.small (.add left right) = true) :
    Together (Alike roots start) (add .python left right) (add (.cython past) left right)
      (fun ref ref' heap after => ref' = ref ∧ Twin heap after) Twin := by
  cases left with
  | object i => exact addObject_together past roots start fits
  | slice i => exact addSlice_together past roots start fits

theorem iadd_together {i : Nat} {other : Ref} (fits : start.small (.iadd i other) = true) :
    Together (Alike roots start) (iadd .python i other) (iadd (.cython past) i other) (fun _ _ => Twin) Twin := by
  rw [Heap.small, Bool.and_eq_true, decide_eq_true_eq] at fits
  have appended : Together (Alike roots start) (append .python i other) (append (.cython past) i other)
      (fun _ _ => Twin) Twin := append_together past roots start fits.1 fits.2
  refine together_bind (object_together (alike_twin roots start) i) fun self now => ?_
  refine together_fact (c := now.length = self.length) (fun heap after holds => holds.2.2.length) fun length => ?_
  cases other with
  | object j =>
    refine together_bind (object_together (fun heap after holds => holds.1.1) j) fun source source' => ?_
    refine together_fact (fun heap after holds => holds.2.2.recached) ?_
    rintro ⟨cache, rfl⟩
    rw [length]
    apply together_ite
    · intro _
      apply together_modifyGet
      rintro heap after ⟨⟨alike, -⟩, -⟩
      exact alike.1.put i (.inl rfl)
    · intro _
      apply together_ite
      · intro _
        exact appended.weaken (fun heap after holds => holds.1.1) (fun _ _ _ _ => id) fun _ _ => id
      · intro _
        exact together_pure fun heap after holds => holds.1.1.1
  | slice j =>
    refine together_bind (len_together (fun heap after holds => holds.1.1) (.slice j)) fun size size' => ?_
    refine together_fact (c := size' = size) (fun heap after holds => holds.1) ?_
    rintro rfl
    apply together_ite
    · intro _
      exact appended.weaken (fun heap after holds => holds.2.2.1) (fun _ _ _ _ => id) fun _ _ => id
    · intro _
      exact together_pure fun heap after holds => holds.2.2.1.1

theorem getSlice_together {self : Ref} {first last : Option Int} (fits : start.small (.getSlice self first last) = true) :
    Together (Alike roots start) (getSlice .python self first last) (getSlice (.cython past) self first last)
      (fun ref ref' heap after => ref' = ref ∧ Twin heap after) Twin := by
  rw [Heap.small, Bool.and_eq_true] at fits
  refine together_bind (len_together (alike_twin roots start) self) fun length length' => ?_
  refine together_fact (c := length' = length ∧ length = start.lenOf self) ?_ ?_
  · rintro heap after ⟨same, ⟨size, -⟩, alike⟩
    exact ⟨same, alike.2.2.lenOf ▸ size⟩
  rintro ⟨rfl, rfl⟩
  refine together_bind (bound_together past 0 fits.1) fun b b' => ?_
  refine together_bind (bound_together past _ fits.2) fun e e' => ?_
  refine together_fact (c := b' = b ∧ e' = e) (fun heap after holds => ⟨holds.2.2.1, holds.1⟩) ?_
  rintro ⟨rfl, rfl⟩
  have added : ∀ (P : Heap → Heap → Prop) (view : BitStringSlice), (∀ heap after, P heap after → Twin heap after) →
      Together P (allocSlice view) (allocSlice view) (fun ref ref' heap after => ref' = ref ∧ Twin heap after) Twin := by
    intro P view twins
    apply together_modifyGet
    intro heap after holds
    have twin := twins heap after holds
    exact ⟨by rw [twin.slices], twin.allocSlice view⟩
  apply together_ite
  · intro _
    exact newInt_together past (fun heap after holds => holds.2.2.2.2.2.2.1) 0 (by decide)
  · intro _
    cases self with
    | object i => exact added _ _ fun heap after holds => holds.2.2.2.2.2.2.1
    | slice i =>
      refine together_bind (slice_together (fun heap after holds => holds.2.2.2.2.2.2.1) i) fun view view' => ?_
      refine together_fact (c := view' = view) (fun heap after holds => holds.1) ?_
      rintro rfl
      exact added _ _ fun heap after holds => holds.2.1.2.2.2.2.2.2.1

end Sums

/-! ### Assignment -/

section Assignment
variable (past : Nat → Nat → Bool) {roots : Nat} {start : Heap}

/-- No empty object holds the buffer. -/
def Unheld (k : Nat) (heap : Heap) : Prop := ∀ self ∈ heap.objects, self.length = 0 → .array k ∉ self.bytes

theorem Unheld.quiet {k : Nat} {heap : Heap} (unheld : Unheld k heap) : heap.quiet k = true := by
  rw [Heap.quiet, List.all_eq_true]
  intro self member
  by_cases empty : self.length = 0
  · have free : self.bytes.contains (.array k) = false := by
      apply Bool.eq_false_iff.mpr
      intro held
      exact unheld self member empty (List.contains_iff_mem.mp held)
    rw [free, Bool.not_false, Bool.or_true]
  · rw [bne_iff_ne.mpr empty, Bool.true_or, Bool.true_or]

theorem unheld_fresh {heap : Heap} (sound : Sound roots heap) (i : Nat) (buffer : Buffer) {self : BitString}
    (filled : self.length ≠ 0) :
    Unheld heap.arrays.length
      { heap with arrays := heap.arrays ++ [buffer], objects := heap.objects.set i self } := by
  intro stored member empty held
  obtain old | rfl := List.mem_or_eq_of_mem_set member
  · exact Nat.lt_irrefl _ ((sound.objects stored old).below _ held)
  · exact filled empty

theorem Unheld.fill {k j : Nat} {heap : Heap} {self : BitString} (unheld : Unheld k heap)
    (found : heap.objects[j]? = some self) (cache : Option Bytes) :
    Unheld k { heap with objects := heap.objects.set j { self with dataCache := cache } } := by
  intro stored member empty
  obtain old | rfl := List.mem_or_eq_of_mem_set member
  · exact unheld stored old empty
  · exact unheld self (List.mem_of_getElem? found) empty

theorem objectData_unheld (k : Nat) (impl : Impl) (j : Nat) : Keeps (Unheld k) (objectData impl j) := by
  refine ends_bind (object_ends j fun _ => id) fun self => ?_
  cases self.dataCache with
  | some cached => exact ends_pure fun _ holds => holds.1
  | none =>
    refine ends_get fun read => ?_
    refine ends_bind (Q := fun _ => Unheld k) (put_ends ?_) fun _ => ?_
    · rintro heap ⟨rfl, unheld, found⟩
      exact unheld.fill found _
    · apply ends_ite
      · intro _
        exact ends_throw fun _ holds => holds
      · intro _
        exact ends_pure fun _ holds => holds

theorem writeBit_together (k byteIdx bitIdx : Nat) (value : Bool) :
    Together (fun heap other => Twin heap other ∧ heap.quiet k = true) (writeBit k byteIdx bitIdx value)
      (writeBit k byteIdx bitIdx value) (fun _ _ heap other => Twin heap other ∧ heap.quiet k = true) Twin := by
  refine together_contents (fun _ _ holds => holds.1) fun read other same => ?_
  rw [same]
  apply together_ite
  · intro _
    apply together_set
    rintro heap after ⟨⟨rfl, rfl⟩, twin, quiet⟩
    exact ⟨twin.write quiet _, quiet⟩
  · intro _
    exact together_throw fun heap after holds => holds.2.1

theorem soleArray_together {i : Nat} {self : BitString} (filled : self.length ≠ 0) :
    Together (fun heap other => (Twin heap other ∧ Sound roots heap) ∧ heap.objects[i]? = some self ∧
        ∀ k, self.bytes = [.array k] → heap.quiet k = true)
      (soleArray i) (soleArray i)
      (fun k k' heap other => k' = k ∧ Twin heap other ∧ heap.quiet k = true) Twin := by
  refine together_bind (object_together (fun heap other holds => holds.1.1) i) fun stored now => ?_
  refine together_fact (c := stored = self ∧ now = stored) ?_ ?_
  · rintro heap other ⟨⟨-, found, -⟩, again, pair⟩
    rw [found] at again
    cases again
    exact ⟨rfl, pair.eq filled⟩
  rintro ⟨rfl, rfl⟩
  split
  · rename_i k sole
    apply together_pure
    rintro heap other ⟨⟨⟨twin, -⟩, -, quiet⟩, -⟩
    exact ⟨rfl, twin, quiet k sole⟩
  · refine together_get fun read other => ?_
    refine together_fact (c := other.joined = read.joined) ?_ fun same => ?_
    · rintro heap after ⟨⟨rfl, rfl⟩, ⟨⟨twin, -⟩, -⟩, -⟩
      funext object
      rw [Heap.joined, Heap.joined, twin.contents]
    rw [same]
    refine together_bind (Q := fun k k' heap other => k' = k ∧ Twin heap other ∧
        Unheld k { heap with objects := heap.objects.set i { now with bytes := [.array k] } })
      (together_modifyGet ?_) fun k k' => ?_
    · rintro heap after ⟨-, ⟨⟨twin, sound⟩, -⟩, -⟩
      refine ⟨by rw [twin.arrays], twin.allocArray _, ?_⟩
      exact unheld_fresh sound i _ filled
    · refine together_fact (c := k' = k) (fun heap other holds => holds.1) ?_
      rintro rfl
      refine together_bind (Q := fun _ _ heap other => Twin heap other ∧ heap.quiet k' = true)
        (together_modifyGet ?_) fun _ _ => together_pure fun heap other holds => ⟨rfl, holds⟩
      rintro heap after ⟨-, twin, unheld⟩
      exact ⟨twin.put i (.inl rfl), unheld.quiet⟩

theorem setItem_together {i : Nat} {offset : Int} {value : Bool} (fits : start.small (.setItem i offset value) = true) :
    Together (fun heap other => heap = start ∧ Twin heap other ∧ Sound roots heap) (setItem .python i offset value)
      (setItem (.cython past) i offset value) (fun _ _ => Twin) Twin := by
  refine together_bind (object_together (fun heap other holds => holds.2.1) i) fun self now => ?_
  refine together_fact (c := start.objects[i]? = some self ∧ now.length = self.length) ?_ ?_
  · rintro heap other ⟨⟨rfl, -⟩, found, pair⟩
    exact ⟨found, pair.length⟩
  rintro ⟨found, length⟩
  rw [Heap.small, found, Option.all_some, Heap.smallItem, Bool.or_eq_true, Bool.not_eq_true', decide_eq_false_iff_not,
    Bool.and_eq_true] at fits
  rw [length]
  apply together_ite
  · intro _
    exact together_throw fun heap other holds => holds.1.2.1
  · intro inside
    rw [not_not] at inside
    obtain outside | ⟨counted, still⟩ := fits
    · exact absurd inside outside
    have filled : self.length ≠ 0 := by omega
    refine together_fact (c := now = self) (fun heap other holds => holds.2.2.eq filled) ?_
    rintro rfl
    refine together_get fun read other => ?_
    refine together_fact (c := other.joined = start.joined ∧ read = start) ?_ ?_
    · rintro heap after ⟨⟨rfl, rfl⟩, ⟨rfl, twin, -⟩, -⟩
      refine ⟨?_, rfl⟩
      funext object
      rw [Heap.joined, Heap.joined, twin.contents]
    rintro ⟨same, rfl⟩
    rw [same]
    generalize ((read.joined now).length : Int) = size at counted ⊢
    refine together_bind (cint_together past counted) fun boundary boundary' => ?_
    refine together_fact (c := boundary' = boundary) (fun heap other holds => holds.1) ?_
    rintro rfl
    apply together_ite
    · intro _
      refine together_bind ((@soleArray_together roots i now filled).weaken ?_ (fun _ _ _ _ => id) fun _ _ => id)
        fun k k' => ?_
      · rintro heap after ⟨-, -, -, ⟨rfl, holds⟩, -⟩
        refine ⟨holds, found, ?_⟩
        intro k sole
        rw [sole] at still
        exact still
      · refine together_fact (c := k' = k) (fun heap other holds => holds.1) ?_
        rintro rfl
        refine together_bind ((writeBit_together k' _ _ value).weaken (fun heap other holds => holds.2)
          (fun _ _ _ _ => id) fun _ _ => id) fun _ _ => ?_
        refine together_bind (object_together (fun heap other holds => holds.1) i) fun stored stored' => ?_
        refine together_fact (fun heap other holds => holds.2.2.recached) ?_
        rintro ⟨cache, rfl⟩
        apply together_modifyGet
        rintro heap after ⟨⟨twin, -⟩, -⟩
        exact twin.put i (.inl rfl)
    · intro _
      apply together_modifyGet
      rintro heap after ⟨-, -, -, ⟨-, twin, -⟩, -⟩
      exact twin.put i (.inl rfl)

theorem coalesce_together {i : Nat} (filled : start.lenOf (.object i) ≠ 0) :
    Together (Alike roots start) (coalesce i) (coalesce i)
      (fun k k' heap other => k' = k ∧ Alike roots start heap other ∧ Unheld k heap) Twin := by
  have together : Together (Alike roots start) (coalesce i) (coalesce i)
      (fun k k' heap other => k' = k ∧ Twin heap other ∧ Shape start heap ∧ Unheld k heap) Twin := by
    refine together_bind (object_together (alike_twin roots start) i) fun self now => ?_
    refine together_fact (c := self.length ≠ 0 ∧ now = self) ?_ ?_
    · rintro heap other ⟨alike, found, pair⟩
      rw [← alike.2.2.lenOf, lenOf_object found] at filled
      exact ⟨filled, pair.eq filled⟩
    rintro ⟨occupied, rfl⟩
    refine together_get fun read other => ?_
    refine together_fact (c := other.flat = read.flat) ?_ fun same => ?_
    · rintro heap after ⟨⟨rfl, rfl⟩, alike, -⟩
      exact alike.1.flat
    rw [same]
    refine together_bind (Q := fun k k' heap other => k' = k ∧ Twin heap other ∧
        (Shape start heap ∧ heap.objects[i]? = some now) ∧
        Unheld k { heap with objects := heap.objects.set i ⟨[.array k], 0, now.length, none⟩ })
      (together_modifyGet ?_) fun k k' => ?_
    · rintro heap after ⟨-, ⟨twin, sound, shape⟩, found, -⟩
      refine ⟨by rw [twin.arrays], twin.allocArray _, ⟨shape, found⟩, ?_⟩
      exact unheld_fresh sound i _ occupied
    · refine together_fact (c := k' = k) (fun heap other holds => holds.1) ?_
      rintro rfl
      refine together_bind (Q := fun _ _ heap other => Twin heap other ∧ Shape start heap ∧ Unheld k' heap)
        (together_modifyGet ?_) fun _ _ => together_pure fun heap other holds => ⟨rfl, holds⟩
      rintro heap after ⟨-, twin, ⟨shape, found⟩, unheld⟩
      exact ⟨twin.put i (.inl rfl), shape_put shape found rfl, unheld⟩
  refine (together.alongside (@coalesce_ends roots i)).weaken (fun heap other alike => ⟨alike, alike.2.1⟩)
    ?_ fun _ _ => id
  rintro k k' heap other ⟨⟨same, twin, shape, unheld⟩, sound, -⟩
  exact ⟨same, ⟨twin, sound, shape⟩, unheld⟩

/-- The C shift is right below 31, and at 31 for a value of 32 bits. -/
theorem testBit_together {value i : Nat} (small : value < 2 ^ 32) (inside : i < 32) :
    Impl.testBit (.cython past) value i = Impl.testBit .python value i := by
  rw [Impl.testBit, Impl.testBit]
  split
  · rfl
  · rename_i above
    have last : i = 31 := by omega
    subst last
    rw [if_pos rfl, Nat.testBit_eq_decide_div_mod_eq]
    have top : value / 2 ^ 31 < 2 := by omega
    apply Bool.eq_iff_iff.mpr
    rw [bne_iff_ne, decide_eq_true_eq]
    omega

theorem writeBits_together (k b : Nat) {value : Nat} (small : value < 2 ^ 32) (count i : Nat) (inside : i + count ≤ 32) :
    Together (fun heap other => Twin heap other ∧ heap.quiet k = true) (writeBits .python k b value count i)
      (writeBits (.cython past) k b value count i) (fun _ _ heap other => Twin heap other ∧ heap.quiet k = true)
      Twin := by
  induction count generalizing i with
  | zero => exact together_pure fun heap other holds => holds
  | succ count ih =>
    rw [writeBits, writeBits, testBit_together past small (by omega)]
    refine together_bind (writeBit_together k _ _ _) fun _ _ => ?_
    exact ih (i + 1) (by omega)

theorem resplit_together (i k : Nat) :
    Together Twin (resplit i k) (resplit i k) (fun _ _ => Twin) Twin := by
  refine together_bind (object_together (fun heap other twin => twin) i) fun self now => ?_
  refine together_fact (fun heap other holds => holds.2.2.recached) ?_
  rintro ⟨cache, rfl⟩
  refine together_contents (fun _ _ holds => holds.1) fun read other same => ?_
  rw [same]
  apply together_ite
  · intro _
    refine together_bind (lastOf_together (fun heap other holds => holds.2.1) _) fun last last' => ?_
    refine together_fact (c := last' = last) (fun heap other holds => holds.1) ?_
    rintro rfl
    refine together_bind (Q := fun fresh fresh' heap other => fresh' = fresh ∧ Twin heap other)
      (together_modifyGet ?_) fun fresh fresh' => ?_
    · rintro heap after ⟨-, -, twin, -⟩
      exact ⟨by rw [twin.arrays], twin.allocArray _⟩
    · apply together_modifyGet
      rintro heap after ⟨rfl, twin⟩
      exact twin.put i (.inl rfl)
  · intro _
    apply together_modifyGet
    rintro heap after ⟨-, twin, -⟩
    exact twin.put i (.inl rfl)

theorem boundOf_le (value : Option Int) (missing length : Nat) : boundOf value missing length ≤ length := by
  cases value with
  | none => exact Nat.min_le_right _ _
  | some value =>
    rw [boundOf]
    omega

theorem setSlice_together {i : Nat} {first last : Option Int} {value : Ref}
    (fits : start.small (.setSlice i first last value) = true) :
    Together (Alike roots start) (setSlice .python i first last value) (setSlice (.cython past) i first last value)
      (fun _ _ => Twin) Twin := by
  rw [Heap.small, Bool.and_eq_true, Bool.and_eq_true, Bool.or_eq_true, bne_iff_ne, Bool.and_eq_true,
    decide_eq_true_eq] at fits
  obtain ⟨⟨lower, upper⟩, short⟩ := fits
  refine together_bind (object_together (alike_twin roots start) i) fun self now => ?_
  refine together_fact (c := now.length = start.lenOf (.object i) ∧ self.length = start.lenOf (.object i)) ?_ ?_
  · rintro heap other ⟨alike, found, pair⟩
    rw [pair.length, ← alike.2.2.lenOf, lenOf_object found]
    exact ⟨rfl, rfl⟩
  rintro ⟨length', length⟩
  rw [length, length']
  refine together_bind (bound_together past 0 lower) fun b b' => ?_
  refine together_bind (bound_together past _ upper) fun e e' => ?_
  refine together_bind (len_together (fun heap other holds => holds.2.2.2.2.1.1) value) fun valueLen valueLen' => ?_
  refine together_fact (c := ((b' = b ∧ e' = e) ∧ valueLen' = valueLen) ∧
    (b = boundOf first 0 (start.lenOf (.object i)) ∧ e = boundOf last (start.lenOf (.object i)) (start.lenOf (.object i))) ∧
    valueLen = start.lenOf value) ?_ ?_
  · rintro heap other ⟨sameLen, ⟨size, -⟩, sameEnd, bottom, sameStart, top, alike, -⟩
    exact ⟨⟨⟨sameStart, sameEnd⟩, sameLen⟩, ⟨top, bottom⟩, alike.2.2.lenOf ▸ size⟩
  rintro ⟨⟨⟨rfl, rfl⟩, rfl⟩, ⟨bottom, top⟩, size⟩
  have inside := boundOf_le last (start.lenOf (.object i)) (start.lenOf (.object i))
  rw [← bottom, ← top, ← size] at short
  rw [← top] at inside
  apply together_ite
  · intro _
    exact together_throw fun heap other holds => holds.2.2.2.2.2.2.1.1
  · intro match'
    rw [not_not] at match'
    apply together_ite
    · intro _
      exact together_pure fun heap other holds => holds.2.2.2.2.2.2.1.1
    · intro apart
      obtain mismatch | ⟨few, readable⟩ := short
      · omega
      refine together_bind ((coalesce_together (by omega)).weaken (fun heap other holds => holds.2.2.2.2.2.2.1)
        (fun _ _ _ _ => id) fun _ _ => id) fun k k' => ?_
      refine together_fact (c := k' = k) (fun heap other holds => holds.1) ?_
      rintro rfl
      have read := (int_together past roots start readable).alongside
        (int_keeps .python (objectData_unheld k' .python) value)
      refine together_bind (read.weaken (fun heap other holds => holds.2) (fun _ _ _ _ => id) fun _ _ => id)
        fun bits bits' => ?_
      refine together_fact (c := bits' = bits ∧ bits < 2 ^ start.lenOf value) (fun heap other holds => holds.1.1) ?_
      rintro ⟨rfl, bounded⟩
      have small : bits' < 2 ^ 32 := by
        rw [size] at few
        exact Nat.lt_of_lt_of_le bounded (Nat.pow_le_pow_right (by decide) few)
      refine together_bind ((writeBits_together past k' b' small (e' - b') 0 (by omega)).weaken ?_
        (fun _ _ _ _ => id) fun _ _ => id) fun _ _ => ?_
      · rintro heap other ⟨⟨-, alike⟩, unheld⟩
        exact ⟨alike.1, unheld.quiet⟩
      · exact (resplit_together i k').weaken (fun heap other holds => holds.1) (fun _ _ _ _ => id) fun _ _ => id

end Assignment

/-! ### Runs -/

theorem borrow_together {P : Heap → Heap → Prop} (twins : ∀ heap other, P heap other → Twin heap other) (data : Chunk) :
    Together P (borrow data) (borrow data) (fun _ _ => P) Twin := by
  cases data with
  | bytes raw => exact together_pure fun heap other holds => holds
  | array k =>
    refine together_get fun read other => ?_
    refine together_fact (c := other.arrays = read.arrays) ?_ fun same => ?_
    · rintro heap after ⟨⟨rfl, rfl⟩, holds⟩
      exact (twins heap after holds).arrays
    rw [same]
    cases read.arrays[k]? with
    | none => exact together_throw fun heap after holds => twins heap after holds.2
    | some buffer =>
      apply together_ite
      · intro _
        exact together_pure fun heap after holds => holds.2
      · intro _
        exact together_throw fun heap after holds => twins heap after holds.2

section Returning
variable {α : Type} {P : Heap → Heap → Prop}

theorem together_returning {x y : Exec α} (f : α → Value)
    (results : Together P x y (fun a a' heap other => a' = a ∧ Twin heap other) Twin) :
    Together P (x >>= fun a => pure (f a)) (y >>= fun a => pure (f a))
      (fun value value' heap other => value' = value ∧ Twin heap other) Twin := by
  refine together_bind results fun a a' => ?_
  apply together_pure
  rintro heap other ⟨rfl, twin⟩
  exact ⟨rfl, twin⟩

theorem together_done {x y : Exec Unit} (work : Together P x y (fun _ _ => Twin) Twin) :
    Together P (x >>= fun _ => pure Value.none) (y >>= fun _ => pure Value.none)
      (fun value value' heap other => value' = value ∧ Twin heap other) Twin :=
  together_bind work fun _ _ => together_pure fun _ _ twin => ⟨rfl, twin⟩

end Returning

/-- A command whose integers fit returns or raises the same in both implementations. -/
theorem step_together (past : Nat → Nat → Bool) {start : Heap} {cmd : Cmd} (fits : start.small cmd = true) :
    Together (fun heap other => heap = start ∧ Twin heap other ∧ Reached heap) (step .python cmd)
      (step (.cython past) cmd) (fun value value' heap other => value' = value ∧ Twin heap other) Twin := by
  have begun : ∀ heap other, heap = start ∧ Twin heap other ∧ Reached heap →
      Alike start.objects.length start heap other := by
    rintro heap other ⟨rfl, twin, reached⟩
    exact ⟨twin, reached, rfl, rfl⟩
  have twins : ∀ heap other, heap = start ∧ Twin heap other ∧ Reached heap → Twin heap other :=
    fun heap other holds => holds.2.1
  have alike : ∀ {α : Type} {x y : Exec α} {Q : α → α → Heap → Heap → Prop},
      Together (Alike start.objects.length start) x y Q Twin →
      Together (fun heap other => heap = start ∧ Twin heap other ∧ Reached heap) x y Q Twin :=
    fun together => together.weaken begun (fun _ _ _ _ => id) fun _ _ => id
  cases cmd with
  | newArray data =>
    refine together_returning _ (together_modifyGet ?_)
    rintro heap other ⟨-, twin, -⟩
    exact ⟨by rw [twin.arrays], twin.allocArray _⟩
  | new => exact together_returning _ (alloc_together fun heap other holds => ⟨holds.2.1, .inl rfl⟩)
  | newInt value length => exact together_returning _ (newInt_together past twins value (of_decide_eq_true fits))
  | newBytes data length =>
    refine together_bind (borrow_together twins data) fun _ _ => ?_
    refine together_returning _ ((newBytes_together past data length).weaken ?_ (fun _ _ _ _ => id) fun _ _ => id)
    rintro heap other ⟨rfl, twin, -⟩
    exact ⟨twin, of_decide_eq_true fits⟩
  | newBits other length => exact together_returning _ (alike (clone_together past _ start fits))
  | append i other =>
    rw [Heap.small, Bool.and_eq_true, decide_eq_true_eq] at fits
    exact together_done (alike (append_together past _ start fits.1 fits.2))
  | appendInt i value length =>
    refine together_done ((appendInt_together past i value length).weaken ?_ (fun _ _ _ _ => id) fun _ _ => id)
    intro heap other holds
    exact ⟨holds.2.1, (begun heap other holds).2.2.growable (of_decide_eq_true fits)⟩
  | appendBytes i data length =>
    refine together_bind (borrow_together twins data) fun _ _ => ?_
    refine together_done ((appendBytes_together past i data length).weaken ?_ (fun _ _ _ _ => id) fun _ _ => id)
    rintro heap other ⟨rfl, holds⟩
    exact ⟨holds.1, (begun heap other ⟨rfl, holds⟩).2.2.growable (of_decide_eq_true fits)⟩
  | add left right => exact together_returning _ (alike (add_together past _ start fits))
  | iadd i other => exact together_done (alike (iadd_together past _ start fits))
  | getSlice self first last => exact together_returning _ (alike (getSlice_together past _ start fits))
  | getItem self offset => exact together_returning _ (alike (getItem_together past _ start fits))
  | setItem i offset value =>
    refine together_done ((@setItem_together past start.objects.length start i offset value fits).weaken ?_ (fun _ _ _ _ => id) fun _ _ => id)
    rintro heap other ⟨rfl, twin, reached⟩
    exact ⟨rfl, twin, reached⟩
  | setSlice i first last value => exact together_done (alike (setSlice_together past fits))
  | len self =>
    refine together_returning _ ((len_together twins self).weaken (fun _ _ => id) ?_ fun _ _ => id)
    rintro length length' heap other ⟨same, -, holds⟩
    exact ⟨same, holds.2.1⟩
  | int self =>
    refine together_returning _ ((alike (int_together past _ start fits)).weaken (fun _ _ => id) ?_ fun _ _ => id)
    rintro value value' heap other ⟨⟨same, -⟩, alike⟩
    exact ⟨same, alike.1⟩
  | data self =>
    refine together_returning _ ((alike (data_together past _ start fits)).weaken (fun _ _ => id) ?_ fun _ _ => id)
    rintro value value' heap other ⟨same, alike⟩
    exact ⟨same, alike.1⟩
  | eq left right =>
    refine together_returning _ (alike (eq_together past _ start ?_))
    rw [Heap.small, Bool.or_eq_true, bne_iff_ne, Bool.and_eq_true] at fits
    intro same
    exact fits.resolve_left fun different => different same

theorem outcome_together {α : Type} {P : Heap → Heap → Prop} {x y : Exec α} {heap other : Heap}
    (together : Together P x y (fun a a' heap other => a' = a ∧ Twin heap other) Twin) (holds : P heap other) :
    (outcome y other).1 = (outcome x heap).1 ∧ Twin (outcome x heap).2 (outcome y other).2 := by
  have done := together heap other holds
  rw [outcome, outcome]
  cases left : x heap with
  | ok value after =>
    cases right : y other with
    | ok value' after' =>
      rw [left, right] at done
      exact ⟨congrArg Except.ok done.1, done.2⟩
    | error error after' => rw [left, right] at done; exact done.elim
  | error error after =>
    cases right : y other with
    | ok value' after' => rw [left, right] at done; exact done.elim
    | error error' after' =>
      rw [left, right] at done
      exact ⟨congrArg Except.error done.1.symm, done.2⟩

theorem run_together (past : Nat → Nat → Bool) {heap other : Heap} (twin : Twin heap other) (reached : Reached heap)
    {program : List Cmd} (fits : Along .python (fun heap cmd => heap.small cmd = true) heap program) :
    (run (.cython past) other program).1 = (run .python heap program).1 := by
  induction program generalizing heap other with
  | nil => rfl
  | cons cmd program ih =>
    obtain ⟨same, after⟩ := outcome_together (step_together past fits.1) ⟨rfl, twin, reached⟩
    have next : Reached (outcome (step .python cmd) heap).2 := outcome_keeps (step_reached .python cmd) reached
    rw [run, run, same, ih after next fits.2]

/-- In a run whose integers fit, every operation of the extension returns the value that the pure
Python classes return, or raises the same error. -/
theorem extension_agrees (past : Nat → Nat → Bool) (program : List Cmd)
    (fits : Along .python (fun heap cmd => heap.small cmd = true) .empty program) :
    (run (.cython past) .empty program).1 = (run .python .empty program).1 :=
  run_together past (twin_refl .empty) reached_empty fits

/-- A slice assignment of 32 bits, the sum of two objects, and an index out of range. -/
theorem extension_agrees_word :
    (run (.cython fun _ _ => false) .empty
        [.newInt 0 40, .newInt (2 ^ 32 - 1) 32, .setSlice 0 (some 4) (some 36) (.object 1), .add (.object 0) (.object 1),
          .getItem (.object 2) (-1), .getItem (.object 2) 72]).1 =
      (run .python .empty
        [.newInt 0 40, .newInt (2 ^ 32 - 1) 32, .setSlice 0 (some 4) (some 36) (.object 1), .add (.object 0) (.object 1),
          .getItem (.object 2) (-1), .getItem (.object 2) 72]).1 := by
  apply extension_agrees
  exact ⟨rfl, rfl, rfl, by decide +kernel, by decide +kernel, by decide +kernel, trivial⟩

/-- A slice assignment of 33 bits: the extension shifts a C integer. -/
theorem extension_differs_past_word :
    (run .python .empty
        [.newInt 0 40, .newInt (2 ^ 32) 33, .setSlice 0 (some 0) (some 33) (.object 1), .int (.object 0)]).1 ≠
      (run (.cython fun _ _ => false) .empty
        [.newInt 0 40, .newInt (2 ^ 32) 33, .setSlice 0 (some 0) (some 33) (.object 1), .int (.object 0)]).1 := by
  decide +kernel

end Acrobe.Sharing
