import Acrobe.BitString.SharingSound

/-!
# Assignments and other objects

An assignment leaves the bits of the other objects alone, unless it writes a bit in place into a
buffer that another object holds too.
-/

namespace Acrobe.Sharing
open LittleEndian Exceptional
open Acrobe.Storage (BitStringSlice Ref Bits)

def Heap.bits (heap : Heap) (i : Nat) : Option Bits :=
  heap.objects[i]?.map fun self =>
    Acrobe.BitString.ofNat (combine (self.dataCache.getD (heap.flat self))) self.length

def Cmd.assigned : Cmd → Option Nat
  | .setItem i _ _ => some i
  | .setSlice i _ _ _ => some i
  | _ => none

/-- An assignment to one object keeps the bits and the length of the others. -/
def Separate (impl : Impl) (heap : Heap) (cmd : Cmd) : Prop :=
  ∀ i, cmd.assigned = some i → ∀ j, j ≠ i → (outcome (step impl cmd) heap).2.bits j = heap.bits j

def Along (impl : Impl) (property : Heap → Cmd → Prop) (heap : Heap) : List Cmd → Prop
  | [] => True
  | cmd :: program => property heap cmd ∧ Along impl property (outcome (step impl cmd) heap).2 program

/-- Another object than `i` holds the buffer. -/
def Heap.sharedWith (heap : Heap) (i k : Nat) : Bool :=
  heap.objects.zipIdx.any fun entry => entry.2 != i && entry.1.bytes.contains (.array k)

/-- The bit that the offset names lies in the chunks, which are one buffer that another object holds. -/
def Heap.inShared (heap : Heap) (i : Nat) (self : BitString) (offset : Int) : Bool :=
  let offset := if offset < 0 then offset + self.length else offset
  match self.bytes with
  | [.array k] =>
    decide (0 ≤ offset ∧ offset < self.length) && decide ((offset / 8).toNat < (heap.joined self).length) &&
      heap.sharedWith i k
  | _ => false

/-- A bit assignment in place into a shared buffer. -/
def Heap.writesShared (heap : Heap) : Cmd → Bool
  | .setItem i offset _ => heap.objects[i]?.any fun self => heap.inShared i self offset
  | _ => false

/-! ### Everything but one object -/

/-- Reading fills the cache. -/
def Filled (heap : Heap) (self now : BitString) : Prop :=
  now = self ∨ self.dataCache = none ∧ now = { self with dataCache := some (heap.flat self) }

/-- No object but `i` holds the buffer. -/
def Private (start : Heap) (i k : Nat) : Prop :=
  ∀ j self, j ≠ i → start.objects[j]? = some self → .array k ∉ self.bytes

/-- Since `start`, only the object `i`, buffers that no other object holds and caches have changed. -/
structure Frame (start : Heap) (i : Nat) (heap : Heap) : Prop where
  count : start.arrays.length ≤ heap.arrays.length
  size : heap.objects.length = start.objects.length
  held : ∀ k, ¬Private start i k → heap.arrays[k]? = start.arrays[k]?
  objects : ∀ j self, j ≠ i → start.objects[j]? = some self →
    ∃ now, heap.objects[j]? = some now ∧ Filled start self now

section Frame
variable {start heap : Heap} {i : Nat}

theorem frame_refl (start : Heap) (i : Nat) : Frame start i start where
  count := Nat.le_refl _
  size := rfl
  held _ _ := rfl
  objects _ self _ found := ⟨self, found, .inl rfl⟩

theorem Frame.flat {j : Nat} {self : BitString} (frame : Frame start i heap) (other : j ≠ i)
    (found : start.objects[j]? = some self) : heap.flat self = start.flat self := by
  have contents : ∀ chunk ∈ self.bytes, heap.contents chunk = start.contents chunk := by
    intro chunk member
    cases chunk with
    | bytes data => rfl
    | array k =>
      have held : ¬Private start i k := fun hidden => hidden j self other found member
      rw [Heap.contents, Heap.contents, frame.held k held]
  rw [Heap.flat, Heap.flat, Heap.joined, Heap.joined, List.map_congr_left contents]

theorem Frame.bits {j : Nat} (frame : Frame start i heap) (other : j ≠ i) : heap.bits j = start.bits j := by
  rw [Heap.bits, Heap.bits]
  cases found : start.objects[j]? with
  | none =>
    have missing : heap.objects[j]? = none := by
      rw [List.getElem?_eq_none_iff, frame.size]
      exact List.getElem?_eq_none_iff.mp found
    rw [missing]
    rfl
  | some self =>
    obtain ⟨now, stored, filled⟩ := frame.objects j self other found
    have flat := frame.flat other found
    rw [stored, Option.map_some, Option.map_some]
    obtain rfl | ⟨missing, rfl⟩ := filled
    · rw [flat]
    · rw [missing]
      rfl

theorem Frame.put (frame : Frame start i heap) (self : BitString) :
    Frame start i { heap with objects := heap.objects.set i self } where
  count := frame.count
  size := (List.length_set ..).trans frame.size
  held := frame.held
  objects j other different found := by
    obtain ⟨now, stored, filled⟩ := frame.objects j other different found
    exact ⟨now, (List.getElem?_set_ne different.symm).trans stored, filled⟩

theorem Frame.allocArray (frame : Frame start i heap) (reached : Reached start) (buffer : Buffer) :
    Frame start i { heap with arrays := heap.arrays ++ [buffer] } where
  count := by
    rw [List.length_append]
    exact Nat.le_add_right_of_le frame.count
  size := frame.size
  held k held := by
    have below : k < start.arrays.length := by
      apply Nat.lt_of_not_le
      intro above
      apply held
      intro j self _ found member
      have inside := (reached.fits found).below k member
      omega
    rw [List.getElem?_append_left (Nat.lt_of_lt_of_le below frame.count)]
    exact frame.held k held
  objects := frame.objects

theorem private_fresh (frame : Frame start i heap) (reached : Reached start) : Private start i heap.arrays.length := by
  intro j self _ found member
  have inside := (reached.fits found).below _ member
  have count := frame.count
  omega

theorem Frame.fill {j : Nat} {self : BitString} (frame : Frame start i heap) (found : heap.objects[j]? = some self)
    (missing : self.dataCache = none) :
    Frame start i { heap with objects := heap.objects.set j { self with dataCache := some (heap.flat self) } } := by
  by_cases same : j = i
  · subst same
    exact frame.put _
  · refine ⟨frame.count, (List.length_set ..).trans frame.size, frame.held, ?_⟩
    intro other old different before
    obtain ⟨now, stored, filled⟩ := frame.objects other old different before
    by_cases here : j = other
    · subst here
      rw [found] at stored
      cases stored
      obtain rfl | ⟨-, rfl⟩ := filled
      · refine ⟨_, List.getElem?_set_self (List.getElem?_eq_some_iff.mp found).1, .inr ⟨missing, ?_⟩⟩
        rw [frame.flat different before]
      · cases missing
    · exact ⟨now, (List.getElem?_set_ne here).trans stored, filled⟩

theorem Frame.writeBit {k : Nat} (frame : Frame start i heap) (hidden : Private start i k) (f : Buffer → Buffer) :
    Frame start i { heap with arrays := heap.arrays.modify k f } where
  count := by
    rw [List.length_modify]
    exact frame.count
  size := frame.size
  held j held := by
    have different : k ≠ j := by
      rintro rfl
      exact held hidden
    exact (List.getElem?_modify_ne f heap.arrays different).trans (frame.held j held)
  objects := frame.objects

end Frame

/-! ### Assignments -/

section Assignment
variable {start : Heap} {i : Nat} (impl : Impl)

theorem objectData_frame (j : Nat) : Keeps (Frame start i) (objectData impl j) := by
  refine ends_bind (object_ends j fun _ => id) fun self => ?_
  cases cached : self.dataCache with
  | some data => exact ends_pure fun _ holds => holds.1
  | none =>
    refine ends_get fun read => ?_
    refine ends_bind (Q := fun _ => Frame start i) (put_ends ?_) fun _ => ?_
    · rintro heap ⟨rfl, frame, found⟩
      exact frame.fill found cached
    · apply ends_ite
      · intro _
        exact ends_throw fun _ holds => holds
      · intro _
        exact ends_pure fun _ holds => holds

theorem writeBit_frame {k : Nat} (hidden : Private start i k) (byteIdx bitIdx : Nat) (value : Bool) :
    Keeps (Frame start i) (writeBit k byteIdx bitIdx value) := by
  refine ends_get fun read => ?_
  apply ends_ite
  · intro _
    apply ends_set
    rintro heap ⟨rfl, frame⟩
    exact frame.writeBit hidden _
  · intro _
    exact ends_throw fun _ holds => holds.2

theorem allocArray_frame (reached : Reached start) (data : Bytes) (given : Bool) :
    Ends (Frame start i) (allocArray data given) (fun k heap => Frame start i heap ∧ Private start i k)
      (Frame start i) :=
  allocArray_ends fun _ frame => ⟨frame.allocArray reached _, private_fresh frame reached⟩

theorem soleArray_frame (reached : Reached start)
    (alone : ∀ self k, start.objects[i]? = some self → self.bytes = [.array k] → Private start i k) :
    Ends (fun heap => heap = start) (soleArray i) (fun k heap => Frame start i heap ∧ Private start i k)
      (Frame start i) := by
  have unchanged : ∀ heap, heap = start → Frame start i heap := by
    rintro heap rfl
    exact frame_refl heap i
  refine ends_bind (object_ends i unchanged) fun self => ?_
  split
  · rename_i k sole
    apply ends_pure
    rintro heap ⟨rfl, found⟩
    exact ⟨frame_refl heap i, alone self k found sole⟩
  · refine ends_get fun read => ?_
    refine ends_bind ((allocArray_frame reached _ false).weaken (fun heap holds => unchanged heap holds.2.1)
      (fun _ _ => id) fun _ => id) fun k => ?_
    refine ends_bind (Q := fun _ heap => Frame start i heap ∧ Private start i k) (put_ends ?_)
      fun _ => ends_pure fun _ holds => holds
    rintro heap ⟨frame, hidden⟩
    exact ⟨frame.put _, hidden⟩

theorem private_of_not_shared {k : Nat} (alone : start.sharedWith i k = false) : Private start i k := by
  intro j self different found member
  apply Bool.eq_false_iff.mp alone
  rw [Heap.sharedWith, List.any_eq_true]
  refine ⟨(self, j), List.mem_zipIdx_iff_getElem?.mpr found, ?_⟩
  rw [Bool.and_eq_true, bne_iff_ne]
  exact ⟨different, List.contains_iff_mem.mpr member⟩

theorem private_of_safe {self : BitString} {offset : Int} {value : Bool}
    (safe : start.writesShared (.setItem i offset value) = false) (found : start.objects[i]? = some self)
    (inside : 0 ≤ (if offset < 0 then offset + self.length else offset) ∧
      (if offset < 0 then offset + self.length else offset) < self.length)
    (chunked : ((if offset < 0 then offset + self.length else offset) / 8).toNat < (start.joined self).length) {k : Nat}
    (sole : self.bytes = [.array k]) : Private start i k := by
  apply private_of_not_shared
  rw [Heap.writesShared, found, Option.any_some, Heap.inShared] at safe
  rw [sole, decide_eq_true inside, decide_eq_true chunked] at safe
  exact safe

theorem setItem_frame (reached : Reached start) (offset : Int) (value : Bool)
    (safe : start.writesShared (.setItem i offset value) = false) :
    Ends (fun heap => heap = start) (setItem impl i offset value) (fun _ => Frame start i) (Frame start i) := by
  have unchanged : ∀ heap, heap = start → Frame start i heap := by
    rintro heap rfl
    exact frame_refl heap i
  refine ends_bind (object_ends i unchanged) fun self => ?_
  apply ends_ite
  · intro _
    exact ends_throw fun heap holds => unchanged heap holds.1
  · intro inside
    rw [not_not] at inside
    refine ends_get fun read => ?_
    refine ends_bind (cint_ends impl _ fun heap holds => unchanged heap holds.2.1) fun boundary => ?_
    apply ends_ite
    · intro chunked
      refine ends_fact (c := start.objects[i]? = some self ∧ boundary = (start.joined self).length) ?_ ?_
      · rintro heap ⟨⟨rfl, rfl, found⟩, rfl⟩
        exact ⟨found, rfl⟩
      rintro ⟨found, rfl⟩
      have alone : ∀ other k, start.objects[i]? = some other → other.bytes = [.array k] → Private start i k := by
        intro other k stored sole
        rw [found] at stored
        cases stored
        exact private_of_safe safe found inside (by omega) sole
      refine ends_bind ((soleArray_frame reached alone).weaken (fun heap holds => holds.1.2.1) (fun _ _ => id)
        fun _ => id) fun k => ?_
      refine ends_fact (c := Private start i k) (fun _ holds => holds.2) fun hidden => ?_
      refine ends_bind ((writeBit_frame hidden _ _ value).ends fun _ holds => holds.1) fun _ => ?_
      refine ends_bind (object_ends i fun _ => id) fun now => ?_
      apply put_ends
      intro heap holds
      exact holds.1.put _
    · intro _
      apply put_ends
      intro heap holds
      exact (unchanged heap holds.1.2.1).put _

theorem coalesce_frame (reached : Reached start) :
    Ends (Frame start i) (coalesce i) (fun k heap => Frame start i heap ∧ Private start i k) (Frame start i) := by
  refine ends_bind (object_ends i fun _ => id) fun self => ?_
  refine ends_get fun read => ?_
  refine ends_bind ((allocArray_frame reached _ false).weaken (fun heap holds => holds.2.1) (fun _ _ => id)
    fun _ => id) fun k => ?_
  refine ends_bind (Q := fun _ heap => Frame start i heap ∧ Private start i k) (put_ends ?_)
    fun _ => ends_pure fun _ holds => holds
  rintro heap ⟨frame, hidden⟩
  exact ⟨frame.put _, hidden⟩

theorem resplit_frame (reached : Reached start) (k : Nat) : Keeps (Frame start i) (resplit i k) := by
  refine ends_bind (object_ends i fun _ => id) fun self => ?_
  refine ends_get fun read => ?_
  apply ends_ite
  · intro _
    refine ends_bind (lastOf_ends _ fun _ holds => holds.2.1) fun last => ?_
    refine ends_bind ((allocArray_frame reached _ false).weaken (fun heap holds => holds.2.1) (fun _ _ => id)
      fun _ => id) fun fresh => ?_
    apply put_ends
    intro heap holds
    exact holds.1.put _
  · intro _
    apply put_ends
    intro heap holds
    exact holds.2.1.put _

theorem setSlice_frame (reached : Reached start) (first last : Option Int) (value : Ref) :
    Keeps (Frame start i) (setSlice impl i first last value) := by
  refine ends_bind (object_ends i fun _ => id) fun self => ?_
  refine ends_bind ((bound_keeps impl first 0 self.length).ends fun _ holds => holds.1) fun b => ?_
  refine ends_bind (bound_keeps impl last self.length self.length) fun e => ?_
  refine ends_bind (len_ends value fun _ => id) fun valueLen => ?_
  apply ends_ite
  · intro _
    exact ends_throw fun _ holds => holds
  · intro _
    apply ends_ite
    · intro _
      exact ends_pure fun _ holds => holds
    · intro _
      refine ends_bind (coalesce_frame reached) fun k => ?_
      refine ends_fact (c := Private start i k) (fun _ holds => holds.2) fun hidden => ?_
      refine ends_bind ((int_keeps impl (objectData_frame impl) value).ends fun _ holds => holds.1) fun bits => ?_
      refine ends_bind (writeBits_keeps impl (writeBit_frame hidden) b bits (e - b) 0) fun _ => ?_
      exact resplit_frame reached k

end Assignment

/-! ### Runs -/

theorem ends_outcome {α : Type} {P : Heap → Prop} {x : Exec α} {heap : Heap}
    (ends : Ends (fun s => s = heap) x (fun _ => P) P) : P (outcome x heap).2 := by
  have done := ends heap rfl
  rw [outcome]
  cases ran : x heap with
  | ok value after =>
    rw [ran] at done
    exact done
  | error error after =>
    rw [ran] at done
    exact done

/-- An assignment that does not write into a shared buffer keeps the bits of the other objects. -/
theorem step_separate (impl : Impl) {heap : Heap} (reached : Reached heap) {cmd : Cmd}
    (safe : heap.writesShared cmd = false) : Separate impl heap cmd := by
  intro i assigned j different
  have frame : Frame heap i (outcome (step impl cmd) heap).2 := by
    apply ends_outcome
    cases cmd with
    | setItem target offset value =>
      cases assigned
      refine ends_bind (setItem_frame impl reached offset value safe) fun _ => ?_
      exact ends_pure fun _ holds => holds
    | setSlice target first last value =>
      cases assigned
      refine ends_bind ((setSlice_frame impl reached first last value).ends ?_) fun _ => ?_
      · rintro heap rfl
        exact frame_refl heap _
      · exact ends_pure fun _ holds => holds
    | _ => cases assigned
  exact frame.bits different

theorem Along.imp {impl : Impl} {P Q : Heap → Cmd → Prop}
    (follows : ∀ heap cmd, Reached heap → P heap cmd → Q heap cmd) {heap : Heap} (reached : Reached heap)
    {program : List Cmd} (along : Along impl P heap program) : Along impl Q heap program := by
  induction program generalizing heap with
  | nil => trivial
  | cons cmd program ih =>
    have next : Reached (outcome (step impl cmd) heap).2 := outcome_keeps (step_reached impl cmd) reached
    exact ⟨follows heap cmd reached along.1, ih next along.2⟩

/-- In a run in which no bit assignment is made in place into a buffer that another object holds, no
assignment changes the bits or the length of another object. -/
theorem assignments_separate (impl : Impl) (program : List Cmd)
    (safe : Along impl (fun heap cmd => heap.writesShared cmd = false) .empty program) :
    Along impl (Separate impl) .empty program :=
  safe.imp (fun _ _ reached => step_separate impl reached) reached_empty

/-- A copy made after an assignment, then a slice assignment to the original. -/
theorem slice_assignment_separate :
    Along .python (Separate .python) .empty
      [.newInt 0 8, .setItem 0 0 true, .newBits (.object 0) none, .newInt 3 2,
        .setSlice 0 (some 4) (some 6) (.object 2), .setItem 0 7 true] := by
  apply assignments_separate
  exact ⟨rfl, rfl, rfl, rfl, rfl, rfl, trivial⟩

/-- Assign, copy, assign again: the copy changes with the original. -/
theorem second_assignment_shared :
    ¬Along .python (Separate .python) .empty
      [.newInt 0 8, .setItem 0 0 true, .newBits (.object 0) none, .setItem 0 1 true] := by
  intro along
  have changed := along.2.2.2.1 0 rfl 1 (by decide)
  revert changed
  decide

end Acrobe.Sharing
