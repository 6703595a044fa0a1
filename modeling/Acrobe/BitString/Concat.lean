import Mathlib
import Acrobe.BitString.Object

/-!
# The concatenation law

Every command on the heap is the concatenation of lists in the model.
-/

namespace Acrobe.Storage
open LittleEndian
open Acrobe.BitString (toNat ofNat toNat_lt toNat_ofNat toNat_append length_ofNat)

/-! ### The heap represents the model -/

structure Represents (heap : Heap) (model : Model) : Prop where
  size : heap.objects.length = model.objects.length
  holds : ∀ (i : Nat) (object : BitString) (bits : Bits), heap.objects[i]? = some object →
    model.objects[i]? = some bits → object.Holds bits
  slices : heap.slices = model.slices
  inside : ∀ slice ∈ model.slices, ∃ base, model.objects[slice.bs]? = some base ∧
    slice.start < slice.stop ∧ slice.stop ≤ base.length

theorem represents_empty : Represents .empty .empty where
  size := rfl
  holds := by rintro i object bits ⟨⟩
  slices := rfl
  inside := by rintro slice ⟨⟩

variable {heap : Heap} {model : Model}

theorem Represents.object {i : Nat} {bits : Bits} (rep : Represents heap model)
    (named : model.objects[i]? = some bits) : ∃ object, heap.objects[i]? = some object ∧
      heap.object i = .ok object ∧ object.Holds bits := by
  have inside : i < heap.objects.length := by
    rw [rep.size]
    exact (List.getElem?_eq_some_iff.mp named).1
  have found : heap.objects[i]? = some heap.objects[i] := List.getElem?_eq_getElem inside
  exact ⟨_, found, by rw [Heap.object, found], rep.holds i _ bits found named⟩

theorem Represents.object_missing {i : Nat} (rep : Represents heap model) (missing : model.objects[i]? = none) :
    heap.object i = .error .nameError := by
  have outside : heap.objects[i]? = none := by
    rw [List.getElem?_eq_none_iff, rep.size]
    exact List.getElem?_eq_none_iff.mp missing
  rw [Heap.object, outside]

theorem Represents.put {i : Nat} {base bits : Bits} {object : BitString} (rep : Represents heap model)
    (named : model.objects[i]? = some base) (held : object.Holds (base ++ bits)) :
    Represents (heap.put i object) { model with objects := model.objects.set i (base ++ bits) } where
  size := by rw [Heap.put, List.length_set, List.length_set, rep.size]
  holds := by
    intro j other stored found read
    have range : i < model.objects.length := (List.getElem?_eq_some_iff.mp named).1
    by_cases same : i = j
    · subst same
      rw [Heap.put, List.getElem?_set_self (by rw [rep.size]; exact range)] at found
      rw [List.getElem?_set_self range] at read
      cases found
      cases read
      exact held
    · rw [Heap.put, List.getElem?_set_ne same] at found
      rw [List.getElem?_set_ne same] at read
      exact rep.holds j other stored found read
  slices := rep.slices
  inside := by
    intro slice member
    obtain ⟨target, found, ordered, bound⟩ := rep.inside slice member
    by_cases same : i = slice.bs
    · subst same
      rw [found] at named
      cases named
      refine ⟨base ++ bits, ?_, ordered, ?_⟩
      · rw [List.getElem?_set_self (List.getElem?_eq_some_iff.mp found).1]
      · rw [List.length_append]
        omega
    · exact ⟨target, by rw [List.getElem?_set_ne same]; exact found, ordered, bound⟩

theorem Represents.refill {i : Nat} {bits : Bits} {object : BitString} (rep : Represents heap model)
    (named : model.objects[i]? = some bits) (held : object.Holds bits) : Represents (heap.put i object) model := by
  have stored := rep.put named (by rw [List.append_nil]; exact held : object.Holds (bits ++ []))
  obtain ⟨range, rfl⟩ := List.getElem?_eq_some_iff.mp named
  rw [List.append_nil, List.set_getElem_self] at stored
  exact stored

theorem Represents.alloc {bits : Bits} {object : BitString} (rep : Represents heap model) (held : object.Holds bits) :
    Represents (heap.alloc object) (model.alloc bits) where
  size := by rw [Heap.alloc, Model.alloc, List.length_append, List.length_append, rep.size]; rfl
  holds := by
    intro i other stored found read
    by_cases old : i < model.objects.length
    · rw [Heap.alloc, List.getElem?_append_left (by rw [rep.size]; exact old)] at found
      rw [Model.alloc, List.getElem?_append_left old] at read
      exact rep.holds i other stored found read
    · rw [Heap.alloc, List.getElem?_append_right (by rw [rep.size]; omega), rep.size] at found
      rw [Model.alloc, List.getElem?_append_right (by omega)] at read
      rw [List.getElem?_singleton] at found read
      split at found
      · rename_i fresh
        rw [if_pos fresh] at read
        cases found
        cases read
        exact held
      · cases found
  slices := rep.slices
  inside := by
    intro slice member
    obtain ⟨base, found, ordered, bound⟩ := rep.inside slice member
    refine ⟨base, ?_, ordered, bound⟩
    rw [Model.alloc, List.getElem?_append_left (List.getElem?_eq_some_iff.mp found).1]
    exact found

/-! ### Reading -/

theorem Represents.objectData {i : Nat} {bits : Bits} (rep : Represents heap model)
    (named : model.objects[i]? = some bits) :
    ∃ next, heap.objectData i = .ok (Bits.pack bits, next) ∧ Represents next model := by
  obtain ⟨object, _, found, held⟩ := rep.object named
  obtain ⟨filled, read, kept⟩ := held.data
  refine ⟨heap.put i filled, ?_, rep.refill named kept⟩
  rw [Heap.objectData, found]
  change (object.data >>= fun x => pure (x.1, heap.put i x.2)) = _
  rw [read]
  rfl

theorem Represents.slice {i : Nat} {slice : BitStringSlice} (rep : Represents heap model)
    (named : model.slices[i]? = some slice) : heap.slice i = .ok slice := by
  rw [Heap.slice, rep.slices, named]

theorem Represents.sliceBits {i : Nat} {bits : Bits} (rep : Represents heap model)
    (named : model.bits (.slice i) = some bits) :
    ∃ slice base, model.slices[i]? = some slice ∧ model.objects[slice.bs]? = some base ∧
      slice.start < slice.stop ∧ slice.stop ≤ base.length ∧ bits = BitString.slice base slice.start slice.stop := by
  rw [Model.bits] at named
  cases found : model.slices[i]? with
  | none =>
    rw [found] at named
    cases named
  | some slice =>
    obtain ⟨base, stored, ordered, bound⟩ := rep.inside slice (List.mem_of_getElem? found)
    rw [found] at named
    change (model.objects[slice.bs]? >>= fun base => some (BitString.slice base slice.start slice.stop)) = _ at named
    rw [stored] at named
    cases named
    exact ⟨slice, base, rfl, stored, ordered, bound, rfl⟩

theorem Represents.slice_missing {i : Nat} (rep : Represents heap model) (missing : model.bits (.slice i) = none) :
    heap.slice i = .error .nameError := by
  cases found : model.slices[i]? with
  | none => rw [Heap.slice, rep.slices, found]
  | some slice =>
    obtain ⟨base, stored, -⟩ := rep.inside slice (List.mem_of_getElem? found)
    rw [Model.bits, found] at missing
    change (model.objects[slice.bs]? >>= fun base => some (BitString.slice base slice.start slice.stop)) = _ at missing
    rw [stored] at missing
    cases missing

theorem Represents.len {ref : Ref} {bits : Bits} (rep : Represents heap model) (named : model.bits ref = some bits) :
    heap.len ref = .ok bits.length := by
  cases ref with
  | object i =>
    obtain ⟨object, -, found, held⟩ := rep.object named
    rw [Heap.len, found]
    exact congrArg Except.ok held.length
  | slice i =>
    obtain ⟨slice, base, stored, -, ordered, bound, rfl⟩ := rep.sliceBits named
    rw [Heap.len, rep.slice stored, length_slice bound]
    rfl

theorem Represents.len_missing {ref : Ref} (rep : Represents heap model) (missing : model.bits ref = none) :
    heap.len ref = .error .nameError := by
  cases ref with
  | object i =>
    rw [Heap.len, rep.object_missing missing]
    rfl
  | slice i =>
    rw [Heap.len, rep.slice_missing missing]
    rfl

theorem Represents.int {ref : Ref} {bits : Bits} (rep : Represents heap model) (named : model.bits ref = some bits) :
    ∃ next, heap.int ref = .ok (toNat bits, next) ∧ Represents next model := by
  cases ref with
  | object i =>
    obtain ⟨next, read, kept⟩ := rep.objectData named
    obtain ⟨object, -, found, held⟩ := kept.object named
    refine ⟨next, ?_, kept⟩
    rw [Heap.int, read]
    change (next.object i >>= fun self => Except.ok (mask (fromBytes (Bits.pack bits)) self.length, next)) = _
    rw [found]
    change Except.ok (mask (fromBytes (Bits.pack bits)) object.length, next) = _
    rw [mask_natCast, fromBytes, combine_pack, held.length, Nat.mod_eq_of_lt (toNat_lt bits)]
  | slice i =>
    obtain ⟨slice, base, stored, based, ordered, bound, rfl⟩ := rep.sliceBits named
    obtain ⟨next, read, kept⟩ := rep.objectData based
    refine ⟨next, ?_, kept⟩
    have value := sliced_value bound (Nat.le_of_lt ordered)
    rw [Heap.int, rep.slice stored]
    change (if slice.stop - slice.start = 0 then _ else _) = _
    rw [if_neg (by omega)]
    change (heap.objectData slice.bs >>= fun x => Except.ok (mask _ _, x.2)) = _
    rw [read, ← value]
    rfl

theorem Represents.data {ref : Ref} {bits : Bits} (rep : Represents heap model) (named : model.bits ref = some bits) :
    ∃ next, heap.data ref = .ok (Bits.pack bits, next) ∧ Represents next model := by
  cases ref with
  | object i => exact rep.objectData named
  | slice i =>
    obtain ⟨slice, base, stored, based, ordered, bound, rfl⟩ := rep.sliceBits named
    have length : (BitString.slice base slice.start slice.stop).length = slice.stop - slice.start := length_slice bound
    have lengthPos : ¬ slice.stop - slice.start = 0 := by omega
    rw [Heap.data, rep.slice stored]
    by_cases whole : slice.start % 8 = 0 ∧ (slice.stop - slice.start) % 8 = 0
    · obtain ⟨next, read, kept⟩ := rep.objectData based
      refine ⟨next, ?_, kept⟩
      have bytes := sliced_bytes bound (Nat.le_of_lt ordered) whole.1 whole.2
      change (if slice.stop - slice.start = 0 then _ else _) = _
      rw [if_neg lengthPos]
      rw [if_pos whole]
      change (heap.objectData slice.bs >>= fun x => Except.ok (_, x.2)) = _
      rw [read, ← bytes]
      rfl
    · obtain ⟨next, read, kept⟩ := rep.int named
      refine ⟨next, ?_, kept⟩
      have fits := toNat_lt (BitString.slice base slice.start slice.stop)
      rw [length] at fits
      change (if slice.stop - slice.start = 0 then _ else _) = _
      rw [if_neg lengthPos]
      rw [if_neg whole]
      change (heap.int (.slice i) >>= fun x => toBytes x.1 ((slice.stop - slice.start + 7) / 8) >>= fun data =>
        Except.ok (data, x.2)) = _
      rw [read]
      change (toBytes (toNat (BitString.slice base slice.start slice.stop)) ((slice.stop - slice.start + 7) / 8)
        >>= fun data => Except.ok (data, next)) = _
      rw [BitString.toBytes_fits fits, Bits.pack, length]
      rfl

theorem Represents.int_missing {ref : Ref} (rep : Represents heap model) (missing : model.bits ref = none) :
    heap.int ref = .error .nameError := by
  cases ref with
  | object i =>
    rw [Heap.int, Heap.objectData, rep.object_missing missing]
    rfl
  | slice i =>
    rw [Heap.int, rep.slice_missing missing]
    rfl

theorem Represents.data_missing {ref : Ref} (rep : Represents heap model) (missing : model.bits ref = none) :
    heap.data ref = .error .nameError := by
  cases ref with
  | object i =>
    rw [Heap.data, Heap.objectData, rep.object_missing missing]
    rfl
  | slice i =>
    rw [Heap.data, rep.slice_missing missing]
    rfl

/-! ### Concatenating -/

theorem ofInt_toNat (bits : Bits) : Bits.ofInt (toNat bits : Nat) bits.length = bits := by
  have masked := mask_natCast (toNat bits) bits.length
  rw [mask, Nat.mod_eq_of_lt (toNat_lt bits)] at masked
  rw [Bits.ofInt, masked, Acrobe.BitString.ofNat_toNat]

theorem ofBytes_pack (bits : Bits) : Bits.ofBytes (Bits.pack bits) (some bits.length) = bits := by
  rw [Bits.ofBytes, combine_pack, Option.getD_some, Acrobe.BitString.ofNat_toNat]

theorem clean_pack (offset : Nat) (bits : Bits) : BitString.CleanAt offset (Bits.pack bits) (some bits.length) :=
  ⟨by rw [combine_pack]; exact toNat_lt bits, .inr (Nat.le_of_eq (length_pack bits))⟩

theorem Represents.append {i : Nat} {other : Ref} {base bits : Bits} (rep : Represents heap model)
    (named : model.objects[i]? = some base) (read : model.bits other = some bits) :
    ∃ next, heap.append i other = .ok next ∧
      Represents next { model with objects := model.objects.set i (base ++ bits) } := by
  obtain ⟨object, -, found, held⟩ := rep.object named
  rw [Heap.append, found, rep.len read]
  change ∃ next, (if object.length % 8 ≠ 0 then _ else _) = _ ∧ _
  by_cases aligned : object.length % 8 = 0
  · obtain ⟨filled, taken, kept⟩ := rep.data read
    obtain ⟨current, -, again, currentHeld⟩ := kept.object named
    obtain ⟨appended, done, result⟩ := BitString.appendBytes_holds currentHeld (clean_pack base.length bits)
    rw [ofBytes_pack] at result
    refine ⟨filled.put i appended, ?_, kept.put named result⟩
    rw [if_neg (by omega), taken]
    change (filled.object i >>= fun self => self.appendBytes (Bits.pack bits) (some bits.length) >>= fun self =>
      Except.ok (filled.put i self)) = _
    rw [again]
    change (current.appendBytes (Bits.pack bits) (some bits.length) >>= fun self => Except.ok (filled.put i self)) = _
    rw [done]
    rfl
  · obtain ⟨filled, taken, kept⟩ := rep.int read
    obtain ⟨current, -, again, currentHeld⟩ := kept.object named
    obtain ⟨appended, done, result⟩ := BitString.appendInt_holds currentHeld (toNat bits) bits.length
    rw [ofInt_toNat] at result
    refine ⟨filled.put i appended, ?_, kept.put named result⟩
    rw [if_pos aligned, taken]
    change (filled.object i >>= fun self => self.appendInt (toNat bits : Nat) bits.length >>= fun self =>
      Except.ok (filled.put i self)) = _
    rw [again]
    change (current.appendInt (toNat bits : Nat) bits.length >>= fun self => Except.ok (filled.put i self)) = _
    rw [done]
    rfl

theorem bits_alloc {ref : Ref} {bits fresh : Bits} (named : model.bits ref = some bits) :
    (model.alloc fresh).bits ref = some bits := by
  have grown : ∀ (i : Nat) (found : Bits), model.objects[i]? = some found →
      (model.alloc fresh).objects[i]? = some found := by
    intro i found stored
    rw [Model.alloc, List.getElem?_append_left (List.getElem?_eq_some_iff.mp stored).1]
    exact stored
  cases ref with
  | object i => exact grown i bits named
  | slice i =>
    simp only [Model.bits, Option.bind_eq_bind, Option.bind_eq_some_iff] at named ⊢
    obtain ⟨slice, stored, base, found, result⟩ := named
    exact ⟨slice, stored, base, grown slice.bs base found, result⟩

theorem alloc_last (model : Model) (bits : Bits) : (model.alloc bits).objects[model.objects.length]? = some bits := by
  rw [Model.alloc, List.getElem?_append_right (Nat.le_refl _), Nat.sub_self]
  rfl

theorem alloc_set_last (model : Model) (bits more : Bits) :
    { model.alloc bits with objects := (model.alloc bits).objects.set model.objects.length more } =
      model.alloc more := by
  rw [Model.alloc, Model.alloc, List.set_append_right _ _ (Nat.le_refl _), Nat.sub_self]
  rfl

theorem Represents.appendFresh {other : Ref} {object : BitString} {base bits : Bits} (rep : Represents heap model)
    (held : object.Holds base) (read : model.bits other = some bits) :
    ∃ next, (heap.alloc object).append heap.objects.length other = .ok next ∧
      Represents next (model.alloc (base ++ bits)) := by
  have appended := (rep.alloc held).append (alloc_last model base) (bits_alloc read)
  rw [alloc_set_last, ← rep.size] at appended
  exact appended

theorem Represents.clone {other : Ref} {bits : Bits} (rep : Represents heap model) (length : Option Nat)
    (read : model.bits other = some bits) :
    ∃ next, heap.clone other length = .ok next ∧ Represents next (model.alloc bits) := by
  have general : ∃ next, heap.construct other = .ok next ∧ Represents next (model.alloc bits) := by
    have appended := rep.appendFresh BitString.holds_empty read
    rw [List.nil_append] at appended
    rw [Heap.construct, rep.len read]
    exact appended
  match other, length with
  | .object i, none =>
    obtain ⟨object, -, found, held⟩ := rep.object read
    refine ⟨heap.alloc object, ?_, rep.alloc held⟩
    rw [Heap.clone, found]
    rfl
  | .object i, some _ => exact general
  | .slice i, _ => exact general

theorem or_shifted (front back : Bits) :
    toNat front ||| toNat back <<< front.length = toNat (front ++ back) := by
  rw [Nat.or_comm, ← Nat.shiftLeft_add_eq_or_of_lt (toNat_lt front), toNat_append, Nat.shiftLeft_eq,
    Nat.mul_comm, Nat.add_comm]

theorem Represents.addSmall {i : Nat} {other : Ref} {front back : Bits} (rep : Represents heap model)
    (named : model.objects[i]? = some front) (read : model.bits other = some back) :
    ∃ next, heap.addSmall i other = .ok next ∧ Represents next (model.alloc (front ++ back)) := by
  obtain ⟨object, -, found, held⟩ := rep.object named
  obtain ⟨first, left, kept⟩ := rep.int (show model.bits (.object i) = some front from named)
  obtain ⟨second, right, both⟩ := kept.int read
  obtain ⟨sum, built, result⟩ := BitString.ofInt_holds (toNat (front ++ back) : Nat) (front ++ back).length
  rw [ofInt_toNat] at result
  refine ⟨second.alloc sum, ?_, both.alloc result⟩
  rw [Heap.addSmall, found, rep.len read]
  change (heap.int (.object i) >>= fun x => x.2.int other >>= fun y =>
    BitString.ofInt (x.1 ||| y.1 <<< object.length : Nat) (object.length + back.length) >>= fun sum =>
      Except.ok (y.2.alloc sum)) = _
  rw [left]
  change (first.int other >>= fun y => BitString.ofInt (toNat front ||| y.1 <<< object.length : Nat)
    (object.length + back.length) >>= fun sum => Except.ok (y.2.alloc sum)) = _
  rw [right]
  change (BitString.ofInt (toNat front ||| toNat back <<< object.length : Nat) (object.length + back.length) >>=
    fun sum => Except.ok (second.alloc sum)) = _
  rw [held.length, or_shifted, ← List.length_append, built]
  rfl

theorem Represents.addLarge {i : Nat} {other : Ref} {front back : Bits} (rep : Represents heap model)
    (named : model.objects[i]? = some front) (read : model.bits other = some back) :
    ∃ next, heap.addLarge i other = .ok next ∧ Represents next (model.alloc (front ++ back)) := by
  obtain ⟨object, -, found, held⟩ := rep.object named
  rw [Heap.addLarge, found]
  exact rep.appendFresh held read

theorem Represents.add {left right : Ref} {front back : Bits} (rep : Represents heap model)
    (first : model.bits left = some front) (second : model.bits right = some back) :
    ∃ next, heap.add left right = .ok next ∧ Represents next (model.alloc (front ++ back)) := by
  cases left with
  | object i =>
    obtain ⟨object, -, found, held⟩ := rep.object first
    rw [Heap.add, found, rep.len second]
    change ∃ next, (if back.length = 0 then _ else _) = _ ∧ _
    by_cases noBack : back.length = 0
    · refine ⟨heap.alloc object, by rw [if_pos noBack]; rfl, ?_⟩
      rw [List.eq_nil_of_length_eq_zero noBack, List.append_nil]
      exact rep.alloc held
    rw [if_neg noBack]
    by_cases noFront : object.length = 0
    · rw [held.length] at noFront
      rw [List.eq_nil_of_length_eq_zero noFront, List.nil_append, if_pos (held.length.trans noFront)]
      cases right with
      | object j =>
        obtain ⟨other, -, otherFound, otherHeld⟩ := rep.object second
        refine ⟨heap.alloc other, ?_, rep.alloc otherHeld⟩
        change (heap.object j >>= fun other => Except.ok (heap.alloc other)) = _
        rw [otherFound]
        rfl
      | slice j =>
        obtain ⟨next, read, kept⟩ := rep.int second
        obtain ⟨sum, built, result⟩ := BitString.ofInt_holds (toNat back : Nat) back.length
        rw [ofInt_toNat] at result
        refine ⟨next.alloc sum, ?_, kept.alloc result⟩
        change (heap.int (.slice j) >>= fun x => BitString.ofInt (x.1 : Nat) back.length >>= fun sum =>
          Except.ok (x.2.alloc sum)) = _
        rw [read]
        change (BitString.ofInt (toNat back : Nat) back.length >>= fun sum => Except.ok (next.alloc sum)) = _
        rw [built]
        rfl
    rw [if_neg noFront]
    by_cases small : object.length + back.length ≤ 256
    · rw [if_pos small]
      exact rep.addSmall first second
    · rw [if_neg small]
      exact rep.addLarge first second
  | slice i =>
    obtain ⟨next, read, kept⟩ := rep.int first
    obtain ⟨sum, built, result⟩ := BitString.ofInt_holds (toNat front : Nat) front.length
    rw [ofInt_toNat] at result
    have appended := kept.appendFresh result second
    rw [Heap.add, rep.len first, rep.len second]
    change ∃ after, (heap.int (.slice i) >>= fun x => BitString.ofInt (x.1 : Nat) front.length >>= fun sum =>
      (x.2.alloc sum).append x.2.objects.length right) = _ ∧ _
    rw [read]
    change ∃ after, (BitString.ofInt (toNat front : Nat) front.length >>= fun sum =>
      (next.alloc sum).append next.objects.length right) = _ ∧ _
    rw [built]
    exact appended

theorem set_self {objects : List Bits} {i : Nat} {bits : Bits} (named : objects[i]? = some bits) :
    objects.set i bits = objects := by
  obtain ⟨range, rfl⟩ := List.getElem?_eq_some_iff.mp named
  rw [List.set_getElem_self]

theorem Represents.iaddSlow {i : Nat} {other : Ref} {base bits : Bits} (rep : Represents heap model)
    (named : model.objects[i]? = some base) (read : model.bits other = some bits) :
    ∃ next, (if bits.length ≠ 0 then heap.append i other else .ok heap) = .ok next ∧
      Represents next { model with objects := model.objects.set i (base ++ bits) } := by
  by_cases empty : bits.length = 0
  · refine ⟨heap, by rw [if_neg (by omega)], ?_⟩
    rw [List.eq_nil_of_length_eq_zero empty, List.append_nil, set_self named]
    exact rep
  · rw [if_pos empty]
    exact rep.append named read

theorem Represents.iadd {i : Nat} {other : Ref} {base bits : Bits} (rep : Represents heap model)
    (named : model.objects[i]? = some base) (read : model.bits other = some bits) :
    ∃ next, heap.iadd i other = .ok next ∧
      Represents next { model with objects := model.objects.set i (base ++ bits) } := by
  obtain ⟨object, -, found, held⟩ := rep.object named
  rw [Heap.iadd, found, rep.len read]
  cases other with
  | object j =>
    change ∃ next, (if object.length = 0 then _ else _) = _ ∧ _
    by_cases noBase : object.length = 0
    · obtain ⟨copied, -, otherFound, otherHeld⟩ := rep.object read
      rw [held.length] at noBase
      have nil := List.eq_nil_of_length_eq_zero noBase
      refine ⟨heap.put i { copied with dataCache := none }, ?_, rep.put named ?_⟩
      · rw [if_pos (held.length.trans noBase), otherFound]
        rfl
      · rw [nil, List.nil_append]
        exact ⟨otherHeld.length, otherHeld.flat, by rintro cached ⟨⟩⟩
    · rw [if_neg noBase]
      exact rep.iaddSlow named read
  | slice j => exact rep.iaddSlow named read

/-! ### Taking slices -/

theorem clamp_le (bound : Option Int) (missing length : Nat) : Heap.clamp bound missing length ≤ length := by
  unfold Heap.clamp
  split <;> omega

theorem Represents.addSlice {bs start stop : Nat} {base : Bits} (rep : Represents heap model)
    (named : model.objects[bs]? = some base) (ordered : start < stop) (bound : stop ≤ base.length) :
    Represents { heap with slices := heap.slices ++ [⟨bs, start, stop⟩] }
      { model with slices := model.slices ++ [⟨bs, start, stop⟩] } where
  size := rep.size
  holds := rep.holds
  slices := by rw [rep.slices]
  inside := by
    intro other member
    rcases List.mem_append.mp member with old | new
    · exact rep.inside other old
    · rw [List.mem_singleton.mp new]
      exact ⟨base, named, ordered, bound⟩

theorem Represents.getSlice {self : Ref} {bits : Bits} (start stop : Option Int) (rep : Represents heap model)
    (named : model.bits self = some bits) :
    ∃ next after, heap.getSlice self start stop = .ok next ∧ model.getSlice self start stop = some after ∧
      Represents next after := by
  have bounded : Heap.clamp stop bits.length bits.length ≤ bits.length := clamp_le _ _ _
  rw [Heap.getSlice, rep.len named, Model.getSlice, named]
  change ∃ next after, (if Heap.clamp stop bits.length bits.length ≤ Heap.clamp start 0 bits.length then _ else _) = _
    ∧ (if Heap.clamp stop bits.length bits.length ≤ Heap.clamp start 0 bits.length then _ else _) = _ ∧ _
  by_cases nothing : Heap.clamp stop bits.length bits.length ≤ Heap.clamp start 0 bits.length
  · obtain ⟨zero, built, held⟩ := BitString.ofInt_holds 0 0
    refine ⟨heap.alloc zero, model.alloc [], ?_, by rw [if_pos nothing]; rfl, rep.alloc held⟩
    rw [if_pos nothing, built]
    rfl
  rw [if_neg nothing, if_neg nothing]
  cases self with
  | object i => exact ⟨_, _, rfl, rfl, rep.addSlice named (by omega) bounded⟩
  | slice i =>
    obtain ⟨slice, base, stored, based, ordered, bound, rfl⟩ := rep.sliceBits named
    rw [length_slice bound] at bounded nothing ⊢
    refine ⟨_, _, ?_, ?_, rep.addSlice based (Nat.add_lt_add_left (Nat.lt_of_not_le nothing) slice.start)
      (by omega)⟩
    · dsimp only
      rw [rep.slice stored]
      rfl
    · dsimp only
      rw [stored]
      rfl

/-! ### Commands -/

/-- Every bytes argument is clean where it is put. -/
def Cmd.CleanIn (model : Model) : Cmd → Prop
  | .newBytes bytes length => BitString.CleanAt 0 bytes length
  | .appendBytes i bytes length =>
    ∀ base : Bits, model.objects[i]? = some base → BitString.CleanAt base.length bytes length
  | _ => True

theorem extend_eq_some {i : Nat} {bits : Bits} {after : Model} (extended : model.extend i bits = some after) :
    ∃ base, model.objects[i]? = some base ∧
      after = { model with objects := model.objects.set i (base ++ bits) } := by
  obtain ⟨base, named, result⟩ := Option.bind_eq_some_iff.mp extended
  cases result
  exact ⟨base, named, rfl⟩

theorem extend_eq_none {i : Nat} {bits : Bits} (missing : model.extend i bits = none) :
    model.objects[i]? = none := by
  cases named : model.objects[i]? with
  | none => rfl
  | some base =>
    rw [Model.extend, named] at missing
    cases missing

theorem Represents.step {cmd : Cmd} {after : Model} (rep : Represents heap model) (clean : cmd.CleanIn model)
    (defined : model.step cmd = some after) : ∃ next, step heap cmd = .ok next ∧ Represents next after := by
  cases cmd with
  | new =>
    cases defined
    exact ⟨_, rfl, rep.alloc BitString.holds_empty⟩
  | newInt value length =>
    cases defined
    obtain ⟨object, built, held⟩ := BitString.ofInt_holds value length
    exact ⟨heap.alloc object, by rw [Storage.step, built]; rfl, rep.alloc held⟩
  | newBytes data length =>
    cases defined
    obtain ⟨object, built, held⟩ := BitString.ofBytes_holds clean
    exact ⟨heap.alloc object, by rw [Storage.step, built]; rfl, rep.alloc held⟩
  | newBits other length =>
    obtain ⟨bits, named, result⟩ := Option.bind_eq_some_iff.mp defined
    cases result
    exact rep.clone length named
  | append i other =>
    obtain ⟨bits, read, extended⟩ := Option.bind_eq_some_iff.mp defined
    obtain ⟨base, named, rfl⟩ := extend_eq_some extended
    exact rep.append named read
  | appendInt i value length =>
    obtain ⟨base, named, rfl⟩ := extend_eq_some defined
    obtain ⟨object, -, found, held⟩ := rep.object named
    obtain ⟨appended, done, result⟩ := BitString.appendInt_holds held value length
    refine ⟨heap.put i appended, ?_, rep.put named result⟩
    rw [Storage.step, found]
    change (object.appendInt value length >>= fun self => Except.ok (heap.put i self)) = _
    rw [done]
    rfl
  | appendBytes i data length =>
    obtain ⟨base, named, rfl⟩ := extend_eq_some defined
    obtain ⟨object, -, found, held⟩ := rep.object named
    obtain ⟨appended, done, result⟩ := BitString.appendBytes_holds held (clean base named)
    refine ⟨heap.put i appended, ?_, rep.put named result⟩
    rw [Storage.step, found]
    change (object.appendBytes data length >>= fun self => Except.ok (heap.put i self)) = _
    rw [done]
    rfl
  | add left right =>
    obtain ⟨front, first, rest⟩ := Option.bind_eq_some_iff.mp defined
    obtain ⟨back, second, result⟩ := Option.bind_eq_some_iff.mp rest
    cases result
    exact rep.add first second
  | iadd i other =>
    obtain ⟨bits, read, extended⟩ := Option.bind_eq_some_iff.mp defined
    obtain ⟨base, named, rfl⟩ := extend_eq_some extended
    exact rep.iadd named read
  | getSlice self start stop =>
    obtain ⟨bits, named, -⟩ := Option.bind_eq_some_iff.mp defined
    obtain ⟨next, result, done, modelled, kept⟩ := rep.getSlice start stop named
    rw [Model.step, modelled] at defined
    cases defined
    exact ⟨next, done, kept⟩
  | data self =>
    obtain ⟨bits, named, result⟩ := Option.bind_eq_some_iff.mp defined
    cases result
    obtain ⟨next, read, kept⟩ := rep.data named
    exact ⟨next, by rw [Storage.step, read]; rfl, kept⟩

/-- Programs that name only what they have built run to the end, and the heap represents the model. -/
theorem Represents.foldlM {program : List Cmd} {after : Model} (rep : Represents heap model)
    (clean : ∀ pre cmd post mid, program = pre ++ cmd :: post → pre.foldlM Model.step model = some mid →
      cmd.CleanIn mid) (defined : program.foldlM Model.step model = some after) :
    ∃ next, program.foldlM Storage.step heap = .ok next ∧ Represents next after := by
  induction program generalizing heap model with
  | nil =>
    cases defined
    exact ⟨heap, rfl, rep⟩
  | cons cmd program ih =>
    obtain ⟨mid, stepped, rest⟩ := Option.bind_eq_some_iff.mp defined
    obtain ⟨next, done, kept⟩ := rep.step (clean [] cmd program model rfl rfl) stepped
    obtain ⟨final, ran, result⟩ := ih kept (by
      intro pre other post reached split walked
      apply clean (cmd :: pre) other post reached (by rw [split]; rfl)
      rw [List.foldlM_cons, stepped]
      exact walked) rest
    refine ⟨final, ?_, result⟩
    rw [List.foldlM_cons, done]
    exact ran

/-! ### What a reader sees -/

theorem testBit_toNat {bits : Bits} {k : Nat} {bit : Bool} (read : bits[k]? = some bit) :
    (toNat bits).testBit k = bit := by
  induction bits generalizing k with
  | nil => cases read
  | cons head bits ih =>
    have low : (head.toNat + 2 * toNat bits) / 2 = toNat bits := by cases head <;> simp; omega
    cases k with
    | zero =>
      cases read
      rw [Nat.testBit_zero, Acrobe.BitString.toNat]
      cases bit <;> simp
    | succ k =>
      rw [Nat.testBit_succ, Acrobe.BitString.toNat, low]
      exact ih read

theorem byteAt_pack {bits : Bits} {k : Nat} {bit : Bool} (read : bits[k]? = some bit) :
    ∃ byte, Heap.byteAt (Bits.pack bits) (k / 8 : Nat) = .ok byte ∧ byte.toNat.testBit (k % 8) = bit := by
  have inside : k < bits.length := (List.getElem?_eq_some_iff.mp read).1
  refine ⟨UInt8.ofNat (toNat bits / 256 ^ (k / 8)), ?_, ?_⟩
  · have stored : (Bits.pack bits)[k / 8]? = some (UInt8.ofNat (toNat bits / 256 ^ (k / 8))) :=
      getElem_split _ _ _ (by omega)
    rw [Heap.byteAt, if_neg (by omega), if_neg (by omega), Int.toNat_natCast, stored]
  · have byte : (UInt8.ofNat (toNat bits / 256 ^ (k / 8))).toNat = toNat bits / 256 ^ (k / 8) % 2 ^ 8 :=
      UInt8.toNat_ofNat'
    rw [byte, Nat.testBit_mod_two_pow, two_pow_bytes, Nat.testBit_div_two_pow,
      Nat.add_comm, Nat.div_add_mod, testBit_toNat read]
    simp [Nat.mod_lt k (show 0 < 8 by decide)]

theorem getElem_slice {bits : Bits} {start stop k : Nat} {bit : Bool}
    (read : (BitString.slice bits start stop)[k]? = some bit) : bits[start + k]? = some bit := by
  rw [Acrobe.BitString.slice, List.getElem?_drop, List.getElem?_take] at read
  split at read
  · exact read
  · cases read

theorem Represents.getItem {ref : Ref} {bits : Bits} {k : Nat} {bit : Bool} {offset : Int}
    (rep : Represents heap model) (named : model.bits ref = some bits) (read : bits[k]? = some bit)
    (reached : (if offset < 0 then offset + bits.length else offset) = k) :
    ∃ next, heap.getItem ref offset = .ok (bit, next) := by
  have inside : k < bits.length := (List.getElem?_eq_some_iff.mp read).1
  rw [Heap.getItem, rep.len named]
  change ∃ next, heap.itemAt ref bits.length (if offset < 0 then offset + bits.length else offset) = _
  rw [reached]
  cases ref with
  | object i =>
    obtain ⟨next, taken, -⟩ := rep.objectData named
    obtain ⟨byte, found, tested⟩ := byteAt_pack read
    refine ⟨next, ?_⟩
    rw [Heap.itemAt, if_neg (by omega), taken]
    change (Heap.byteAt (Bits.pack bits) ((k : Int) / 8) >>= fun byte =>
      Except.ok (byte.toNat >>> ((k : Int) % 8).toNat % 2 == 1, next)) = _
    rw [show (k : Int) / 8 = (k / 8 : Nat) by omega, found]
    change Except.ok (byte.toNat >>> ((k : Int) % 8).toNat % 2 == 1, next) = _
    rw [show ((k : Int) % 8).toNat = k % 8 by omega, ← tested, Nat.testBit_eq_decide_div_mod_eq,
      Nat.shiftRight_eq_div_pow]
    rfl
  | slice i =>
    obtain ⟨slice, base, stored, based, ordered, bound, rfl⟩ := rep.sliceBits named
    obtain ⟨next, taken, -⟩ := rep.objectData based
    obtain ⟨byte, found, tested⟩ := byteAt_pack (getElem_slice read)
    refine ⟨next, ?_⟩
    rw [Heap.itemAt, rep.slice stored]
    change (heap.objectData slice.bs >>= fun x => Heap.byteAt x.1 (((slice.start : Int) + k) / 8) >>= fun byte =>
      Except.ok (byte.toNat &&& 1 <<< (((slice.start : Int) + k) % 8).toNat != 0, x.2)) = _
    rw [taken]
    change (Heap.byteAt (Bits.pack base) (((slice.start : Int) + k) / 8) >>= fun byte =>
      Except.ok (byte.toNat &&& 1 <<< (((slice.start : Int) + k) % 8).toNat != 0, next)) = _
    rw [show ((slice.start : Int) + k) / 8 = ((slice.start + k) / 8 : Nat) by omega, found]
    change Except.ok (byte.toNat &&& 1 <<< (((slice.start : Int) + k) % 8).toNat != 0, next) = _
    rw [show (((slice.start : Int) + k) % 8).toNat = (slice.start + k) % 8 by omega, Nat.one_shiftLeft,
      Nat.and_two_pow, tested]
    cases bit <;> simp

/-- Length, value, bytes and single bits of an object or slice, from either end. -/
structure Reads (heap : Heap) (ref : Ref) (bits : Bits) : Prop where
  len : heap.len ref = .ok bits.length
  int : ∃ next, heap.int ref = .ok (toNat bits, next)
  data : ∃ next, heap.data ref = .ok (Bits.pack bits, next)
  getItem : ∀ (k : Nat) (bit : Bool), bits[k]? = some bit → ∃ next, heap.getItem ref k = .ok (bit, next)
  getItemBack : ∀ (k : Nat) (bit : Bool), bits[k]? = some bit →
    ∃ next, heap.getItem ref (k - bits.length) = .ok (bit, next)

theorem Represents.reads {ref : Ref} {bits : Bits} (rep : Represents heap model) (named : model.bits ref = some bits) :
    Reads heap ref bits where
  len := rep.len named
  int := by
    obtain ⟨next, read, -⟩ := rep.int named
    exact ⟨next, read⟩
  data := by
    obtain ⟨next, read, -⟩ := rep.data named
    exact ⟨next, read⟩
  getItem k bit read := rep.getItem named read (if_neg (by omega))
  getItemBack k bit read := by
    have inside : k < bits.length := (List.getElem?_eq_some_iff.mp read).1
    apply rep.getItem named read
    rw [if_pos (by omega)]
    omega

/-! ### The law -/

/-- Bytes come in exactly the count the length needs, with zero spare bits. -/
def Cmd.Exact : Cmd → Prop
  | .newBytes bytes (some length) | .appendBytes _ bytes (some length) =>
    bytes.length = (length + 7) / 8 ∧ combine bytes < 2 ^ length
  | _ => True

theorem Cmd.Exact.cleanIn {cmd : Cmd} (exact : cmd.Exact) (model : Model) : cmd.CleanIn model := by
  cases cmd with
  | newBytes bytes length =>
    cases length with
    | none => trivial
    | some length => exact ⟨exact.2, .inr (Nat.le_of_eq exact.1)⟩
  | appendBytes i bytes length =>
    cases length with
    | none => exact fun _ _ => trivial
    | some length => exact fun _ _ => ⟨exact.2, .inr (Nat.le_of_eq exact.1)⟩
  | _ => trivial

/-- Whatever is built by constructors, `append`, `+` and `+=` reads back as the concatenation of its
pieces, and both branches of `+` build the same bits. -/
theorem concatenation_law (program : List Cmd) {model : Model} (exact : ∀ cmd ∈ program, cmd.Exact)
    (defined : Model.run program = some model) :
    ∃ heap, run program = .ok heap ∧
      (∀ ref bits, model.bits ref = some bits → Reads heap ref bits) ∧
      (∀ left right front back, model.bits left = some front → model.bits right = some back →
        ∃ sum, heap.add left right = .ok sum ∧ Reads sum (.object heap.objects.length) (front ++ back) ∧
          ∃ next, sum.int (.object heap.objects.length) = .ok (toNat front + toNat back * 2 ^ front.length, next)) ∧
      (∀ i other front back, model.objects[i]? = some front → model.bits other = some back →
        ∃ small large, heap.addSmall i other = .ok small ∧ heap.addLarge i other = .ok large ∧
          Reads small (.object heap.objects.length) (front ++ back) ∧
          Reads large (.object heap.objects.length) (front ++ back)) := by
  have clean : ∀ pre cmd post mid, program = pre ++ cmd :: post → pre.foldlM Model.step .empty = some mid →
      cmd.CleanIn mid := by
    intro pre cmd post mid split _
    exact (exact cmd (by rw [split]; simp)).cleanIn mid
  obtain ⟨heap, ran, rep⟩ := represents_empty.foldlM clean defined
  have last : ∀ (bits : Bits), (model.alloc bits).bits (.object heap.objects.length) = some bits := by
    intro bits
    rw [rep.size]
    exact alloc_last model bits
  refine ⟨heap, ran, fun ref bits named => rep.reads named, ?_, ?_⟩
  · intro left right front back first second
    obtain ⟨sum, added, result⟩ := rep.add first second
    have reads := result.reads (last (front ++ back))
    refine ⟨sum, added, reads, ?_⟩
    rw [Nat.mul_comm, ← toNat_append]
    exact reads.int
  · intro i other front back named read
    obtain ⟨small, addedSmall, smallRep⟩ := rep.addSmall named read
    obtain ⟨large, addedLarge, largeRep⟩ := rep.addLarge named read
    exact ⟨small, large, addedSmall, addedLarge, smallRep.reads (last _), largeRep.reads (last _)⟩

theorem concatenation_law_mixed :
    ∃ heap, run [.newInt (-3) 5, .newBytes [0xab, 0x01] (some 9), .append 0 (.object 1),
        .getSlice (.object 0) (some 2) (some (-1)), .add (.object 0) (.slice 0), .iadd 1 (.object 2)] = .ok heap ∧
      ∃ next, heap.int (.object 1) = .ok (11541347243, next) := by
  obtain ⟨heap, ran, reads, -⟩ := concatenation_law
    [.newInt (-3) 5, .newBytes [0xab, 0x01] (some 9), .append 0 (.object 1),
      .getSlice (.object 0) (some 2) (some (-1)), .add (.object 0) (.slice 0), .iadd 1 (.object 2)]
    (by simp [Cmd.Exact, combine]) rfl
  exact ⟨heap, ran, (reads (.object 1) _ rfl).int⟩

end Acrobe.Storage
