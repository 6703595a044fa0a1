import Acrobe.BitString.Concat

/-!
# Bits past the declared length

A bytes argument may be longer than its declared length or carry set bits above it. Cutting every
argument to its length first changes nothing exactly when every argument is clean where it is put.
-/

namespace Acrobe.Storage
open LittleEndian
open Acrobe.BitString (toNat ofNat toNat_lt toNat_ofNat toNat_append length_ofNat)

/-! ### Cut arguments -/

/-- The low `length` bits of the bytes. -/
def cutBytes (data : Bytes) : Option Nat → Bytes
  | none => data
  | some bits => split (combine data % 2 ^ bits) ((bits + 7) / 8)

def Cmd.cut : Cmd → Cmd
  | .newBytes bytes length => .newBytes (cutBytes bytes length) length
  | .appendBytes i bytes length => .appendBytes i (cutBytes bytes length) length
  | cmd => cmd

/-- Two heaps that no reader can tell apart. -/
structure SameView (heap other : Heap) : Prop where
  len : ∀ ref, heap.len ref = other.len ref
  int : ∀ ref, (heap.int ref).map Prod.fst = (other.int ref).map Prod.fst
  data : ∀ ref, (heap.data ref).map Prod.fst = (other.data ref).map Prod.fst
  getItem : ∀ ref offset, (heap.getItem ref offset).map Prod.fst = (other.getItem ref offset).map Prod.fst
  eq : ∀ left right, (heap.eq left right).map Prod.fst = (other.eq left right).map Prod.fst

def SameOutcome : Except Error Heap → Except Error Heap → Prop
  | .ok heap, .ok other => SameView heap other
  | .error raised, .error other => raised = other
  | _, _ => False

/-- After every command of the program, nothing tells whether the arguments were cut. -/
def SpareBitsUnobservable (program : List Cmd) : Prop :=
  ∀ front back, program = front ++ back → SameOutcome (run front) (run (front.map Cmd.cut))

/-- Every bytes argument of the program is clean where it is put. -/
def CleanProgram (program : List Cmd) : Prop :=
  ∀ front cmd back model, program = front ++ cmd :: back → Model.run front = some model → cmd.CleanIn model

/-! ### The cut program -/

theorem combine_cut (data : Bytes) (bits : Nat) : combine (cutBytes data (some bits)) = combine data % 2 ^ bits := by
  rw [cutBytes, combine_split]
  exact Nat.mod_eq_of_lt (Nat.lt_of_lt_of_le (Nat.mod_lt _ (Nat.two_pow_pos bits)) (pow_le_bytes (by omega)))

theorem ofBytes_cut (data : Bytes) (length : Option Nat) :
    Bits.ofBytes (cutBytes data length) length = Bits.ofBytes data length := by
  cases length with
  | none => rfl
  | some bits =>
    rw [Bits.ofBytes, Bits.ofBytes, combine_cut, Option.getD_some, Option.getD_some]
    rw [← Acrobe.BitString.ofNat_toNat (ofNat (combine data) bits), length_ofNat, toNat_ofNat]

theorem cut_clean (offset : Nat) (data : Bytes) (length : Option Nat) :
    BitString.CleanAt offset (cutBytes data length) length := by
  cases length with
  | none => trivial
  | some bits =>
    refine ⟨?_, .inr (Nat.le_of_eq (length_split _ _))⟩
    rw [combine_cut]
    exact Nat.mod_lt _ (Nat.two_pow_pos bits)

theorem Cmd.cut_cleanIn (cmd : Cmd) (model : Model) : cmd.cut.CleanIn model := by
  cases cmd with
  | newBytes bytes length => exact cut_clean 0 bytes length
  | appendBytes i bytes length => exact fun base _ => cut_clean base.length bytes length
  | _ => trivial

theorem Model.step_cut (model : Model) (cmd : Cmd) : model.step cmd.cut = model.step cmd := by
  cases cmd with
  | newBytes bytes length => rw [Cmd.cut, Model.step, Model.step, ofBytes_cut]
  | appendBytes i bytes length => rw [Cmd.cut, Model.step, Model.step, ofBytes_cut]
  | _ => rfl

theorem Model.foldlM_cut (program : List Cmd) (model : Model) :
    (program.map Cmd.cut).foldlM Model.step model = program.foldlM Model.step model := by
  induction program generalizing model with
  | nil => rfl
  | cons cmd program ih =>
    rw [List.map_cons, List.foldlM_cons, List.foldlM_cons, Model.step_cut]
    congr 1
    funext next
    exact ih next

theorem Model.run_cut (program : List Cmd) : Model.run (program.map Cmd.cut) = Model.run program :=
  Model.foldlM_cut program .empty

theorem clean_cut (program : List Cmd) : CleanProgram (program.map Cmd.cut) := by
  intro front cmd back model split _
  have member : cmd ∈ program.map Cmd.cut := by rw [split]; simp
  obtain ⟨original, -, rfl⟩ := List.mem_map.mp member
  exact original.cut_cleanIn model

/-! ### Names that are not defined -/

variable {heap : Heap} {model : Model}

theorem Represents.step_missing {cmd : Cmd} (rep : Represents heap model) (missing : model.step cmd = none) :
    Storage.step heap cmd = .error .nameError := by
  have noObject : ∀ {i : Nat} {bits : Bits}, model.extend i bits = none → heap.object i = .error .nameError :=
    fun none => rep.object_missing (extend_eq_none none)
  cases cmd with
  | new => cases missing
  | newInt value length => cases missing
  | newBytes bytes length => cases missing
  | newBits other length =>
    cases named : model.bits other with
    | some bits =>
      rw [Model.step, named] at missing
      cases missing
    | none =>
      have general : heap.construct other = .error .nameError := by
        rw [Heap.construct, rep.len_missing named]
        rfl
      cases other with
      | object i =>
        cases length with
        | none =>
          rw [Storage.step, Heap.clone, rep.object_missing named]
          rfl
        | some _ => exact general
      | slice i => exact general
  | append i other =>
    rw [Storage.step, Heap.append]
    cases based : model.objects[i]? with
    | none =>
      rw [rep.object_missing based]
      rfl
    | some base =>
      obtain ⟨object, -, found, -⟩ := rep.object based
      cases named : model.bits other with
      | none =>
        rw [found, rep.len_missing named]
        rfl
      | some bits =>
        rw [Model.step, named] at missing
        have absent := extend_eq_none missing
        rw [based] at absent
        cases absent
  | appendInt i value length =>
    rw [Storage.step, noObject missing]
    rfl
  | appendBytes i bytes length =>
    rw [Storage.step, noObject missing]
    rfl
  | add left right =>
    rw [Storage.step]
    cases first : model.bits left with
    | none =>
      cases left with
      | object i =>
        rw [Heap.add, rep.object_missing first]
        rfl
      | slice i =>
        rw [Heap.add, rep.len_missing first]
        rfl
    | some front =>
      cases second : model.bits right with
      | none =>
        cases left with
        | object i =>
          obtain ⟨object, -, found, -⟩ := rep.object first
          rw [Heap.add, found, rep.len_missing second]
          rfl
        | slice i =>
          rw [Heap.add, rep.len first, rep.len_missing second]
          rfl
      | some back =>
        rw [Model.step, first, second] at missing
        cases missing
  | iadd i other =>
    rw [Storage.step, Heap.iadd]
    cases based : model.objects[i]? with
    | none =>
      rw [rep.object_missing based]
      rfl
    | some base =>
      obtain ⟨object, -, found, -⟩ := rep.object based
      cases named : model.bits other with
      | none =>
        rw [found, rep.len_missing named]
        rfl
      | some bits =>
        rw [Model.step, named] at missing
        have absent := extend_eq_none missing
        rw [based] at absent
        cases absent
  | getSlice self start stop =>
    cases named : model.bits self with
    | none =>
      rw [Storage.step, Heap.getSlice, rep.len_missing named]
      rfl
    | some bits =>
      obtain ⟨next, after, -, modelled, -⟩ := rep.getSlice start stop named
      rw [Model.step, modelled] at missing
      cases missing
  | data self =>
    cases named : model.bits self with
    | none =>
      rw [Storage.step, rep.data_missing named]
      rfl
    | some bits =>
      rw [Model.step, named] at missing
      cases missing

theorem Represents.foldlM_missing {program : List Cmd} (rep : Represents heap model)
    (clean : ∀ pre cmd post mid, program = pre ++ cmd :: post → pre.foldlM Model.step model = some mid →
      cmd.CleanIn mid) (missing : program.foldlM Model.step model = none) :
    program.foldlM Storage.step heap = .error .nameError := by
  induction program generalizing heap model with
  | nil => cases missing
  | cons cmd program ih =>
    rw [List.foldlM_cons] at missing ⊢
    cases stepped : model.step cmd with
    | none =>
      rw [rep.step_missing stepped]
      rfl
    | some mid =>
      obtain ⟨next, done, kept⟩ := rep.step (clean [] cmd program model rfl rfl) stepped
      rw [stepped] at missing
      rw [done]
      apply ih kept _ missing
      intro pre other post reached split walked
      apply clean (cmd :: pre) other post reached (by rw [split]; rfl)
      rw [List.foldlM_cons, stepped]
      exact walked

/-! ### Heaps that represent the same model -/

theorem Represents.itemAt {other : Heap} {ref : Ref} {bits : Bits} (rep : Represents heap model)
    (same : Represents other model) (named : model.bits ref = some bits) (length : Nat) (offset : Int) :
    (heap.itemAt ref length offset).map Prod.fst = (other.itemAt ref length offset).map Prod.fst := by
  have read : ∀ {i : Nat} {base : Bits} (test : UInt8 → Bool) (k : Int), model.objects[i]? = some base →
      (heap.objectData i >>= fun x => Heap.byteAt x.1 k >>= fun byte => Except.ok (test byte, x.2)).map Prod.fst =
        (other.objectData i >>= fun x => Heap.byteAt x.1 k >>= fun byte => Except.ok (test byte, x.2)).map Prod.fst := by
    intro i base test k based
    obtain ⟨next, taken, -⟩ := rep.objectData based
    obtain ⟨after, takenSame, -⟩ := same.objectData based
    rw [taken, takenSame]
    change Except.map Prod.fst (Heap.byteAt (Bits.pack base) k >>= fun byte => Except.ok (test byte, next)) =
      Except.map Prod.fst (Heap.byteAt (Bits.pack base) k >>= fun byte => Except.ok (test byte, after))
    cases Heap.byteAt (Bits.pack base) k <;> rfl
  cases ref with
  | object i =>
    rw [Heap.itemAt, Heap.itemAt]
    split
    · rfl
    · exact read (fun byte => byte.toNat >>> (offset % 8).toNat % 2 == 1) (offset / 8) named
  | slice i =>
    obtain ⟨slice, base, stored, based, -⟩ := rep.sliceBits named
    rw [Heap.itemAt, Heap.itemAt, rep.slice stored, same.slice stored]
    exact read (fun byte => byte.toNat &&& 1 <<< ((slice.start + offset) % 8).toNat != 0)
      ((slice.start + offset) / 8) based

theorem Represents.eq {left right : Ref} {front back : Bits} (rep : Represents heap model)
    (first : model.bits left = some front) (second : model.bits right = some back) :
    (heap.eq left right).map Prod.fst =
      .ok (if front.length ≠ back.length then false else Bits.pack front == Bits.pack back) := by
  obtain ⟨next, leftRead, kept⟩ := rep.data first
  obtain ⟨final, rightRead, -⟩ := kept.data second
  rw [Heap.eq, rep.len first, rep.len second]
  change Except.map Prod.fst (if front.length ≠ back.length then _ else _) = _
  split
  · rfl
  · rw [leftRead]
    change Except.map Prod.fst (next.data right >>= fun x => Except.ok (Bits.pack front == x.1, x.2)) = _
    rw [rightRead]
    rfl

theorem Represents.eq_missing {left right : Ref} (rep : Represents heap model)
    (missing : model.bits left = none ∨ model.bits right = none) : heap.eq left right = .error .nameError := by
  rw [Heap.eq]
  cases first : model.bits left with
  | none =>
    rw [rep.len_missing first]
    rfl
  | some front =>
    have second : model.bits right = none := missing.resolve_left (by simp [first])
    rw [rep.len first, rep.len_missing second]
    rfl

theorem Represents.sameView {other : Heap} (rep : Represents heap model) (same : Represents other model) :
    SameView heap other where
  len := by
    intro ref
    cases named : model.bits ref with
    | none => rw [rep.len_missing named, same.len_missing named]
    | some bits => rw [rep.len named, same.len named]
  int := by
    intro ref
    cases named : model.bits ref with
    | none => rw [rep.int_missing named, same.int_missing named]
    | some bits =>
      obtain ⟨next, read, -⟩ := rep.int named
      obtain ⟨after, readSame, -⟩ := same.int named
      rw [read, readSame]
      rfl
  data := by
    intro ref
    cases named : model.bits ref with
    | none => rw [rep.data_missing named, same.data_missing named]
    | some bits =>
      obtain ⟨next, read, -⟩ := rep.data named
      obtain ⟨after, readSame, -⟩ := same.data named
      rw [read, readSame]
      rfl
  getItem := by
    intro ref offset
    cases named : model.bits ref with
    | none => rw [Heap.getItem, Heap.getItem, rep.len_missing named, same.len_missing named]; rfl
    | some bits =>
      rw [Heap.getItem, Heap.getItem, rep.len named, same.len named]
      exact rep.itemAt same named bits.length _
  eq := by
    intro left right
    cases first : model.bits left with
    | none => rw [rep.eq_missing (.inl first), same.eq_missing (.inl first)]
    | some front =>
      cases second : model.bits right with
      | none => rw [rep.eq_missing (.inr second), same.eq_missing (.inr second)]
      | some back => rw [rep.eq first second, same.eq first second]

theorem clean_outcome {program : List Cmd} (clean : CleanProgram program) {model : Model}
    (defined : Model.run program = some model) : ∃ heap, run program = .ok heap ∧ Represents heap model :=
  represents_empty.foldlM clean defined

theorem clean_undefined {program : List Cmd} (clean : CleanProgram program) (missing : Model.run program = none) :
    run program = .error .nameError :=
  represents_empty.foldlM_missing clean missing

theorem clean_sameOutcome {program : List Cmd} (clean : CleanProgram program) :
    SameOutcome (run program) (run (program.map Cmd.cut)) := by
  cases defined : Model.run program with
  | none =>
    rw [clean_undefined clean defined, clean_undefined (clean_cut program) ((Model.run_cut program).trans defined)]
    rfl
  | some model =>
    obtain ⟨heap, ran, rep⟩ := clean_outcome clean defined
    obtain ⟨other, ranCut, same⟩ := clean_outcome (clean_cut program) ((Model.run_cut program).trans defined)
    rw [ran, ranCut]
    exact rep.sameView same

theorem CleanProgram.front {front back : List Cmd} (clean : CleanProgram (front ++ back)) : CleanProgram front := by
  intro pre cmd post model split defined
  exact clean pre cmd (post ++ back) model (by rw [split]; simp) defined

/-! ### Arguments that are not clean -/

namespace BitString

variable {self next : BitString} {base : Bits}

theorem place_flat {chunks : List Bytes} {data : Bytes} {length : Nat} {cache : Option Bytes}
    (placed : place chunks data length cache = .ok next) :
    next.flat = chunks.flatten ++ data ∧ next.dataCache = cache := by
  by_cases nonempty : length % 8 ≠ 0 → data ≠ []
  · obtain ⟨object, done, -, flat, kept⟩ := place_ok chunks cache nonempty
    rw [placed] at done
    cases done
    exact ⟨flat, kept⟩
  · have unaligned : length % 8 ≠ 0 := fun aligned => nonempty fun other => absurd aligned other
    have empty : data = [] := by
      by_contra other
      exact nonempty fun _ => other
    rw [place, if_pos unaligned, empty] at placed
    cases placed

theorem append_ne {chunks : List Bytes} {stored wanted : Bytes} (different : stored ≠ wanted) :
    chunks.flatten ++ stored ≠ chunks.flatten ++ wanted :=
  fun same => different (List.append_cancel_left same)

theorem merge_dirty (held : self.Holds base) (unaligned : base.length % 8 ≠ 0) {value length : Nat}
    (large : ¬value < 2 ^ length) (merged : self.merge value length = .ok next) :
    next.flat ≠ Bits.pack (base ++ ofNat value length) ∧ next.dataCache = none := by
  have stored : toNat (ofNat value length) = value % 2 ^ length := toNat_ofNat value length
  unfold merge at merged
  dsimp only at merged
  rw [toBytes] at merged
  split at merged
  · rename_i fits
    obtain ⟨flat, cache⟩ := place_flat merged
    refine ⟨?_, cache⟩
    rw [flat, pack_append, ← held.chunks, stored, length_ofNat, ← held.length]
    apply append_ne
    intro same
    have values := congrArg combine same
    have reduced : value % 2 ^ length < 2 ^ length := Nat.mod_lt _ (Nat.two_pow_pos length)
    have room := merge_lt base reduced
    rw [held.merged unaligned] at fits values
    rw [combine_split, combine_split, Nat.mod_eq_of_lt fits, held.length, Nat.mod_eq_of_lt room] at values
    have equal := Nat.eq_of_mul_eq_mul_left (Nat.two_pow_pos _) (Nat.add_left_cancel values)
    exact large (equal ▸ reduced)
  · cases merged

theorem ljust_dirty {data : Bytes} {bits : Nat} (dirty : ¬(combine data < 2 ^ bits ∧ data.length ≤ (bits + 7) / 8)) :
    ljust data ((bits + 7) / 8) ≠ Bits.pack (ofNat (combine data) bits) := by
  intro same
  have lengths := congrArg List.length same
  have values := congrArg combine same
  rw [length_ljust, length_pack, length_ofNat] at lengths
  rw [combine_ljust, combine_pack, toNat_ofNat] at values
  apply dirty
  refine ⟨?_, by omega⟩
  rw [values]
  exact Nat.mod_lt _ (Nat.two_pow_pos bits)

theorem appendBytes_dirty (held : self.Holds base) {data : Bytes} {length : Option Nat}
    (dirty : ¬CleanAt base.length data length) (done : self.appendBytes data length = .ok next) :
    next.flat ≠ Bits.pack (base ++ Bits.ofBytes data length) ∧ next.dataCache = none := by
  cases length with
  | none => exact absurd trivial dirty
  | some bits =>
    unfold appendBytes at done
    dsimp only at done
    by_cases aligned : base.length % 8 = 0
    · rw [if_neg (by rw [held.length]; omega)] at done
      obtain ⟨flat, cache⟩ := place_flat done
      refine ⟨?_, cache⟩
      rw [flat, pack_append_aligned _ aligned, pack_aligned aligned, ← held.chunks]
      apply append_ne
      apply ljust_dirty
      rintro ⟨fits, short⟩
      exact dirty ⟨fits, .inr short⟩
    · rw [if_pos (by rw [held.length]; exact aligned), fromBytes, combine_ljust] at done
      exact merge_dirty held aligned (fun fits => dirty ⟨fits, .inl aligned⟩) done

theorem ofBytes_dirty {data : Bytes} {length : Option Nat} (dirty : ¬CleanAt 0 data length)
    (done : ofBytes data length = .ok next) :
    next.flat ≠ Bits.pack (Bits.ofBytes data length) ∧ ∀ cached, next.dataCache = some cached → cached = next.flat := by
  cases length with
  | none => exact absurd trivial dirty
  | some bits =>
    unfold ofBytes at done
    dsimp only at done
    split at done
    · rename_i exact
      obtain ⟨flat, cache⟩ := place_flat done
      refine ⟨?_, ?_⟩
      · have padded : ljust data ((bits + 7) / 8) = data := by
          rw [ljust, exact, Nat.sub_self, List.replicate_zero, List.append_nil]
        have different := ljust_dirty fun clean => dirty ⟨clean.1, .inr clean.2⟩
        rw [padded] at different
        rw [flat]
        exact different
      · intro cached kept
        rw [cache] at kept
        cases kept
        rw [flat]
        rfl
    · obtain ⟨flat, cache⟩ := appendBytes_dirty holds_empty dirty done
      refine ⟨flat, ?_⟩
      intro cached kept
      rw [cache] at kept
      cases kept

theorem data_flat {data : Bytes} {after : BitString} (cache : ∀ cached, self.dataCache = some cached → cached = self.flat)
    (read : self.data = .ok (data, after)) : data = self.flat := by
  unfold BitString.data at read
  cases cached : self.dataCache with
  | some bytes =>
    rw [cached] at read
    cases read
    exact cache _ cached
  | none =>
    rw [cached] at read
    dsimp only at read
    split at read
    · cases read
      rfl
    · cases read

end BitString

/-- The object that takes an unclean argument shows it, unless the command overflows. -/
theorem Represents.step_dirty {cmd : Cmd} {after : Model} (rep : Represents heap model) (dirty : ¬cmd.CleanIn model)
    (defined : model.step cmd = some after) :
    ∃ ref bits, after.bits ref = some bits ∧ ∀ next data final, Storage.step heap cmd = .ok next →
      next.data ref = .ok (data, final) → data ≠ Bits.pack bits := by
  have shown : ∀ {next : Heap} {i : Nat} {object : BitString} {bits : Bits} {data : Bytes} {final : Heap},
      next.object i = .ok object → object.flat ≠ Bits.pack bits →
      (∀ cached, object.dataCache = some cached → cached = object.flat) →
      next.data (.object i) = .ok (data, final) → data ≠ Bits.pack bits := by
    intro next i object bits data final found different cache read
    rw [Heap.data, Heap.objectData, found] at read
    change (object.data >>= fun x => Except.ok (x.1, next.put i x.2)) = _ at read
    cases taken : object.data with
    | error raised =>
      rw [taken] at read
      cases read
    | ok pair =>
      rw [taken] at read
      cases read
      rw [BitString.data_flat cache taken]
      exact different
  cases cmd with
  | newBytes bytes length =>
    cases defined
    refine ⟨.object heap.objects.length, Bits.ofBytes bytes length, ?_, ?_⟩
    · rw [rep.size]
      exact alloc_last model _
    · intro next data final stepped read
      rw [Storage.step] at stepped
      cases built : BitString.ofBytes bytes length with
      | error raised =>
        rw [built] at stepped
        cases stepped
      | ok object =>
        rw [built] at stepped
        cases stepped
        obtain ⟨different, cache⟩ := BitString.ofBytes_dirty dirty built
        refine shown ?_ different cache read
        rw [Heap.object, Heap.alloc, List.getElem?_append_right (Nat.le_refl _), Nat.sub_self]
        rfl
  | appendBytes i bytes length =>
    obtain ⟨base, named, rfl⟩ := extend_eq_some defined
    obtain ⟨object, stored, found, held⟩ := rep.object named
    have unclean : ¬BitString.CleanAt base.length bytes length := by
      intro clean
      apply dirty
      intro other same
      rw [named] at same
      cases same
      exact clean
    refine ⟨.object i, base ++ Bits.ofBytes bytes length, ?_, ?_⟩
    · exact List.getElem?_set_self (List.getElem?_eq_some_iff.mp named).1
    · intro next data final stepped read
      rw [Storage.step, found] at stepped
      change (object.appendBytes bytes length >>= fun self => Except.ok (heap.put i self)) = _ at stepped
      cases done : object.appendBytes bytes length with
      | error raised =>
        rw [done] at stepped
        cases stepped
      | ok appended =>
        rw [done] at stepped
        cases stepped
        obtain ⟨different, cache⟩ := BitString.appendBytes_dirty held unclean done
        refine shown ?_ different (by rw [cache]; rintro cached ⟨⟩) read
        rw [Heap.object, Heap.put, List.getElem?_set_self (List.getElem?_eq_some_iff.mp stored).1]
  | _ => exact absurd trivial dirty

theorem run_append {front : List Cmd} {heap : Heap} (cmd : Cmd) (ran : run front = .ok heap) :
    run (front ++ [cmd]) = Storage.step heap cmd := by
  change front.foldlM Storage.step .empty = _ at ran
  rw [run, List.foldlM_append, ran]
  change (Storage.step heap cmd >>= fun next => Except.ok next) = _
  cases Storage.step heap cmd <;> rfl

theorem dirty_observed {front back : List Cmd} {cmd : Cmd} {model : Model}
    (unobservable : SpareBitsUnobservable (front ++ cmd :: back)) (clean : CleanProgram front)
    (defined : Model.run front = some model) : cmd.CleanIn model := by
  by_contra dirty
  obtain ⟨heap, ran, rep⟩ := clean_outcome clean defined
  obtain ⟨other, ranCut, same⟩ := clean_outcome (clean_cut front) ((Model.run_cut front).trans defined)
  have outcome := unobservable (front ++ [cmd]) back (by simp)
  rw [List.map_append, List.map_singleton, run_append cmd ran, run_append cmd.cut ranCut] at outcome
  have defines : ∃ after, model.step cmd = some after := by
    cases stepped : model.step cmd with
    | some after => exact ⟨after, rfl⟩
    | none =>
      exfalso
      apply dirty
      cases cmd with
      | newBytes bytes length => cases stepped
      | appendBytes i bytes length =>
        intro base named
        have absent := extend_eq_none stepped
        rw [named] at absent
        cases absent
      | _ => trivial
  obtain ⟨after, stepped⟩ := defines
  obtain ⟨cutNext, cutDone, cutRep⟩ := same.step (cmd.cut_cleanIn model) ((model.step_cut cmd).trans stepped)
  obtain ⟨ref, bits, named, different⟩ := rep.step_dirty dirty stepped
  obtain ⟨cutFinal, cutRead, -⟩ := cutRep.data named
  rw [cutDone] at outcome
  cases done : Storage.step heap cmd with
  | error raised =>
    rw [done] at outcome
    exact outcome
  | ok next =>
    rw [done] at outcome
    have bytes := outcome.data ref
    rw [cutRead] at bytes
    cases read : next.data ref with
    | error raised =>
      rw [read] at bytes
      cases bytes
    | ok pair =>
      rw [read] at bytes
      exact different next pair.1 pair.2 done read (Except.ok.inj bytes)

/-- The bits past the declared lengths are unobservable exactly when every bytes argument is clean where it
is put. -/
theorem spare_bits_unobservable_iff (program : List Cmd) :
    SpareBitsUnobservable program ↔ CleanProgram program := by
  constructor
  · intro unobservable front
    -- the commands before the first unclean argument are clean, so their heaps agree
    induction hlen : front.length using Nat.strongRecOn generalizing front with
    | ind n ih =>
      intro cmd back model split defined
      rw [split] at unobservable
      apply dirty_observed unobservable _ defined
      intro pre other post mid shorter reached
      apply ih pre.length _ pre rfl other (post ++ cmd :: back) mid _ reached
      · rw [← hlen, shorter, List.length_append, List.length_cons]
        omega
      · rw [split, shorter, List.append_assoc, List.cons_append]
  · intro clean front back split
    rw [split] at clean
    exact clean_sameOutcome clean.front

/-- `BitString(b'\xff', 4)` and `BitString(b'\x0f', 4)` have the same four bits and are not equal. -/
theorem spare_bits_observable :
    ¬SpareBitsUnobservable [.newBytes [0x0f] (some 4), .newBytes [0xff] (some 4)] := by
  intro unobservable
  have outcome := unobservable [.newBytes [0x0f] (some 4), .newBytes [0xff] (some 4)] [] rfl
  have equal := SameView.eq outcome (.object 0) (.object 1)
  revert equal
  decide

end Acrobe.Storage
