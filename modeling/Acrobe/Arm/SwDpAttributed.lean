import Acrobe.Arm.SwDpSound

/-!
# Batches on the wire

The accesses of a whole batch, register by register, and where their data go.
-/

namespace Acrobe.Arm.Dp
namespace SwDp

/-! ### The choice follows the cached values -/

section Choice
variable {version : Version}

theorem and_offset (addr : Nat) : addr &&& 0xc &&& 0xc = addr &&& 0xc := by rw [Nat.and_assoc, Nat.and_self]

theorem drain_select (flush : Flush) : flush.drainPending.select = flush.select := by
  unfold Flush.drainPending
  split <;> rfl

theorem drain_select1 (flush : Flush) : flush.drainPending.select1 = flush.select1 := by
  unfold Flush.drainPending
  split <;> rfl

theorem writeSelect_select (flush : Flush) (value : Nat) : (flush.writeSelect value).select = value := by
  unfold Flush.writeSelect
  split
  · rfl
  · rename_i same
    exact not_not.mp same

theorem writeSelect_select1 (flush : Flush) (value : Nat) : (flush.writeSelect value).select1 = flush.select1 := by
  unfold Flush.writeSelect
  split
  · exact drain_select1 flush
  · rfl

theorem writeSelect1_select1 (flush : Flush) (value : Option Nat) :
    (flush.writeSelect1 value).select1 = value.or flush.select1 := by
  cases value with
  | none => rfl
  | some value =>
    unfold Flush.writeSelect1
    dsimp only
    split
    · rfl
    · rename_i same
      exact (not_not.mp same).symm

theorem chosen_register (flush : Flush) {op : Op} {access : Access} (accesses : op.access = some access) (select1 : Nat) :
    version.registerOf op =
      some (access.register version ⟨(flush.choose version op).select, (flush.choose version op).select1.getD select1⟩) := by
  have select : (flush.choose version op).select = selectFor version (flush.writeSelect1 (selectFor1 version op)).select op :=
    writeSelect_select _ _
  have upper : (flush.choose version op).select1 = (selectFor1 version op).or flush.select1 :=
    (writeSelect_select1 _ _).trans (writeSelect1_select1 _ _)
  rw [select, upper]
  generalize (flush.writeSelect1 (selectFor1 version op)).select = cur
  have ap (addr : Nat) (before : Option Nat) :
      version.apRegister ⟨addr, addr >>> 32⟩ (addr &&& 0xc) =
        version.apRegister ⟨apSelect version addr cur,
          ((if version.usesSelect1 then some (addr >>> 32) else none).or before).getD select1⟩ (addr &&& 0xc) := by
    unfold Version.apRegister apSelect
    dsimp only
    by_cases adi6 : version.adi6 = true
    · rw [if_pos adi6, if_pos adi6, if_pos adi6, adi6_select_address]
      by_cases wide : version.usesSelect1 = true
      · rw [if_pos wide, if_pos wide, if_pos wide]
        rfl
      · rw [if_neg wide, if_neg wide]
    · rw [if_neg adi6, if_neg adi6, if_neg adi6, ap_select_eq]
      have high : (addr / 2 ^ 24 % 256 * 2 ^ 24 + addr / 16 % 16 * 16 + cur % 16) / 2 ^ 24 % 256 = addr / 2 ^ 24 % 256 := by
        omega
      have bank : (addr / 2 ^ 24 % 256 * 2 ^ 24 + addr / 16 % 16 * 16 + cur % 16) / 16 % 16 = addr / 16 % 16 := by
        omega
      rw [high, bank]
  have dp (addr : Nat) (read : Bool) :
      version.dpRegister (addr >>> 4) read (addr &&& 0xc) = version.dpRegister (dpSelect addr cur) read (addr &&& 0xc) := by
    unfold Version.dpRegister dpSelect
    rw [dp_select_mod, Nat.shiftRight_eq_div_pow]
  cases op with
  | apRead addr =>
    cases accesses
    exact congrArg some ((ap addr flush.select1).trans (congrArg _ (and_offset addr).symm))
  | apWrite addr data =>
    cases accesses
    exact congrArg some ((ap addr flush.select1).trans (congrArg _ (and_offset addr).symm))
  | dpRead addr =>
    cases accesses
    exact congrArg some ((dp addr true).trans (congrArg _ (and_offset addr).symm))
  | dpWrite addr data =>
    cases accesses
    exact congrArg some ((dp addr false).trans (congrArg _ (and_offset addr).symm))
  | _ => cases accesses

end Choice

/-! ### One access -/

section Issue
variable {State : Type} (bench : Bench State)

/-- The data of a write are 32 bits wide. -/
def written : Access → Option Nat
  | .write _ _ data => some (data % 2 ^ 32)
  | .read _ _ => none

theorem written_access {op : Op} {access : Access} (accesses : op.access = some access) : written access = op.data := by
  cases op <;> cases accesses <;> rfl

theorem access_event (port : SwPort State) (access : Access) :
    ∃ event, (port.access bench.version bench.device access).1.event = some event ∧
      event.request = (access.register bench.version port.selection, written access) ∧
      ((∀ addr, access ≠ .read true addr) → (port.access bench.version bench.device access).1.data = event.value) := by
  cases access with
  | write ap addr data => exact ⟨_, rfl, rfl, fun _ => rfl⟩
  | read ap addr =>
    cases ap with
    | true => exact ⟨_, rfl, rfl, fun other => absurd rfl (other addr)⟩
    | false =>
      unfold SwPort.access
      dsimp only
      split
      · exact ⟨_, rfl, rfl, fun _ => rfl⟩
      · split
        · exact ⟨_, rfl, rfl, fun _ => rfl⟩
        · exact ⟨_, rfl, rfl, fun _ => rfl⟩

theorem reached_selection (flush : Flush) :
    (flush.reached bench).selection = flush.selection bench.version bench.port.selection :=
  exec_selection bench.version bench.device bench.port flush

theorem events_own (flush : Flush) (access : Access) (own : Own) (futures : List Nat) :
    ∃ event, (flush.post (.access access) (some own) futures).events bench = flush.events bench ++ [(own, event)] ∧
      event.request = (access.register bench.version (flush.selection bench.version bench.port.selection), written access) := by
  obtain ⟨event, happened, request, -⟩ := access_event bench (flush.reached bench) access
  rw [reached_selection] at request
  refine ⟨event, ?_, request⟩
  rw [events_post]
  change _ ++ (((flush.reached bench).access bench.version bench.device access).1.event.map _).toList = _
  rw [happened]
  rfl

variable {bench} {flush : Flush} {count : Nat}

theorem Kept.still (kept : Kept bench count flush) (wire : Wire)
    (nothing : ∀ port : SwPort State, port.perform bench.version bench.device wire = (⟨none, none⟩, port)) (own : Option Own) :
    Kept bench count (flush.post wire own []) := by
  refine @Kept.post _ _ _ _ _ kept (Nat.le_refl _) _ _ _ flush.pending ?_ ?_ ?_ ?_
  · intro future bound
    cases bound
  · intro future held
    exact ⟨(kept.waiting future held).1, List.not_mem_nil, (kept.waiting future held).2⟩
  · intro future value held posted
    rw [nothing]
    exact .inr ⟨held, posted⟩
  · intro self event _ happened
    rw [Flush.reply, nothing] at happened
    cases happened

theorem events_still (flush : Flush) (wire : Wire)
    (nothing : ∀ port : SwPort State, port.perform bench.version bench.device wire = (⟨none, none⟩, port)) (own : Option Own) :
    (flush.post wire own []).events bench = flush.events bench := by
  rw [events_post, Flush.reply, nothing]
  cases own <;> exact List.append_nil _

theorem Kept.direct (kept : Kept bench count flush) {access : Access}
    (direct : ∀ addr, access ≠ .read true addr) {own : Own} (mine : own.future = count)
    (spares : flush.pending ≠ none →
      ((flush.reached bench).access bench.version bench.device access).2.posted = (flush.reached bench).posted) :
    Kept bench (count + 1) (flush.post (.access access) (some own) [count]) := by
  refine @Kept.post _ _ _ _ _ kept (Nat.le_succ _) _ _ _ flush.pending ?_ ?_ ?_ ?_
  · intro future bound
    rw [List.mem_singleton.mp bound]
    exact Nat.lt_succ_self count
  · intro future held
    obtain ⟨early, open'⟩ := kept.waiting future held
    exact ⟨Nat.lt_succ_of_lt early, fun own => by rw [List.mem_singleton.mp own] at early; omega, open'⟩
  · intro future value held posted
    exact .inr ⟨held, (spares (by rw [held]; exact Option.some_ne_none _)).trans posted⟩
  · intro self event isOwn happened
    cases isOwn
    obtain ⟨event', happened', -, data⟩ := access_event bench (flush.reached bench) access
    cases happened.symm.trans happened'
    rw [mine]
    exact ⟨Nat.lt_succ_self count, .inl ⟨kept.unseen count (Nat.le_refl _), List.mem_singleton_self _, data direct⟩⟩

theorem Kept.after_drain (kept : Kept bench count flush) (access : Access)
    (direct : ∀ addr, access ≠ .read true addr) (own : Own) (mine : own.future = count) :
    Kept bench (count + 1) (flush.drainPending.post (.access access) (some own) [count]) ∧
      ∃ event, (flush.drainPending.post (.access access) (some own) [count]).events bench = flush.events bench ++ [(own, event)] ∧
        event.request = (access.register bench.version (flush.selection bench.version bench.port.selection), written access) := by
  have made := events_own bench flush.drainPending access own [count]
  rw [selection_drain, events_drain] at made
  exact ⟨kept.drain.direct direct mine fun held => absurd (drained flush) held, made⟩

theorem Kept.dpRead (kept : Kept bench count flush) (addr : Nat) (elided : Bool) :
    Kept bench (count + 1) (flush.issue (.dpRead addr) count elided) := by
  unfold Flush.issue
  dsimp only
  split
  · rename_i buffer
    have reply : ((flush.reached bench).access bench.version bench.device (.read false (addr &&& 0xc))).1.data =
        some ((flush.reached bench).buffered bench.device) := by
      rw [SwPort.access]
      dsimp only
      rw [and_offset, if_pos buffer]
    refine kept.post (Nat.le_succ _) ?_ ?_ ?_ ?_
    · intro future bound
      obtain held | own := List.mem_append.mp bound
      · exact Nat.lt_succ_of_lt (kept.waiting future (Option.mem_toList.mp held)).1
      · rw [List.mem_singleton.mp own]
        exact Nat.lt_succ_self count
    · intro future missing
      cases missing
    · intro future value held posted
      refine .inl ⟨List.mem_append_left _ (Option.mem_toList.mpr held), reply.trans ?_⟩
      rw [SwPort.buffered, posted]
      rfl
    · intro self event isOwn happened
      cases isOwn
      obtain ⟨event', happened', -, data⟩ :=
        access_event bench (flush.reached bench) (.read false (addr &&& 0xc))
      cases happened.symm.trans happened'
      exact ⟨Nat.lt_succ_self count, .inl ⟨kept.unseen count (Nat.le_refl _),
        List.mem_append_right _ (List.mem_singleton_self _), data fun _ ap => by cases ap⟩⟩
  · rename_i other
    refine kept.direct (fun _ ap => by cases ap) rfl fun _ => ?_
    rw [SwPort.access]
    dsimp only
    rw [and_offset, if_neg other]
    split <;> rfl

theorem Kept.apRead (kept : Kept bench count flush) (addr : Nat) (elided : Bool) :
    Kept bench (count + 1) (flush.issue (.apRead addr) count elided) := by
  have first : Kept bench (count + 1)
      { flush.post (.access (.read true (addr &&& 0xc))) (some ⟨.apRead addr, count, elided⟩) flush.pending.toList with
        pending := some count } := by
    refine kept.post (Nat.le_succ _) ?_ ?_ ?_ ?_
    · intro future bound
      exact Nat.lt_succ_of_lt (kept.waiting future (Option.mem_toList.mp bound)).1
    · intro future held
      cases held
      refine ⟨Nat.lt_succ_self count, fun bound => ?_, kept.unseen count (Nat.le_refl _)⟩
      exact Nat.lt_irrefl count (kept.waiting count (Option.mem_toList.mp bound)).1
    · intro future value held posted
      refine .inl ⟨Option.mem_toList.mpr held, ?_⟩
      change some ((flush.reached bench).buffered bench.device) = some value
      rw [SwPort.buffered, posted]
      rfl
    · intro self event isOwn happened
      cases isOwn
      cases happened
      exact ⟨Nat.lt_succ_self count, .inr ⟨rfl, _, rfl, rfl⟩⟩
  exact first.still (.run apIdleCycles) (fun _ => rfl) none

theorem Kept.issue (kept : Kept bench count flush) {op : Op} {access : Access}
    (accesses : op.access = some access) (elided : Bool) :
    Kept bench (count + 1) (flush.issue op count elided) ∧
      ∃ event, (flush.issue op count elided).events bench = flush.events bench ++ [(⟨op, count, elided⟩, event)] ∧
        event.request =
          (access.register bench.version (flush.selection bench.version bench.port.selection), op.data) := by
  rw [← written_access accesses]
  cases op with
  | apRead addr =>
    cases accesses
    obtain ⟨event, made, request⟩ := events_own bench flush (.read true (addr &&& 0xc))
      ⟨.apRead addr, count, elided⟩ flush.pending.toList
    exact ⟨kept.apRead addr elided, event, (events_still _ (.run apIdleCycles) (fun _ => rfl) none).trans made, request⟩
  | apWrite addr data =>
    cases accesses
    obtain ⟨answered, event, made, request⟩ := kept.after_drain (.write true (addr &&& 0xc) data)
      (fun _ read => by cases read) ⟨.apWrite addr data, count, elided⟩ rfl
    exact ⟨answered.still (.run apIdleCycles) (fun _ => rfl) none, event,
      (events_still _ (.run apIdleCycles) (fun _ => rfl) none).trans made, request⟩
  | dpRead addr =>
    cases accesses
    refine ⟨kept.dpRead addr elided, ?_⟩
    unfold Flush.issue
    dsimp only
    split
    · exact events_own bench flush (.read false (addr &&& 0xc)) ⟨.dpRead addr, count, elided⟩ (flush.pending.toList ++ [count])
    · exact events_own bench flush (.read false (addr &&& 0xc)) ⟨.dpRead addr, count, elided⟩ [count]
  | dpWrite addr data =>
    cases accesses
    exact kept.after_drain _ (fun _ read => by cases read) _ rfl
  | _ => cases accesses

end Issue

/-! ### Batches that leave SELECT to the driver -/

def leavesSelect (version : Version) : Op → Bool
  | .dpWrite addr _ =>
    addr &&& 0xc != selectReg && !(version.adi6 && addr &&& 0xc == select1Reg &&& 0xc && addr / 16 % 16 == 5)
  | _ => true

/-- SELECT and SELECT1 of the hardware hold what is cached. -/
structure Coherent (flush : Flush) (selection : Selection) : Prop where
  select : selection.select = flush.select
  select1 : ∀ value, flush.select1 = some value → selection.select1 % 2 ^ 32 = value % 2 ^ 32

section Coherence
variable {version : Version} {start : Selection} {flush : Flush}

/-- The flush is coherent with the registers after its posts. -/
abbrev Flush.InStep (flush : Flush) (version : Version) (start : Selection) : Prop :=
  Coherent flush (flush.selection version start)

theorem selectFor_lt (cur : Nat) {op : Op} {access : Access} (accesses : op.access = some access) :
    selectFor version cur op < 2 ^ 32 := by
  have ap (addr : Nat) : apSelect version addr cur < 2 ^ 32 := by
    unfold apSelect
    split
    · exact adi6_select_lt cur addr
    · exact ap_select_lt cur addr
  cases op <;> first | exact ap _ | exact dp_select_lt cur _ | cases accesses

theorem Coherent.drain (coherent : flush.InStep version start) : flush.drainPending.InStep version start where
  select := by rw [selection_drain, drain_select, coherent.select]
  select1 := by
    rw [selection_drain, drain_select1]
    exact coherent.select1

theorem Coherent.post (coherent : flush.InStep version start) (wire : Wire)
    (same : afterWire version (flush.selection version start) wire = flush.selection version start) (own : Option Own)
    (futures : List Nat) : (flush.post wire own futures).InStep version start where
  select := by
    rw [selection_post, same]
    exact coherent.select
  select1 := by
    rw [selection_post, same]
    exact coherent.select1

theorem Coherent.issue (coherent : flush.InStep version start) {op : Op} {access : Access} (accesses : op.access = some access)
    (same : (flush.selection version start).after version access = flush.selection version start) (count : Nat) (elided : Bool) :
    (flush.issue op count elided).InStep version start := by
  have same' := same
  rw [← selection_drain] at same'
  cases op with
  | apRead addr =>
    cases accesses
    have posted := (coherent.post (.access (.read true (addr &&& 0xc))) same (some ⟨.apRead addr, count, elided⟩)
      flush.pending.toList).post (.run apIdleCycles) rfl none []
    exact ⟨posted.select, posted.select1⟩
  | apWrite addr data =>
    cases accesses
    exact (coherent.drain.post (.access (.write true (addr &&& 0xc) data)) same' _ [count]).post (.run apIdleCycles) rfl none []
  | dpRead addr =>
    cases accesses
    unfold Flush.issue
    dsimp only
    split
    · have posted := coherent.post (.access (.read false (addr &&& 0xc))) same (some ⟨.dpRead addr, count, elided⟩)
        (flush.pending.toList ++ [count])
      exact ⟨posted.select, posted.select1⟩
    · exact coherent.post (.access (.read false (addr &&& 0xc))) same _ [count]
  | dpWrite addr data =>
    cases accesses
    exact coherent.drain.post (.access (.write false (addr &&& 0xc) data)) same' _ [count]
  | _ => cases accesses

theorem Coherent.writeSelect (coherent : flush.InStep version start) {value : Nat} (small : value < 2 ^ 32) :
    (flush.writeSelect value).InStep version start := by
  unfold Flush.writeSelect
  split
  · constructor
    · exact (congrArg Selection.select (selection_post version start flush.drainPending _ none [])).trans
        (Nat.mod_eq_of_lt small)
    · intro upper cached
      refine (congrArg (fun selection => selection.select1 % 2 ^ 32)
        (selection_post version start flush.drainPending _ none [])).trans ?_
      exact coherent.drain.select1 upper cached
  · exact coherent

theorem Coherent.writeSelect1 (coherent : flush.InStep version start) (op : Op) :
    (flush.writeSelect1 (selectFor1 version op)).InStep version start := by
  cases chosen : selectFor1 version op with
  | none => exact coherent
  | some value =>
    have adi6 : version.adi6 = true := by
      have wide : version.usesSelect1 = true := by
        cases op with
        | apRead addr => by_contra other; simp only [selectFor1, if_neg other] at chosen; cases chosen
        | apWrite addr data => by_contra other; simp only [selectFor1, if_neg other] at chosen; cases chosen
        | _ => cases chosen
      exact (Bool.and_eq_true_iff.mp wide).1
    unfold Flush.writeSelect1
    dsimp only
    split
    · obtain ⟨opened, same⟩ : ∃ opened, opened = flush.drainPending.writeSelect (dpSelect select1Reg flush.select) := ⟨_, rfl⟩
      have banked : opened.InStep version start := same ▸ coherent.drain.writeSelect (dp_select_lt flush.select select1Reg)
      have bank : (opened.selection version start).select % 16 = 5 := by
        rw [banked.select, same, writeSelect_select]
        exact dp_select_mod flush.select select1Reg
      have set (selection : Selection) (five : selection.select % 16 = 5) :
          afterWire version selection (.access (.write false (select1Reg &&& 0xc) value)) =
            { selection with select1 := value % 2 ^ 32 } := by
        unfold afterWire Selection.after
        dsimp only
        rw [if_neg (by decide), if_pos ⟨by decide, adi6, five⟩]
      have reached := (selection_post version start opened (.access (.write false (select1Reg &&& 0xc) value)) none []).trans
        (set _ bank)
      rw [dpSelect] at same
      rw [← same]
      constructor
      · exact (congrArg Selection.select reached).trans banked.select
      · intro upper cached
        cases cached
        exact (congrArg (fun selection => selection.select1 % 2 ^ 32) reached).trans (Nat.mod_mod value _)
    · exact coherent

theorem Coherent.choose (coherent : flush.InStep version start) {op : Op} {access : Access}
    (accesses : op.access = some access) : (flush.choose version op).InStep version start :=
  (coherent.writeSelect1 op).writeSelect (selectFor_lt _ accesses)

theorem Coherent.register {selection : Selection} (coherent : Coherent flush selection) (access : Access) :
    access.register version selection = access.register version ⟨flush.select, flush.select1.getD selection.select1⟩ := by
  have ap (addr : Nat) : version.apRegister selection addr =
      version.apRegister ⟨flush.select, flush.select1.getD selection.select1⟩ addr := by
    unfold Version.apRegister
    dsimp only
    have upper : selection.select1 % 2 ^ 32 = flush.select1.getD selection.select1 % 2 ^ 32 := by
      cases cached : flush.select1 with
      | none => rfl
      | some value => exact coherent.select1 value cached
    rw [coherent.select, upper]
  have dp (read : Bool) (addr : Nat) :
      version.dpRegister selection.select read addr = version.dpRegister flush.select read addr := by rw [coherent.select]
  cases access with
  | read isAp addr => cases isAp <;> first | exact ap _ | exact dp true _
  | write isAp addr data => cases isAp <;> first | exact ap _ | exact dp false _

theorem Coherent.after {op : Op} {access : Access} (coherent : flush.InStep version start) (accesses : op.access = some access)
    (plain : leavesSelect version op) :
    ((flush.choose version op).selection version start).after version access = (flush.choose version op).selection version start := by
  have chosen := (coherent.choose accesses).select
  cases op with
  | dpWrite addr data =>
    cases accesses
    have select : (flush.choose version (.dpWrite addr data)).select = dpSelect addr flush.select := writeSelect_select _ _
    simp only [leavesSelect, Bool.and_eq_true, bne_iff_ne, ne_eq, Bool.not_eq_true', Bool.and_eq_false_iff, beq_eq_false_iff_ne] at plain
    unfold Selection.after
    dsimp only
    rw [and_offset, if_neg plain.1, if_neg]
    rintro ⟨offset, adi6, five⟩
    obtain (adi5 | other) | elsewhere := plain.2
    · rw [adi6] at adi5
      cases adi5
    · exact other offset
    · rw [chosen, select] at five
      exact elsewhere ((dp_select_mod flush.select addr).symm.trans five)
  | _ => cases accesses <;> rfl

end Coherence

/-! ### A batch -/

section Batch
variable {State : Type} {bench : Bench State} {flush : Flush} {count : Nat} {made : List (Nat × Request)}

theorem done_settle {future other : Nat} (differs : other ≠ future) (outcome : Outcome) :
    (flush.settle future outcome).done bench other = flush.done bench other := by
  unfold Flush.done Flush.outcome Flush.settle
  rw [List.find?_append, List.find?_cons_of_neg (by simpa using Ne.symm differs), List.find?_nil, Option.or_none]
  rfl

theorem Kept.settle (kept : Kept bench count flush) (outcome : Outcome) :
    Kept bench (count + 1) (flush.settle count outcome) where
  inRange := kept.inRange
  unseen future late := by
    rw [done_settle (by omega)]
    exact kept.unseen future (Nat.le_of_succ_le late)
  waiting future held := by
    obtain ⟨early, open'⟩ := kept.waiting future held
    rw [done_settle (Nat.ne_of_lt early)]
    exact ⟨Nat.lt_succ_of_lt early, open'⟩
  told entry member := by
    obtain ⟨early, told⟩ := kept.told entry member
    rw [done_settle (Nat.ne_of_lt early)]
    exact ⟨Nat.lt_succ_of_lt early, told⟩

theorem lower_access (flush : Flush) {op : Op} {access : Access} (accesses : op.access = some access) (version : Version)
    (count : Nat) :
    flush.lower version op count =
      (flush.choose version op).issue op count ((flush.choose version op).elided flush) := by
  cases op <;> first | rfl | cases accesses

/-- The operations before `count` are on the wire, and they made these requests. -/
structure Lowered (bench : Bench State) (count : Nat) (made : List (Nat × Request)) (flush : Flush) : Prop where
  kept : Kept bench count flush
  performed : (flush.events bench).map (fun entry => (entry.1.future, entry.2.request)) = made
  coherent : flush.InStep bench.version bench.port.selection

theorem Lowered.access (lowered : Lowered bench count made flush) {op : Op} {access : Access}
    (accesses : op.access = some access) (plain : leavesSelect bench.version op) :
    Lowered bench (count + 1) (made ++ ((op.request bench.version).map fun request => (count, request)).toList)
      (flush.lower bench.version op count) := by
  have chosen := lowered.coherent.choose accesses
  obtain ⟨kept, event, events, request⟩ :=
    (lowered.kept.choose bench.version op).issue accesses ((flush.choose bench.version op).elided flush)
  rw [chosen.register] at request
  rw [lower_access flush accesses]
  refine ⟨kept, ?_, chosen.issue accesses (lowered.coherent.after accesses plain) _ _⟩
  rw [events, List.map_append, events_choose, lowered.performed, Op.request,
    chosen_register flush accesses (Flush.selection bench.version bench.port.selection _).select1]
  exact congrArg (fun request => made ++ [(count, request)]) request

theorem Lowered.step (lowered : Lowered bench count made flush) {op : Op} (plain : leavesSelect bench.version op) :
    Lowered bench (count + 1) (made ++ ((op.request bench.version).map fun request => (count, request)).toList)
      (flush.lower bench.version op count) := by
  cases op with
  | run cycles =>
    have nothing (port : SwPort State) : port.perform bench.version bench.device (.run cycles) = (⟨none, none⟩, port) := rfl
    have still := lowered.coherent.post (.run cycles) rfl (some ⟨.run cycles, count, true⟩) []
    refine ⟨(lowered.kept.still _ nothing _).settle _, ?_, still.select, still.select1⟩
    refine (congrArg (List.map _) (events_still flush _ nothing _)).trans ?_
    exact lowered.performed.trans (List.append_nil made).symm
  | abort what =>
    obtain ⟨kept, event, events, request⟩ := lowered.kept.after_drain (.write false abortReg what)
      (fun _ read => by cases read) ⟨.abort what, count, true⟩ rfl
    refine ⟨kept, ?_, lowered.coherent.drain.post (.access (.write false abortReg what)) rfl _ [count]⟩
    refine (congrArg (List.map _) events).trans ?_
    rw [List.map_append, lowered.performed]
    exact congrArg (fun request => made ++ [(count, request)]) request
  | other typeName =>
    exact ⟨lowered.kept.settle _, lowered.performed.trans (List.append_nil made).symm, lowered.coherent.select,
      lowered.coherent.select1⟩
  | _ => exact lowered.access rfl plain

theorem Lowered.run {ops : List Op} (lowered : Lowered bench count made flush)
    (plain : ∀ op ∈ ops, leavesSelect bench.version op) :
    Lowered bench (count + ops.length) (made ++ requests bench.version count ops)
      (Flush.lowerFrom bench.version flush count ops) := by
  induction ops generalizing flush count made with
  | nil => rwa [requests, List.append_nil]
  | cons op ops ih =>
    have all := ih (lowered.step (plain op List.mem_cons_self)) fun later member => plain later (List.mem_cons_of_mem _ member)
    rw [List.append_assoc, Nat.add_right_comm] at all
    exact all

theorem lowered_begin (self : SwDp) (currentTarget : Option Nat)
    (coherent : Coherent (self.begin currentTarget) bench.port.selection) :
    Lowered bench 0 [] (self.begin currentTarget) := by
  have fresh (select : Nat) (select1 : Option Nat) : Kept bench 0 ⟨select, select1, none, [], [], []⟩ :=
    { inRange := fun entry missing => by cases missing
      unseen := fun _ _ => rfl
      waiting := fun future missing => by cases missing
      told := fun entry missing => by cases missing }
  have selected (select : Nat) (select1 : Option Nat) (target : Nat) :
      Kept bench 0 ⟨select, select1, none, [⟨.targetSelect target, none⟩], [], []⟩ :=
    (fresh select select1).still (.targetSelect target) (fun _ => rfl) none
  unfold begin at coherent ⊢
  split at coherent
  · exact ⟨fresh .., rfl, coherent⟩
  · by_cases other : currentTarget ≠ some ‹Nat›
    · rw [if_pos other] at coherent ⊢
      exact ⟨selected .., rfl, coherent⟩
    · rw [if_neg other] at coherent ⊢
      exact ⟨selected .., rfl, coherent⟩

/-- Every access of a batch is made once, in order, at its own register, its future gets what it
returned, and SELECT is left as it is cached. -/
theorem flushOps_attributed (self : SwDp) (device : Device State) (port : SwPort State) (currentTarget : Option Nat)
    (batch : List Op) (coherent : Coherent (self.begin currentTarget) port.selection)
    (plain : ∀ op ∈ batch, leavesSelect self.version op) :
    Attributed ⟨self.version, device, port⟩ (self.flushOps currentTarget batch) batch ∧
      Coherent (self.flushOps currentTarget batch)
        ((self.flushOps currentTarget batch).reached ⟨self.version, device, port⟩).selection := by
  have lowered := (@lowered_begin _ ⟨self.version, device, port⟩ self currentTarget coherent).run plain
  rw [List.nil_append] at lowered
  refine ⟨⟨?_, ?_⟩, ?_⟩
  · unfold flushOps
    rw [events_drain]
    exact lowered.performed
  · intro entry member
    obtain ⟨-, told | ⟨waits, -⟩⟩ := lowered.kept.drain.told entry member
    · exact told
    · rw [drained] at waits
      cases waits
  · rw [reached_selection]
    exact lowered.coherent.drain

/-! ### A run of batches -/

/-- The batches of a run with the ports that they find and what is posted for them. -/
def flushes (device : Device State) (self : SwDp) (currentTarget : Option Nat) (port : SwPort State) :
    List (List Op) → List (SwPort State × Flush × List Op)
  | [] => []
  | batch :: batches =>
    let flush := self.flushOps currentTarget batch
    (port, flush, batch) ::
      flushes device (self.cached flush) (self.targetsel.or currentTarget) (flush.reached ⟨self.version, device, port⟩) batches

/-- The batch after another finds its target selected and SELECT as cached. -/
theorem begin_cached (self : SwDp) (flush : Flush) (currentTarget : Option Nat) {selection : Selection}
    (coherent : Coherent flush selection) :
    Coherent ((self.cached flush).begin (self.targetsel.or currentTarget)) selection := by
  unfold begin cached
  dsimp only
  split
  · exact ⟨coherent.select, coherent.select1⟩
  · rename_i target selected
    rw [selected, Option.some_or, if_neg (not_not.mpr rfl)]
    exact ⟨coherent.select, coherent.select1⟩

/-- From a port whose SELECT is as cached, every batch of a run is attributed. -/
theorem run_attributed (device : Device State) (self : SwDp) (currentTarget : Option Nat) (port : SwPort State)
    (batches : List (List Op)) (coherent : Coherent (self.begin currentTarget) port.selection)
    (plain : ∀ batch ∈ batches, ∀ op ∈ batch, leavesSelect self.version op) :
    ∀ entry ∈ flushes device self currentTarget port batches,
      Attributed ⟨self.version, device, entry.1⟩ entry.2.1 entry.2.2 := by
  induction batches generalizing self currentTarget port with
  | nil =>
    intro entry missing
    cases missing
  | cons batch batches ih =>
    obtain ⟨attributed, after⟩ :=
      flushOps_attributed self device port currentTarget batch coherent (plain batch List.mem_cons_self)
    intro entry member
    obtain rfl | later := List.mem_cons.mp member
    · exact attributed
    · exact ih (self.cached _) _ _ (begin_cached self _ currentTarget after)
        (fun other member => plain other (List.mem_cons_of_mem _ member)) entry later

/-- Registers that count the reads. -/
def counting : Device Nat := ⟨fun _ count => (count, count + 1), fun _ data _ => data, fun _ => 0⟩

theorem reads_attributed :
    let runs := flushes counting ⟨⟨false, 0⟩, none, 0, none⟩ none ⟨⟨0, 0⟩, none, 0, 7⟩
      [[.apRead 0xc, .apRead 0x1000004, .dpRead ctrlStat], [.apRead 0x10000fc]]
    runs.length = 2 ∧ ∀ entry ∈ runs, Attributed ⟨⟨false, 0⟩, counting, entry.1⟩ entry.2.1 entry.2.2 :=
  ⟨rfl, run_attributed _ ⟨⟨false, 0⟩, none, 0, none⟩ none ⟨⟨0, 0⟩, none, 0, 7⟩ _ ⟨rfl, nofun⟩ (by decide)⟩

end Batch
end SwDp
end Acrobe.Arm.Dp
