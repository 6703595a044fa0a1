import Acrobe.Arm.SwDp

/-!
# Posted reads

Every future gets the data of its own access. The access is made at the register it names as long as
SELECT and SELECT1 hold what the driver takes them to hold, which a DP write of the user may change.
-/

namespace Acrobe.Arm.Dp

namespace SwDp
variable {State : Type}

def afterWire (version : Version) (selection : Selection) : Wire → Selection
  | .access access => selection.after version access
  | _ => selection

def Flush.selection (version : Version) (start : Selection) (flush : Flush) : Selection :=
  flush.posts.foldl (fun selection post => afterWire version selection post.wire) start

/-! ### The property -/

/-- The hardware before a batch. -/
structure Bench (State : Type) where
  version : Version
  device : Device State
  port : SwPort State

namespace Flush

def replies (flush : Flush) (bench : Bench State) : List Reply :=
  (bench.port.exec bench.version bench.device flush.posts).1

def reached (flush : Flush) (bench : Bench State) : SwPort State :=
  (bench.port.exec bench.version bench.device flush.posts).2

def events (flush : Flush) (bench : Bench State) : List (Own × Event) :=
  owned (flush.posts.map Post.own) ((flush.replies bench).map Reply.event)

def done (flush : Flush) (bench : Bench State) (future : Nat) : Option Outcome :=
  flush.outcome (flush.replies bench) future

end Flush

/-- The accesses made for the operations are those of the batch, in order, at the registers that they
name, and every future gets what its own access returned. -/
structure Attributed (bench : Bench State) (flush : Flush) (batch : List Op) : Prop where
  performed : (flush.events bench).map (fun entry => (entry.1.future, entry.2.request)) =
    requests bench.version 0 batch
  resolved : ∀ entry ∈ flush.events bench, flush.done bench entry.1.future = some (.result entry.2.value)

/-! ### Posts and replies -/

section Replies
variable (version : Version) (device : Device State)

theorem length_exec (port : SwPort State) (posts : List Post) :
    (port.exec version device posts).1.length = posts.length := by
  induction posts generalizing port with
  | nil => rfl
  | cons post posts ih => exact congrArg Nat.succ (ih _)

theorem exec_concat (port : SwPort State) (posts : List Post) (post : Post) :
    port.exec version device (posts ++ [post]) =
      ((port.exec version device posts).1 ++
        [((port.exec version device posts).2.perform version device post.wire).1],
        ((port.exec version device posts).2.perform version device post.wire).2) := by
  induction posts generalizing port with
  | nil => rfl
  | cons first posts ih =>
    rw [List.cons_append, SwPort.exec, ih]
    rfl

theorem perform_selection (port : SwPort State) (wire : Wire) :
    (port.perform version device wire).2.selection = afterWire version port.selection wire := by
  cases wire with
  | run cycles => rfl
  | targetSelect target => rfl
  | access access =>
    cases access with
    | write ap addr data => rfl
    | read ap addr =>
      cases ap with
      | true => rfl
      | false =>
        rw [SwPort.perform, SwPort.access]
        dsimp only
        split
        · rfl
        · split
          · rfl
          · rfl

theorem exec_selection (port : SwPort State) (flush : Flush) :
    (port.exec version device flush.posts).2.selection = flush.selection version port.selection := by
  rw [Flush.selection]
  induction flush.posts generalizing port with
  | nil => rfl
  | cons post posts ih => rw [SwPort.exec, List.foldl_cons, ih, perform_selection]

end Replies

/-! ### Bookkeeping -/

section Bookkeeping
variable {bench : Bench State}

def Flush.reply (flush : Flush) (bench : Bench State) (wire : Wire) : Reply :=
  ((flush.reached bench).perform bench.version bench.device wire).1

theorem replies_post (flush : Flush) (wire : Wire) (own : Option Own) (futures : List Nat) :
    (flush.post wire own futures).replies bench = flush.replies bench ++ [flush.reply bench wire] := by
  rw [Flush.replies, Flush.post, exec_concat]
  rfl

theorem reached_post (flush : Flush) (wire : Wire) (own : Option Own) (futures : List Nat) :
    (flush.post wire own futures).reached bench =
      ((flush.reached bench).perform bench.version bench.device wire).2 := by
  rw [Flush.reached, Flush.post, exec_concat]
  rfl

theorem done_post {flush : Flush} (inRange : Ledger.InRange flush.records flush.posts.length) (wire : Wire)
    (own : Option Own) (futures : List Nat) (future : Nat) :
    (flush.post wire own futures).done bench future =
      (flush.done bench future).or
        (if futures.contains future then some (.result (flush.reply bench wire).data) else none) := by
  have count : flush.posts.length = (flush.replies bench).length := (length_exec ..).symm
  rw [count] at inRange
  rw [Flush.done, replies_post, Flush.outcome, Flush.done, Flush.outcome, Flush.post, count,
    Ledger.lookup_bind inRange, Option.map_or, Option.or_assoc]
  congr 2
  split
  · rfl
  · rfl

theorem events_post (flush : Flush) (wire : Wire) (own : Option Own) (futures : List Nat) :
    (flush.post wire own futures).events bench =
      flush.events bench ++
        (own.bind fun own => (flush.reply bench wire).event.map fun event => (own, event)).toList := by
  have count : (flush.posts.map Post.own).length = ((flush.replies bench).map Reply.event).length := by
    rw [List.length_map, List.length_map]
    exact (length_exec ..).symm
  rw [Flush.events, replies_post, Flush.post, List.map_append, List.map_append, owned, List.zip_append count,
    List.filterMap_append]
  congr 1

/-- A future is settled by its first record; the last AP read may still wait for its data, which are
then in the posted result. Futures from `count` on have not been seen. -/
structure Kept (bench : Bench State) (count : Nat) (flush : Flush) : Prop where
  inRange : Ledger.InRange flush.records flush.posts.length
  unseen : ∀ future, count ≤ future → flush.done bench future = none
  waiting : ∀ future, flush.pending = some future → future < count ∧ flush.done bench future = none
  told : ∀ entry ∈ flush.events bench, entry.1.future < count ∧
    (flush.done bench entry.1.future = some (.result entry.2.value) ∨
      flush.pending = some entry.1.future ∧ ∃ value, entry.2.value = some value ∧
        (flush.reached bench).posted = some value)

theorem Kept.post {flush : Flush} {count after : Nat} (kept : Kept bench count flush) (grown : count ≤ after)
    {wire : Wire} {own : Option Own} {futures : List Nat} {pending : Option Nat}
    (seen : ∀ future ∈ futures, future < after)
    (waits : ∀ future, pending = some future → future < after ∧ future ∉ futures ∧ flush.done bench future = none)
    (answered : ∀ future value, flush.pending = some future → (flush.reached bench).posted = some value →
      future ∈ futures ∧ (flush.reply bench wire).data = some value ∨
        pending = some future ∧
          ((flush.reached bench).perform bench.version bench.device wire).2.posted = some value)
    (new : ∀ self event, own = some self → (flush.reply bench wire).event = some event → self.future < after ∧
      (flush.done bench self.future = none ∧ self.future ∈ futures ∧ (flush.reply bench wire).data = event.value ∨
        pending = some self.future ∧ ∃ value, event.value = some value ∧
          ((flush.reached bench).perform bench.version bench.device wire).2.posted = some value)) :
    Kept bench after { flush.post wire own futures with pending := pending } where
  inRange := by
    change Ledger.InRange (flush.records ++ _) (flush.posts ++ _).length
    rw [List.length_append]
    exact Ledger.inRange_bind kept.inRange futures
  unseen future late := by
    have absent : futures.contains future = false := by
      apply Bool.eq_false_iff.mpr
      intro bound
      have early := seen future (List.contains_iff_mem.mp bound)
      omega
    change (flush.post wire own futures).done bench future = none
    rw [done_post kept.inRange, kept.unseen future (Nat.le_trans grown late), absent]
    rfl
  waiting future held := by
    obtain ⟨early, absent, open'⟩ := waits future held
    have missing : futures.contains future = false :=
      Bool.eq_false_iff.mpr fun bound => absent (List.contains_iff_mem.mp bound)
    refine ⟨early, ?_⟩
    change (flush.post wire own futures).done bench future = none
    rw [done_post kept.inRange, open', missing]
    rfl
  told entry member := by
    change entry ∈ (flush.post wire own futures).events bench at member
    change _ ∧ ((flush.post wire own futures).done bench _ = _ ∨ pending = _ ∧ ∃ value, _ ∧
      ((flush.post wire own futures).reached bench).posted = _)
    rw [events_post, List.mem_append] at member
    rw [done_post kept.inRange, reached_post]
    obtain old | fresh := member
    · obtain ⟨early, settled | ⟨held, value, told, posted⟩⟩ := kept.told entry old
      · refine ⟨Nat.lt_of_lt_of_le early grown, .inl ?_⟩
        rw [settled]
        rfl
      · refine ⟨Nat.lt_of_lt_of_le early grown, ?_⟩
        obtain ⟨bound, data⟩ | ⟨still, stored⟩ := answered entry.1.future value held posted
        · left
          rw [(kept.waiting _ held).2, List.contains_iff_mem.mpr bound, data, told]
          rfl
        · exact .inr ⟨still, value, told, stored⟩
    · rw [Option.mem_toList, Option.bind_eq_some_iff] at fresh
      obtain ⟨self, isOwn, made⟩ := fresh
      rw [Option.map_eq_some_iff] at made
      obtain ⟨event, happened, rfl⟩ := made
      obtain ⟨early, ⟨open', bound, data⟩ | waits⟩ := new self event isOwn happened
      · refine ⟨early, .inl ?_⟩
        rw [open', List.contains_iff_mem.mpr bound, data]
        rfl
      · exact ⟨early, .inr waits⟩

variable {flush : Flush} {count : Nat}

theorem Kept.recache (kept : Kept bench count flush) (select : Nat) (select1 : Option Nat) :
    Kept bench count { flush with select := select, select1 := select1 } :=
  ⟨kept.inRange, kept.unseen, kept.waiting, kept.told⟩

theorem Kept.quiet (kept : Kept bench count flush) (idle : flush.pending = none)
    (wire : Wire) : Kept bench count (flush.post wire none []) := by
  change Kept bench count { flush.post wire none [] with pending := flush.pending }
  rw [idle]
  refine kept.post (Nat.le_refl _) ?_ ?_ ?_ ?_
  · intro future bound
    cases bound
  · intro future missing
    cases missing
  · intro future value waits
    rw [idle] at waits
    cases waits
  · intro self event missing
    cases missing

theorem drained (flush : Flush) : flush.drainPending.pending = none := by
  rw [Flush.drainPending]
  split
  · assumption
  · rfl

theorem Kept.drain (kept : Kept bench count flush) :
    Kept bench count flush.drainPending := by
  rw [Flush.drainPending]
  split
  · exact kept
  · rename_i future held
    refine kept.post (Nat.le_refl _) ?_ ?_ ?_ ?_
    · intro other bound
      rw [List.mem_singleton.mp bound]
      exact (kept.waiting future held).1
    · intro other missing
      cases missing
    · intro other value waits posted
      rw [held] at waits
      cases waits
      refine .inl ⟨List.mem_singleton_self _, ?_⟩
      change some ((flush.reached bench).buffered bench.device) = some value
      rw [SwPort.buffered, posted]
      rfl
    · intro self event missing
      cases missing

theorem events_drain (flush : Flush) : flush.drainPending.events bench = flush.events bench := by
  rw [Flush.drainPending]
  split
  · rfl
  · rename_i future held
    exact (events_post flush _ none [future]).trans (List.append_nil _)

end Bookkeeping

/-! ### Choosing the register -/

section Choosing
variable {bench : Bench State} {flush : Flush} {count : Nat}

theorem Kept.writeSelect (kept : Kept bench count flush) (value : Nat) :
    Kept bench count (flush.writeSelect value) := by
  rw [Flush.writeSelect]
  split
  · exact (kept.drain.quiet (drained flush) _).recache value _
  · exact kept

theorem Kept.writeSelect1 (kept : Kept bench count flush) (value : Option Nat) :
    Kept bench count (flush.writeSelect1 value) := by
  cases value with
  | none => exact kept
  | some value =>
    rw [Flush.writeSelect1]
    split
    · have idle : (flush.drainPending.writeSelect
          ((flush.select &&& 0xFFFFFFF0) ||| ((select1Reg >>> 4) &&& 0xf))).pending = none := by
        rw [Flush.writeSelect]
        split
        · exact drained _
        · exact drained flush
      exact ((kept.drain.writeSelect _).quiet idle _).recache _ _
    · exact kept

theorem Kept.choose (kept : Kept bench count flush) (version : Version) (op : Op) :
    Kept bench count (flush.choose version op) := (kept.writeSelect1 _).writeSelect _

theorem events_writeSelect (flush : Flush) (value : Nat) : (flush.writeSelect value).events bench = flush.events bench := by
  rw [Flush.writeSelect]
  split
  · calc
      _ = (flush.drainPending.post (.access (.write false selectReg value)) none []).events bench := rfl
      _ = flush.drainPending.events bench ++ [] := events_post ..
      _ = flush.events bench := by rw [List.append_nil, events_drain]
  · rfl

theorem events_writeSelect1 (flush : Flush) (value : Option Nat) :
    (flush.writeSelect1 value).events bench = flush.events bench := by
  cases value with
  | none => rfl
  | some value =>
    rw [Flush.writeSelect1]
    split
    · refine (events_post _ _ none []).trans ?_
      rw [Option.bind_none, Option.toList_none, List.append_nil, events_writeSelect, events_drain]
    · rfl

theorem events_choose (flush : Flush) (version : Version) (op : Op) :
    (flush.choose version op).events bench = flush.events bench := by
  rw [Flush.choose, events_writeSelect, events_writeSelect1]

/-! The registers after the choice depend on the cached values only. -/

variable (version : Version) (start : Selection)

theorem selection_post (flush : Flush) (wire : Wire) (own : Option Own) (futures : List Nat) :
    (flush.post wire own futures).selection version start = afterWire version (flush.selection version start) wire := by
  rw [Flush.selection, Flush.selection, Flush.post, List.foldl_append]
  rfl

theorem selection_drain (flush : Flush) : flush.drainPending.selection version start = flush.selection version start := by
  rw [Flush.drainPending]
  split
  · rfl
  · rename_i future held
    exact selection_post version start flush _ none [future]

end Choosing

end SwDp

end Acrobe.Arm.Dp
