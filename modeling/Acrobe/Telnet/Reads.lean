import Acrobe.Lib.EventFlag
import Acrobe.Lib.LittleEndian
import Acrobe.Lib.Transition

/-!
# Concurrent reads

Every read of a `TelnetPipe` runs as a task of its own. The tasks share the buffer of user data and the event
that the reader sets behind every chunk.
-/

namespace Acrobe.Telnet
open LittleEndian Lib

/-! ### One read -/

inductive Reading where
  /-- With the bytes that its task has taken so far. -/
  | pending (size : Option Int) (out : Bytes)
  | done (size : Option Int) (data : Bytes)
  | closed (size : Option Int)

def Reading.held : Reading → Bytes
  | .pending _ out => out
  | .done _ data => data
  | .closed _ => []

inductive Outcome where
  | result (data : Bytes)
  | eofError
  | waits (out : Bytes)
  deriving DecidableEq

/-- The loop of a read of a given size, until it ends or waits. -/
def fill (eof : Bool) (size : Int) (out rxBuf : Bytes) : Outcome × Bytes :=
  if out.length < size then
    match rxBuf with
    | [] => (if eof then .eofError else .waits out, [])
    | byte :: rest =>
      let take := min (size - out.length).toNat (rest.length + 1)
      fill eof size (out ++ (byte :: rest).take take) ((byte :: rest).drop take)
  else (.result out, rxBuf)
  termination_by (size - out.length).toNat
  decreasing_by
    simp only [List.length_append, List.length_take, List.length_cons]
    omega

def deliverBytes (eof : Bool) (size : Option Int) (out rxBuf : Bytes) : Outcome × Bytes :=
  match size with
  | none => if rxBuf = [] then (if eof then .eofError else .waits out, []) else (.result rxBuf, [])
  | some size => fill eof size out rxBuf

/-! ### The pipe -/

structure TelnetPipe where
  rxBuf : Bytes
  rxEvent : EventFlag Nat
  eof : Bool
  /-- In the order in which they were posted. -/
  reads : List Reading
  /-- How many of them have a task. -/
  spawned : Nat
  /-- What the reader has put in the buffer so far. -/
  received : Bytes

structure Task where
  index : Nat
  size : Option Int
  out : Bytes

inductive Act where
  | post (size : Option Int)
  | spawn
  /-- A chunk, with the user data in it, if any. -/
  | arrive (data : Bytes)
  | close
  | run

namespace TelnetPipe

def start : TelnetPipe :=
  { rxBuf := [], rxEvent := .start, eof := false, reads := [], spawned := 0, received := [] }

/-- The task that the event loop resumes. -/
def next (self : TelnetPipe) : Option Task :=
  match self.rxEvent.ready with
  | [] => none
  | index :: _ =>
    match self.reads[index]? with
    | some (.pending size out) => some { index, size, out }
    | _ => none

/-- One step of `read_task`. -/
def readTask (self : TelnetPipe) (task : Task) : TelnetPipe :=
  let rxEvent := self.rxEvent.resumed
  match deliverBytes self.eof task.size task.out self.rxBuf with
  | (.result data, rxBuf) => { self with rxBuf, rxEvent, reads := self.reads.set task.index (.done task.size data) }
  | (.eofError, rxBuf) => { self with rxBuf, rxEvent, reads := self.reads.set task.index (.closed task.size) }
  | (.waits out, rxBuf) =>
    { self with
      rxBuf, rxEvent := rxEvent.clearWait task.index, reads := self.reads.set task.index (.pending task.size out) }

def step (self : TelnetPipe) : Act → Option TelnetPipe
  | .post size => some { self with reads := self.reads ++ [.pending size []] }
  | .spawn =>
    if self.spawned < self.reads.length then
      some { self with rxEvent := self.rxEvent.schedule self.spawned, spawned := self.spawned + 1 }
    else none
  | .arrive data =>
    if self.eof then none
    else some { self with
      rxBuf := self.rxBuf ++ data, received := self.received ++ data, rxEvent := self.rxEvent.set }
  | .close => if self.eof then none else some { self with eof := true, rxEvent := self.rxEvent.set }
  | .run => self.next.map self.readTask

end TelnetPipe

/-! ### What one read gets -/

/-- The read still takes bytes when there are any. -/
def Wants (size : Option Int) (out : Bytes) : Prop := ∀ bound ∈ size, (out.length : Int) < bound

/-- There are too few bytes for the read to end. -/
def Starved (size : Option Int) (out rxBuf : Bytes) : Prop :=
  match size with
  | none => rxBuf = []
  | some size => ((out ++ rxBuf).length : Int) < size

/-- A read holds no more than its size, and one that is done exactly that, or something. -/
def Reading.Exact : Reading → Prop
  | .pending none out => out = []
  | .pending (some size) out => out.length ≤ size.toNat
  | .done none data => data ≠ []
  | .done (some size) data => data.length = size.toNat
  | .closed _ => True

theorem fill_enough {eof : Bool} {size : Int} {out rxBuf : Bytes} (enough : size ≤ (out ++ rxBuf).length) :
    fill eof size out rxBuf =
      (.result (out ++ rxBuf.take (size - out.length).toNat), rxBuf.drop (size - out.length).toNat) := by
  rw [List.length_append] at enough
  induction out, rxBuf using fill.induct size with
  | case1 out wants => simp at enough; omega
  | case2 out wants byte rest take ih =>
    have taken : take = (size - out.length).toNat := by
      rw [List.length_cons] at enough
      omega
    have whole : ((out ++ (byte :: rest).take take).length : Int) = size := by
      rw [List.length_append, List.length_take, List.length_cons]
      omega
    rw [fill.eq_def, if_pos wants]
    change fill eof size (out ++ (byte :: rest).take take) ((byte :: rest).drop take) = _
    rw [fill.eq_def, if_neg (by omega), taken]
  | case3 out rxBuf full =>
    have none : (size - out.length).toNat = 0 := by omega
    rw [fill.eq_def, if_neg full, none, List.take_zero, List.drop_zero, List.append_nil]

theorem fill_short {eof : Bool} {size : Int} {out rxBuf : Bytes} (short : ((out ++ rxBuf).length : Int) < size) :
    fill eof size out rxBuf = (if eof then .eofError else .waits (out ++ rxBuf), []) := by
  rw [List.length_append] at short
  have wants : (out.length : Int) < size := by omega
  rw [fill.eq_def, if_pos wants]
  cases rxBuf with
  | nil => rw [List.append_nil]
  | cons byte rest =>
    have taken : min (size - out.length).toNat (rest.length + 1) = (byte :: rest).length := by
      rw [List.length_cons] at short ⊢
      omega
    dsimp only
    rw [taken, List.take_length, List.drop_length, fill.eq_def, if_pos]
    rw [List.length_append]
    exact_mod_cast short

theorem deliverBytes_cases {eof : Bool} {size : Option Int} {out rxBuf : Bytes}
    (exact : (Reading.pending size out).Exact) :
    (∃ front back, rxBuf = front ++ back ∧ (¬Wants size out → front = []) ∧
      deliverBytes eof size out rxBuf = (.result (out ++ front), back) ∧ (Reading.done size (out ++ front)).Exact) ∨
    (Starved size out rxBuf ∧ eof = true ∧ deliverBytes eof size out rxBuf = (.eofError, [])) ∨
    (Wants size out ∧ eof = false ∧ deliverBytes eof size out rxBuf = (.waits (out ++ rxBuf), []) ∧
      (Reading.pending size (out ++ rxBuf)).Exact) := by
  cases size with
  | none =>
    have empty : out = [] := exact
    subst empty
    by_cases nothing : rxBuf = []
    · subst nothing
      cases eof with
      | true => exact .inr (.inl ⟨rfl, rfl, rfl⟩)
      | false => exact .inr (.inr ⟨nofun, rfl, rfl, rfl⟩)
    · refine .inl ⟨rxBuf, [], (List.append_nil _).symm, fun idle => absurd nofun idle, ?_, nothing⟩
      exact if_neg nothing
  | some size =>
    have within : out.length ≤ size.toNat := exact
    by_cases enough : size ≤ (out ++ rxBuf).length
    · refine .inl ⟨_, _, (List.take_append_drop (size - out.length).toNat rxBuf).symm, ?_, fill_enough enough, ?_⟩
      · intro idle
        have full : size ≤ out.length := by
          by_contra less
          exact idle fun bound same => by cases same; omega
        rw [show (size - out.length).toNat = 0 by omega, List.take_zero]
      · change (out ++ rxBuf.take _).length = _
        rw [List.length_append] at enough ⊢
        rw [List.length_take]
        omega
    · have short : ((out ++ rxBuf).length : Int) < size := by omega
      rw [show deliverBytes eof (some size) out rxBuf = _ from fill_short short]
      cases eof with
      | true => exact .inr (.inl ⟨short, rfl, rfl⟩)
      | false =>
        rw [List.length_append] at short
        refine .inr (.inr ⟨fun bound same => ?_, rfl, rfl, ?_⟩)
        · cases same
          omega
        · change (out ++ rxBuf).length ≤ _
          rw [List.length_append]
          omega

namespace TelnetPipe

theorem next_eq_some {pipe : TelnetPipe} {task : Task} (next : pipe.next = some task) :
    (∃ rest, pipe.rxEvent.ready = task.index :: rest) ∧
      pipe.reads[task.index]? = some (.pending task.size task.out) := by
  unfold TelnetPipe.next at next
  split at next
  · cases next
  · split at next
    · cases next
      exact ⟨⟨_, ‹_›⟩, ‹_›⟩
    · cases next

/-! ### Every read is served -/

def PendingAt (reads : List Reading) (index : Nat) : Prop := ∃ size out, reads[index]? = some (.pending size out)

theorem pendingAt_append {reads : List Reading} {read : Reading} {index : Nat} (inside : index < reads.length) :
    PendingAt (reads ++ [read]) index ↔ PendingAt reads index := by
  unfold PendingAt
  rw [List.getElem?_append_left inside]

theorem pendingAt_set_ne {reads : List Reading} {read : Reading} {index other : Nat} (apart : index ≠ other) :
    PendingAt (reads.set index read) other ↔ PendingAt reads other := by
  unfold PendingAt
  rw [List.getElem?_set_ne apart]

/-- The tasks that have not ended are those of the pending reads, and none of them waits while there is something
to do. -/
structure Scheduled (pipe : TelnetPipe) : Prop where
  once : pipe.rxEvent.tasks.Nodup
  known : ∀ index, index ∈ pipe.rxEvent.tasks ↔ index < pipe.spawned ∧ PendingAt pipe.reads index
  posted : ∀ index, pipe.spawned ≤ index → index < pipe.reads.length → PendingAt pipe.reads index
  within : pipe.spawned ≤ pipe.reads.length
  idle : pipe.rxEvent.waiters ≠ [] → pipe.rxBuf = [] ∧ pipe.eof = false
  exact : ∀ read ∈ pipe.reads, read.Exact

theorem exact_set {reads : List Reading} (exact : ∀ read ∈ reads, read.Exact) {read : Reading} (fits : read.Exact)
    (index : Nat) : ∀ other ∈ reads.set index read, other.Exact := by
  intro other member
  rcases List.mem_or_eq_of_mem_set member with old | rfl
  · exact exact other old
  · exact fits

theorem scheduled_ended {pipe : TelnetPipe} {task : Task} {read : Reading} {rxBuf : Bytes} (scheduled : pipe.Scheduled)
    (next : pipe.next = some task) (ended : ∀ size out, read ≠ .pending size out) (fits : read.Exact)
    (emptied : pipe.rxBuf = [] → rxBuf = []) :
    { pipe with rxBuf, rxEvent := pipe.rxEvent.resumed, reads := pipe.reads.set task.index read }.Scheduled := by
  obtain ⟨⟨rest, ready⟩, at_⟩ := next_eq_some next
  have inside : task.index < pipe.reads.length := (List.getElem?_eq_some_iff.mp at_).1
  have tasks := EventFlag.tasks_resumed ready
  have once := scheduled.once
  rw [tasks, List.nodup_cons] at once
  have begun := ((scheduled.known task.index).mp (tasks ▸ List.mem_cons_self)).1
  refine ⟨once.2, ?_, ?_, ?_, ?_, exact_set scheduled.exact fits _⟩
  · intro index
    change index ∈ pipe.rxEvent.resumed.tasks ↔ index < pipe.spawned ∧ PendingAt (pipe.reads.set _ _) index
    by_cases same : task.index = index
    · subst same
      refine ⟨fun member => absurd member once.1, fun ⟨_, size, out, pending⟩ => ?_⟩
      rw [List.getElem?_set_self inside] at pending
      exact absurd (Option.some.inj pending) (ended size out)
    · rw [pendingAt_set_ne same, ← scheduled.known, tasks, List.mem_cons]
      exact ⟨.inr, fun either => either.resolve_left fun equal => same equal.symm⟩
  · intro index later bound
    change PendingAt (pipe.reads.set _ _) index
    rw [pendingAt_set_ne (Nat.ne_of_lt (Nat.lt_of_lt_of_le begun later))]
    exact scheduled.posted index later (by simpa using bound)
  · simpa using scheduled.within
  · intro waiting
    obtain ⟨empty, opened⟩ := scheduled.idle waiting
    exact ⟨emptied empty, opened⟩

theorem scheduled_waits {pipe : TelnetPipe} {task : Task} {size : Option Int} {out : Bytes}
    (scheduled : pipe.Scheduled) (next : pipe.next = some task) (fits : (Reading.pending size out).Exact)
    (opened : pipe.eof = false) :
    { pipe with
      rxBuf := [], rxEvent := pipe.rxEvent.resumed.clearWait task.index,
      reads := pipe.reads.set task.index (.pending size out) }.Scheduled := by
  obtain ⟨⟨rest, ready⟩, at_⟩ := next_eq_some next
  have inside : task.index < pipe.reads.length := (List.getElem?_eq_some_iff.mp at_).1
  have tasks : pipe.rxEvent.tasks.Perm (pipe.rxEvent.resumed.clearWait task.index).tasks := by
    rw [EventFlag.tasks_resumed ready, EventFlag.tasks_clearWait]
    exact (List.perm_append_singleton ..).symm
  have pending (index : Nat) : PendingAt (pipe.reads.set task.index (.pending size out)) index ↔
      PendingAt pipe.reads index := by
    by_cases same : task.index = index
    · subst same
      exact iff_of_true ⟨_, _, List.getElem?_set_self inside⟩ ⟨_, _, at_⟩
    · exact pendingAt_set_ne same
  refine ⟨tasks.nodup scheduled.once, ?_, ?_, ?_, fun _ => ⟨rfl, opened⟩, exact_set scheduled.exact fits _⟩
  · intro index
    exact tasks.mem_iff.symm.trans ((scheduled.known index).trans (and_congr_right fun _ => (pending index).symm))
  · intro index later bound
    exact (pending index).mpr (scheduled.posted index later (by simpa using bound))
  · simpa using scheduled.within

theorem scheduled_readTask {pipe : TelnetPipe} {task : Task} (scheduled : pipe.Scheduled)
    (next : pipe.next = some task) : (pipe.readTask task).Scheduled := by
  have exact := scheduled.exact _ (List.mem_of_getElem? (next_eq_some next).2)
  unfold readTask
  rcases @deliverBytes_cases pipe.eof _ _ pipe.rxBuf exact with
    ⟨front, back, split, -, delivered, fits⟩ | ⟨-, -, delivered⟩ | ⟨-, opened, delivered, fits⟩
  · rw [delivered]
    refine scheduled_ended scheduled next nofun fits fun empty => ?_
    rw [split] at empty
    exact (List.append_eq_nil_iff.mp empty).2
  · rw [delivered]
    exact scheduled_ended scheduled next nofun trivial fun _ => rfl
  · rw [delivered]
    exact scheduled_waits scheduled next fits opened

theorem scheduled_step {pipe last : TelnetPipe} {act : Act} (scheduled : pipe.Scheduled)
    (stepped : pipe.step act = some last) : last.Scheduled := by
  obtain ⟨once, known, posted, within, idle, exact⟩ := scheduled
  cases act with
  | post size =>
    cases stepped
    refine ⟨once, ?_, ?_, ?_, idle, ?_⟩
    · intro index
      refine (known index).trans (and_congr_right fun begun => (pendingAt_append ?_).symm)
      exact Nat.lt_of_lt_of_le begun within
    · intro index later bound
      by_cases old : index < pipe.reads.length
      · exact (pendingAt_append old).mpr (posted index later old)
      · rw [List.length_append, List.length_singleton] at bound
        have new : index = pipe.reads.length := by omega
        subst new
        exact ⟨_, _, List.getElem?_concat_length⟩
    · rw [List.length_append]
      exact Nat.le_add_right_of_le within
    · intro read member
      rcases List.mem_append.mp member with old | new
      · exact exact read old
      · cases List.mem_singleton.mp new
        cases size with
        | none => rfl
        | some size => exact Nat.zero_le _
  | spawn =>
    obtain ⟨more, same⟩ := Option.ite_none_right_eq_some.mp stepped
    cases same
    have tasks := EventFlag.tasks_schedule pipe.rxEvent pipe.spawned
    have unknown : pipe.spawned ∉ pipe.rxEvent.tasks := fun member =>
      absurd ((known _).mp member).1 (Nat.lt_irrefl _)
    refine ⟨tasks.symm.nodup (List.nodup_cons.mpr ⟨unknown, once⟩), ?_, ?_, more, idle, exact⟩
    · intro index
      refine tasks.mem_iff.trans (List.mem_cons.trans ?_)
      change _ ↔ index < pipe.spawned + 1 ∧ _
      rw [known]
      constructor
      · rintro (new | ⟨begun, pending⟩)
        · subst new
          exact ⟨Nat.lt_succ_self _, posted _ (Nat.le_refl _) more⟩
        · exact ⟨Nat.lt_succ_of_lt begun, pending⟩
      · rintro ⟨begun, pending⟩
        rcases Nat.lt_succ_iff_lt_or_eq.mp begun with old | new
        · exact .inr ⟨old, pending⟩
        · exact .inl new
    · intro index later
      exact posted index (Nat.le_of_succ_le later)
  | arrive data =>
    obtain ⟨-, same⟩ := Option.ite_none_left_eq_some.mp stepped
    cases same
    refine ⟨?_, ?_, posted, within, ?_, exact⟩
    · simpa using once
    · simpa using known
    · simp
  | close =>
    obtain ⟨-, same⟩ := Option.ite_none_left_eq_some.mp stepped
    cases same
    refine ⟨?_, ?_, posted, within, ?_, exact⟩
    · simpa using once
    · simpa using known
    · simp
  | run =>
    obtain ⟨task, next, same⟩ := Option.map_eq_some_iff.mp stepped
    rw [← same]
    exact scheduled_readTask ⟨once, known, posted, within, idle, exact⟩ next

theorem scheduled_start : start.Scheduled :=
  ⟨List.nodup_nil, fun _ => ⟨nofun, nofun⟩, nofun, Nat.le_refl _, nofun, fun _ member => absurd member List.not_mem_nil⟩

theorem scheduled_of_run {acts : List Act} {last : TelnetPipe} (ran : acts.foldlM step start = some last) :
    last.Scheduled :=
  foldlM_invariant (fun _ _ _ scheduled stepped => scheduled_step scheduled stepped) scheduled_start ran

/-- Once nothing is left to run, a read that is pending waits for bytes that did not come yet. -/
theorem pending_waits {acts : List Act} {last : TelnetPipe} (ran : acts.foldlM step start = some last)
    (idle : last.rxEvent.ready = []) {index : Nat} (begun : index < last.spawned)
    (pending : PendingAt last.reads index) : last.rxBuf = [] ∧ last.eof = false := by
  have scheduled := scheduled_of_run ran
  have member := (scheduled.known index).mpr ⟨begun, pending⟩
  refine scheduled.idle fun none => ?_
  unfold EventFlag.tasks at member
  rw [idle, none] at member
  exact absurd member List.not_mem_nil

/-- Two reads wait; a chunk wakes both, the first one takes it, and the second one waits again. -/
def waking : List Act := [.post none, .post none, .spawn, .spawn, .run, .run, .arrive [1, 2, 3], .run, .run]

theorem read_waits : ∃ last, waking.foldlM step start = some last ∧
    last.reads = [.done none [1, 2, 3], .pending none []] ∧ last.rxBuf = [] ∧ last.eof = false :=
  ⟨_, rfl, rfl, @pending_waits waking _ rfl rfl 1 (by decide) ⟨_, _, rfl⟩⟩

/-! ### What the reads hold together -/

def holdings (reads : List Reading) : Bytes := reads.flatMap Reading.held

theorem holdings_split {reads : List Reading} {index : Nat} {read : Reading} (at_ : reads[index]? = some read) :
    holdings reads = holdings (reads.take index) ++ read.held ++ holdings (reads.drop (index + 1)) := by
  obtain ⟨inside, same⟩ := List.getElem?_eq_some_iff.mp at_
  unfold holdings
  conv_lhs => rw [← List.take_append_drop index reads, List.drop_eq_getElem_cons inside, same]
  rw [List.flatMap_append, List.flatMap_cons, List.append_assoc]

theorem holdings_set {reads : List Reading} {index : Nat} (inside : index < reads.length) (read : Reading) :
    holdings (reads.set index read) =
      holdings (reads.take index) ++ read.held ++ holdings (reads.drop (index + 1)) := by
  have at_ : (reads.set index read)[index]? = some read := List.getElem?_set_self inside
  rw [holdings_split at_, List.take_set_of_le (Nat.le_refl _), List.drop_set_of_lt (Nat.lt_succ_self _)]

/-- What was received is what the reads got, in the order of the posts, and then the buffer. -/
def InOrder (self : TelnetPipe) : Prop := self.received = holdings self.reads ++ self.rxBuf

/-- A task takes no bytes while a read posted after its own holds some, and the stream does not end on a read that
got only a part of its bytes. -/
def InTurn (self : TelnetPipe) : Act → Prop
  | .run => ∀ task ∈ self.next,
    (Wants task.size task.out → self.rxBuf = [] ∨ holdings (self.reads.drop (task.index + 1)) = []) ∧
      (self.eof = true → Starved task.size task.out self.rxBuf → task.out ++ self.rxBuf = [])
  | _ => True

theorem inOrder_readTask {pipe : TelnetPipe} {task : Task} (scheduled : pipe.Scheduled) (inOrder : pipe.InOrder)
    (inTurn : pipe.InTurn .run) (next : pipe.next = some task) : (pipe.readTask task).InOrder := by
  obtain ⟨behind, closing⟩ := inTurn task next
  obtain ⟨-, at_⟩ := next_eq_some next
  have inside : task.index < pipe.reads.length := (List.getElem?_eq_some_iff.mp at_).1
  have exact := scheduled.exact _ (List.mem_of_getElem? at_)
  have received : pipe.received = _ := inOrder
  rw [holdings_split at_] at received
  unfold readTask
  rcases @deliverBytes_cases pipe.eof _ _ pipe.rxBuf exact with
    ⟨front, back, split, idle, delivered, -⟩ | ⟨starved, closed, delivered⟩ | ⟨wants, -, delivered, -⟩
  · rw [delivered]
    change pipe.received = holdings (pipe.reads.set _ _) ++ back
    rw [holdings_set inside, received, split]
    have apart : front = [] ∨ holdings (pipe.reads.drop (task.index + 1)) = [] := by
      by_cases wants : Wants task.size task.out
      · rcases behind wants with empty | nothing
        · rw [split] at empty
          exact .inl (List.append_eq_nil_iff.mp empty).1
        · exact .inr nothing
      · exact .inl (idle wants)
    rcases apart with none | nothing
    · simp [none, Reading.held]
    · simp [nothing, Reading.held]
  · rw [delivered]
    change pipe.received = holdings (pipe.reads.set _ _) ++ []
    obtain ⟨none, empty⟩ := List.append_eq_nil_iff.mp (closing closed starved)
    rw [holdings_set inside, received, empty]
    simp [none, Reading.held]
  · rw [delivered]
    change pipe.received = holdings (pipe.reads.set _ _) ++ []
    rw [holdings_set inside, received]
    rcases behind wants with empty | nothing
    · simp [empty, Reading.held]
    · simp [nothing, Reading.held]

theorem inOrder_step {pipe last : TelnetPipe} {act : Act} (scheduled : pipe.Scheduled) (inOrder : pipe.InOrder)
    (inTurn : pipe.InTurn act) (stepped : pipe.step act = some last) : last.InOrder := by
  cases act with
  | post size =>
    cases stepped
    simpa [InOrder, holdings, Reading.held] using inOrder
  | spawn =>
    obtain ⟨-, same⟩ := Option.ite_none_right_eq_some.mp stepped
    cases same
    exact inOrder
  | arrive data =>
    obtain ⟨-, same⟩ := Option.ite_none_left_eq_some.mp stepped
    cases same
    change pipe.received ++ data = _ ++ (pipe.rxBuf ++ data)
    rw [show pipe.received = _ from inOrder, List.append_assoc]
  | close =>
    obtain ⟨-, same⟩ := Option.ite_none_left_eq_some.mp stepped
    cases same
    exact inOrder
  | run =>
    obtain ⟨task, next, same⟩ := Option.map_eq_some_iff.mp stepped
    rw [← same]
    exact inOrder_readTask scheduled inOrder inTurn next

/-- Reads that are served in turn get what was received, piece by piece and in the order of the posts. -/
theorem inOrder_of_inTurn {acts : List Act} {last : TelnetPipe} (inTurn : Along step InTurn start acts)
    (ran : acts.foldlM step start = some last) : last.InOrder ∧ ∀ read ∈ last.reads, read.Exact := by
  have both : ∀ (pipe : TelnetPipe) (act : Act) (next : TelnetPipe), pipe.Scheduled ∧ pipe.InOrder →
      pipe.InTurn act → pipe.step act = some next → next.Scheduled ∧ next.InOrder := by
    intro pipe act next ⟨scheduled, inOrder⟩ condition stepped
    exact ⟨scheduled_step scheduled stepped, inOrder_step scheduled inOrder condition stepped⟩
  obtain ⟨scheduled, inOrder⟩ := foldlM_along both ⟨scheduled_start, rfl⟩ inTurn ran
  exact ⟨inOrder, scheduled.exact⟩

theorem inOrder_of_inTurn_one_by_one : ∃ last,
    [Act.post (some 2), .spawn, .arrive [1], .run, .arrive [2, 3], .run, .post none, .spawn, .run, .close].foldlM
      step start = some last ∧ last.InOrder ∧ ∀ read ∈ last.reads, read.Exact := by
  refine ⟨?last, ?ran, inOrder_of_inTurn ?inTurn ?ran⟩
  case ran =>
    simp [step, next, readTask, deliverBytes, fill, start, EventFlag.start, EventFlag.schedule, EventFlag.set,
      EventFlag.resumed, EventFlag.clearWait]
    rfl
  case inTurn =>
    simp [Along, InTurn, Wants, Starved, holdings, Reading.held, step, next, readTask, deliverBytes, fill, start,
      EventFlag.start, EventFlag.schedule, EventFlag.set, EventFlag.resumed, EventFlag.clearWait]

/-- The second of two reads begins between the byte that the first one waits for and its wakeup. And a stream ends
on a read that got two of its four bytes. -/
theorem second_read_first :
    (∃ (acts : List Act) (last : TelnetPipe), acts.foldlM step start = some last ∧ last.eof = false ∧
      last.received = [1, 2] ∧ last.reads = [.done (some 1) [2], .done (some 1) [1]] ∧ ¬last.InOrder) ∧
    ∃ (acts : List Act) (last : TelnetPipe), acts.foldlM step start = some last ∧ last.eof = true ∧
      last.received = [1, 2] ∧ last.reads = [.closed (some 4)] ∧ ¬last.InOrder := by
  constructor
  · refine ⟨[.post (some 1), .spawn, .run, .post (some 1), .spawn, .arrive [1], .run, .run, .arrive [2], .run],
      ?served, ?reversed, ?_⟩
    case reversed =>
      simp [step, next, readTask, deliverBytes, fill, start, EventFlag.start, EventFlag.schedule, EventFlag.set,
        EventFlag.resumed, EventFlag.clearWait]
      rfl
    exact ⟨rfl, rfl, rfl, fun inOrder => absurd (show ([1, 2] : Bytes) = [2, 1] from inOrder) (by decide)⟩
  · refine ⟨[.post (some 4), .spawn, .arrive [1, 2], .close, .run], ?ended, ?lost, ?_⟩
    case lost =>
      simp [step, next, readTask, deliverBytes, fill, start, EventFlag.start, EventFlag.schedule, EventFlag.set,
        EventFlag.resumed]
      rfl
    exact ⟨rfl, rfl, rfl, fun inOrder => absurd (show ([1, 2] : Bytes) = [] from inOrder) (by decide)⟩

end TelnetPipe
end Acrobe.Telnet
