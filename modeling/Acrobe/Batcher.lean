import Acrobe.Lib.Transition

/-!
# The batching engine

Posts, the steps of the flush tasks, the ends of `flush_ops` calls and the settling of futures
interleave in any order. The state keeps, beside what `Batcher` has, the entries posted so far and
the batches handed to `flush_ops`.
-/

namespace Acrobe.Batcher

/-- An operation with the future made for it; `post_no_wait` makes none. -/
abbrev Entry (Op : Type) := Op × Option Nat

inductive FutureState (Exc : Type) where
  | pending
  | resolved
  | cancelled
  | rejected (exc : Exc)

inductive Task (Op : Type) where
  | scheduled
  | waiting
  | flushing (batch : List (Entry Op))
  | done

structure State (Op Exc : Type) where
  pending : List (Entry Op)
  flushTask : Option Nat
  tasks : List (Task Op)
  locked : Bool
  /-- The tasks queued on the lock; the flag says that the waiter's future is done. -/
  waiters : List (Nat × Bool)
  futures : List (FutureState Exc)
  posted : List (Entry Op)
  batches : List (List (Entry Op))

/-- How a `flush_ops` call ends: it returns, raises an `Exception`, or is left by another exception. -/
inductive Outcome (Exc : Type) where
  | returned
  | raised (exc : Exc)
  | interrupted

inductive Event (Op Exc : Type) where
  | post (op : Op)
  | postNoWait (op : Op)
  | run (task : Nat)
  | finish (task : Nat) (outcome : Outcome Exc)
  | settle (future : Nat) (result : FutureState Exc)

variable {Op Exc : Type}

namespace State

def initial : State Op Exc where
  pending := []
  flushTask := none
  tasks := []
  locked := false
  waiters := []
  futures := []
  posted := []
  batches := []

/-! ### Posting -/

def createTask (s : State Op Exc) : State Op Exc :=
  { s with tasks := s.tasks ++ [.scheduled], flushTask := some s.tasks.length }

def ensureFlush (s : State Op Exc) : State Op Exc :=
  match s.flushTask with
  | none => s.createTask
  | some task =>
    match s.tasks[task]? with
    | some .done => s.createTask
    | _ => s

def enqueue (s : State Op Exc) (entry : Entry Op) : State Op Exc :=
  { s with pending := s.pending ++ [entry], posted := s.posted ++ [entry] }

def post (s : State Op Exc) (op : Op) : State Op Exc :=
  (enqueue { s with futures := s.futures ++ [.pending] } (op, some s.futures.length)).ensureFlush

def postNoWait (s : State Op Exc) (op : Op) : State Op Exc := (s.enqueue (op, none)).ensureFlush

/-! ### The flush task -/

/-- The lock is taken, the pending list swapped and `flush_ops` called. -/
def takeBatch (s : State Op Exc) (task : Nat) : State Op Exc :=
  { s with
    locked := true
    pending := []
    flushTask := none
    tasks := s.tasks.set task (.flushing s.pending)
    batches := s.batches ++ [s.pending] }

/-- The next step of a task: `asyncio.Lock` hands itself over in the order of its waiters. -/
def runTask (s : State Op Exc) (task : Nat) : Option (State Op Exc) :=
  match s.tasks[task]? with
  | some .scheduled =>
    if s.locked = false ∧ s.waiters = [] then some (s.takeBatch task)
    else some { s with tasks := s.tasks.set task .waiting, waiters := s.waiters ++ [(task, false)] }
  | some .waiting =>
    if (task, true) ∈ s.waiters then
      some (takeBatch { s with waiters := s.waiters.filter fun waiter => waiter.1 ≠ task } task)
    else none
  | _ => none

def wakeUpFirst : List (Nat × Bool) → List (Nat × Bool)
  | [] => []
  | (task, _) :: rest => (task, true) :: rest

def release (s : State Op Exc) : State Op Exc := { s with locked := false, waiters := wakeUpFirst s.waiters }

def reject (futures : List (FutureState Exc)) (exc : Exc) : List (Entry Op) → List (FutureState Exc)
  | [] => futures
  | (_, none) :: batch => reject futures exc batch
  | (_, some future) :: batch =>
    match futures[future]? with
    | some .pending => reject (futures.set future (.rejected exc)) exc batch
    | _ => reject futures exc batch

/-- The end of a `flush_ops` call, the `except` clause and the release of the lock. -/
def finishTask (s : State Op Exc) (task : Nat) (outcome : Outcome Exc) : Option (State Op Exc) :=
  match s.tasks[task]? with
  | some (.flushing batch) =>
    let futures := match outcome with
      | .raised exc => reject s.futures exc batch
      | _ => s.futures
    some { s.release with futures, tasks := s.tasks.set task .done }
  | _ => none

def settle (s : State Op Exc) (future : Nat) (result : FutureState Exc) : Option (State Op Exc) :=
  match s.futures[future]? with
  | some .pending => some { s with futures := s.futures.set future result }
  | _ => none

end State

def step (s : State Op Exc) : Event Op Exc → Option (State Op Exc)
  | .post op => some (s.post op)
  | .postNoWait op => some (s.postNoWait op)
  | .run task => s.runTask task
  | .finish task outcome => s.finishTask task outcome
  | .settle future result => s.settle future result

def run (s : State Op Exc) (events : List (Event Op Exc)) : Option (State Op Exc) := events.foldlM step s

/-! ### The invariant -/

/-- A task that no longer holds back the pending list. -/
def Task.Started : Task Op → Prop
  | .flushing _ | .done => True
  | _ => False

/-- The flush task, when there is one, is the only task that has not taken its batch, and it is
queued on the lock exactly when it waits. -/
structure Armed (s : State Op Exc) (task : Nat) : Prop where
  pending : s.pending ≠ []
  others : ∀ (other : Nat) (found : Task Op), s.tasks[other]? = some found → other ≠ task → found.Started
  queued : (s.tasks[task]? = some .scheduled ∧ s.waiters = []) ∨
    (s.tasks[task]? = some .waiting ∧ s.waiters = [(task, !s.locked)])

structure Invariant (s : State Op Exc) : Prop where
  delivered : s.posted = s.batches.flatten ++ s.pending
  nonempty : ∀ batch ∈ s.batches, batch ≠ []
  armed : ∀ task, s.flushTask = some task → Armed s task
  unarmed : s.flushTask = none → s.pending = [] ∧ s.waiters = [] ∧
    ∀ (task : Nat) (found : Task Op), s.tasks[task]? = some found → found.Started
  held : s.locked = true → ∃ (task : Nat) (batch : List (Entry Op)), s.tasks[task]? = some (.flushing batch)
  exclusive : ∀ (task : Nat) (batch : List (Entry Op)), s.tasks[task]? = some (.flushing batch) →
    s.locked = true ∧ batch ∈ s.batches ∧
      ∀ (other : Nat) (found : List (Entry Op)), s.tasks[other]? = some (.flushing found) → other = task
  fresh : ∀ future, future ∈ s.posted.filterMap Prod.snd → future < s.futures.length
  distinct : (s.posted.filterMap Prod.snd).Nodup

theorem invariant_initial : Invariant (State.initial : State Op Exc) where
  delivered := rfl
  nonempty := by rintro batch ⟨⟩
  armed := by rintro task ⟨⟩
  unarmed := fun _ => ⟨rfl, rfl, by rintro task found ⟨⟩⟩
  held := by rintro ⟨⟩
  exclusive := by rintro task batch ⟨⟩
  fresh := by rintro future ⟨⟩
  distinct := List.nodup_nil

variable {s : State Op Exc}

/-! ### Posts -/

theorem Armed.tasks {task : Nat} (armed : Armed s task) :
    s.tasks[task]? = some .scheduled ∨ s.tasks[task]? = some .waiting := by
  rcases armed.queued with ⟨scheduled, -⟩ | ⟨waiting, -⟩
  · exact .inl scheduled
  · exact .inr waiting

theorem ensureFlush_armed {task : Nat} (flush : s.flushTask = some task)
    (live : s.tasks[task]? = some .scheduled ∨ s.tasks[task]? = some .waiting) : s.ensureFlush = s := by
  unfold State.ensureFlush
  rw [flush]
  rcases live with found | found <;> simp only [found]

theorem enqueue_invariant (inv : Invariant s) (entry : Entry Op) (futures : List (FutureState Exc))
    (room : s.futures.length ≤ futures.length)
    (made : entry.2 = none ∨ entry.2 = some s.futures.length ∧ s.futures.length < futures.length) :
    Invariant (State.enqueue { s with futures } entry).ensureFlush := by
  have delivered : s.posted ++ [entry] = s.batches.flatten ++ (s.pending ++ [entry]) := by
    rw [inv.delivered, List.append_assoc]
  have fresh : ∀ future, future ∈ (s.posted ++ [entry]).filterMap Prod.snd → future < futures.length := by
    intro future member
    rw [List.filterMap_append, List.mem_append] at member
    rcases member with old | new
    · exact Nat.lt_of_lt_of_le (inv.fresh future old) room
    · rcases made with none | ⟨own, bound⟩
      · simp [none] at new
      · simp [own] at new
        omega
  have distinct : ((s.posted ++ [entry]).filterMap Prod.snd).Nodup := by
    rw [List.filterMap_append]
    rcases made with none | ⟨own, -⟩
    · simpa [none] using inv.distinct
    · rw [List.nodup_append]
      refine ⟨inv.distinct, by simp [own], ?_⟩
      intro future old other new same
      have bound := inv.fresh future old
      simp [own] at new
      omega
  rcases Option.eq_none_or_eq_some s.flushTask with flush | ⟨task, flush⟩
  case inr =>
    have armed := inv.armed task flush
    rw [ensureFlush_armed (s := State.enqueue { s with futures } entry) flush armed.tasks]
    exact {
      delivered
      nonempty := inv.nonempty
      armed := by
        intro other same
        change s.flushTask = some other at same
        rw [flush] at same
        cases same
        exact ⟨by simp [State.enqueue], armed.others, armed.queued⟩
      unarmed := by
        intro unset
        change s.flushTask = none at unset
        rw [flush] at unset
        cases unset
      held := inv.held
      exclusive := inv.exclusive
      fresh
      distinct }
  case inl =>
    obtain ⟨-, noWaiters, started⟩ := inv.unarmed flush
    have created : (State.enqueue { s with futures } entry).ensureFlush =
        (State.enqueue { s with futures } entry).createTask := by
      unfold State.ensureFlush
      rw [show (State.enqueue { s with futures } entry).flushTask = none from flush]
    have old : ∀ (task : Nat) (found : Task Op), (s.tasks ++ [.scheduled])[task]? = some found →
        task ≠ s.tasks.length → s.tasks[task]? = some found := by
      intro task found read other
      rcases Nat.lt_or_ge task s.tasks.length with inside | outside
      · rwa [List.getElem?_append_left inside] at read
      · rw [List.getElem?_append_right outside, List.getElem?_singleton, if_neg (by omega)] at read
        cases read
    have last : (s.tasks ++ [Task.scheduled])[s.tasks.length]? = some .scheduled := by
      rw [List.getElem?_append_right (Nat.le_refl _), Nat.sub_self]
      rfl
    have oldFlushing : ∀ (task : Nat) (batch : List (Entry Op)),
        (s.tasks ++ [.scheduled])[task]? = some (.flushing batch) → s.tasks[task]? = some (.flushing batch) := by
      intro task batch read
      apply old task _ read
      rintro rfl
      rw [last] at read
      cases read
    rw [created]
    exact {
      delivered
      nonempty := inv.nonempty
      armed := by
        rintro task ⟨⟩
        refine ⟨by simp [State.enqueue, State.createTask], ?_, .inl ⟨last, noWaiters⟩⟩
        intro other found read different
        exact started other found (old other found read different)
      unarmed := by rintro ⟨⟩
      held := by
        intro locked
        obtain ⟨task, batch, read⟩ := inv.held locked
        refine ⟨task, batch, ?_⟩
        change (s.tasks ++ [Task.scheduled])[task]? = _
        rw [List.getElem?_append_left (List.getElem?_eq_some_iff.mp read).1]
        exact read
      exclusive := by
        intro task batch read
        obtain ⟨locked, member, only⟩ := inv.exclusive task batch (oldFlushing task batch read)
        refine ⟨locked, member, ?_⟩
        intro other found otherRead
        exact only other found (oldFlushing other found otherRead)
      fresh
      distinct }

/-! ### Steps of the flush task -/

theorem tasks_set {task other : Nat} {before after found : Task Op} (old : s.tasks[task]? = some before)
    (read : (s.tasks.set task after)[other]? = some found) :
    (other = task ∧ found = after) ∨ (other ≠ task ∧ s.tasks[other]? = some found) := by
  by_cases same : task = other
  · subst same
    rw [List.getElem?_set_self (List.getElem?_eq_some_iff.mp old).1] at read
    exact .inl ⟨rfl, (Option.some.inj read).symm⟩
  · rw [List.getElem?_set_ne same] at read
    exact .inr ⟨fun equal => same equal.symm, read⟩

theorem takeBatch_invariant {task : Nat} {waiters : List (Nat × Bool)} (inv : Invariant s) (flush : s.flushTask = some task)
    (free : s.locked = false) (left : waiters = []) : Invariant (State.takeBatch { s with waiters } task) := by
  have armed := inv.armed task flush
  obtain ⟨before, old⟩ : ∃ before, s.tasks[task]? = some before := by
    rcases armed.tasks with found | found <;> exact ⟨_, found⟩
  have idle : ∀ (other : Nat) (batch : List (Entry Op)), s.tasks[other]? ≠ some (.flushing batch) := by
    intro other batch read
    have locked := (inv.exclusive other batch read).1
    rw [free] at locked
    cases locked
  exact {
    delivered := by
      change s.posted = (s.batches ++ [s.pending]).flatten ++ []
      rw [inv.delivered]
      simp
    nonempty := by
      intro batch member
      rcases List.mem_append.mp member with earlier | new
      · exact inv.nonempty batch earlier
      · rw [List.mem_singleton.mp new]
        exact armed.pending
    armed := by rintro other ⟨⟩
    unarmed := by
      refine fun _ => ⟨rfl, left, ?_⟩
      intro other found read
      rcases tasks_set old read with ⟨-, rfl⟩ | ⟨different, kept⟩
      · trivial
      · exact armed.others other found kept different
    held := by
      refine fun _ => ⟨task, s.pending, ?_⟩
      exact List.getElem?_set_self (List.getElem?_eq_some_iff.mp old).1
    exclusive := by
      intro other batch read
      rcases tasks_set old read with ⟨rfl, same⟩ | ⟨-, kept⟩
      · cases same
        refine ⟨rfl, List.mem_append_right _ (List.mem_singleton_self _), ?_⟩
        intro third found thirdRead
        rcases tasks_set old thirdRead with ⟨rfl, -⟩ | ⟨-, kept⟩
        · rfl
        · exact absurd kept (idle third found)
      · exact absurd kept (idle other batch)
    fresh := inv.fresh
    distinct := inv.distinct }

theorem flushTask_of_unstarted {task : Nat} {found : Task Op} (inv : Invariant s) (read : s.tasks[task]? = some found)
    (unstarted : ¬found.Started) : s.flushTask = some task := by
  rcases Option.eq_none_or_eq_some s.flushTask with flush | ⟨other, flush⟩
  · exact absurd ((inv.unarmed flush).2.2 task found read) unstarted
  · by_cases same : task = other
    · rw [flush, same]
    · exact absurd ((inv.armed other flush).others task found read same) unstarted

theorem queue_invariant {task : Nat} (inv : Invariant s) (read : s.tasks[task]? = some .scheduled)
    (locked : s.locked = true) (empty : s.waiters = []) :
    Invariant { s with tasks := s.tasks.set task .waiting, waiters := s.waiters ++ [(task, false)] } := by
  have flush := flushTask_of_unstarted inv read id
  have armed := inv.armed task flush
  have flushing : ∀ (other : Nat) (batch : List (Entry Op)),
      (s.tasks.set task .waiting)[other]? = some (.flushing batch) → s.tasks[other]? = some (.flushing batch) := by
    intro other batch found
    rcases tasks_set read found with ⟨-, same⟩ | ⟨-, kept⟩
    · cases same
    · exact kept
  exact {
    delivered := inv.delivered
    nonempty := inv.nonempty
    armed := by
      intro other same
      change s.flushTask = some other at same
      rw [flush] at same
      cases same
      refine ⟨armed.pending, ?_, .inr ⟨?_, ?_⟩⟩
      · intro third found thirdRead different
        rcases tasks_set read thirdRead with ⟨same, -⟩ | ⟨-, kept⟩
        · exact absurd same different
        · exact armed.others third found kept different
      · exact List.getElem?_set_self (List.getElem?_eq_some_iff.mp read).1
      · change s.waiters ++ [(task, false)] = [(task, !s.locked)]
        rw [empty, locked]
        rfl
    unarmed := by
      intro unset
      change s.flushTask = none at unset
      rw [flush] at unset
      cases unset
    held := by
      intro _
      obtain ⟨other, batch, found⟩ := inv.held locked
      refine ⟨other, batch, ?_⟩
      have different : task ≠ other := by
        rintro rfl
        rw [read] at found
        cases found
      change (s.tasks.set task .waiting)[other]? = _
      rw [List.getElem?_set_ne different]
      exact found
    exclusive := by
      intro other batch found
      obtain ⟨held, member, only⟩ := inv.exclusive other batch (flushing other batch found)
      exact ⟨held, member, fun third more thirdRead => only third more (flushing third more thirdRead)⟩
    fresh := inv.fresh
    distinct := inv.distinct }

theorem runTask_invariant {task : Nat} {next : State Op Exc} (inv : Invariant s)
    (stepped : s.runTask task = some next) : Invariant next := by
  unfold State.runTask at stepped
  split at stepped
  · rename_i read
    have flush := flushTask_of_unstarted inv read id
    have noWaiters : s.waiters = [] := by
      rcases (inv.armed task flush).queued with ⟨-, none⟩ | ⟨waiting, -⟩
      · exact none
      · rw [read] at waiting
        cases waiting
    split at stepped
    · rename_i free
      cases stepped
      exact takeBatch_invariant inv flush free.1 noWaiters
    · rename_i busy
      cases stepped
      have locked : s.locked = true := by
        cases held : s.locked with
        | true => rfl
        | false => exact absurd ⟨held, noWaiters⟩ busy
      exact queue_invariant inv read locked noWaiters
  · rename_i read
    have flush := flushTask_of_unstarted inv read id
    have queued : s.waiters = [(task, !s.locked)] := by
      rcases (inv.armed task flush).queued with ⟨scheduled, -⟩ | ⟨-, queued⟩
      · rw [read] at scheduled
        cases scheduled
      · exact queued
    split at stepped
    · rename_i woken
      cases stepped
      rw [queued, List.mem_singleton] at woken
      have free : s.locked = false := by
        cases held : s.locked with
        | false => rfl
        | true =>
          rw [held] at woken
          cases woken
      apply takeBatch_invariant inv flush free
      rw [queued]
      simp
    · cases stepped
  · cases stepped

/-! ### The end of a call -/

theorem length_reject (exc : Exc) (batch : List (Entry Op)) (futures : List (FutureState Exc)) :
    (State.reject futures exc batch).length = futures.length := by
  induction batch generalizing futures with
  | nil => rfl
  | cons entry batch ih =>
    obtain ⟨op, _ | future⟩ := entry
    · exact ih futures
    · unfold State.reject
      split
      · rw [ih, List.length_set]
      · exact ih futures

/-- The futures after a failed call: exactly the pending ones of the batch are rejected. -/
def RejectedOnly (exc : Exc) (batch : List (Entry Op)) (before after : List (FutureState Exc)) : Prop :=
  ∀ future, (future ∈ batch.filterMap Prod.snd → before[future]? = some .pending → after[future]? = some (.rejected exc)) ∧
    (future ∉ batch.filterMap Prod.snd ∨ before[future]? ≠ some .pending → after[future]? = before[future]?)

theorem reject_rejectedOnly (exc : Exc) (batch : List (Entry Op)) (futures : List (FutureState Exc)) :
    RejectedOnly exc batch futures (State.reject futures exc batch) := by
  induction batch generalizing futures with
  | nil => exact fun future => ⟨by rintro ⟨⟩, fun _ => rfl⟩
  | cons entry batch ih =>
    obtain ⟨op, _ | own⟩ := entry
    · exact ih futures
    · intro future
      have member : future ∈ ((op, some own) :: batch).filterMap Prod.snd ↔
          future = own ∨ future ∈ batch.filterMap Prod.snd := by simp
      rw [State.reject, member]
      split
      · rename_i waiting
        obtain ⟨rejected, kept⟩ := ih (futures.set own (.rejected exc)) future
        by_cases same : own = future
        · subst same
          rw [List.getElem?_set_self (List.getElem?_eq_some_iff.mp waiting).1] at kept
          refine ⟨fun _ _ => kept (.inr (by simp)), fun other => ?_⟩
          rcases other with outside | settled
          · exact absurd (.inl rfl) outside
          · exact absurd waiting settled
        · rw [List.getElem?_set_ne same] at rejected kept
          refine ⟨fun inside => rejected (inside.resolve_left fun equal => same equal.symm), fun other => kept ?_⟩
          exact other.imp_left fun outside inside => outside (.inr inside)
      · rename_i settled
        obtain ⟨rejected, kept⟩ := ih futures future
        refine ⟨?_, fun other => kept (other.imp_left fun outside inside => outside (.inr inside))⟩
        rintro (rfl | inside) waiting
        · exact absurd waiting settled
        · exact rejected inside waiting

theorem finishTask_invariant {task : Nat} {outcome : Outcome Exc} {next : State Op Exc} (inv : Invariant s)
    (stepped : s.finishTask task outcome = some next) : Invariant next := by
  unfold State.finishTask at stepped
  split at stepped
  · rename_i batch read
    cases stepped
    obtain ⟨-, -, only⟩ := inv.exclusive task batch read
    have idle : ∀ (other : Nat) (found : List (Entry Op)),
        (s.tasks.set task .done)[other]? ≠ some (.flushing found) := by
      intro other found flushing
      rcases tasks_set read flushing with ⟨-, same⟩ | ⟨different, kept⟩
      · cases same
      · exact different (only other found kept)
    exact {
      delivered := inv.delivered
      nonempty := inv.nonempty
      armed := by
        intro other flush
        have armed := inv.armed other flush
        have different : task ≠ other := by
          rintro rfl
          rcases armed.tasks with found | found <;>
            · rw [read] at found
              cases found
        have locked := (inv.exclusive task batch read).1
        refine ⟨armed.pending, ?_, ?_⟩
        · intro third found thirdRead apart
          rcases tasks_set read thirdRead with ⟨-, rfl⟩ | ⟨-, kept⟩
          · trivial
          · exact armed.others third found kept apart
        · change ((s.tasks.set task .done)[other]? = _ ∧ State.wakeUpFirst s.waiters = _) ∨
            ((s.tasks.set task .done)[other]? = _ ∧ State.wakeUpFirst s.waiters = _)
          rw [List.getElem?_set_ne different]
          rcases armed.queued with ⟨scheduled, none⟩ | ⟨waiting, queued⟩
          · exact .inl ⟨scheduled, by rw [none]; rfl⟩
          · exact .inr ⟨waiting, by rw [queued]; rfl⟩
      unarmed := by
        intro flush
        obtain ⟨drained, none, started⟩ := inv.unarmed flush
        refine ⟨drained, ?_, ?_⟩
        · change State.wakeUpFirst s.waiters = []
          rw [none]
          rfl
        · intro other found otherRead
          rcases tasks_set read otherRead with ⟨-, rfl⟩ | ⟨-, kept⟩
          · trivial
          · exact started other found kept
      held := by rintro ⟨⟩
      exclusive := fun other found flushing => absurd flushing (idle other found)
      fresh := by
        intro future member
        cases outcome with
        | raised exc =>
          change future < (State.reject s.futures exc batch).length
          rw [length_reject]
          exact inv.fresh future member
        | returned => exact inv.fresh future member
        | interrupted => exact inv.fresh future member
      distinct := inv.distinct }
  · cases stepped

theorem settle_invariant {future : Nat} {result : FutureState Exc} {next : State Op Exc} (inv : Invariant s)
    (stepped : s.settle future result = some next) : Invariant next := by
  unfold State.settle at stepped
  split at stepped
  · cases stepped
    exact {
      delivered := inv.delivered
      nonempty := inv.nonempty
      armed := by
        intro task flush
        have armed := inv.armed task flush
        exact ⟨armed.pending, armed.others, armed.queued⟩
      unarmed := inv.unarmed
      held := inv.held
      exclusive := inv.exclusive
      fresh := by
        intro other member
        change other < (s.futures.set future result).length
        rw [List.length_set]
        exact inv.fresh other member
      distinct := inv.distinct }
  · cases stepped

theorem step_invariant {event : Event Op Exc} {next : State Op Exc} (inv : Invariant s)
    (stepped : step s event = some next) : Invariant next := by
  cases event with
  | post op =>
    cases stepped
    exact enqueue_invariant inv _ _ (by simp) (.inr ⟨rfl, by simp⟩)
  | postNoWait op =>
    cases stepped
    exact enqueue_invariant inv _ s.futures (Nat.le_refl _) (.inl rfl)
  | run task => exact runTask_invariant inv stepped
  | finish task outcome => exact finishTask_invariant inv stepped
  | settle future result => exact settle_invariant inv stepped

theorem run_invariant {events : List (Event Op Exc)} (ran : run .initial events = some s) : Invariant s :=
  Lib.foldlM_invariant (fun _ _ _ inv stepped => step_invariant inv stepped) invariant_initial ran

/-! ### What is posted -/

def Event.op? : Event Op Exc → Option Op
  | .post op | .postNoWait op => some op
  | _ => none

theorem ensureFlush_posted (s : State Op Exc) : s.ensureFlush.posted = s.posted := by
  unfold State.ensureFlush
  split
  · rfl
  · split <;> rfl

theorem step_posted {event : Event Op Exc} {next : State Op Exc} (stepped : step s event = some next) :
    next.posted.map Prod.fst = s.posted.map Prod.fst ++ event.op?.toList := by
  cases event with
  | post op =>
    cases stepped
    rw [State.post, ensureFlush_posted, State.enqueue, List.map_append]
    rfl
  | postNoWait op =>
    cases stepped
    rw [State.postNoWait, ensureFlush_posted, State.enqueue, List.map_append]
    rfl
  | run task =>
    change s.runTask task = some next at stepped
    rw [show (Event.run task : Event Op Exc).op?.toList = [] from rfl, List.append_nil]
    unfold State.runTask at stepped
    split at stepped
    · split at stepped <;> cases stepped <;> rfl
    · split at stepped <;> cases stepped
      rfl
    · cases stepped
  | finish task outcome =>
    change s.finishTask task outcome = some next at stepped
    rw [show (Event.finish task outcome : Event Op Exc).op?.toList = [] from rfl, List.append_nil]
    unfold State.finishTask at stepped
    split at stepped <;> cases stepped
    rfl
  | settle future result =>
    change s.settle future result = some next at stepped
    rw [show (Event.settle future result : Event Op Exc).op?.toList = [] from rfl, List.append_nil]
    unfold State.settle at stepped
    split at stepped <;> cases stepped
    rfl

theorem run_posted {events : List (Event Op Exc)} {next : State Op Exc} (ran : run s events = some next) :
    next.posted.map Prod.fst = s.posted.map Prod.fst ++ events.filterMap Event.op? := by
  induction events generalizing s with
  | nil =>
    cases ran
    rw [List.filterMap_nil, List.append_nil]
  | cons event events ih =>
    obtain ⟨middle, stepped, rest⟩ := Option.bind_eq_some_iff.mp ran
    rw [ih rest, step_posted stepped, List.append_assoc, List.filterMap_cons]
    cases event.op? <;> rfl

/-! ### Progress -/

def Idle (s : State Op Exc) : Prop :=
  ∀ (task : Nat) (found : Task Op), s.tasks[task]? = some found → found = .done

def Event.isTask : Event Op Exc → Bool
  | .run _ | .finish _ _ => true
  | _ => false

theorem idle_pending (inv : Invariant s) (idle : Idle s) : s.pending = [] := by
  rcases Option.eq_none_or_eq_some s.flushTask with flush | ⟨task, flush⟩
  · exact (inv.unarmed flush).1
  · rcases (inv.armed task flush).tasks with found | found <;>
      · have done := idle task _ found
        cases done

theorem finish_enabled {task : Nat} {batch : List (Entry Op)} (read : s.tasks[task]? = some (.flushing batch)) :
    ∃ next, step s (.finish task .returned) = some next := by
  rw [step, State.finishTask, read]
  exact ⟨_, rfl⟩

/-- While a task is unfinished, some task can take a step. -/
theorem task_enabled (inv : Invariant s) (busy : ¬Idle s) :
    ∃ event next, event.isTask = true ∧ step s event = some next := by
  obtain ⟨task, found, read, unfinished⟩ : ∃ (task : Nat) (found : Task Op), s.tasks[task]? = some found ∧
      found ≠ .done := by
    by_contra none
    apply busy
    intro task found read
    by_contra unfinished
    exact none ⟨task, found, read, unfinished⟩
  cases found with
  | done => exact absurd rfl unfinished
  | flushing batch =>
    obtain ⟨next, stepped⟩ := finish_enabled read
    exact ⟨_, next, rfl, stepped⟩
  | scheduled =>
    refine ⟨.run task, ?_⟩
    rw [step, State.runTask, read]
    dsimp only
    split
    · exact ⟨_, rfl, rfl⟩
    · exact ⟨_, rfl, rfl⟩
  | waiting =>
    have flush := flushTask_of_unstarted inv read id
    rcases (inv.armed task flush).queued with ⟨scheduled, -⟩ | ⟨-, queued⟩
    · rw [read] at scheduled
      cases scheduled
    · cases held : s.locked with
      | true =>
        obtain ⟨other, batch, flushing⟩ := inv.held held
        obtain ⟨next, stepped⟩ := finish_enabled flushing
        exact ⟨_, next, rfl, stepped⟩
      | false =>
        refine ⟨.run task, ?_⟩
        rw [step, State.runTask, read]
        dsimp only
        rw [if_pos (by rw [queued, held]; exact List.mem_singleton_self _)]
        exact ⟨_, rfl, rfl⟩

def Task.weight : Task Op → Nat
  | .scheduled => 3
  | .waiting => 2
  | .flushing _ => 1
  | .done => 0

def State.work (s : State Op Exc) : Nat := (s.tasks.map Task.weight).sum

theorem weight_set {tasks : List (Task Op)} {task : Nat} {before : Task Op} (after : Task Op)
    (read : tasks[task]? = some before) :
    ((tasks.set task after).map Task.weight).sum + before.weight = (tasks.map Task.weight).sum + after.weight := by
  induction tasks generalizing task with
  | nil => cases read
  | cons head tasks ih =>
    cases task with
    | zero =>
      cases read
      rw [List.set_cons_zero, List.map_cons, List.map_cons, List.sum_cons, List.sum_cons]
      omega
    | succ task =>
      have rest := ih read
      rw [List.set_cons_succ, List.map_cons, List.map_cons, List.sum_cons, List.sum_cons]
      omega

theorem step_work {event : Event Op Exc} {next : State Op Exc} (noPost : event.op? = none)
    (stepped : step s event = some next) : next.work + event.isTask.toNat ≤ s.work := by
  cases event with
  | post op => cases noPost
  | postNoWait op => cases noPost
  | run task =>
    change s.runTask task = some next at stepped
    change next.work + 1 ≤ s.work
    unfold State.runTask at stepped
    split at stepped
    · rename_i read
      split at stepped <;> cases stepped
      · have moved := weight_set (.flushing s.pending) read
        change ((s.tasks.set task _).map Task.weight).sum + 1 ≤ _
        simp only [Task.weight] at moved
        rw [State.work]
        omega
      · have moved := weight_set .waiting read
        change ((s.tasks.set task _).map Task.weight).sum + 1 ≤ _
        simp only [Task.weight] at moved
        rw [State.work]
        omega
    · rename_i read
      split at stepped <;> cases stepped
      have moved := weight_set (.flushing s.pending) read
      change ((s.tasks.set task (.flushing s.pending)).map Task.weight).sum + 1 ≤ _
      simp only [Task.weight] at moved
      rw [State.work]
      omega
    · cases stepped
  | finish task outcome =>
    change s.finishTask task outcome = some next at stepped
    change next.work + 1 ≤ s.work
    unfold State.finishTask at stepped
    split at stepped <;> cases stepped
    rename_i batch read
    have moved := weight_set .done read
    change ((s.tasks.set task _).map Task.weight).sum + 1 ≤ _
    simp only [Task.weight] at moved
    rw [State.work]
    omega
  | settle future result =>
    change s.settle future result = some next at stepped
    unfold State.settle at stepped
    split at stepped <;> cases stepped
    exact Nat.le_refl _

/-! ### Delivery -/

/-- What holds in a state that posts, task steps and ends of calls have reached. -/
structure Delivers (s : State Op Exc) : Prop where
  /-- The batches in call order, then what is still pending, are the posts. -/
  order : s.posted = s.batches.flatten ++ s.pending
  distinct : (s.posted.filterMap Prod.snd).Nodup
  noOverlap : ∀ (task other : Nat) (batch found : List (Entry Op)), s.tasks[task]? = some (.flushing batch) →
    s.tasks[other]? = some (.flushing found) → other = task
  rejects : ∀ (task : Nat) (exc : Exc) (next : State Op Exc), step s (.finish task (.raised exc)) = some next →
    ∃ batch ∈ s.batches, s.tasks[task]? = some (.flushing batch) ∧ RejectedOnly exc batch s.futures next.futures ∧
      next.pending = s.pending ∧ next.flushTask = s.flushTask
  drained : Idle s → s.pending = []
  live : ¬Idle s → ∃ event next, event.isTask = true ∧ step s event = some next
  bounded : ∀ (more : List (Event Op Exc)) (next : State Op Exc), (∀ event ∈ more, event.op? = none) →
    run s more = some next → (more.map fun event => event.isTask.toNat).sum ≤ s.work

/-- In every interleaving each post is handed to `flush_ops` once, in post order, the calls do not overlap,
and a call that raises rejects the futures of its own batch. -/
theorem run_delivers (events : List (Event Op Exc)) {s : State Op Exc} (ran : run .initial events = some s) :
    s.posted.map Prod.fst = events.filterMap Event.op? ∧ Delivers s := by
  have inv := run_invariant ran
  have posted := run_posted ran
  refine ⟨posted, ?_⟩
  exact {
    order := inv.delivered
    distinct := inv.distinct
    noOverlap := fun task other batch found read otherRead => (inv.exclusive task batch read).2.2 other found otherRead
    rejects := by
      intro task exc next stepped
      change s.finishTask task (.raised exc) = some next at stepped
      unfold State.finishTask at stepped
      split at stepped <;> cases stepped
      rename_i batch read
      exact ⟨batch, (inv.exclusive task batch read).2.1, read, reject_rejectedOnly exc batch s.futures, rfl, rfl⟩
    drained := idle_pending inv
    live := task_enabled inv
    bounded := by
      intro more next noPost more_ran
      have bound := Lib.foldlM_bounded (fun s event next member => step_work (noPost event member)) more_ran
      omega }

/-- Two posts, a third one while the first call is suspended, then the first call raises. -/
theorem run_delivers_raised :
    ∃ s, run (State.initial : State Nat String) [.post 10, .postNoWait 20, .run 0, .post 30, .run 1,
        .finish 0 (.raised "io"), .run 1] = some s ∧ Delivers s ∧
      s.batches = [[(10, some 0), (20, none)], [(30, some 1)]] ∧ s.futures = [.rejected "io", .pending] :=
  ⟨_, rfl, (run_delivers [.post 10, .postNoWait 20, .run 0, .post 30, .run 1,
    .finish 0 (.raised "io"), .run 1] rfl).2, rfl, rfl⟩

end Acrobe.Batcher
