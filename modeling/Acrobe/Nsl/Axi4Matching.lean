import Acrobe.Nsl.Axi4Mm

/-!
# Matching of responses

The master and the history of its transactions. In a run, every response resolves the transaction that it
answers exactly when no response comes out of turn.
-/

namespace Acrobe.Nsl
open LittleEndian Futures Table

/-- A transaction with its ID on the wire, and what became of it. -/
structure Issued where
  txn : Transaction
  id : Nat
  answered : Bool
  failed : Bool

def Issued.open (issued : Issued) : Bool := !issued.answered && !issued.failed

structure Bus where
  host : Axi4Mm
  issued : List Issued

inductive BusEvent where
  | issue (kind : Kind) (burst : Burst) (data : Bytes)
  | sendFailed (n : Nat) (exc : AxiError)
  | response (n : Nat) (frame : Bytes)
  | timeout (n : Nat)
  | failure (exc : AxiError)

namespace Bus

def start (setup : Axi4Setup) (id : Nat) : Bus := { host := .start setup id, issued := [] }

def failAll (self : Bus) (host : Axi4Mm) : Bus :=
  { host, issued := self.issued.map fun issued => { issued with failed := true } }

def answer (issued : Issued) : Issued := { issued with answered := true }

def step (self : Bus) : BusEvent → Bus
  | .issue kind burst data =>
    { host := (self.host.issue kind burst data).1
      issued := self.issued ++
        [{ txn := { kind, burst, future := self.host.futures.length }, id := self.host.id, answered := false, failed := false }] }
  | .sendFailed n exc =>
    match self.issued[n]? with
    | some issued => { self with host := self.host.onSent issued.txn exc }
    | none => self
  | .response n frame => { host := self.host.onFrame frame, issued := self.issued.modify n answer }
  | .timeout n =>
    match self.issued[n]? with
    | some issued =>
      if self.host.futures.Pending issued.txn.future then self.failAll (self.host.timedOut issued.txn) else self
    | none => self
  | .failure exc => self.failAll (self.host.failPending exc)

def run (self : Bus) (events : List BusEvent) : Bus := events.foldl step self

/-- A condition holds at each step of a run. -/
def Always (condition : Bus → BusEvent → Prop) : Bus → List BusEvent → Prop
  | _, [] => True
  | self, event :: events => condition self event ∧ Always condition (self.step event) events

/-- A response is the first one to its transaction, on the channel of the transaction and with its ID. -/
def Legal (self : Bus) : BusEvent → Prop
  | .response n frame =>
    match self.issued[n]?, frame with
    | some issued, channel :: payload =>
      issued.answered = false ∧ channelKind channel = some issued.txn.kind ∧
        ∀ response, self.host.setup.codec.response payload issued.txn.kind = .ok response → response.id = issued.id
    | _, _ => False
  | _ => True

/-- What a response says of the transaction that it answers. -/
def outcome (self : Bus) (issued : Issued) (frame : Bytes) : Status (Option Bytes) AxiError :=
  match self.host.setup.codec.response frame.tail issued.txn.kind with
  | .error text => .exception (.protocol text)
  | .ok response => issued.txn.outcome response

/-- The transaction leaves its queue and its future is settled; all others stay as they are. -/
def resolve (host : Axi4Mm) (txn : Transaction) (status : Status (Option Bytes) AxiError) : Axi4Mm :=
  { host with
    pendingB := host.pendingB.filter (·.future ≠ txn.future)
    pendingR := host.pendingR.filter (·.future ≠ txn.future)
    futures := host.futures.settle txn.future status }

/-- A response resolves the transaction that it answers, and a failed send rejects its transaction. -/
def Resolves (self : Bus) : BusEvent → Prop
  | .response n frame => ∀ issued, self.issued[n]? = some issued →
      (self.step (.response n frame)).host = resolve self.host issued.txn (self.outcome issued frame)
  | .sendFailed n exc => ∀ issued, self.issued[n]? = some issued →
      (self.step (.sendFailed n exc)).host = { self.host with
        futures := self.host.futures.settle issued.txn.future (.exception exc) }
  | _ => True

/-- Every transaction of a kind among some is answered, or was failed with its queue. -/
def Closed (kind : Kind) (issued : List Issued) : Prop := ∀ other ∈ issued, other.txn.kind = kind → other.open = false

instance (kind : Kind) (issued : List Issued) : Decidable (Closed kind issued) :=
  inferInstanceAs (Decidable (∀ other ∈ issued, _))

/-- A response comes when those to all earlier transactions of its channel have come. One to a transaction that
was failed with its queue finds the queue empty, or is told apart by its ID. -/
def InTurn (self : Bus) : BusEvent → Prop
  | .response n frame => ∀ issued, self.issued[n]? = some issued →
      if issued.failed then
        Closed issued.txn.kind self.issued ∨
          (issued.id ≠ self.host.id ∧ (self.host.setup.codec.response frame.tail issued.txn.kind).isOk)
      else Closed issued.txn.kind (self.issued.take n)
  | _ => True

/-! ### Queues -/

def waiting (kind : Kind) (issued : List Issued) : List Transaction :=
  (issued.filter fun other => other.txn.kind = kind ∧ other.open = true).map Issued.txn

theorem waiting_append (kind : Kind) (front back : List Issued) :
    waiting kind (front ++ back) = waiting kind front ++ waiting kind back := by
  rw [waiting, List.filter_append, List.map_append]
  rfl

theorem waiting_cons_of (issued : Issued) {kind : Kind} (rest : List Issued)
    (waits : issued.txn.kind = kind ∧ issued.open = true) :
    waiting kind (issued :: rest) = issued.txn :: waiting kind rest := by
  rw [waiting, List.filter_cons, if_pos (decide_eq_true waits), List.map_cons]
  rfl

theorem waiting_cons_not (issued : Issued) {kind : Kind} (rest : List Issued)
    (waits : ¬(issued.txn.kind = kind ∧ issued.open = true)) :
    waiting kind (issued :: rest) = waiting kind rest := by
  rw [waiting, List.filter_cons, if_neg (by rwa [decide_eq_true_eq])]
  rfl

theorem waiting_eq_nil {kind : Kind} {issued : List Issued} : waiting kind issued = [] ↔ Closed kind issued := by
  rw [waiting, List.map_eq_nil_iff, List.filter_eq_nil_iff]
  simp only [decide_eq_true_eq, not_and, Bool.not_eq_true, Closed]

theorem mem_waiting {kind : Kind} {issued : List Issued} {txn : Transaction} (member : txn ∈ waiting kind issued) :
    ∃ other ∈ issued, other.txn = txn ∧ other.txn.kind = kind ∧ other.open = true := by
  obtain ⟨other, inside, same⟩ := List.mem_map.mp member
  obtain ⟨found, both⟩ := List.mem_filter.mp inside
  exact ⟨other, found, same, (decide_eq_true_eq.mp both).1, (decide_eq_true_eq.mp both).2⟩

theorem split_at {α : Type} {xs : List α} {n : Nat} {x : α} (here : xs[n]? = some x) :
    xs = xs.take n ++ x :: xs.drop (n + 1) := by
  obtain ⟨inside, rfl⟩ := List.getElem?_eq_some_iff.mp here
  rw [List.getElem_cons_drop, List.take_append_drop]

theorem modify_at {α : Type} {xs : List α} {n : Nat} {x : α} (here : xs[n]? = some x) (f : α → α) :
    xs.modify n f = xs.take n ++ f x :: xs.drop (n + 1) := by
  obtain ⟨inside, rfl⟩ := List.getElem?_eq_some_iff.mp here
  rw [List.modify_eq_take_cons_drop inside]

/-! ### The invariant -/

structure Matched (bus : Bus) : Prop where
  queue : ∀ kind, bus.host.queue kind = waiting kind bus.issued
  numbered : ∀ (n : Nat) (issued : Issued), bus.issued[n]? = some issued → issued.txn.future = n
  known : bus.host.futures.length = bus.issued.length
  current : ∀ issued ∈ bus.issued, issued.failed = false → issued.id = bus.host.id
  done : ∀ issued ∈ bus.issued, issued.open = false → ¬bus.host.futures.Pending issued.txn.future

theorem matched_start (setup : Axi4Setup) (id : Nat) : (start setup id).Matched where
  queue := fun kind => by cases kind <;> rfl
  numbered := nofun
  known := rfl
  current := nofun
  done := nofun

theorem Matched.issue {self : Bus} (matched : self.Matched) (kind : Kind) (burst : Burst) (data : Bytes) :
    (self.step (.issue kind burst data)).Matched where
  queue := by
    intro other
    rw [step, waiting_append, ← matched.queue other]
    cases kind <;> cases other <;> first | rfl | exact (List.append_nil _).symm
  numbered := by
    intro n issued here
    rw [step] at here
    by_cases inside : n < self.issued.length
    · rw [List.getElem?_append_left inside] at here
      exact matched.numbered n issued here
    · rw [List.getElem?_append_right (by omega)] at here
      obtain ⟨place, same⟩ := List.getElem?_eq_some_iff.mp here
      rw [List.length_singleton] at place
      have last : n = self.issued.length := by omega
      subst last
      rw [← same]
      simp only [Nat.sub_self, List.getElem_cons_zero, matched.known]
  known := by
    rw [step, List.length_append, ← matched.known]
    cases kind <;> exact List.length_append
  current := by
    intro issued member failed
    have same : (self.step (.issue kind burst data)).host.id = self.host.id := by cases kind <;> rfl
    rw [same]
    rcases List.mem_append.mp member with old | new
    · exact matched.current issued old failed
    · rw [List.mem_singleton.mp new]
  done := by
    intro issued member closed
    have futures : (self.step (.issue kind burst data)).host.futures = self.host.futures ++ [.pending] := by
      cases kind <;> rfl
    rw [futures, pending_append]
    rcases List.mem_append.mp member with old | new
    · rintro (pending | ⟨same, -⟩)
      · exact matched.done issued old closed pending
      · obtain ⟨n, here⟩ := List.mem_iff_getElem?.mp old
        have inside := (List.getElem?_eq_some_iff.mp here).1
        rw [matched.numbered n issued here, matched.known] at same
        omega
    · rw [List.mem_singleton.mp new] at closed
      cases closed

theorem Matched.settle {self : Bus} (matched : self.Matched) (future : Nat)
    {status : Status (Option Bytes) AxiError} (done : status ≠ .pending) :
    Matched { self with host := self.host.settle future status } where
  queue := fun kind => by
    rw [← matched.queue]
    cases kind <;> rfl
  numbered := matched.numbered
  known := (length_settle _ _ _).trans matched.known
  current := matched.current
  done := fun issued member closed pending =>
    matched.done issued member closed ((pending_settle done).mp pending).1

theorem waiting_failed (kind : Kind) (issued : List Issued) :
    waiting kind (issued.map fun other => { other with failed := true }) = [] := by
  rw [waiting_eq_nil]
  intro other member _
  obtain ⟨before, -, rfl⟩ := List.mem_map.mp member
  rw [Issued.open, Bool.not_true, Bool.and_false]

theorem Matched.failAll {self : Bus} (matched : self.Matched) (exc : AxiError) {host : Axi4Mm}
    (queues : ∀ kind, host.queue kind = []) (futures : host.futures = (self.host.failPending exc).futures) :
    Matched (self.failAll host) where
  queue := fun kind => (queues kind).trans (waiting_failed kind self.issued).symm
  numbered := by
    intro n issued here
    rw [Bus.failAll, List.getElem?_map, Option.map_eq_some_iff] at here
    obtain ⟨before, found, rfl⟩ := here
    exact matched.numbered n before found
  known := by
    rw [Bus.failAll, List.length_map, ← matched.known, futures, Axi4Mm.failPending, length_settleAll, length_settleAll]
  current := by
    intro issued member open_
    obtain ⟨before, -, rfl⟩ := List.mem_map.mp member
    cases open_
  done := by
    intro issued member _ pending
    obtain ⟨before, inside, rfl⟩ := List.mem_map.mp member
    change host.futures.Pending before.txn.future at pending
    have rejected : (Status.exception exc : Status (Option Bytes) AxiError) ≠ .pending := nofun
    rw [futures, Axi4Mm.failPending, pending_settleAll rejected, pending_settleAll rejected] at pending
    obtain ⟨⟨pending, notWrite⟩, notRead⟩ := pending
    by_cases waits : before.open = true
    · have queued : before.txn ∈ waiting before.txn.kind self.issued :=
        List.mem_map_of_mem (List.mem_filter.mpr ⟨inside, decide_eq_true ⟨rfl, waits⟩⟩)
      rw [← matched.queue] at queued
      cases kind : before.txn.kind with
      | read =>
        rw [kind] at queued
        exact notRead (List.mem_map_of_mem queued)
      | write =>
        rw [kind] at queued
        exact notWrite (List.mem_map_of_mem queued)
    · exact matched.done before inside (Bool.eq_false_iff.mpr waits) pending

theorem moveId_same (host : Axi4Mm) :
    (∀ kind, host.moveId.queue kind = host.queue kind) ∧ host.moveId.futures = host.futures := by
  rw [Axi4Mm.moveId]
  split
  · exact ⟨fun _ => rfl, rfl⟩
  · exact ⟨fun kind => by cases kind <;> rfl, rfl⟩

/-! ### A response -/

theorem Matched.others {self : Bus} (matched : self.Matched) {n : Nat} {issued : Issued}
    (here : self.issued[n]? = some issued) :
    (∀ other ∈ self.issued.take n, other.txn.future ≠ issued.txn.future) ∧
      ∀ other ∈ self.issued.drop (n + 1), other.txn.future ≠ issued.txn.future := by
  rw [matched.numbered n issued here]
  constructor
  · intro other member
    obtain ⟨m, found⟩ := List.mem_iff_getElem?.mp member
    have inside : m < n := by
      have bound := (List.getElem?_eq_some_iff.mp found).1
      rw [List.length_take] at bound
      omega
    rw [List.getElem?_take_of_lt inside] at found
    rw [matched.numbered m other found]
    omega
  · intro other member
    obtain ⟨m, found⟩ := List.mem_iff_getElem?.mp member
    rw [List.getElem?_drop] at found
    rw [matched.numbered _ other found]
    omega

theorem filter_waiting {kind : Kind} {issued : List Issued} {future : Nat}
    (others : ∀ other ∈ issued, other.txn.future ≠ future) :
    (waiting kind issued).filter (·.future ≠ future) = waiting kind issued := by
  refine List.filter_eq_self.mpr fun txn member => ?_
  obtain ⟨other, inside, rfl, -, -⟩ := mem_waiting member
  exact decide_eq_true (others other inside)

theorem queue_resolve (host : Axi4Mm) (txn : Transaction) (status : Status (Option Bytes) AxiError) (kind : Kind) :
    (resolve host txn status).queue kind = (host.queue kind).filter (·.future ≠ txn.future) := by
  cases kind <;> rfl

theorem waiting_answered {self : Bus} (matched : self.Matched) {n : Nat} {issued : Issued}
    (here : self.issued[n]? = some issued) (kind : Kind) :
    (waiting kind self.issued).filter (·.future ≠ issued.txn.future) =
        waiting kind (self.issued.take n) ++ waiting kind (self.issued.drop (n + 1)) ∧
      waiting kind (self.issued.modify n answer) =
        waiting kind (self.issued.take n) ++ waiting kind (self.issued.drop (n + 1)) := by
  obtain ⟨before, behind⟩ := matched.others here
  constructor
  · conv_lhs => rw [split_at here]
    rw [waiting_append, List.filter_append, filter_waiting before]
    by_cases waits : issued.txn.kind = kind ∧ issued.open = true
    · rw [waiting_cons_of _ _ waits, List.filter_cons, if_neg (by simp), filter_waiting behind]
    · rw [waiting_cons_not _ _ waits, filter_waiting behind]
  · rw [modify_at here, waiting_append, waiting_cons_not _ _ (fun both => by cases both.2)]

theorem Matched.resolved {self : Bus} (matched : self.Matched) {n : Nat} {issued : Issued}
    (here : self.issued[n]? = some issued) {status : Status (Option Bytes) AxiError} (done : status ≠ .pending) :
    Matched ⟨resolve self.host issued.txn status, self.issued.modify n answer⟩ where
  queue := by
    intro kind
    obtain ⟨left, right⟩ := waiting_answered matched here kind
    rw [queue_resolve, matched.queue, left, right]
  numbered := by
    intro m other found
    rw [List.getElem?_modify] at found
    obtain ⟨before, old, same⟩ := Option.map_eq_some_iff.mp found
    have numbered := matched.numbered m before old
    rw [← same]
    split <;> exact numbered
  known := by
    rw [List.length_modify, ← matched.known]
    exact length_settle _ _ _
  current := by
    intro other member failed
    rw [modify_at here] at member
    have whole := split_at here
    rcases List.mem_append.mp member with front | rest
    · exact matched.current other (List.mem_of_mem_take front) failed
    · rcases List.mem_cons.mp rest with rfl | back
      · exact matched.current issued (List.mem_of_getElem? here) failed
      · exact matched.current other (List.mem_of_mem_drop back) failed
  done := by
    intro other member closed pending
    obtain ⟨pending, different⟩ := (pending_settle done).mp pending
    rw [modify_at here] at member
    rcases List.mem_append.mp member with front | rest
    · exact matched.done other (List.mem_of_mem_take front) closed pending
    · rcases List.mem_cons.mp rest with rfl | back
      · exact different rfl
      · exact matched.done other (List.mem_of_mem_drop back) closed pending

theorem onResponse_head {host : Axi4Mm} {kind : Kind} {txn : Transaction} {rest : List Transaction} {payload : Bytes}
    (queue : host.queue kind = txn :: rest)
    (echoes : ∀ response, host.setup.codec.response payload kind = .ok response → response.id = host.id) :
    ∃ status, host.onResponse kind payload = (host.withQueue rest kind).settle txn.future status := by
  rw [Axi4Mm.onResponse, queue]
  dsimp only
  cases decoded : host.setup.codec.response payload kind with
  | error text => exact ⟨_, rfl⟩
  | ok response =>
    dsimp only
    rw [if_neg (not_not.mpr (echoes response decoded))]
    exact ⟨_, rfl⟩

theorem queue_withQueue (host : Axi4Mm) (rest : List Transaction) (kind : Kind) (future : Nat)
    (status : Status (Option Bytes) AxiError) : ((host.withQueue rest kind).settle future status).queue kind = rest := by
  cases kind <;> rfl

theorem resolve_eq {host : Axi4Mm} {txn : Transaction} {kind : Kind} {rest : List Transaction}
    (own : (host.queue kind).filter (·.future ≠ txn.future) = rest)
    (others : ∀ other ≠ kind, (host.queue other).filter (·.future ≠ txn.future) = host.queue other)
    (status : Status (Option Bytes) AxiError) :
    resolve host txn status = (host.withQueue rest kind).settle txn.future status := by
  subst own
  cases kind with
  | read =>
    have same := others .write nofun
    rw [Axi4Mm.queue] at same
    rw [resolve, same]
    rfl
  | write =>
    have same := others .read nofun
    rw [Axi4Mm.queue] at same
    rw [resolve, same]
    rfl

theorem Matched.head_once {self : Bus} (matched : self.Matched) {kind : Kind} {txn : Transaction}
    {rest : List Transaction} (queue : self.host.queue kind = txn :: rest) : txn ∉ rest := by
  have whole : self.issued.map (fun issued => issued.txn.future) = List.range self.issued.length := by
    apply List.ext_getElem?
    intro n
    rw [List.getElem?_map]
    cases here : self.issued[n]? with
    | none => rw [List.getElem?_eq_none (by rw [List.length_range]; exact List.getElem?_eq_none_iff.mp here)]; rfl
    | some issued =>
      rw [List.getElem?_range (List.getElem?_eq_some_iff.mp here).1, Option.map_some, matched.numbered n issued here]
  have distinct : ((self.host.queue kind).map Transaction.future).Nodup := by
    rw [matched.queue, waiting, List.map_map]
    refine List.Sublist.nodup (List.filter_sublist.map _) ?_
    change (self.issued.map (fun issued => issued.txn.future)).Nodup
    rw [whole]
    exact List.nodup_range
  rw [queue, List.map_cons, List.nodup_cons] at distinct
  exact fun member => distinct.1 (List.mem_map_of_mem member)

/-- A response takes the head of its queue, and so does what it should resolve only when both are the same. -/
theorem Matched.resolves_current {self : Bus} (matched : self.Matched) {n : Nat} {issued : Issued}
    (here : self.issued[n]? = some issued) (waits : issued.open = true) {payload : Bytes}
    (echoes : ∀ response, self.host.setup.codec.response payload issued.txn.kind = .ok response →
      response.id = issued.id) {channel : UInt8} :
    self.host.onResponse issued.txn.kind payload =
        resolve self.host issued.txn (self.outcome issued (channel :: payload)) ↔
      Closed issued.txn.kind (self.issued.take n) := by
  have current : issued.id = self.host.id :=
    matched.current issued (List.mem_of_getElem? here) (by cases failed : issued.failed <;> simp_all [Issued.open])
  rw [current] at echoes
  have queue : self.host.queue issued.txn.kind = waiting issued.txn.kind (self.issued.take n) ++
      issued.txn :: waiting issued.txn.kind (self.issued.drop (n + 1)) := by
    rw [matched.queue]
    conv_lhs => rw [split_at here]
    rw [waiting_append, waiting_cons_of _ _ ⟨rfl, waits⟩]
  rw [← waiting_eq_nil]
  obtain ⟨before, behind⟩ := matched.others here
  cases front : waiting issued.txn.kind (self.issued.take n) with
  | nil =>
    refine iff_of_true ?_ rfl
    rw [front, List.nil_append] at queue
    have own : (self.host.queue issued.txn.kind).filter (·.future ≠ issued.txn.future) =
        waiting issued.txn.kind (self.issued.drop (n + 1)) := by
      rw [matched.queue, (waiting_answered matched here _).1, front, List.nil_append]
    have others : ∀ other ≠ issued.txn.kind,
        (self.host.queue other).filter (·.future ≠ issued.txn.future) = self.host.queue other := by
      intro other different
      rw [matched.queue, (waiting_answered matched here other).1]
      conv_rhs => rw [split_at here]
      rw [waiting_append, waiting_cons_not _ _ (fun both => different both.1.symm)]
    rw [resolve_eq own others, Axi4Mm.onResponse, queue, outcome, List.tail_cons]
    dsimp only
    cases decoded : self.host.setup.codec.response payload issued.txn.kind with
    | error text => rfl
    | ok response =>
      dsimp only
      rw [if_neg (not_not.mpr (echoes response decoded))]
  | cons head rest =>
    refine iff_of_false (fun same => ?_) (List.cons_ne_nil _ _)
    rw [front, List.cons_append] at queue
    obtain ⟨status, taken⟩ := onResponse_head queue echoes
    have queues := congrArg (fun host => Axi4Mm.queue host issued.txn.kind) (taken.symm.trans same)
    rw [queue_withQueue, queue_resolve, matched.queue, (waiting_answered matched here _).1, front] at queues
    refine matched.head_once queue ?_
    rw [queues]
    exact List.mem_cons_self

/-- A late response changes nothing when it finds no transaction, or another ID. -/
theorem Matched.resolves_late {self : Bus} (matched : self.Matched) {n : Nat} {issued : Issued}
    (here : self.issued[n]? = some issued) (failed : issued.failed = true) {payload : Bytes}
    (echoes : ∀ response, self.host.setup.codec.response payload issued.txn.kind = .ok response →
      response.id = issued.id) (status : Status (Option Bytes) AxiError) :
    self.host.onResponse issued.txn.kind payload = resolve self.host issued.txn status ↔
      Closed issued.txn.kind self.issued ∨
        (issued.id ≠ self.host.id ∧ (self.host.setup.codec.response payload issued.txn.kind).isOk) := by
  have closed : issued.open = false := by rw [Issued.open, failed, Bool.not_true, Bool.and_false]
  have settled := matched.done issued (List.mem_of_getElem? here) closed
  have untouched : ∀ kind, (self.host.queue kind).filter (·.future ≠ issued.txn.future) = self.host.queue kind := by
    intro kind
    rw [matched.queue, (waiting_answered matched here kind).1]
    conv_rhs => rw [split_at here]
    rw [waiting_append, waiting_cons_not _ _ (fun both => by rw [closed] at both; cases both.2)]
  have same : resolve self.host issued.txn status = self.host := by
    have writes : self.host.pendingB.filter (·.future ≠ issued.txn.future) = self.host.pendingB := untouched .write
    have reads : self.host.pendingR.filter (·.future ≠ issued.txn.future) = self.host.pendingR := untouched .read
    rw [resolve, writes, reads, Table.settle, if_neg settled]
  rw [same, ← waiting_eq_nil, ← matched.queue, Axi4Mm.onResponse]
  cases queue : self.host.queue issued.txn.kind with
  | nil => exact iff_of_true rfl (.inl rfl)
  | cons head rest =>
    have shorter : ∀ future status, (self.host.withQueue rest issued.txn.kind).settle future status ≠ self.host := by
      intro future status equal
      have queues := congrArg (fun host => Axi4Mm.queue host issued.txn.kind) equal
      rw [queue_withQueue, queue] at queues
      exact absurd (congrArg List.length queues) (by simp)
    dsimp only
    cases decoded : self.host.setup.codec.response payload issued.txn.kind with
    | error text => exact iff_of_false (shorter _ _) (by simp [Except.isOk, Except.toBool])
    | ok response =>
      dsimp only
      rw [echoes response decoded]
      by_cases different : issued.id ≠ self.host.id
      · rw [if_pos different]
        exact iff_of_true rfl (.inr ⟨different, rfl⟩)
      · rw [if_neg different]
        exact iff_of_false (shorter _ _) (by simp [different])

theorem Matched.response {self : Bus} (matched : self.Matched) {n : Nat} {frame : Bytes}
    (legal : self.Legal (.response n frame)) :
    (self.Resolves (.response n frame) ↔ self.InTurn (.response n frame)) ∧
      (self.Resolves (.response n frame) → (self.step (.response n frame)).Matched) := by
  obtain ⟨issued, channel, payload, here, rfl, unanswered, answers, echoes⟩ : ∃ issued channel payload,
      self.issued[n]? = some issued ∧ frame = channel :: payload ∧ issued.answered = false ∧
        channelKind channel = some issued.txn.kind ∧
        ∀ response, self.host.setup.codec.response payload issued.txn.kind = .ok response → response.id = issued.id := by
    cases here : self.issued[n]? with
    | none => simp only [Legal, here] at legal
    | some issued =>
      cases frame with
      | nil => simp only [Legal, here] at legal
      | cons channel payload => exact ⟨issued, channel, payload, rfl, rfl, by simpa only [Legal, here] using legal⟩
  have delivered : self.host.onFrame (channel :: payload) = self.host.onResponse issued.txn.kind payload := by
    rw [Axi4Mm.onFrame, answers]
  have resolves : self.Resolves (.response n (channel :: payload)) ↔
      self.host.onResponse issued.txn.kind payload =
        resolve self.host issued.txn (self.outcome issued (channel :: payload)) := by
    rw [Resolves, here]
    exact ⟨fun all => delivered.symm.trans (all issued rfl), fun same _ found => by
      cases found
      exact delivered.trans same⟩
  constructor
  · rw [resolves, InTurn, here]
    cases failed : issued.failed with
    | true =>
      rw [matched.resolves_late here failed echoes]
      simp [failed]
    | false =>
      rw [matched.resolves_current here (by rw [Issued.open, unanswered, failed]; rfl) echoes]
      simp [failed]
  · intro same
    rw [step, delivered, resolves.mp same]
    refine matched.resolved here ?_
    unfold outcome Transaction.outcome
    repeat' split
    all_goals rintro ⟨⟩

/-! ### Runs -/

theorem Matched.step {self : Bus} (matched : self.Matched) {event : BusEvent} (legal : self.Legal event)
    (resolves : self.Resolves event) : (self.step event).Matched := by
  cases event with
  | issue kind burst data => exact matched.issue kind burst data
  | sendFailed n exc =>
    rw [Bus.step]
    split
    · exact matched.settle _ nofun
    · exact matched
  | response n frame => exact (matched.response legal).2 resolves
  | timeout n =>
    rw [Bus.step]
    split
    · rename_i issued here
      split
      · exact matched.failAll _ (fun kind => ((moveId_same _).1 kind).trans (by cases kind <;> rfl)) (moveId_same _).2
      · exact matched
    · exact matched
  | failure exc =>
    exact matched.failAll exc (fun kind => by cases kind <;> rfl) rfl

theorem Matched.resolves_iff {self : Bus} (matched : self.Matched) {event : BusEvent} (legal : self.Legal event) :
    self.Resolves event ↔ self.InTurn event := by
  cases event with
  | response n frame => exact (matched.response legal).1
  | sendFailed n exc =>
    refine iff_of_true (fun issued here => ?_) trivial
    rw [Bus.step, here]
    rfl
  | issue kind burst data => exact Iff.rfl
  | timeout n => exact Iff.rfl
  | failure exc => exact Iff.rfl

theorem Matched.always {self : Bus} (matched : self.Matched) {events : List BusEvent}
    (legal : self.Always Legal events) : self.Always Resolves events ↔ self.Always InTurn events := by
  induction events generalizing self with
  | nil => exact Iff.rfl
  | cons event events ih =>
    obtain ⟨first, rest⟩ := legal
    have here := matched.resolves_iff first
    constructor
    · rintro ⟨resolves, later⟩
      exact ⟨here.mp resolves, (ih (matched.step first resolves) rest).mp later⟩
    · rintro ⟨inTurn, later⟩
      have resolves := here.mpr inTurn
      exact ⟨resolves, (ih (matched.step first resolves) rest).mpr later⟩

/-- In a run, every response resolves the transaction that it answers and no other, and every failed send
rejects its transaction, exactly when no response comes out of turn. -/
theorem resolves_iff_inTurn (setup : Axi4Setup) (id : Nat) (events : List BusEvent)
    (legal : (start setup id).Always Legal events) :
    (start setup id).Always Resolves events ↔ (start setup id).Always InTurn events :=
  (matched_start setup id).always legal

def twoWrites : List BusEvent := [.issue .write ⟨0, 1, 0⟩ [1, 2, 3, 4], .issue .write ⟨4, 1, 0⟩ [5, 6, 7, 8]]

theorem resolves_two_writes :
    (start (plainSetup 2) 0).Always Resolves (twoWrites ++ [.response 0 [0, 0], .response 1 [0, 0]]) := by
  have echoes : ∀ response, (plainCodec 2).response [0] .write = .ok response → response.id = 0 := fun _ same => by
    cases same
    rfl
  have legal : (start (plainSetup 2) 0).Always Legal (twoWrites ++ [.response 0 [0, 0], .response 1 [0, 0]]) :=
    ⟨trivial, trivial, ⟨rfl, rfl, echoes⟩, ⟨rfl, rfl, echoes⟩, trivial⟩
  refine (resolves_iff_inTurn (plainSetup 2) 0 _ legal).mpr ⟨trivial, trivial, ?_, ?_, trivial⟩
  · intro issued here
    cases here
    decide
  · intro issued here
    cases here
    decide

/-- The response to the second write is taken by the first one, whose send has failed. -/
theorem failed_send_takes_response :
    let events := twoWrites ++ [.sendFailed 0 (.transport "unreachable"), .response 1 [0, 0]]
    (start (plainSetup 2) 0).Always Legal events ∧ ¬(start (plainSetup 2) 0).Always Resolves events ∧
      ((start (plainSetup 2) 0).run events).host.futures = [.exception (.transport "unreachable"), .pending] := by
  have echoes : ∀ response, (plainCodec 2).response [0] .write = .ok response → response.id = 0 := fun _ same => by
    cases same
    rfl
  refine ⟨⟨trivial, trivial, trivial, ⟨rfl, rfl, echoes⟩, trivial⟩, ?_, by decide⟩
  rintro ⟨-, -, -, resolves, -⟩
  have pending := congrArg Axi4Mm.futures (resolves _ rfl)
  revert pending
  decide

end Bus

end Acrobe.Nsl
