import Acrobe.Lib.Delivery
import Acrobe.Lib.LittleEndian
import Acrobe.Lib.Transition
import Mathlib

/-!
# The router

`Router` multiplexes endpoints over one channel by a header byte. Receives wait for a frame of their
own context; the channel is read one frame at a time while any of them waits.
-/

namespace Acrobe.Bnoc.Routed
open LittleEndian Lib Futures Table

variable {ε : Type}

structure Context where
  destination : Nat
  source : Nat
  deriving DecidableEq

namespace Context

def header (self : Context) : UInt8 := UInt8.ofNat (self.destination &&& 0xf ||| (self.source &&& 0xf) <<< 4)

def fromHeader (byte : UInt8) : Context := { destination := byte.toNat &&& 0xf, source := byte.toNat >>> 4 }

end Context

/-- What a receive gives. -/
abbrev Message := Bytes × Context

inductive Op where
  | send (data : Bytes) (context : Context)
  /-- With the index of its future. -/
  | recv (context : Context) (future : Nat)

def Op.packet? : Op → Option Bytes
  | .send data context => some (context.header :: data)
  | .recv _ _ => none

def Op.receiver? : Op → Option (Context × Nat)
  | .send _ _ => none
  | .recv context future => some (context, future)

structure Router (ε : Type) where
  posted : List Op
  rxQueues : Context → List Bytes
  pending : List (Context × Nat)
  draining : Bool
  /-- The futures of the receives, and the contexts that they were posted for. -/
  futures : Table Message ε
  contexts : List Context
  /-- What the channel below was given, and its receives that it has not resolved. -/
  sent : List Bytes
  asked : Nat
  /-- Every frame so far, and those that no receive of the channel has taken. -/
  received : List Bytes
  inbound : List Bytes
  /-- Resolved receives of the channel whose callback has not run. -/
  resolved : List (Except ε Bytes)

namespace Router

def start : Router ε :=
  { posted := [], rxQueues := fun _ => [], pending := [], draining := false, futures := [], contexts := [], sent := [],
    asked := 0, received := [], inbound := [], resolved := [] }

def drain (self : Router ε) : Router ε := { self with draining := true, asked := self.asked + 1 }

variable [DecidableEq ε]

def recvOp (self : Router ε) (context : Context) (future : Nat) : Router ε :=
  match self.rxQueues context with
  | payload :: rest =>
    if self.futures.Pending future then
      { self with
        futures := self.futures.settle future (.result (payload, context))
        rxQueues := Function.update self.rxQueues context rest }
    else self
  | [] => { self with pending := self.pending ++ [(context, future)] }

def recvOps (self : Router ε) : List (Context × Nat) → Router ε
  | [] => self
  | (context, future) :: receivers => recvOps (self.recvOp context future) receivers

/-- The sends of the batch go first. -/
def flushOps (self : Router ε) (batch : List Op) : Router ε :=
  let self := { self with sent := self.sent ++ batch.filterMap Op.packet? }
  let self := self.recvOps (batch.filterMap Op.receiver?)
  if self.pending ≠ [] ∧ self.draining = false then self.drain else self

def isFor (context : Context) (receiver : Context × Nat) : Bool := decide (receiver.1 = context)

def deliver (self : Router ε) (context : Context) (payload : Bytes) : Router ε :=
  match self.pending.find? (isFor context) with
  | some (_, future) =>
    { self with
      futures := self.futures.settle future (.result (payload, context))
      pending := self.pending.eraseP (isFor context) }
  | none => { self with rxQueues := Function.update self.rxQueues context (self.rxQueues context ++ [payload]) }

def onFrame (self : Router ε) : Except ε Bytes → Router ε
  | .error error =>
    { self with
      pending := []
      draining := false
      futures := self.futures.settleAll (self.pending.map Prod.snd) (.exception error) }
  -- `data[0]` raises in the callback, and nothing else happens
  | .ok [] => self
  | .ok (header :: payload) =>
    let self := self.deliver (.fromHeader header) payload
    if self.pending ≠ [] then self.drain else { self with draining := false }

end Router

inductive Event (ε : Type) where
  | send (data : Bytes) (context : Context)
  /-- Without a future when nobody waits for it. -/
  | recv (context : Context) (waits : Bool)
  | abandon (future : Nat)
  | flush
  | receive (frame : Bytes)
  | resolve
  | fail (error : ε)
  | callback

namespace Router
variable [DecidableEq ε]

def step (self : Router ε) : Event ε → Option (Router ε)
  | .send data context => some { self with posted := self.posted ++ [.send data context] }
  | .recv context waits =>
    some { self with
      posted := self.posted ++ [.recv context self.futures.length]
      futures := self.futures ++ [if waits then .pending else .cancelled]
      contexts := self.contexts ++ [context] }
  | .abandon future => some { self with futures := self.futures.settle future .cancelled }
  | .flush => if self.posted = [] then none else some ({ self with posted := [] }.flushOps self.posted)
  | .receive frame => some { self with received := self.received ++ [frame], inbound := self.inbound ++ [frame] }
  | .resolve =>
    match self.asked, self.inbound with
    | asked + 1, frame :: inbound =>
      some { self with asked := asked, inbound := inbound, resolved := self.resolved ++ [.ok frame] }
    | _, _ => none
  | .fail error =>
    match self.asked with
    | asked + 1 => some { self with asked := asked, resolved := self.resolved ++ [.error error] }
    | 0 => none
  | .callback =>
    match self.resolved with
    | outcome :: resolved => some ({ self with resolved := resolved }.onFrame outcome)
    | [] => none

/-! ### Delivery -/

def payload? (context : Context) : Bytes → Option Bytes
  | [] => none
  | header :: payload => if Context.fromHeader header = context then some payload else none

def payloads (context : Context) (frames : List Bytes) : List Bytes := frames.filterMap (payload? context)

def channel (context : Context) (message : Message) : Bool := decide (message.2 = context)

def delivered (context : Context) (futures : Table Message ε) : List Bytes :=
  ((results futures).filter (channel context)).map Prod.fst

def inFlight (self : Router ε) : List Bytes := self.resolved.filterMap Except.toOption ++ self.inbound

/-- Each frame goes to one receive of its context in turn, or waits for the next one. -/
structure Delivers (router : Router ε) : Prop where
  frames : ∀ context, payloads context router.received =
    delivered context router.futures ++ (router.rxQueues context ++ payloads context router.inFlight)
  own : ∀ (future : Nat) payload context, router.futures[future]? = some (Status.result (payload, context)) →
    router.contexts[future]? = some context
  oldest : ∀ (waiter later : Nat) payload context, router.futures.Pending waiter →
    router.contexts[waiter]? = some context →
    router.futures[later]? = some (Status.result (payload, context)) → later < waiter
  unmatched : ∀ context future, (context, future) ∈ router.pending → router.rxQueues context = []
  drains : router.pending ≠ [] → router.asked + router.resolved.length = 1

/-- Nothing is left to do before another operation or frame. -/
def Quiescent (self : Router ε) : Prop :=
  self.posted = [] ∧ self.resolved = [] ∧ (self.asked = 0 ∨ self.inbound = [])

/-- What the router and its channel do without another operation, frame or error. -/
def Own (event : Event ε) : Prop := event = .flush ∨ event = .resolve ∨ event = .callback

/-- Nothing is left to do, and a frame is asked for while a receive waits. -/
def AtRest (self : Router ε) : Prop := self.Quiescent ∧ (self.pending ≠ [] → self.asked = 1)

/-- The frame that is handled has a header, and the oldest receive queued for its context is live. -/
def Serves (self : Router ε) : Event ε → Prop
  | .callback => match self.resolved with
    | .ok [] :: _ => False
    | .ok (header :: _) :: _ => ∀ receiver ∈ self.pending.find? (isFor (.fromHeader header)),
      self.futures.Pending receiver.2
    | _ => True
  | _ => True

/-- The receives of a context that have not got their frame. -/
def waiters (context : Context) (receivers : List (Context × Nat)) : List Nat :=
  (receivers.filter (isFor context)).map Prod.snd

/-- The frames are accounted for, and the pending receives and those behind them are queued. -/
structure Accounted (behind : List (Context × Nat)) (router : Router ε) : Prop where
  frames : ∀ context, payloads context router.received =
    delivered context router.futures ++ (router.rxQueues context ++ payloads context router.inFlight)
  queued : ∀ context, Queued (channel context) router.futures (waiters context (router.pending ++ behind))
  waiting : ∀ waiter, router.futures.Pending waiter → waiter ∈ (router.pending ++ behind).map Prod.snd
  length : router.contexts.length = router.futures.length
  own : ∀ (future : Nat) payload context, router.futures[future]? = some (Status.result (payload, context)) →
    router.contexts[future]? = some context
  posted : ∀ context future, (context, future) ∈ router.pending ++ behind → router.contexts[future]? = some context
  unmatched : ∀ context future, (context, future) ∈ router.pending → router.rxQueues context = []

theorem isFor_iff {context : Context} {receiver : Context × Nat} :
    isFor context receiver = true ↔ receiver.1 = context := decide_eq_true_iff

theorem waiters_append (context : Context) (front back : List (Context × Nat)) :
    waiters context (front ++ back) = waiters context front ++ waiters context back := by
  rw [waiters, List.filter_append, List.map_append]
  rfl

theorem waiters_cons_self (context : Context) (future : Nat) (rest : List (Context × Nat)) :
    waiters context ((context, future) :: rest) = future :: waiters context rest := by
  have mine : isFor context (context, future) = true := decide_eq_true rfl
  rw [waiters, List.filter_cons, if_pos mine]
  rfl

theorem waiters_cons_ne {context other : Context} (different : other ≠ context) (future : Nat)
    (rest : List (Context × Nat)) : waiters context ((other, future) :: rest) = waiters context rest := by
  rw [waiters, List.filter_cons, if_neg (fun same => different (isFor_iff.mp same))]
  rfl

theorem mem_waiters {context : Context} {future : Nat} {receivers : List (Context × Nat)} :
    future ∈ waiters context receivers ↔ (context, future) ∈ receivers := by
  rw [waiters, List.mem_map]
  constructor
  · rintro ⟨⟨other, same⟩, member, rfl⟩
    obtain ⟨inside, matched⟩ := List.mem_filter.mp member
    obtain rfl := isFor_iff.mp matched
    exact inside
  · exact fun member => ⟨(context, future), List.mem_filter.mpr ⟨member, isFor_iff.mpr rfl⟩, rfl⟩

/-- A message that is handed to the first receive queued for its context. -/
structure Handed (front back : List (Context × Nat)) (future : Nat) (context : Context) (payload : Bytes)
    (futures : Table Message ε) : Prop where
  queued : ∀ other, Queued (channel other) (futures.settle future (.result (payload, context)))
    (waiters other (front ++ back))
  same : delivered context (futures.settle future (.result (payload, context))) = delivered context futures ++ [payload]
  others : ∀ other ≠ context,
    delivered other (futures.settle future (.result (payload, context))) = delivered other futures

theorem handed {front back : List (Context × Nat)} {future : Nat} {context : Context} {futures : Table Message ε}
    (queued : ∀ other, Queued (channel other) futures (waiters other (front ++ (context, future) :: back)))
    (first : waiters context front = []) (pending : futures.Pending future) (payload : Bytes) :
    Handed front back future context payload futures := by
  have mine := queued context
  rw [waiters_append, first, List.nil_append, waiters_cons_self] at mine
  obtain ⟨more, left⟩ := mine.deliver pending (decide_eq_true rfl : channel context (payload, context) = true)
  have apart (other : Context) (different : other ≠ context) : channel other (payload, context) = false :=
    decide_eq_false fun same => different same.symm
  refine ⟨fun other => ?_, ?_, fun other different => ?_⟩
  · by_cases same : other = context
    · subst same
      rw [waiters_append, first, List.nil_append]
      exact left
    · have theirs := queued other
      rw [waiters_append, waiters_cons_ne (fun equal => same equal.symm), ← waiters_append] at theirs
      refine theirs.settle (.inl ?_)
      rintro value equal
      cases equal
      exact apart other same
  · rw [delivered, more, List.map_append]
    rfl
  · rw [delivered, results_settle_other pending (apart other different)]
    rfl

theorem delivered_settle_none (context : Context) (futures : Table Message ε) (future : Nat) {status : Status Message ε}
    (empty : status.result? = none) : delivered context (futures.settle future status) = delivered context futures := by
  rw [delivered, results_settle_none _ _ empty]
  rfl

theorem payloads_cons (context : Context) (header : UInt8) (payload : Bytes) (frames : List Bytes) :
    payloads context ((header :: payload) :: frames) =
      (if Context.fromHeader header = context then [payload] else []) ++ payloads context frames := by
  rw [payloads, List.filterMap_cons, payload?]
  by_cases same : Context.fromHeader header = context
  · rw [if_pos same, if_pos same]
    rfl
  · rw [if_neg same, if_neg same]
    rfl

theorem Accounted.hand {self : Router ε} {front back : List (Context × Nat)} {future : Nat} {context : Context}
    {payload : Bytes} {behind left : List (Context × Nat)} {rxQueues : Context → List Bytes}
    {pending : List (Context × Nat)} (resolved : List (Except ε Bytes)) (accounted : self.Accounted behind)
    (split : self.pending ++ behind = front ++ (context, future) :: back) (rest : pending ++ left = front ++ back)
    (handed : Handed front back future context payload self.futures) (live : self.futures.Pending future)
    (mine : self.rxQueues context ++ payloads context self.inFlight =
      payload :: (rxQueues context ++ payloads context (resolved.filterMap Except.toOption ++ self.inbound)))
    (others : ∀ other ≠ context, self.rxQueues other ++ payloads other self.inFlight =
      rxQueues other ++ payloads other (resolved.filterMap Except.toOption ++ self.inbound))
    (unmatched : ∀ other future, (other, future) ∈ pending → rxQueues other = []) :
    Accounted left { self with
      futures := self.futures.settle future (.result (payload, context))
      rxQueues := rxQueues, pending := pending, resolved := resolved } where
  frames := by
    intro other
    rw [accounted.frames]
    by_cases same : other = context
    · subst same
      rw [mine]
      change _ = delivered other (self.futures.settle future (.result (payload, other))) ++ _
      rw [handed.same, List.append_assoc]
      rfl
    · rw [others other same]
      change _ = delivered other (self.futures.settle future (.result (payload, context))) ++ _
      rw [handed.others other same]
      rfl
  queued := by
    intro other
    change Queued _ _ (waiters other (pending ++ left))
    rw [rest]
    exact handed.queued other
  waiting := by
    intro waiter waits
    have done : (Status.result (payload, context) : Status Message ε) ≠ .pending := nofun
    obtain ⟨before, other⟩ := (pending_settle done).mp waits
    have member := accounted.waiting waiter before
    change waiter ∈ (pending ++ left).map Prod.snd
    rw [split, List.map_append, List.map_cons, List.mem_append, List.mem_cons] at member
    rw [rest, List.map_append, List.mem_append]
    exact member.imp id fun either => either.resolve_left other
  length := by
    rw [length_settle]
    exact accounted.length
  own := by
    intro other value given found
    by_cases same : other = future
    · subst same
      change (self.futures.settle other _)[other]? = _ at found
      rw [settle_of_pending live] at found
      cases found
      exact accounted.posted context other (by rw [split]; exact List.mem_append_right _ List.mem_cons_self)
    · exact accounted.own other value given ((settle_of_ne same _).symm.trans found)
  posted := by
    intro other waiter member
    change (other, waiter) ∈ pending ++ left at member
    apply accounted.posted other waiter
    rw [rest, List.mem_append] at member
    rw [split, List.mem_append, List.mem_cons]
    exact member.imp id .inr
  unmatched := unmatched

theorem Accounted.recvOp {self : Router ε} {context : Context} {future : Nat} {behind : List (Context × Nat)}
    (accounted : self.Accounted ((context, future) :: behind)) : (self.recvOp context future).Accounted behind := by
  rw [Router.recvOp]
  split
  · rename_i payload rest queue
    have none : waiters context self.pending = [] := by
      apply List.eq_nil_iff_forall_not_mem.mpr
      intro waiter member
      have empty := accounted.unmatched context waiter (mem_waiters.mp member)
      rw [queue] at empty
      cases empty
    split
    · rename_i live
      refine accounted.hand self.resolved rfl rfl (handed accounted.queued none live payload) live ?_ ?_ ?_
      · rw [queue, Function.update_self]
        rfl
      · intro other different
        rw [Function.update_of_ne different]
        rfl
      · intro other waiter member
        by_cases same : other = context
        · subst same
          have inside := mem_waiters.mpr member
          rw [none] at inside
          cases inside
        · rw [Function.update_of_ne same]
          exact accounted.unmatched other waiter member
    · rename_i done
      refine ⟨accounted.frames, fun other => (accounted.queued other).sublist ?_, fun waiter waits => ?_,
        accounted.length, accounted.own, fun other waiter member => accounted.posted other waiter ?_,
        accounted.unmatched⟩
      · rw [waiters_append, waiters_append]
        refine (List.Sublist.refl _).append ?_
        exact ((List.sublist_cons_self _ _).filter _).map _
      · have member := accounted.waiting waiter waits
        rw [List.map_append, List.map_cons, List.mem_append, List.mem_cons] at member
        rw [List.map_append, List.mem_append]
        refine member.imp id fun either => either.resolve_left ?_
        rintro rfl
        exact done waits
      · rw [List.mem_append] at member ⊢
        exact member.imp id (List.mem_cons_of_mem _)
  · rename_i queue
    have shifted : (self.pending ++ [(context, future)]) ++ behind = self.pending ++ (context, future) :: behind := by
      rw [List.append_assoc]
      rfl
    refine ⟨accounted.frames, fun other => ?_, fun waiter waits => ?_, accounted.length, accounted.own,
      fun other waiter member => accounted.posted other waiter ?_, fun other waiter member => ?_⟩
    · rw [shifted]
      exact accounted.queued other
    · rw [shifted]
      exact accounted.waiting waiter waits
    · rw [shifted] at member
      exact member
    · rcases List.mem_append.mp member with before | last
      · exact accounted.unmatched other waiter before
      · cases List.mem_singleton.mp last
        exact queue

theorem Accounted.recvOps {self : Router ε} {receivers : List (Context × Nat)} (accounted : self.Accounted receivers) :
    (self.recvOps receivers).Accounted [] := by
  induction receivers generalizing self with
  | nil => exact accounted
  | cons receiver receivers ih => exact ih accounted.recvOp

theorem Accounted.deliver {self : Router ε} {header : UInt8} {payload : Bytes} {behind : List (Context × Nat)}
    {resolved : List (Except ε Bytes)} (accounted : self.Accounted behind)
    (first : self.resolved = .ok (header :: payload) :: resolved)
    (live : ∀ receiver ∈ self.pending.find? (isFor (.fromHeader header)), self.futures.Pending receiver.2) :
    Accounted behind ({ self with resolved := resolved }.deliver (.fromHeader header) payload) := by
  have flight (context : Context) : payloads context self.inFlight =
      (if Context.fromHeader header = context then [payload] else []) ++
        payloads context (resolved.filterMap Except.toOption ++ self.inbound) := by
    rw [inFlight, first]
    exact payloads_cons context header payload _
  rw [Router.deliver]
  split
  · rename_i context future found
    have pending := live (context, future) found
    obtain ⟨matched, front, back, split, before⟩ := List.find?_eq_some_iff_append.mp found
    obtain rfl : context = .fromHeader header := isFor_iff.mp matched
    change self.pending = _ at split
    have apart : ∀ receiver ∈ front, ¬isFor (.fromHeader header) receiver = true := fun receiver member equal => by
      have other := before receiver member
      rw [equal] at other
      cases other
    have erased : self.pending.eraseP (isFor (.fromHeader header)) = front ++ back := by
      rw [split, List.eraseP_append_right _ apart, List.eraseP_cons_of_pos matched]
    have none : waiters (.fromHeader header) front = [] := by
      rw [waiters, List.filter_eq_nil_iff.mpr apart]
      rfl
    have whole : self.pending ++ behind = front ++ (.fromHeader header, future) :: (back ++ behind) := by
      rw [split, List.append_assoc]
      rfl
    have queued := accounted.queued
    rw [whole] at queued
    have empty : self.rxQueues (.fromHeader header) = [] := accounted.unmatched _ future (by
      rw [split]
      exact List.mem_append_right _ List.mem_cons_self)
    have rest : self.pending.eraseP (isFor (.fromHeader header)) ++ behind = front ++ (back ++ behind) := by
      rw [erased, List.append_assoc]
    refine accounted.hand resolved whole rest (handed queued none pending payload) pending ?_ ?_ ?_
    · rw [flight, if_pos rfl, empty]
      rfl
    · intro other different
      rw [flight, if_neg (fun same => different same.symm)]
      rfl
    · intro other waiter member
      exact accounted.unmatched other waiter (List.eraseP_subset member)
  · rename_i missing
    have unmatched := List.find?_eq_none.mp missing
    refine ⟨fun context => ?_, accounted.queued, accounted.waiting, accounted.length, accounted.own, accounted.posted,
      fun other waiter member => ?_⟩
    · rw [accounted.frames, flight]
      change _ = delivered context self.futures ++ (Function.update self.rxQueues _ _ context ++
        payloads context (resolved.filterMap Except.toOption ++ self.inbound))
      by_cases same : Context.fromHeader header = context
      · rw [if_pos same, same, Function.update_self, List.append_assoc]
      · rw [if_neg same, Function.update_of_ne (fun equal => same equal.symm), List.nil_append]
    · change Function.update self.rxQueues _ _ other = []
      rw [Function.update_of_ne]
      · exact accounted.unmatched other waiter member
      · rintro rfl
        exact unmatched _ member (decide_eq_true rfl)

theorem Accounted.fail {self : Router ε} {error : ε} {behind : List (Context × Nat)} {resolved : List (Except ε Bytes)}
    (accounted : self.Accounted behind) (first : self.resolved = .error error :: resolved) :
    Accounted behind ({ self with resolved := resolved }.onFrame (.error error)) where
  frames := by
    intro context
    have frames := accounted.frames context
    rw [inFlight, first] at frames
    change payloads context self.received = delivered context (self.futures.settleAll _ _) ++ _
    rw [delivered, results_settleAll_none _ _ rfl]
    exact frames
  queued := by
    intro context
    refine ((accounted.queued context).settleAll _ rfl).sublist ?_
    change (waiters context behind).Sublist _
    rw [waiters_append]
    exact List.sublist_append_right _ _
  waiting := by
    intro waiter waits
    have done : (Status.exception error : Status Message ε) ≠ .pending := nofun
    obtain ⟨before, apart⟩ := (pending_settleAll done).mp waits
    have member := accounted.waiting waiter before
    rw [List.map_append, List.mem_append] at member
    exact member.resolve_left apart
  length := by
    change self.contexts.length = (self.futures.settleAll _ _).length
    rw [length_settleAll]
    exact accounted.length
  own := by
    intro future payload context found
    refine accounted.own future payload context (result_of_settleAll ?_ found)
    rfl
  posted := fun context future member => accounted.posted context future (List.mem_append_right _ member)
  unmatched := fun context future member => absurd member List.not_mem_nil

omit [DecidableEq ε] in
theorem Accounted.post {self : Router ε} (accounted : self.Accounted (self.posted.filterMap Op.receiver?))
    (context : Context) (waits : Bool) :
    Accounted ((self.posted ++ [Op.recv context self.futures.length]).filterMap Op.receiver?) { self with
      posted := self.posted ++ [.recv context self.futures.length]
      futures := self.futures ++ [if waits then .pending else .cancelled]
      contexts := self.contexts ++ [context] } := by
  have empty : (if waits then Status.pending else .cancelled : Status Message ε).result? = none := by
    cases waits <;> rfl
  have longer : (self.posted ++ [Op.recv context self.futures.length]).filterMap Op.receiver? =
      self.posted.filterMap Op.receiver? ++ [(context, self.futures.length)] := by
    rw [List.filterMap_append]
    rfl
  rw [longer]
  refine ⟨fun other => ?_, fun other => ?_, fun waiter pending => ?_, ?_, fun future payload other found => ?_,
    fun other future member => ?_, accounted.unmatched⟩
  · rw [delivered, results_concat empty]
    exact accounted.frames other
  · rw [← List.append_assoc, waiters_append]
    by_cases same : context = other
    · subst same
      rw [waiters_cons_self]
      exact (accounted.queued context).handOut empty
    · rw [waiters_cons_ne same]
      change Queued _ _ (_ ++ [])
      rw [List.append_nil]
      exact (accounted.queued other).grow empty
  · rw [← List.append_assoc, List.map_append, List.mem_append]
    rcases pending_append.mp pending with before | ⟨rfl, -⟩
    · exact .inl (accounted.waiting waiter before)
    · exact .inr (List.mem_singleton_self _)
  · rw [List.length_append, List.length_append, accounted.length]
    rfl
  · have inside : future < self.futures.length := by
      apply Nat.lt_of_not_le
      intro outside
      rcases Nat.eq_or_lt_of_le outside with rfl | outside
      · rw [List.getElem?_concat_length] at found
        rw [Option.some.inj found] at empty
        cases empty
      · rw [List.getElem?_eq_none (by rw [List.length_append, List.length_singleton]; omega)] at found
        cases found
    rw [List.getElem?_append_left inside] at found
    rw [List.getElem?_append_left (accounted.length ▸ inside)]
    exact accounted.own future payload other found
  · rw [← List.append_assoc, List.mem_append] at member
    rcases member with before | last
    · have found := accounted.posted other future before
      rw [List.getElem?_append_left (List.getElem?_eq_some_iff.mp found).1]
      exact found
    · cases List.mem_singleton.mp last
      rw [← accounted.length, List.getElem?_concat_length]

theorem Accounted.abandon {self : Router ε} {behind : List (Context × Nat)} (accounted : self.Accounted behind)
    (future : Nat) : Accounted behind { self with futures := self.futures.settle future .cancelled } := by
  have cancelled : (Status.cancelled : Status Message ε) ≠ .pending := nofun
  refine ⟨fun context => ?_, fun context => (accounted.queued context).settle (.inl nofun), fun waiter pending => ?_,
    ?_, fun other payload context found => ?_, accounted.posted, accounted.unmatched⟩
  · rw [delivered_settle_none _ _ _ rfl]
    exact accounted.frames context
  · exact accounted.waiting waiter ((pending_settle cancelled).mp pending).1
  · rw [length_settle]
    exact accounted.length
  · refine accounted.own other payload context (result_of_settle ?_ found)
    rfl

/-! ### The drain -/

/-- One receive is below or handled while the drain goes on, and it goes on while any receive is pending. -/
structure Drains (router : Router ε) : Prop where
  running : router.pending ≠ [] → router.draining = true
  one : router.asked + router.resolved.length = if router.draining then 1 else 0

omit [DecidableEq ε] in
theorem Drains.alone {self : Router ε} {outcome : Except ε Bytes} {resolved : List (Except ε Bytes)}
    (drains : self.Drains) (first : self.resolved = outcome :: resolved) : self.asked = 0 ∧ resolved = [] := by
  have one := drains.one
  rw [first, List.length_cons] at one
  have bound : self.asked + (resolved.length + 1) ≤ 1 := by
    rw [one]
    split <;> omega
  exact ⟨by omega, List.eq_nil_of_length_eq_zero (by omega)⟩

theorem recvOps_frame (self : Router ε) (receivers : List (Context × Nat)) :
    (self.recvOps receivers).posted = self.posted ∧ (self.recvOps receivers).asked = self.asked ∧
      (self.recvOps receivers).resolved = self.resolved ∧ (self.recvOps receivers).draining = self.draining := by
  induction receivers generalizing self with
  | nil => exact ⟨rfl, rfl, rfl, rfl⟩
  | cons receiver receivers ih =>
    obtain ⟨posted, asked, resolved, draining⟩ := ih (self.recvOp receiver.1 receiver.2)
    have one : (self.recvOp receiver.1 receiver.2).posted = self.posted ∧
        (self.recvOp receiver.1 receiver.2).asked = self.asked ∧
        (self.recvOp receiver.1 receiver.2).resolved = self.resolved ∧
        (self.recvOp receiver.1 receiver.2).draining = self.draining := by
      rw [recvOp]
      split
      · split <;> exact ⟨rfl, rfl, rfl, rfl⟩
      · exact ⟨rfl, rfl, rfl, rfl⟩
    exact ⟨posted.trans one.1, asked.trans one.2.1, resolved.trans one.2.2.1, draining.trans one.2.2.2⟩

theorem deliver_frame (self : Router ε) (context : Context) (payload : Bytes) :
    (self.deliver context payload).posted = self.posted ∧ (self.deliver context payload).asked = self.asked ∧
      (self.deliver context payload).resolved = self.resolved := by
  rw [deliver]
  split <;> exact ⟨rfl, rfl, rfl⟩

omit [DecidableEq ε] in
/-- Starting and stopping the drain leaves the account as it is. -/
theorem Accounted.redrain {self : Router ε} {behind : List (Context × Nat)} (accounted : self.Accounted behind)
    (draining : Bool) (asked : Nat) : Accounted behind { self with draining := draining, asked := asked } :=
  ⟨accounted.frames, accounted.queued, accounted.waiting, accounted.length, accounted.own, accounted.posted,
    accounted.unmatched⟩

/-! ### Runs -/

/-- What every step that serves a live receive keeps. -/
structure Sound (router : Router ε) : Prop where
  account : router.Accounted (router.posted.filterMap Op.receiver?)
  drain : router.Drains

omit [DecidableEq ε] in
theorem Drains.headed {self : Router ε} (asked : self.asked = 0)
    (none : self.resolved = []) : Drains (if self.pending ≠ [] then self.drain else { self with draining := false }) := by
  split
  · exact ⟨fun _ => rfl, by rw [drain, asked, none]; rfl⟩
  · rename_i idle
    exact ⟨fun waits => absurd waits idle, by rw [asked, none]; rfl⟩

theorem Drains.flush {self : Router ε} (drains : self.Drains) :
    Drains ({ self with posted := [] }.flushOps self.posted) := by
  obtain ⟨-, asked, resolved, draining⟩ :=
    recvOps_frame { self with posted := [], sent := self.sent ++ self.posted.filterMap Op.packet? }
      (self.posted.filterMap Op.receiver?)
  rw [flushOps]
  dsimp only at asked resolved draining ⊢
  have one := drains.one
  split
  · rename_i starts
    refine ⟨fun _ => rfl, ?_⟩
    change (recvOps _ _).asked + 1 + (recvOps _ _).resolved.length = 1
    have stopped := draining.symm.trans starts.2
    rw [stopped] at one
    rw [asked, resolved]
    change _ = 0 at one
    omega
  · rename_i goes
    refine ⟨fun waits => Bool.not_eq_false _ ▸ fun stopped => goes ⟨waits, stopped⟩, ?_⟩
    rw [asked, resolved, draining]
    exact one

/-- A frame without a header leaves the drain as it is, though nothing is asked for any more. -/
theorem Drains.callback {self : Router ε} {outcome : Except ε Bytes} {resolved : List (Except ε Bytes)}
    (drains : self.Drains) (first : self.resolved = outcome :: resolved) (headed : outcome ≠ .ok []) :
    Drains ({ self with resolved := resolved }.onFrame outcome) := by
  obtain ⟨asked, rfl⟩ := drains.alone first
  match outcome with
  | .error error => exact ⟨fun waits => absurd rfl waits, by rw [← asked]; rfl⟩
  | .ok [] => exact absurd rfl headed
  | .ok (header :: payload) =>
    obtain ⟨-, below, handled⟩ := deliver_frame { self with resolved := [] } (.fromHeader header) payload
    exact Drains.headed (below.trans asked) handled

theorem Sound.flush {self : Router ε} (sound : self.Sound) :
    Sound ({ self with posted := [] }.flushOps self.posted) := by
  obtain ⟨account, drains⟩ := sound
  refine ⟨?_, drains.flush⟩
  have begun : Accounted (self.posted.filterMap Op.receiver?)
      { self with posted := [], sent := self.sent ++ self.posted.filterMap Op.packet? } :=
    ⟨account.frames, account.queued, account.waiting, account.length, account.own, account.posted, account.unmatched⟩
  have done := begun.recvOps
  obtain ⟨posted, -, -, -⟩ :=
    recvOps_frame { self with posted := [], sent := self.sent ++ self.posted.filterMap Op.packet? }
      (self.posted.filterMap Op.receiver?)
  rw [flushOps]
  dsimp only at posted ⊢
  split
  · change Accounted (List.filterMap _ (recvOps _ _).posted) _
    rw [posted]
    exact done.redrain _ _
  · rw [posted]
    exact done

theorem Sound.callback {self : Router ε} {outcome : Except ε Bytes} {resolved : List (Except ε Bytes)}
    (sound : self.Sound) (first : self.resolved = outcome :: resolved) (serves : self.Serves .callback) :
    Sound ({ self with resolved := resolved }.onFrame outcome) := by
  obtain ⟨account, drains⟩ := sound
  rw [Serves, first] at serves
  refine ⟨?_, drains.callback first fun empty => by rw [empty] at serves; exact serves⟩
  match outcome with
  | .error error => exact account.fail first
  | .ok [] => exact serves.elim
  | .ok (header :: payload) =>
    have done := account.deliver first serves
    obtain ⟨posted, -, -⟩ := deliver_frame { self with resolved := resolved } (.fromHeader header) payload
    rw [onFrame]
    dsimp only at posted ⊢
    have same := congrArg (List.filterMap Op.receiver?) posted
    split
    · change Accounted (List.filterMap _ (deliver _ _ _).posted) _
      rw [same]
      exact done.redrain _ _
    · change Accounted (List.filterMap _ (deliver _ _ _).posted) _
      rw [same]
      exact done.redrain false _

theorem Sound.step {self next : Router ε} {event : Event ε} (sound : self.Sound) (serves : self.Serves event)
    (stepped : self.step event = some next) : next.Sound := by
  cases event with
  | send data context =>
    cases stepped
    obtain ⟨account, drains⟩ := sound
    refine ⟨?_, drains.running, drains.one⟩
    change Accounted ((self.posted ++ [Op.send data context]).filterMap Op.receiver?) _
    rw [List.filterMap_append]
    change Accounted (self.posted.filterMap Op.receiver? ++ []) _
    rw [List.append_nil]
    exact ⟨account.frames, account.queued, account.waiting, account.length, account.own, account.posted,
      account.unmatched⟩
  | recv context waits =>
    cases stepped
    exact ⟨sound.account.post context waits, sound.drain.running, sound.drain.one⟩
  | abandon future =>
    cases stepped
    exact ⟨sound.account.abandon future, sound.drain.running, sound.drain.one⟩
  | flush =>
    rw [Router.step] at stepped
    split at stepped
    · cases stepped
    · cases stepped
      exact sound.flush
  | receive frame =>
    cases stepped
    obtain ⟨account, drains⟩ := sound
    refine ⟨⟨fun context => ?_, account.queued, account.waiting, account.length, account.own, account.posted,
      account.unmatched⟩, drains.running, drains.one⟩
    rw [payloads, List.filterMap_append]
    change payloads context self.received ++ _ = _ ++ (_ ++ payloads context (_ ++ (_ ++ _)))
    rw [account.frames, ← List.append_assoc (List.filterMap _ _), payloads, payloads, List.filterMap_append,
      List.append_assoc, List.append_assoc]
    rfl
  | resolve =>
    rw [Router.step] at stepped
    split at stepped
    · rename_i asked frame inbound below arrived
      cases stepped
      obtain ⟨account, drains⟩ := sound
      have flight : self.inFlight =
          inFlight { self with asked := asked, inbound := inbound, resolved := self.resolved ++ [.ok frame] } := by
        rw [inFlight, inFlight, arrived, List.filterMap_append, List.append_assoc]
        rfl
      refine ⟨⟨fun context => ?_, account.queued, account.waiting, account.length, account.own, account.posted,
        account.unmatched⟩, drains.running, ?_⟩
      · rw [← flight]
        exact account.frames context
      · have one := drains.one
        rw [below] at one
        change asked + (self.resolved ++ [Except.ok frame]).length = if self.draining then 1 else 0
        rw [← one, List.length_append, List.length_singleton]
        omega
    · cases stepped
  | fail error =>
    rw [Router.step] at stepped
    split at stepped
    · rename_i asked below
      cases stepped
      obtain ⟨account, drains⟩ := sound
      have flight : self.inFlight =
          inFlight { self with asked := asked, resolved := self.resolved ++ [.error error] } := by
        rw [inFlight, inFlight, List.filterMap_append]
        change _ = (_ ++ []) ++ _
        rw [List.append_nil]
      refine ⟨⟨fun context => ?_, account.queued, account.waiting, account.length, account.own, account.posted,
        account.unmatched⟩, drains.running, ?_⟩
      · rw [← flight]
        exact account.frames context
      · have one := drains.one
        rw [below] at one
        change asked + (self.resolved ++ [Except.error error]).length = if self.draining then 1 else 0
        rw [← one, List.length_append, List.length_singleton]
        omega
    · cases stepped
  | callback =>
    rw [Router.step] at stepped
    split at stepped
    · rename_i outcome resolved first
      cases stepped
      exact sound.callback first serves
    · cases stepped

omit [DecidableEq ε] in
theorem sound_start : (start : Router ε).Sound where
  account :=
    { frames := fun _ => rfl, queued := fun _ => queued_nil _ _
      waiting := fun _ pending => absurd pending.lt (Nat.not_lt_zero _), length := rfl
      own := nofun, posted := nofun, unmatched := nofun }
  drain := ⟨fun waits => absurd rfl waits, rfl⟩

omit [DecidableEq ε] in
theorem Sound.inTurn {self : Router ε} (sound : self.Sound) : self.Delivers where
  frames := sound.account.frames
  own := sound.account.own
  oldest := by
    intro waiter later payload context pending mine found
    apply Nat.lt_of_not_le
    intro behind
    obtain ⟨⟨other, _⟩, member, rfl⟩ := List.mem_map.mp (sound.account.waiting waiter pending)
    obtain rfl : other = context := Option.some.inj ((sound.account.posted other _ member).symm.trans mine)
    have newest := (sound.account.queued other).newest _ (mem_waiters.mpr member) later (payload, other) behind found
    exact of_decide_eq_false newest rfl
  unmatched := sound.account.unmatched
  drains := by
    intro waits
    rw [sound.drain.one, sound.drain.running waits]
    rfl

omit [DecidableEq ε] in
/-- With nothing left to do, a receive waits only when every frame of its context was delivered. -/
theorem Sound.quiescent {self : Router ε} (sound : self.Sound) (quiescent : self.Quiescent) {waiter : Nat}
    {context : Context} (pending : self.futures.Pending waiter) (mine : self.contexts[waiter]? = some context) :
    payloads context self.received = delivered context self.futures := by
  obtain ⟨posted, resolved, idle⟩ := quiescent
  obtain ⟨⟨other, _⟩, member, rfl⟩ := List.mem_map.mp (sound.account.waiting waiter pending)
  obtain rfl : other = context := Option.some.inj ((sound.account.posted other _ member).symm.trans mine)
  rw [posted, List.filterMap_nil, List.append_nil] at member
  have drains := sound.inTurn.drains (List.ne_nil_of_mem member)
  rw [resolved] at drains
  have inbound : self.inbound = [] := idle.resolve_left fun none => by
    rw [none] at drains
    cases drains
  rw [sound.account.frames, sound.account.unmatched other _ member, inFlight, resolved, inbound]
  exact List.append_nil _

/-- What the router and its channel still have to do on their own. -/
def work (self : Router ε) : Nat := self.posted.length + 2 * self.inbound.length + self.resolved.length

theorem recvOps_inbound (self : Router ε) (receivers : List (Context × Nat)) :
    (self.recvOps receivers).inbound = self.inbound := by
  induction receivers generalizing self with
  | nil => rfl
  | cons receiver receivers ih =>
    refine (ih _).trans ?_
    rw [recvOp]
    split
    · split <;> rfl
    · rfl

theorem onFrame_work (self : Router ε) (outcome : Except ε Bytes) : (self.onFrame outcome).work = self.work := by
  match outcome with
  | .error error => rfl
  | .ok [] => rfl
  | .ok (header :: payload) =>
    have one : (self.deliver (.fromHeader header) payload).work = self.work := by
      rw [deliver]
      split <;> rfl
    rw [onFrame]
    split
    · exact one
    · exact one

/-- What the router and its channel do on their own is work done. -/
theorem step_work {self next : Router ε} {event : Event ε} (own : Own event) (stepped : self.step event = some next) :
    next.work < self.work := by
  obtain rfl | rfl | rfl := own
  · rw [step] at stepped
    split at stepped
    · cases stepped
    · rename_i posted
      cases stepped
      have filled := List.length_pos_of_ne_nil posted
      obtain ⟨none, -, resolved, -⟩ :=
        recvOps_frame { self with posted := [], sent := self.sent ++ self.posted.filterMap Op.packet? }
          (self.posted.filterMap Op.receiver?)
      have inbound := recvOps_inbound { self with posted := [], sent := self.sent ++ self.posted.filterMap Op.packet? }
        (self.posted.filterMap Op.receiver?)
      have less : work (recvOps { self with posted := [], sent := self.sent ++ self.posted.filterMap Op.packet? }
          (self.posted.filterMap Op.receiver?)) < self.work := by
        rw [work, none, resolved, inbound, work]
        change 0 + 2 * self.inbound.length + self.resolved.length <
          self.posted.length + 2 * self.inbound.length + self.resolved.length
        omega
      rw [flushOps]
      dsimp only
      split
      · exact less
      · exact less
  · rw [step] at stepped
    split at stepped
    · rename_i asked frame inbound below arrived
      cases stepped
      rw [work, work, arrived, List.length_append]
      change self.posted.length + 2 * inbound.length + (self.resolved.length + 1) <
        self.posted.length + 2 * (inbound.length + 1) + self.resolved.length
      omega
    · cases stepped
  · rw [step] at stepped
    split at stepped
    · rename_i outcome rest first
      cases stepped
      rw [onFrame_work, work, work, first, List.length_cons]
      exact Nat.lt_succ_self _
    · cases stepped

/-- The router and its channel cannot go on exactly when nothing is left to do. -/
theorem stopped_iff {self : Router ε} : (∀ event : Event ε, Own event → self.step event = none) ↔ self.Quiescent := by
  constructor
  · intro stopped
    have flush := stopped .flush (.inl rfl)
    have resolve := stopped .resolve (.inr (.inl rfl))
    have callback := stopped .callback (.inr (.inr rfl))
    refine ⟨?_, ?_, ?_⟩
    · by_contra posted
      rw [step, if_neg posted] at flush
      cases flush
    · cases resolved : self.resolved with
      | nil => rfl
      | cons first rest =>
        rw [step, resolved] at callback
        cases callback
    · cases asked : self.asked with
      | zero => exact .inl rfl
      | succ others =>
        cases inbound : self.inbound with
        | nil => exact .inr rfl
        | cons frame inbound' =>
          rw [step, asked, inbound] at resolve
          cases resolve
  · rintro ⟨posted, resolved, idle⟩ event (rfl | rfl | rfl)
    · rw [step, if_pos posted]
    · rw [step]
      split
      · rename_i below arrived
        rw [below, arrived] at idle
        obtain none | none := idle <;> cases none
      · rfl
    · rw [step, resolved]

/-- What every step keeps where no frame is empty. -/
structure Headed (router : Router ε) : Prop where
  drains : router.Drains
  frames : ∀ frame ∈ router.inFlight, frame ≠ []

theorem flushOps_inFlight (self : Router ε) (batch : List Op) : (self.flushOps batch).inFlight = self.inFlight := by
  obtain ⟨-, -, resolved, -⟩ :=
    recvOps_frame { self with sent := self.sent ++ batch.filterMap Op.packet? } (batch.filterMap Op.receiver?)
  have inbound := recvOps_inbound { self with sent := self.sent ++ batch.filterMap Op.packet? }
    (batch.filterMap Op.receiver?)
  have same : (recvOps { self with sent := self.sent ++ batch.filterMap Op.packet? }
      (batch.filterMap Op.receiver?)).inFlight = self.inFlight := by
    rw [inFlight, resolved, inbound]
    rfl
  rw [flushOps]
  split
  · exact same
  · exact same

theorem onFrame_inFlight (self : Router ε) (outcome : Except ε Bytes) :
    (self.onFrame outcome).inFlight = self.inFlight := by
  match outcome with
  | .error error => rfl
  | .ok [] => rfl
  | .ok (header :: payload) =>
    have same : (self.deliver (.fromHeader header) payload).inFlight = self.inFlight := by
      rw [deliver]
      split <;> rfl
    rw [onFrame]
    split
    · exact same
    · exact same

theorem Headed.step {self next : Router ε} {event : Event ε} (headed : self.Headed)
    (frame : ∀ frame, event = .receive frame → frame ≠ []) (stepped : self.step event = some next) : next.Headed := by
  obtain ⟨drains, frames⟩ := headed
  cases event with
  | send data context =>
    cases stepped
    exact ⟨⟨drains.running, drains.one⟩, frames⟩
  | recv context waits =>
    cases stepped
    exact ⟨⟨drains.running, drains.one⟩, frames⟩
  | abandon future =>
    cases stepped
    exact ⟨⟨drains.running, drains.one⟩, frames⟩
  | flush =>
    rw [Router.step] at stepped
    split at stepped
    · cases stepped
    · cases stepped
      exact ⟨drains.flush, by rw [flushOps_inFlight]; exact frames⟩
  | receive arrived =>
    cases stepped
    refine ⟨⟨drains.running, drains.one⟩, ?_⟩
    change ∀ frame ∈ _ ++ (self.inbound ++ [arrived]), frame ≠ []
    rw [← List.append_assoc]
    simp only [List.mem_append, List.mem_singleton]
    rintro other (before | rfl)
    · exact frames other (List.mem_append.mpr before)
    · exact frame other rfl
  | resolve =>
    rw [Router.step] at stepped
    split at stepped
    · rename_i asked first inbound below arrived
      cases stepped
      refine ⟨⟨drains.running, ?_⟩, ?_⟩
      · have one := drains.one
        rw [below] at one
        change asked + (self.resolved ++ [Except.ok first]).length = if self.draining then 1 else 0
        rw [← one, List.length_append, List.length_singleton]
        omega
      · rw [inFlight, arrived] at frames
        change ∀ frame ∈ (self.resolved ++ [Except.ok first]).filterMap Except.toOption ++ inbound, frame ≠ []
        rw [List.filterMap_append, List.append_assoc]
        exact frames
    · cases stepped
  | fail error =>
    rw [Router.step] at stepped
    split at stepped
    · rename_i asked below
      cases stepped
      refine ⟨⟨drains.running, ?_⟩, ?_⟩
      · have one := drains.one
        rw [below] at one
        change asked + (self.resolved ++ [Except.error error]).length = if self.draining then 1 else 0
        rw [← one, List.length_append, List.length_singleton]
        omega
      · change ∀ frame ∈ (self.resolved ++ [Except.error error]).filterMap Except.toOption ++ self.inbound, frame ≠ []
        rw [List.filterMap_append]
        change ∀ frame ∈ (_ ++ []) ++ self.inbound, frame ≠ []
        rw [List.append_nil]
        exact frames
    · cases stepped
  | callback =>
    rw [Router.step] at stepped
    split at stepped
    · rename_i outcome resolved first
      cases stepped
      rw [inFlight, first] at frames
      refine ⟨drains.callback first ?_, ?_⟩
      · rintro rfl
        exact frames [] List.mem_cons_self rfl
      · rw [onFrame_inFlight]
        intro other member
        apply frames other
        cases outcome with
        | error error => exact member
        | ok arrived => exact List.mem_cons_of_mem _ member
    · cases stepped

omit [DecidableEq ε] in
theorem Headed.atRest {self : Router ε} (headed : self.Headed) (quiescent : self.Quiescent) : self.AtRest := by
  refine ⟨quiescent, fun waits => ?_⟩
  have one := headed.drains.one
  rw [quiescent.2.1, headed.drains.running waits] at one
  exact one

/-- After a run without empty frames the router and its channel come to an end on their own, and then nothing is left
to do and a frame is asked for while a receive waits. -/
theorem router_rests {events own : List (Event ε)} {self last : Router ε}
    (headed : ∀ frame, Event.receive frame ∈ events → frame ≠ []) (reached : events.foldlM step start = some self)
    (alone : ∀ event ∈ own, Own event) (ran : own.foldlM step self = some last) :
    last.work + own.length ≤ self.work ∧
      ((∀ event : Event ε, Own event → last.step event = none) ↔ last.AtRest) := by
  refine ⟨foldlM_stops (fun _ _ _ own stepped => step_work own stepped) alone ran, ?_⟩
  have whole : (events ++ own).foldlM step start = some last := by
    rw [List.foldlM_append, reached]
    exact ran
  have all : ∀ event ∈ events ++ own, ∀ frame, event = Event.receive frame → frame ≠ [] := by
    rintro event member frame rfl
    obtain early | late := List.mem_append.mp member
    · exact headed frame early
    · obtain same | same | same := alone _ late <;> cases same
  have kept (s : Router ε) (event : Event ε) (next : Router ε) (inv : s.Headed)
      (met : ∀ frame, event = .receive frame → frame ≠ []) (stepped : s.step event = some next) : next.Headed :=
    inv.step met stepped
  have started : (start : Router ε).Headed :=
    ⟨⟨fun waits => absurd rfl waits, rfl⟩, fun _ member => absurd member List.not_mem_nil⟩
  have done := foldlM_along kept started (along_all all start) whole
  exact ⟨fun stopped => done.atRest (stopped_iff.mp stopped), fun rests => stopped_iff.mpr rests.1⟩

/-- Two receives of one context and one frame of it: the second receive keeps the channel asked. -/
theorem router_rests_waiting :
    ∃ self last : Router Unit,
      List.foldlM step start [.recv ⟨1, 2⟩ true, .recv ⟨1, 2⟩ true, .receive [0x21, 7]] = some self ∧
        List.foldlM step self [.flush, .resolve, .callback] = some last ∧
        last.work + 3 ≤ self.work ∧ ((∀ event : Event Unit, Own event → last.step event = none) ↔ last.AtRest) ∧
        last.futures = [.result ([7], ⟨1, 2⟩), .pending] ∧ last.asked = 1 := by
  have headed : ∀ frame, (Event.receive frame : Event Unit) ∈
      [Event.recv ⟨1, 2⟩ true, .recv ⟨1, 2⟩ true, .receive [0x21, 7]] → frame ≠ [] := by simp
  have own : ∀ event ∈ [Event.flush, .resolve, .callback], Own (event : Event Unit) := by simp [Own]
  have rests := router_rests headed rfl own rfl
  exact ⟨_, _, rfl, rfl, rests.1, rests.2, rfl, rfl⟩

/-- As long as every frame that is handled has a header and meets a live receive or none, frames are delivered as
they should. -/
theorem frames_routed {events : List (Event ε)} {last : Router ε} (serves : Along Router.step Serves start events)
    (ran : events.foldlM Router.step start = some last) :
    last.Delivers ∧ (last.Quiescent → ∀ waiter context, last.futures.Pending waiter →
      last.contexts[waiter]? = some context → payloads context last.received = delivered context last.futures) := by
  have step (self : Router ε) (event : Event ε) (next : Router ε) (sound : self.Sound) (serves : self.Serves event)
      (stepped : self.step event = some next) : next.Sound := sound.step serves stepped
  have sound := foldlM_along step sound_start serves ran
  exact ⟨sound.inTurn, fun quiescent _ _ pending mine => sound.quiescent quiescent pending mine⟩

/-- A frame for another context comes before the one that the receive waits for. -/
def otherFirst : List (Event Unit) :=
  [.recv ⟨1, 2⟩ true, .flush, .receive [0x43, 9], .resolve, .callback, .receive [0x21, 7], .resolve, .callback,
    .recv ⟨3, 4⟩ true, .flush]

theorem frames_routed_other_first :
    ∃ last, otherFirst.foldlM Router.step start = some last ∧
      last.futures = [.result ([7], ⟨1, 2⟩), .result ([9], ⟨3, 4⟩)] ∧ last.Delivers :=
  have serves : Along Router.step Serves start otherFirst := by
    refine ⟨trivial, trivial, trivial, trivial, nofun, trivial, trivial, ?_, trivial, trivial, trivial⟩
    rintro receiver ⟨⟩
    exact rfl
  ⟨_, rfl, rfl, (frames_routed serves rfl).1⟩

def cancelledReceive : List (Event Unit) :=
  [.recv ⟨1, 2⟩ true, .flush, .abandon 0, .recv ⟨1, 2⟩ true, .flush, .receive [0x21, 7], .resolve, .callback]

/-- The frame goes to the cancelled receive, the live one behind it waits on. -/
theorem cancelled_receive_takes_frame :
    ∃ last, cancelledReceive.foldlM Router.step start = some last ∧ last.futures = [.cancelled, .pending] ∧
      last.inbound = [] ∧ last.rxQueues ⟨1, 2⟩ = [] ∧ ¬last.Delivers := by
  refine ⟨_, rfl, rfl, rfl, rfl, fun delivers => ?_⟩
  have frames := delivers.frames ⟨1, 2⟩
  revert frames
  decide

def emptyFrame : List (Event Unit) := [.recv ⟨1, 2⟩ true, .flush, .receive [], .resolve, .callback]

/-- After an empty frame a receive is pending and none is below. -/
theorem empty_frame_stops_drain :
    ∃ last, emptyFrame.foldlM Router.step start = some last ∧ last.futures = [.pending] ∧ last.draining = true ∧
      last.asked = 0 ∧ ¬last.Delivers := by
  refine ⟨_, rfl, rfl, rfl, rfl, fun delivers => ?_⟩
  cases delivers.drains (List.cons_ne_nil _ _)

end Router
end Acrobe.Bnoc.Routed
