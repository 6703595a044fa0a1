import Acrobe.Gdb.Server
import Acrobe.Lib.Transition

/-!
# Stop replies

A packet that resumes the core is answered when the core has stopped. Until then the handler races a task that polls
the core against one that reads what the client sends, and cancels the loser. An interrupt that no handler waits for is
answered by the main loop, with a stop reply of its own.
-/

namespace Acrobe.Gdb.StopReplies
open LittleEndian Incremental Acrobe.Lib

/-! ### The core -/

inductive CoreState where
  | run
  | halt
  | sleep
  | fault
  | lockup
  | unknown

inductive HaltCause where
  | exception
  | instruction
  | breakpoint
  | watchpoint
  | debugger
  | unknown

inductive Answer (α : Type) where
  | ok (value : α)
  | notImplemented
  | raised

/-- The cores of a debuggable, of which `current` is the index of the current one; `other` handles the packets that have
nothing to do with a stop, and is `none` where it raises. -/
structure Core (σ : Type) where
  state : σ → Answer (CoreState × σ)
  haltCause : σ → Answer (HaltCause × σ)
  watchpointHit : σ → Answer (Option (Nat × Nat) × σ)
  resume : σ → Answer σ
  step : σ → Answer σ
  halt : σ → Answer σ
  cores : Nat
  current : σ → Nat
  other : Responder σ → Bytes → Option (Responder σ × Option Bytes)

def CoreState.executes : CoreState → Bool
  | .run | .sleep => true
  | _ => false

/-- The states that end `__poll_until_not_running`. -/
def CoreState.terminal : CoreState → Bool
  | .halt | .lockup | .fault => true
  | _ => false

def haltCauseTag : HaltCause → Bytes
  | .breakpoint => ascii "T05hwbreak:;"
  | .watchpoint => ascii "T05watch:;"
  | .debugger => ascii "S05"
  | .instruction => ascii "S04"
  | .exception => ascii "T05syscall_entry:;"
  | .unknown => ascii "T00"

def watchStopTag : Nat → Option Bytes
  | 2 => some (ascii "watch")
  | 3 => some (ascii "rwatch")
  | 4 => some (ascii "awatch")
  | _ => none

def interruptStopReply : Bytes := ascii "S02"

/-- `f"{n:x}"` -/
def hex (n : Nat) : Bytes := (Nat.toDigits 16 n).map fun char => UInt8.ofNat char.toNat

/-- The payload starts with `S` or `T`. -/
def isStop : Bytes → Bool
  | byte :: _ => byte == 0x53 || byte == 0x54
  | [] => false

namespace Core
variable {σ : Type} (core : Core σ)

/-- The end of `__stop_signal`, for a core that has stopped. -/
def stopCause (s : σ) : Option (Bytes × σ) :=
  match core.haltCause s with
  | .notImplemented => some (ascii "T00", s)
  | .raised => none
  | .ok (.watchpoint, s) =>
    match core.watchpointHit s with
    | .ok (some (kind, addr), s) =>
      (watchStopTag kind).map fun tag => (ascii "T05" ++ tag ++ ascii ":" ++ hex addr ++ ascii ";", s)
    | .ok (none, s) => some (haltCauseTag .watchpoint, s)
    | _ => none
  | .ok (cause, s) => some (haltCauseTag cause, s)

/-- `none` where a query raises. -/
def stopSignal (s : σ) : Option (Bytes × σ) :=
  match core.state s with
  | .notImplemented => some (ascii "T00", s)
  | .raised => none
  | .ok (state, s) =>
    if state.executes then
      match core.halt s with
      | .notImplemented => some (ascii "T05", s)
      | .raised => none
      | .ok s =>
        match core.state s with
        | .notImplemented => some (ascii "T05", s)
        | .raised => none
        | .ok (state, s) => if state.executes then some (ascii "T0b", s) else core.stopCause s
    else core.stopCause s

def threadStop (s : σ) (reply : Bytes) : Bytes :=
  if core.cores < 2 ∨ isStop reply = false then reply
  else ascii "T" ++ (reply.drop 1).take 2 ++ ascii "thread:" ++ hex (core.current s + 1) ++ ascii ";" ++ reply.drop 3

def stopReason (s : σ) : Option (Bytes × σ) :=
  (core.stopSignal s).map fun (reply, s) => (core.threadStop s reply, s)

end Core

/-! ### Packets -/

inductive Action where
  | resume
  | step
  | question
  | other

/-- The action of the first entry of `vCont;<action>[:<thread>]...`. -/
def vContAction (payload : Bytes) : Bytes :=
  let entry := (payload.drop 6).takeWhile (· ≠ 0x3B)
  if entry.contains 0x3A then entry.takeWhile (· ≠ 0x3A) else entry.take 1

/-- What `handle_packet` does, as far as the core is concerned. -/
def action (payload : Bytes) : Action :=
  if payload.head? = some 0x63 then .resume
  else if payload.head? = some 0x73 then .step
  else if payload.head? = some 0x3F then .question
  else if (ascii "vCont").isPrefixOf payload ∧ payload ≠ ascii "vCont?" then
    if vContAction payload = ascii "c" then .resume
    else if vContAction payload = ascii "s" then .step
    else .other
  else .other

/-! ### The session -/

inductive Request where
  | resume
  | interrupt
  | question
  deriving DecidableEq

/-- What the main loop is asked for that needs a stop reply, and what is sent. -/
inductive Happening where
  | asked (request : Request)
  | ack
  | nack
  | reply (payload : Bytes)
  | stop (payload : Bytes)
  deriving DecidableEq

/-- The two tasks of `__wait_for_halt`: whether they are done. -/
structure Wait where
  polled : Bool
  interrupted : Bool
  deriving DecidableEq

inductive Phase where
  | serving
  | waiting (wait : Wait)
  | closed
  deriving DecidableEq

/-- `inbox` is what the reader has received and nobody has read. -/
structure Session (σ : Type) where
  responder : Responder σ
  inbox : Bytes
  eof : Bool
  buffer : Bytes
  phase : Phase
  history : List Happening

inductive Event (σ : Type) where
  | arrives (data : Bytes)
  | disconnects
  | coreMoves (state : σ)
  | reads (count : Nat)
  | dispatches
  | polls
  | listens
  | cutShort (answered : Bool)
  | hears (count : Nat)
  | wakes

namespace Session
variable {σ : Type} (core : Core σ)

def start (state : σ) : Session σ := ⟨⟨state, true, false⟩, [], false, [], .serving, []⟩

def note (session : Session σ) (happenings : List Happening) : Session σ :=
  { session with history := session.history ++ happenings }

def become (session : Session σ) (state : σ) : Session σ :=
  { session with responder := { session.responder with state := state } }

def close (session : Session σ) : Session σ := { session with phase := .closed }

/-- Acknowledgements are sent until QStartNoAckMode. -/
def acknowledge (session : Session σ) (happening : Happening) : Session σ :=
  if session.responder.packetAck then session.note [happening] else session

def flipAckMode (session : Session σ) : Session σ :=
  if session.responder.noAckModeRequested then
    { session with responder := { session.responder with packetAck := false, noAckModeRequested := false } }
  else session

/-- `handle_c` and `handle_s` up to the wait. -/
def resume (session : Session σ) (started : Answer σ) : Session σ :=
  let session := session.note [.asked .resume]
  match started with
  | .ok state => { session.become state with phase := .waiting ⟨false, false⟩ }
  | _ => session.close

def answerStop (session : Session σ) : Option (Bytes × σ) → Session σ
  | some (payload, state) => { (session.become state).note [.stop payload] with phase := .serving }
  | none => session.close

/-- `handle_interrupt` -/
def interruptReply (state : σ) : Option (Bytes × σ) :=
  match core.halt state with
  | .ok state => some (core.threadStop state interruptStopReply, state)
  | _ => none

def handlePacket (session : Session σ) (payload : Bytes) : Session σ :=
  match action payload with
  | .resume => session.resume (core.resume session.responder.state)
  | .step => session.resume (core.step session.responder.state)
  | .question =>
    ((session.note [.asked .question]).answerStop (core.stopReason session.responder.state)).flipAckMode
  | .other =>
    match core.other session.responder payload with
    | some (responder, response) =>
      flipAckMode ({ session with responder := responder }.note (response.toList.map Happening.reply))
    | none => session.close

/-- A round of `__drain_buffer`. -/
def dispatch (session : Session σ) : Token → Session σ
  | .interrupt =>
    (session.note [.asked .interrupt]).answerStop (interruptReply core session.responder.state)
  | .ack | .nack | .stray _ => session
  | .packet packet =>
    match Packet.parse packet with
    | none => session.acknowledge .nack
    | some payload => (session.acknowledge .ack).handlePacket core payload

def vCtrlC : Bytes := ascii "vCtrlC"

/-- A round of `__parse_one_interrupt`, and whether it is the interrupt. -/
def listen (session : Session σ) : Token → Session σ × Bool
  | .interrupt => (session, true)
  | .ack | .nack | .stray _ => (session, false)
  | .packet packet =>
    match Packet.parse packet with
    | none => (session.acknowledge .nack, false)
    | some payload =>
      if payload = vCtrlC then ((session.acknowledge .ack).note [.reply (ascii "OK")], true)
      else (session.acknowledge .ack, false)

/-- `__wait_for_halt` once a task is done: an interrupt goes before a stop of the core. -/
def endWait (session : Session σ) (wait : Wait) : Session σ :=
  flipAckMode (session.answerStop
    (if wait.interrupted then interruptReply core session.responder.state
      else core.stopReason session.responder.state))

/-- The poll task asks for the state, and is done where that raises too. -/
def poll (session : Session σ) (wait : Wait) : Session σ :=
  match core.state session.responder.state with
  | .ok (state, next) =>
    { session.become next with phase := .waiting { wait with polled := wait.polled || state.terminal } }
  | _ => { session with phase := .waiting { wait with polled := true } }

/-- `reader.read`, which gives nothing at the end of the stream. -/
def read (session : Session σ) (count : Nat) : Option (Session σ) :=
  if 0 < count ∧ count ≤ session.inbox.length then
    some { session with buffer := session.buffer ++ session.inbox.take count, inbox := session.inbox.drop count }
  else none

def step (session : Session σ) : Event σ → Option (Session σ)
  | .arrives data => if session.eof then none else some { session with inbox := session.inbox ++ data }
  | .disconnects => some { session with eof := true }
  | .coreMoves state => some (session.become state)
  | .reads count =>
    match session.phase, front session.buffer with
    | .serving, .truncated =>
      if session.eof ∧ session.inbox = [] then some session.close else session.read count
    | _, _ => none
  | .dispatches =>
    match session.phase, front session.buffer with
    | .serving, .item token size => some ({ session with buffer := session.buffer.drop size }.dispatch core token)
    | _, _ => none
  | .polls =>
    match session.phase with
    | .waiting wait => some (session.poll core wait)
    | _ => none
  | .listens =>
    match session.phase, front session.buffer with
    | .waiting wait, .item token size =>
      if wait.interrupted then none
      else
        let (heard, interrupted) := { session with buffer := session.buffer.drop size }.listen token
        some { heard with phase := .waiting { wait with interrupted := interrupted } }
    | _, _ => none
  | .cutShort answered =>
    match session.phase, front session.buffer with
    | .waiting ⟨true, false⟩, .item (.packet packet) size =>
      if Packet.parse packet = some vCtrlC then
        some ((acknowledge { session with buffer := session.buffer.drop size } .ack).note
          (if answered then [.reply (ascii "OK")] else []))
      else none
    | _, _ => none
  | .hears count =>
    match session.phase, front session.buffer with
    | .waiting ⟨polled, false⟩, .truncated =>
      if session.eof ∧ session.inbox = [] then some { session with phase := .waiting ⟨polled, true⟩ }
      else session.read count
    | _, _ => none
  | .wakes =>
    match session.phase with
    | .waiting wait => if wait.polled ∨ wait.interrupted then some (session.endWait core wait) else none
    | _ => none

end Session

/-! ### Stop packets -/

namespace Core
variable {σ : Type} (core : Core σ)

theorem haltCauseTag_isStop (cause : HaltCause) : isStop (haltCauseTag cause) = true := by
  cases cause <;> rfl

theorem stopCause_isStop {s next : σ} {reply : Bytes} (stopped : core.stopCause s = some (reply, next)) :
    isStop reply = true := by
  unfold stopCause at stopped
  split at stopped
  · cases stopped
    rfl
  · cases stopped
  · split at stopped
    · obtain ⟨tag, -, same⟩ := Option.map_eq_some_iff.mp stopped
      cases same
      rfl
    · cases stopped
      rfl
    · cases stopped
  · cases stopped
    exact haltCauseTag_isStop _

theorem stopSignal_isStop {s next : σ} {reply : Bytes} (stopped : core.stopSignal s = some (reply, next)) :
    isStop reply = true := by
  unfold stopSignal at stopped
  split at stopped
  · cases stopped
    rfl
  · cases stopped
  · split at stopped
    · split at stopped
      · cases stopped
        rfl
      · cases stopped
      · split at stopped
        · cases stopped
          rfl
        · cases stopped
        · split at stopped
          · cases stopped
            rfl
          · exact core.stopCause_isStop stopped
    · exact core.stopCause_isStop stopped

theorem threadStop_isStop (s : σ) {reply : Bytes} (stop : isStop reply = true) :
    isStop (core.threadStop s reply) = true := by
  unfold threadStop
  split
  · exact stop
  · rfl

theorem stopReason_isStop {s next : σ} {reply : Bytes} (stopped : core.stopReason s = some (reply, next)) :
    isStop reply = true := by
  obtain ⟨⟨signal, after⟩, stops, same⟩ := Option.map_eq_some_iff.mp stopped
  cases same
  exact core.threadStop_isStop _ (core.stopSignal_isStop stops)

end Core

theorem interruptReply_isStop {σ : Type} (core : Core σ) {s next : σ} {reply : Bytes}
    (stopped : Session.interruptReply core s = some (reply, next)) : isStop reply = true := by
  unfold Session.interruptReply at stopped
  split at stopped
  · cases stopped
    exact core.threadStop_isStop _ rfl
  · cases stopped

/-! ### Requests and replies -/

/-- Reads the history: whether a request waits for its stop reply; `none` where two requests or two stop replies
follow each other. -/
def unanswered : Bool → List Happening → Option Bool
  | waiting, [] => some waiting
  | false, .asked _ :: rest => unanswered true rest
  | true, .stop _ :: rest => unanswered false rest
  | true, .asked _ :: _ | false, .stop _ :: _ => none
  | waiting, _ :: rest => unanswered waiting rest

theorem unanswered_append (waiting : Bool) (front back : List Happening) :
    unanswered waiting (front ++ back) = (unanswered waiting front).bind fun after => unanswered after back := by
  induction front generalizing waiting with
  | nil => rfl
  | cons happening front ih => cases waiting <;> cases happening <;> simp [unanswered, ih]

/-- Only acknowledgements and replies of other kinds. -/
def Happening.isAside : Happening → Bool
  | .asked _ | .stop _ => false
  | _ => true

theorem unanswered_asides (waiting : Bool) {happenings : List Happening}
    (asides : happenings.all Happening.isAside = true) : unanswered waiting happenings = some waiting := by
  induction happenings with
  | nil => rfl
  | cons happening happenings ih =>
    rw [List.all_cons, Bool.and_eq_true] at asides
    cases happening with
    | asked request => cases asides.1
    | stop payload => cases asides.1
    | ack => cases waiting <;> exact ih asides.2
    | nack => cases waiting <;> exact ih asides.2
    | reply payload => cases waiting <;> exact ih asides.2

/-- A request waits while its handler does. -/
def Phase.Fits : Phase → Bool → Prop
  | .serving, pending => pending = false
  | .waiting _, pending => pending = true
  | .closed, _ => True

namespace Session
variable {σ : Type} {core : Core σ} {session : Session σ}

structure Answered (session : Session σ) : Prop where
  waits : ∃ pending, unanswered false session.history = some pending ∧ session.phase.Fits pending
  stops : ∀ payload, .stop payload ∈ session.history → isStop payload = true

/-- A request waits for its stop reply. -/
structure Owes (session : Session σ) : Prop where
  waits : unanswered false session.history = some true
  stops : ∀ payload, .stop payload ∈ session.history → isStop payload = true

theorem Answered.apart {next : Session σ} (answered : session.Answered) (history : next.history = session.history)
    (fits : ∀ pending, session.phase.Fits pending → next.phase.Fits pending) : next.Answered := by
  obtain ⟨pending, scanned, fit⟩ := answered.waits
  exact ⟨⟨pending, history ▸ scanned, fits pending fit⟩, history ▸ answered.stops⟩

theorem Answered.asides (answered : session.Answered) {happenings : List Happening}
    (asides : happenings.all Happening.isAside = true) : (session.note happenings).Answered := by
  obtain ⟨pending, scanned, fit⟩ := answered.waits
  constructor
  · refine ⟨pending, ?_, fit⟩
    unfold note
    rw [unanswered_append, scanned, Option.bind_some, unanswered_asides pending asides]
  · intro payload member
    rcases List.mem_append.mp member with before | now
    · exact answered.stops payload before
    · cases List.all_eq_true.mp asides _ now

theorem Answered.acknowledge (answered : session.Answered) {happening : Happening}
    (aside : happening.isAside = true) : (session.acknowledge happening).Answered := by
  unfold Session.acknowledge
  split
  · exact answered.asides (by simp [aside])
  · exact answered

theorem Answered.flipAckMode (answered : session.Answered) : session.flipAckMode.Answered := by
  unfold Session.flipAckMode
  split
  · exact answered.apart rfl fun _ fit => fit
  · exact answered

theorem Answered.ask (answered : session.Answered) (serving : session.phase = .serving) (request : Request) :
    (session.note [.asked request]).Owes := by
  obtain ⟨pending, scanned, fit⟩ := answered.waits
  rw [serving] at fit
  cases fit
  constructor
  · unfold note
    rw [unanswered_append, scanned]
    rfl
  · intro payload member
    rcases List.mem_append.mp member with before | now
    · exact answered.stops payload before
    · cases List.mem_singleton.mp now

theorem Answered.owes (answered : session.Answered) {wait : Wait} (waiting : session.phase = .waiting wait) :
    session.Owes := by
  obtain ⟨pending, scanned, fit⟩ := answered.waits
  rw [waiting] at fit
  cases fit
  exact ⟨scanned, answered.stops⟩

theorem Owes.close (owes : session.Owes) : session.close.Answered := ⟨⟨true, owes.waits, trivial⟩, owes.stops⟩

theorem Owes.answerStop (owes : session.Owes) {outcome : Option (Bytes × σ)}
    (stops : ∀ payload state, outcome = some (payload, state) → isStop payload = true) :
    (session.answerStop outcome).Answered := by
  unfold Session.answerStop
  split
  · rename_i payload state
    constructor
    · refine ⟨false, ?_, rfl⟩
      change unanswered false (session.history ++ [.stop payload]) = some false
      rw [unanswered_append, owes.waits]
      rfl
    · intro other member
      rcases List.mem_append.mp member with before | now
      · exact owes.stops other before
      · cases List.mem_singleton.mp now
        exact stops payload state rfl
  · exact owes.close

theorem Answered.resume (answered : session.Answered) (serving : session.phase = .serving) (started : Answer σ) :
    (session.resume started).Answered := by
  have owes := answered.ask serving .resume
  unfold Session.resume
  split
  · exact ⟨⟨true, owes.waits, rfl⟩, owes.stops⟩
  · exact owes.close

theorem Answered.handlePacket (answered : session.Answered) (serving : session.phase = .serving) (payload : Bytes) :
    (session.handlePacket core payload).Answered := by
  unfold Session.handlePacket
  split
  · exact answered.resume serving _
  · exact answered.resume serving _
  · refine Answered.flipAckMode ((answered.ask serving .question).answerStop ?_)
    intro reply state stopped
    exact core.stopReason_isStop stopped
  · split
    · rename_i responder response handled
      have kept : Answered { session with responder := responder } := answered.apart rfl fun _ fit => fit
      refine Answered.flipAckMode (kept.asides ?_)
      cases response <;> rfl
    · exact answered.apart rfl fun _ _ => trivial

theorem acknowledge_phase (session : Session σ) (happening : Happening) :
    (session.acknowledge happening).phase = session.phase := by
  unfold acknowledge
  split <;> rfl

theorem Answered.dispatch (answered : session.Answered) (serving : session.phase = .serving) (token : Token) :
    (session.dispatch core token).Answered := by
  cases token with
  | interrupt =>
    refine (answered.ask serving .interrupt).answerStop ?_
    intro reply state stopped
    exact interruptReply_isStop core stopped
  | ack => exact answered
  | nack => exact answered
  | stray byte => exact answered
  | packet packet =>
    unfold Session.dispatch
    dsimp only
    split
    · exact answered.acknowledge rfl
    · refine (answered.acknowledge rfl).handlePacket ?_ _
      exact (acknowledge_phase session .ack).trans serving

theorem Answered.listen (answered : session.Answered) (token : Token) : (session.listen token).1.Answered := by
  cases token with
  | interrupt => exact answered
  | ack => exact answered
  | nack => exact answered
  | stray byte => exact answered
  | packet packet =>
    unfold Session.listen
    dsimp only
    split
    · exact answered.acknowledge rfl
    · split
      · exact (answered.acknowledge rfl).asides rfl
      · exact answered.acknowledge rfl

theorem listen_phase (session : Session σ) (token : Token) : (session.listen token).1.phase = session.phase := by
  cases token with
  | packet packet =>
    unfold listen
    dsimp only
    split
    · exact acknowledge_phase session .nack
    · split
      · exact acknowledge_phase session .ack
      · exact acknowledge_phase session .ack
  | interrupt => rfl
  | ack => rfl
  | nack => rfl
  | stray byte => rfl

/-- A wait ends with one stop reply, or the session does. -/
theorem Answered.endWait (answered : session.Answered) {wait : Wait} (waiting : session.phase = .waiting wait) :
    (session.endWait core wait).Answered := by
  refine Answered.flipAckMode ((answered.owes waiting).answerStop ?_)
  intro reply state stopped
  split at stopped
  · exact interruptReply_isStop core stopped
  · exact core.stopReason_isStop stopped

theorem Answered.read {next : Session σ} (answered : session.Answered) {count : Nat}
    (stepped : session.read count = some next) : next.Answered := by
  unfold Session.read at stepped
  split at stepped
  · cases stepped
    exact answered.apart rfl fun _ fit => fit
  · cases stepped

theorem Answered.step {next : Session σ} {event : Event σ} (answered : session.Answered)
    (stepped : session.step core event = some next) : next.Answered := by
  have same {other : Session σ} (history : other.history = session.history) (phase : other.phase = session.phase) :
      other.Answered := answered.apart history fun _ fit => phase ▸ fit
  cases event with
  | arrives data =>
    simp only [Session.step] at stepped
    split at stepped <;> cases stepped
    exact same rfl rfl
  | disconnects =>
    cases stepped
    exact same rfl rfl
  | coreMoves state =>
    cases stepped
    exact same rfl rfl
  | reads count =>
    simp only [Session.step] at stepped
    split at stepped
    · split at stepped
      · cases stepped
        exact answered.apart rfl fun _ _ => trivial
      · exact answered.read stepped
    · cases stepped
  | dispatches =>
    simp only [Session.step] at stepped
    split at stepped
    · rename_i token size serving item
      cases stepped
      have drained : Answered { session with buffer := session.buffer.drop size } := same rfl rfl
      exact drained.dispatch serving token
    · cases stepped
  | polls =>
    simp only [Session.step] at stepped
    split at stepped
    · rename_i wait waiting
      cases stepped
      unfold Session.poll
      split
      · refine answered.apart rfl fun pending fit => ?_
        rw [waiting] at fit
        exact fit
      · refine answered.apart rfl fun pending fit => ?_
        rw [waiting] at fit
        exact fit
    · cases stepped
  | listens =>
    simp only [Session.step] at stepped
    split at stepped
    · rename_i wait token size waiting item
      split at stepped
      · cases stepped
      · cases stepped
        have drained : Answered { session with buffer := session.buffer.drop size } := same rfl rfl
        refine (drained.listen token).apart rfl fun pending fit => ?_
        rw [listen_phase, waiting] at fit
        exact fit
    · cases stepped
  | cutShort replied =>
    simp only [Session.step] at stepped
    split at stepped
    · split at stepped
      · cases stepped
        have drained (buffer : Bytes) : Answered { session with buffer := buffer } := same rfl rfl
        refine ((drained _).acknowledge rfl).asides ?_
        cases replied <;> rfl
      · cases stepped
    · cases stepped
  | hears count =>
    simp only [Session.step] at stepped
    split at stepped
    · rename_i polled waiting truncated
      split at stepped
      · cases stepped
        refine answered.apart rfl fun pending fit => ?_
        rw [waiting] at fit
        exact fit
      · exact answered.read stepped
    · cases stepped
  | wakes =>
    simp only [Session.step] at stepped
    split at stepped
    · rename_i wait waiting
      split at stepped <;> cases stepped
      exact answered.endWait waiting
    · cases stepped

/-- Every request that the main loop takes gets one stop reply before the next one is taken, and nothing else gets one;
the last request has none yet while its handler waits. -/
theorem stop_replies_alternate {state : σ} {events : List (Event σ)} {last : Session σ}
    (ran : events.foldlM (Session.step core) (start state) = some last) : last.Answered := by
  have begun : (start state).Answered := ⟨⟨false, rfl, rfl⟩, nofun⟩
  exact foldlM_invariant (fun _ _ _ answered stepped => Answered.step answered stepped) begun ran

/-- One core, in the state that it says. -/
def bench : Core CoreState where
  state := fun state => .ok (state, state)
  haltCause := fun state => .ok (.debugger, state)
  watchpointHit := fun state => .ok (none, state)
  resume := fun _ => .ok .run
  step := fun _ => .ok .halt
  halt := fun _ => .ok .halt
  cores := 1
  current := fun _ => 0
  other := fun responder _ => some (responder, some [])

/-- The client continues, and interrupts when the core has stopped on its own; `late` says whether the interrupt comes
after the stop reply. -/
def interrupted (late : Bool) : List (Event CoreState) :=
  [.arrives (Packet.frame (ascii "c")), .reads 5, .dispatches, .coreMoves .halt] ++
    if late then [.polls, .wakes, .arrives [0x03], .reads 1, .dispatches]
    else [.arrives [0x03], .polls, .hears 1, .listens, .wakes]

theorem stop_replies_alternate_race :
    ∃ last, (interrupted false).foldlM (Session.step bench) (start .halt) = some last ∧
      last.history = [.ack, .asked .resume, .stop interruptStopReply] ∧ last.Answered :=
  ⟨_, rfl, by decide, @stop_replies_alternate CoreState bench .halt (interrupted false) _ rfl⟩

def Happening.isStop : Happening → Bool
  | .stop _ => true
  | _ => false

/-- An interrupt that comes after the stop reply gets another one, though the client has resumed the core only once. -/
theorem late_interrupt_stops_again :
    ∃ last, (interrupted true).foldlM (Session.step bench) (start .halt) = some last ∧
      last.history = [.ack, .asked .resume, .stop (ascii "S05"), .asked .interrupt, .stop interruptStopReply] ∧
      ¬ last.history.countP Happening.isStop ≤ last.history.count (.asked .resume) :=
  ⟨_, rfl, by decide, by decide⟩

end Session

end Acrobe.Gdb.StopReplies
