import Acrobe.Lib.Futures
import Acrobe.Lib.Transition
import Acrobe.Wire.Frame

/-!
# Requests over the wire

A `WireClient` and the connection handler of the server, with the messages between them. The client resolves the
future of a request when its reader task meets an answer with its id; the reader ends with the socket, and with the
first frame that it can not decode.
-/

namespace Acrobe.Wire
open Futures Table Acrobe.Lib

/-! ### The two ends -/

inductive Message where
  | binary (loaded : Except String Cbor)
  | close

/-- How a call of `send_batch` fails; `protocol` names the frame that reports it. -/
inductive Failure where
  | closed
  | notEncoded
  | notSent
  | connectionClosed
  | protocol (frame : Nat)
  deriving DecidableEq

/-- The handler reads requests, waits for its dispatches and its writer once the loop has ended, and closes. -/
inductive Phase where
  | serving
  | finishing
  | finished
  deriving DecidableEq

/-- The tags known on either side. -/
structure Sessions (Obj : Type) where
  client : Codecs Obj
  server : Codecs Obj

/-- A future stands for a call of `send_batch`, and its request id is its index and one; what resolves it is named by
its index in `received`, the frames that the client has decoded. `pending` holds the futures in the client's table,
`inflight` the request ids of the dispatches that run, `queue` the frames for the server's writer. -/
structure Link (Obj : Type) where
  futures : Table Nat Failure
  pending : List Nat
  received : List (Frame Obj)
  closed : Bool
  socketClosed : Bool
  reading : Bool
  toServer : List Message
  phase : Phase
  inflight : List Cbor
  queue : List Cbor
  toClient : List Message

inductive Event where
  | sendBatch (encoded : Option (List Cbor))
  | cancel (future : Nat)
  | clientReads
  | clientCloses (delivered : Nat)
  | serverReads
  | dispatched (k : Nat) (outcome : Except String (List (Nat × Cbor) × List (Nat × Cbor)))
  | serverWrites
  | serverStops
  | serverCloses
  | disconnect (delivered read : Nat)
  | garbleRequest (k : Nat) (loaded : Except String Cbor)
  | garbleAnswer (k : Nat) (loaded : Except String Cbor)

def start {Obj : Type} : Link Obj := ⟨[], [], [], false, false, true, [], .serving, [], [], []⟩

variable {Obj : Type}

namespace Link

/-! ### The client -/

/-- A server whose loop has ended reads nothing more. -/
def send (link : Link Obj) (message : Message) : Link Obj :=
  if link.phase = .serving then { link with toServer := link.toServer ++ [message] } else link

def sendBatch (link : Link Obj) (encoded : Option (List Cbor)) : Link Obj :=
  if link.closed then { link with futures := link.futures ++ [.exception .closed] }
  else
    let future := link.futures.length
    let registered := { link with pending := link.pending ++ [future] }
    match encoded with
    | none => { registered with futures := link.futures ++ [.exception .notEncoded] }
    | some batch =>
      if link.socketClosed then { registered with futures := link.futures ++ [.exception .notSent] }
      else { registered.send (.binary (.ok (encodeRequest (future + 1) batch))) with
        futures := link.futures ++ [.pending] }

/-- The `finally` clause of `__read_loop`. -/
def endReader (link : Link Obj) : Link Obj :=
  { link with
    reading := false
    futures := link.futures.settleAll link.pending (.exception .connectionClosed)
    pending := [] }

/-- `__pending.pop(req_id, None)` and the settling of the future that it returns. -/
def pop (link : Link Obj) (reqId : Cbor) (status : Status Nat Failure) : Link Obj :=
  if reqId.hashable then
    match link.pending.find? fun future => reqId.isInt (future + 1 : Nat) with
    | some future =>
      { link with pending := link.pending.erase future, futures := link.futures.settle future status }
    | none => link
  else link.endReader

def onFrame (link : Link Obj) (frame : Frame Obj) : Link Obj :=
  let heard := { link with received := link.received ++ [frame] }
  match frame with
  | .response reqId _ _ => heard.pop reqId (.result link.received.length)
  | .protocolError .null _ _ => heard
  | .protocolError reqId _ _ => heard.pop reqId (.exception (.protocol link.received.length))
  | _ => heard

/-- A round of `__read_loop`. -/
def onMessage (sessions : Sessions Obj) (link : Link Obj) : Message → Link Obj
  | .close => { link.endReader with socketClosed := true }
  | .binary loaded =>
    match decodeFrame sessions.client loaded with
    | .frameError _ => link
    | .raised => link.endReader
    | .ok frame => link.onFrame frame

/-! ### The server -/

/-- The loop of `handle_ws` ends; what comes later is not read. -/
def endLoop (link : Link Obj) : Link Obj := { link with phase := .finishing, toServer := [] }

/-- A round of the loop of `handle_ws`. -/
def onRequest (sessions : Sessions Obj) (link : Link Obj) : Message → Link Obj
  | .close => link.endLoop
  | .binary loaded =>
    match decodeFrame sessions.server loaded with
    | .frameError text => { link with queue := link.queue ++ [encodeProtocolError .null "frame_error" text] }
    | .raised => link.endLoop
    | .ok (.request reqId _) => { link with inflight := link.inflight ++ [reqId] }
    | .ok frame =>
      { link with queue := link.queue ++ [encodeProtocolError frame.reqId "unexpected_frame" frame.typeName] }

/-- The answer of `dispatch_one`. -/
def answer (reqId : Cbor) : Except String (List (Nat × Cbor) × List (Nat × Cbor)) → Cbor
  | .ok (results, errors) => encodeResponse reqId results errors
  | .error representation => encodeProtocolError reqId "dispatch_failed" representation

/-! ### Steps -/

/-- The socket closes behind the first messages that are on their way. -/
def cut (delivered : Nat) (messages : List Message) : List Message := messages.take delivered ++ [.close]

/-- The frame at an index can not be decoded any more. -/
def garble (codecs : Codecs Obj) (messages : List Message) (k : Nat) (loaded : Except String Cbor) :
    Option (List Message) :=
  match messages[k]? with
  | some (.binary _) =>
    if (decodeFrame codecs loaded).isOk then none else some (messages.set k (.binary loaded))
  | _ => none

def step (sessions : Sessions Obj) (link : Link Obj) : Event → Option (Link Obj)
  | .sendBatch encoded => some (link.sendBatch encoded)
  | .cancel future => some { link with futures := link.futures.settle future .cancelled }
  | .clientReads =>
    match link.reading, link.toClient with
    | true, message :: rest => some ({ link with toClient := rest }.onMessage sessions message)
    | _, _ => none
  | .clientCloses delivered =>
    if link.closed then none
    else some ({ link with closed := true, socketClosed := true, toClient := cut delivered link.toClient }.send .close)
  | .serverReads =>
    match link.toServer with
    | message :: rest => some ({ link with toServer := rest }.onRequest sessions message)
    | [] => none
  | .dispatched k outcome =>
    match link.inflight[k]? with
    | some reqId =>
      some { link with inflight := link.inflight.eraseIdx k, queue := link.queue ++ [answer reqId outcome] }
    | none => none
  | .serverWrites =>
    match link.queue with
    | raw :: rest => some { link with queue := rest, toClient := link.toClient ++ [.binary (.ok raw)] }
    | [] => none
  | .serverStops => if link.phase = .serving then some link.endLoop else none
  | .serverCloses =>
    match link.phase, link.inflight, link.queue with
    | .finishing, [], [] => some { link with phase := .finished, toClient := link.toClient ++ [.close] }
    | _, _, _ => none
  | .disconnect delivered read =>
    some { link with
      socketClosed := true
      toClient := cut delivered link.toClient
      toServer := if link.phase = .serving then cut read link.toServer else [] }
  | .garbleRequest k loaded =>
    (garble sessions.server link.toServer k loaded).map fun toServer => { link with toServer := toServer }
  | .garbleAnswer k loaded =>
    (garble sessions.client link.toClient k loaded).map fun toClient => { link with toClient := toClient }

/-! ### What is claimed -/

/-- A future got the frame that carries its request id. -/
structure Matched (link : Link Obj) : Prop where
  results : ∀ (future frame : Nat), link.futures[future]? = some (Status.result frame) →
    ∃ reqId results errors, link.received[frame]? = some (.response reqId results errors) ∧
      reqId.isInt (future + 1 : Nat)
  failures : ∀ (future frame : Nat), link.futures[future]? = some (Status.exception (Failure.protocol frame)) →
    ∃ reqId kind payload, link.received[frame]? = some (.protocolError reqId kind payload) ∧
      reqId.isInt (future + 1 : Nat)

/-- Nothing is on its way and nothing runs on the server, or nobody reads the answers. -/
def Quiescent (link : Link Obj) : Prop :=
  link.toServer = [] ∧ link.toClient = [] ∧ link.inflight = [] ∧ link.queue = [] ∧ link.phase ≠ .finishing ∨
    link.reading = false

/-- No frame on its way turns into one that raises `FrameError`, and nothing is sent once the reader has ended, unless
the socket is closed. -/
def Serves (sessions : Sessions Obj) (link : Link Obj) : Event → Prop
  | .sendBatch _ => link.reading = true ∨ link.closed = true ∨ link.socketClosed = true
  | .garbleRequest _ loaded => (decodeFrame sessions.server loaded).raises = true
  | .garbleAnswer _ loaded => (decodeFrame sessions.client loaded).raises = true
  | _ => True

instance (sessions : Sessions Obj) (link : Link Obj) : (event : Event) → Decidable (Serves sessions link event)
  | .sendBatch _ => inferInstanceAs (Decidable (_ ∨ _))
  | .garbleRequest _ _ | .garbleAnswer _ _ => inferInstanceAs (Decidable (_ = _))
  | .cancel _ | .clientReads | .clientCloses _ | .serverReads | .dispatched _ _ | .serverWrites | .serverStops
  | .serverCloses | .disconnect _ _ => .isTrue trivial

/-! ### Answers go to their requests -/

/-- Not the outcome of a frame. -/
def Quiet : Status Nat Failure → Prop
  | .result _ | .exception (.protocol _) => False
  | _ => True

theorem Matched.mono {link next : Link Obj} (matched : link.Matched)
    (heard : ∀ (frame : Nat) (value : Frame Obj), link.received[frame]? = some value →
      next.received[frame]? = some value)
    (held : ∀ (future : Nat) (status : Status Nat Failure), next.futures[future]? = some status →
      link.futures[future]? = some status ∨ Quiet status) : next.Matched where
  results := by
    intro future frame found
    obtain ⟨reqId, results, errors, received, own⟩ := matched.results future frame
      ((held future _ found).resolve_right id)
    exact ⟨reqId, results, errors, heard frame _ received, own⟩
  failures := by
    intro future frame found
    obtain ⟨reqId, kind, payload, received, own⟩ := matched.failures future frame
      ((held future _ found).resolve_right id)
    exact ⟨reqId, kind, payload, heard frame _ received, own⟩

theorem Matched.append {link : Link Obj} (matched : link.Matched) {next : Link Obj} {status : Status Nat Failure}
    (futures : next.futures = link.futures ++ [status]) (received : next.received = link.received)
    (quiet : Quiet status) : next.Matched := by
  refine matched.mono (fun frame value found => received ▸ found) ?_
  intro future kept found
  rw [futures, List.getElem?_append] at found
  split at found
  · exact .inl found
  · obtain rfl := List.mem_singleton.mp (List.mem_of_getElem? found)
    exact .inr quiet

theorem Matched.endReader {link : Link Obj} (matched : link.Matched) : link.endReader.Matched := by
  refine matched.mono (fun _ _ found => found) ?_
  intro future kept found
  rcases settleAll_cases found with before | rfl
  · exact .inl before
  · exact .inr trivial

theorem pop_cases (link : Link Obj) (reqId : Cbor) (status : Status Nat Failure) :
    (reqId.hashable = false ∧ link.pop reqId status = link.endReader) ∨
      (reqId.hashable = true ∧ (∀ future ∈ link.pending, ¬ reqId.isInt (future + 1 : Nat)) ∧
        link.pop reqId status = link) ∨
      ∃ future, reqId.hashable = true ∧ reqId.isInt (future + 1 : Nat) ∧ link.pop reqId status =
        { link with pending := link.pending.erase future, futures := link.futures.settle future status } := by
  unfold pop
  cases hashable : reqId.hashable with
  | false => exact .inl ⟨rfl, rfl⟩
  | true =>
    cases found : link.pending.find? fun future => reqId.isInt (future + 1 : Nat) with
    | none => exact .inr (.inl ⟨rfl, by simpa using found, rfl⟩)
    | some future =>
      have own : reqId.isInt (future + 1 : Nat) := by simpa using List.find?_some found
      exact .inr (.inr ⟨future, rfl, own, rfl⟩)

theorem Matched.pop {link : Link Obj} {reqId : Cbor} {status : Status Nat Failure} (matched : link.Matched)
    (results : ∀ frame, status = .result frame → ∃ results errors,
      link.received[frame]? = some (.response reqId results errors))
    (failures : ∀ frame, status = .exception (.protocol frame) → ∃ kind payload,
      link.received[frame]? = some (.protocolError reqId kind payload)) : (link.pop reqId status).Matched := by
  rcases link.pop_cases reqId status with ⟨-, same⟩ | ⟨-, -, same⟩ | ⟨popped, -, own, same⟩
  · rw [same]
    exact matched.endReader
  · rw [same]
    exact matched
  · rw [same]
    constructor
    · intro future frame found
      rcases settle_cases found with before | ⟨rfl, result⟩
      · exact matched.results future frame before
      · obtain ⟨values, errors, received⟩ := results frame result.symm
        exact ⟨reqId, values, errors, received, own⟩
    · intro future frame found
      rcases settle_cases found with before | ⟨rfl, failure⟩
      · exact matched.failures future frame before
      · obtain ⟨kind, payload, received⟩ := failures frame failure.symm
        exact ⟨reqId, kind, payload, received, own⟩

theorem Matched.heard {link : Link Obj} (matched : link.Matched) (frame : Frame Obj) :
    Matched { link with received := link.received ++ [frame] } := by
  refine matched.mono ?_ fun _ _ found => .inl found
  intro index value found
  exact (List.getElem?_append_left (List.getElem?_eq_some_iff.mp found).1).trans found

theorem Matched.onFrame {link : Link Obj} (matched : link.Matched) (frame : Frame Obj) :
    (link.onFrame frame).Matched := by
  have heard := matched.heard frame
  have last : (link.received ++ [frame])[link.received.length]? = some frame := List.getElem?_concat_length
  unfold Link.onFrame
  split
  · rename_i reqId results errors
    refine heard.pop ?_ nofun
    intro index same
    cases same
    exact ⟨results, errors, last⟩
  · exact heard
  · rename_i reqId kind payload present
    refine heard.pop nofun ?_
    intro index same
    cases same
    exact ⟨kind, payload, last⟩
  · exact heard

theorem Matched.onMessage {link : Link Obj} (matched : link.Matched) (sessions : Sessions Obj) (message : Message) :
    (link.onMessage sessions message).Matched := by
  unfold Link.onMessage
  split
  · exact ⟨matched.endReader.results, matched.endReader.failures⟩
  · split
    · exact matched
    · exact matched.endReader
    · exact matched.onFrame _

theorem Matched.sendBatch {link : Link Obj} (matched : link.Matched) (encoded : Option (List Cbor)) :
    (link.sendBatch encoded).Matched := by
  unfold Link.sendBatch
  split
  · exact matched.append rfl rfl trivial
  · cases encoded with
    | none => exact matched.append rfl rfl trivial
    | some batch =>
      simp only
      split
      · exact matched.append rfl rfl trivial
      · refine matched.append rfl ?_ trivial
        unfold send
        split <;> rfl

theorem Matched.apart {link next : Link Obj} (matched : link.Matched) (futures : next.futures = link.futures)
    (received : next.received = link.received) : next.Matched := by
  refine matched.mono (fun frame value found => received ▸ found) fun future status found => ?_
  rw [futures] at found
  exact .inl found

theorem Matched.step {sessions : Sessions Obj} {link next : Link Obj} {event : Event} (matched : link.Matched)
    (stepped : link.step sessions event = some next) : next.Matched := by
  cases event with
  | sendBatch encoded =>
    cases stepped
    exact matched.sendBatch encoded
  | cancel future =>
    cases stepped
    refine matched.mono (fun _ _ found => found) ?_
    intro other kept found
    rcases settle_cases found with before | ⟨-, rfl⟩
    · exact .inl before
    · exact .inr trivial
  | clientReads =>
    simp only [Link.step] at stepped
    split at stepped
    · rename_i message rest reading waiting
      cases stepped
      have apart : Matched { link with toClient := rest } := matched.apart rfl rfl
      exact apart.onMessage sessions message
    · cases stepped
  | clientCloses delivered =>
    simp only [Link.step] at stepped
    split at stepped
    · cases stepped
    · cases stepped
      unfold send
      split <;> exact matched.apart rfl rfl
  | serverReads =>
    simp only [Link.step] at stepped
    split at stepped
    · cases stepped
      unfold onRequest
      split
      · exact matched.apart rfl rfl
      · split <;> exact matched.apart rfl rfl
    · cases stepped
  | dispatched k outcome =>
    simp only [Link.step] at stepped
    split at stepped <;> cases stepped
    exact matched.apart rfl rfl
  | serverWrites =>
    simp only [Link.step] at stepped
    split at stepped <;> cases stepped
    exact matched.apart rfl rfl
  | serverStops =>
    simp only [Link.step] at stepped
    split at stepped <;> cases stepped
    exact matched.apart rfl rfl
  | serverCloses =>
    simp only [Link.step] at stepped
    split at stepped <;> cases stepped
    exact matched.apart rfl rfl
  | disconnect delivered read =>
    cases stepped
    exact matched.apart rfl rfl
  | garbleRequest k loaded =>
    obtain ⟨toServer, -, rfl⟩ := Option.map_eq_some_iff.mp stepped
    exact matched.apart rfl rfl
  | garbleAnswer k loaded =>
    obtain ⟨toClient, -, rfl⟩ := Option.map_eq_some_iff.mp stepped
    exact matched.apart rfl rfl

/-! ### What keeps a request alive -/

variable (sessions : Sessions Obj)

/-- The message ends the reader of the client. -/
def EndsClient : Message → Prop
  | .close => True
  | .binary loaded => (decodeFrame sessions.client loaded).raises

/-- The message ends the loop of the server. -/
def EndsServer : Message → Prop
  | .close => True
  | .binary loaded => (decodeFrame sessions.server loaded).raises

def Asks (reqId : Nat) (message : Message) : Prop := ∃ batch, message = .binary (.ok (encodeRequest reqId batch))

def Answers (reqId : Nat) (raw : Cbor) : Prop := ∃ outcome, raw = answer (.int reqId) outcome

theorem asks_unique {reqId other : Nat} {message : Message} (asks : Asks reqId message) (again : Asks other message) :
    reqId = other := by
  obtain ⟨batch, rfl⟩ := asks
  obtain ⟨others, same⟩ := again
  simp only [encodeRequest, Message.binary.injEq, Except.ok.injEq, Cbor.list.injEq, List.cons.injEq, Cbor.int.injEq,
    Int.natCast_inj] at same
  exact same.2.1

/-- The id of an answer, whatever the outcome. -/
def answerId : Cbor → Option Cbor
  | .list (_ :: reqId :: _) => some reqId
  | _ => none

theorem answers_unique {reqId other : Nat} {raw : Cbor} (answers : Answers reqId raw) (again : Answers other raw) :
    reqId = other := by
  have shape (id : Nat) (outcome : Except String (List (Nat × Cbor) × List (Nat × Cbor))) :
      answerId (answer (.int id) outcome) = some (.int id) := by
    cases outcome <;> rfl
  obtain ⟨outcome, rfl⟩ := answers
  obtain ⟨others, same⟩ := again
  have ids := congrArg answerId same
  rw [shape, shape] at ids
  exact Int.ofNat.inj (Cbor.int.inj (Option.some.inj ids))

/-- The reader is bound to end. -/
def Doomed (link : Link Obj) : Prop :=
  (∃ message ∈ link.toClient, EndsClient sessions message) ∨ link.phase = .finishing ∨
    ∃ message ∈ link.toServer, EndsServer sessions message

/-- The request, its dispatch or its answer is somewhere. -/
def Held (link : Link Obj) (reqId : Nat) : Prop :=
  (∃ message ∈ link.toServer, Asks reqId message) ∨ .int reqId ∈ link.inflight ∨
    (∃ raw ∈ link.queue, Answers reqId raw) ∨ ∃ raw, .binary (.ok raw) ∈ link.toClient ∧ Answers reqId raw

/-- What is on its way. -/
structure Traffic (link : Link Obj) : Prop where
  requests : ∀ message ∈ link.toServer, (∃ reqId, Asks reqId message) ∨ EndsServer sessions message
  dispatches : ∀ reqId ∈ link.inflight, ∃ id : Nat, reqId = .int id
  queued : ∀ raw ∈ link.queue, ∃ id, Answers id raw
  answers : ∀ message ∈ link.toClient, (∃ raw, message = .binary (.ok raw) ∧ ∃ id, Answers id raw) ∨
    EndsClient sessions message
  unread : link.phase ≠ .serving → link.toServer = []
  closing : link.reading = true → link.phase = .finished → ∃ message ∈ link.toClient, EndsClient sessions message

/-- A pending future is in the table of the client, and its request is held unless the reader is bound to end. -/
structure Live (link : Link Obj) : Prop where
  traffic : link.Traffic sessions
  ended : link.reading = false → ∀ future, ¬ link.futures.Pending future
  registered : link.reading = true → ∀ future, link.futures.Pending future → future ∈ link.pending
  held : link.reading = true → ∀ future, link.futures.Pending future →
    link.Doomed sessions ∨ link.Held (future + 1)

/-- The client is left alone, and every request that was held still is, unless the reader is bound to end. -/
structure Carried (link next : Link Obj) : Prop where
  futures : next.futures = link.futures
  pending : next.pending = link.pending
  reading : next.reading = link.reading
  doomed : link.Doomed sessions → next.Doomed sessions
  held : ∀ reqId, link.Held reqId → next.Doomed sessions ∨ next.Held reqId

variable {sessions} {link next : Link Obj}

theorem Live.carried (live : link.Live sessions) (carried : link.Carried sessions next)
    (traffic : next.Traffic sessions) : next.Live sessions where
  traffic := traffic
  ended := by
    rw [carried.reading, carried.futures]
    exact live.ended
  registered := by
    rw [carried.reading, carried.futures, carried.pending]
    exact live.registered
  held := by
    rw [carried.reading, carried.futures]
    intro reading future pending
    rcases live.held reading future pending with doomed | held
    · exact .inl (carried.doomed doomed)
    · exact carried.held _ held

/-- Where the reader is bound to end, no request needs to be held. -/
theorem Live.doom (live : link.Live sessions) (futures : next.futures = link.futures)
    (pending : next.pending = link.pending) (reading : next.reading = link.reading) (doomed : next.Doomed sessions)
    (traffic : next.Traffic sessions) : next.Live sessions :=
  live.carried ⟨futures, pending, reading, fun _ => doomed, fun _ _ => .inl doomed⟩ traffic

theorem close_mem_cut (delivered : Nat) (messages : List Message) : .close ∈ cut delivered messages :=
  List.mem_append_right _ (List.mem_singleton_self _)

theorem mem_cut {delivered : Nat} {messages : List Message} {message : Message}
    (member : message ∈ cut delivered messages) : message ∈ messages ∨ message = .close :=
  (List.mem_append.mp member).imp List.mem_of_mem_take List.mem_singleton.mp

theorem eq_raised {α : Type} {decoded : Decoded α} (raises : decoded.raises = true) : decoded = .raised := by
  cases decoded with
  | raised => rfl
  | ok value => cases raises
  | frameError text => cases raises

/-! ### Steps of the server -/

theorem Live.endLoop (live : link.Live sessions) : link.endLoop.Live sessions := by
  refine live.doom rfl rfl rfl (.inr (.inl rfl)) ?_
  exact {
    requests := nofun
    dispatches := live.traffic.dispatches
    queued := live.traffic.queued
    answers := live.traffic.answers
    unread := fun _ => rfl
    closing := nofun }

theorem onRequest_cases {message : Message} (known : (∃ reqId, Asks reqId message) ∨ EndsServer sessions message) :
    link.onRequest sessions message = link.endLoop ∨ ∃ reqId : Nat, Asks reqId message ∧
      ¬ EndsServer sessions message ∧
        link.onRequest sessions message = { link with inflight := link.inflight ++ [.int reqId] } := by
  have ends (last : EndsServer sessions message) : link.onRequest sessions message = link.endLoop := by
    cases message with
    | close => rfl
    | binary loaded =>
      unfold onRequest
      simp only [eq_raised last]
  rcases known with ⟨reqId, batch, rfl⟩ | last
  · rcases decodeFrame_request sessions.server reqId batch with ⟨ops, decoded⟩ | raised
    · refine .inr ⟨reqId, ⟨batch, rfl⟩, ?_, ?_⟩
      · simp only [EndsServer, decoded]
        exact Bool.false_ne_true
      · simp only [onRequest, decoded]
    · refine .inl (ends ?_)
      simp only [EndsServer, raised, Decoded.raises]
  · exact .inl (ends last)

theorem Live.serverReads {message : Message} {rest : List Message} (live : link.Live sessions)
    (waiting : link.toServer = message :: rest) :
    (onRequest sessions { link with toServer := rest } message).Live sessions := by
  have running : link.phase = .serving := by
    by_contra other
    cases waiting ▸ live.traffic.unread other
  have known := live.traffic.requests message (waiting ▸ List.mem_cons_self ..)
  rcases @onRequest_cases Obj sessions { link with toServer := rest } message known with
    same | ⟨reqId, asks, goesOn, same⟩
  · rw [same]
    exact live.endLoop
  · rw [same]
    refine live.carried ⟨rfl, rfl, rfl, ?_, ?_⟩ ?_
    · rintro (client | finishing | ⟨last, member, ends⟩)
      · exact .inl client
      · exact .inr (.inl finishing)
      · rw [waiting] at member
        rcases List.mem_cons.mp member with rfl | later
        · exact absurd ends goesOn
        · exact .inr (.inr ⟨last, later, ends⟩)
    · rintro other (⟨request, member, again⟩ | dispatch | queued | answered)
      · rw [waiting] at member
        rcases List.mem_cons.mp member with rfl | later
        · rw [asks_unique again asks]
          exact .inr (.inr (.inl (List.mem_append_right _ (List.mem_singleton_self _))))
        · exact .inr (.inl ⟨request, later, again⟩)
      · exact .inr (.inr (.inl (List.mem_append_left _ dispatch)))
      · exact .inr (.inr (.inr (.inl queued)))
      · exact .inr (.inr (.inr (.inr answered)))
    · exact {
        requests := fun request member => live.traffic.requests request (waiting ▸ List.mem_cons_of_mem _ member)
        dispatches := by
          intro dispatch member
          rcases List.mem_append.mp member with before | now
          · exact live.traffic.dispatches dispatch before
          · exact ⟨reqId, List.mem_singleton.mp now⟩
        queued := live.traffic.queued
        answers := live.traffic.answers
        unread := fun other => absurd running other
        closing := live.traffic.closing }

theorem Live.dispatched {k : Nat} {reqId : Cbor} (live : link.Live sessions) (found : link.inflight[k]? = some reqId)
    (outcome : Except String (List (Nat × Cbor) × List (Nat × Cbor))) :
    Live sessions
      { link with inflight := link.inflight.eraseIdx k, queue := link.queue ++ [answer reqId outcome] } := by
  obtain ⟨id, rfl⟩ := live.traffic.dispatches reqId (List.mem_of_getElem? found)
  refine live.carried ⟨rfl, rfl, rfl, fun doomed => doomed, ?_⟩ ?_
  · rintro other (request | dispatch | ⟨raw, member, answers⟩ | answered)
    · exact .inr (.inl request)
    · obtain ⟨index, there⟩ := List.mem_iff_getElem?.mp dispatch
      by_cases same : index = k
      · rw [same, found] at there
        cases there
        exact .inr (.inr (.inr (.inl ⟨_, List.mem_append_right _ (List.mem_singleton_self _), outcome, rfl⟩)))
      · exact .inr (.inr (.inl (List.mem_eraseIdx_iff_getElem?.mpr ⟨index, same, there⟩)))
    · exact .inr (.inr (.inr (.inl ⟨raw, List.mem_append_left _ member, answers⟩)))
    · exact .inr (.inr (.inr (.inr answered)))
  · exact {
      requests := live.traffic.requests
      dispatches := fun dispatch member => live.traffic.dispatches dispatch (List.mem_of_mem_eraseIdx member)
      queued := by
        intro raw member
        rcases List.mem_append.mp member with before | now
        · exact live.traffic.queued raw before
        · exact ⟨id, outcome, List.mem_singleton.mp now⟩
      answers := live.traffic.answers
      unread := live.traffic.unread
      closing := live.traffic.closing }

theorem Live.serverWrites {raw : Cbor} {rest : List Cbor} (live : link.Live sessions)
    (waiting : link.queue = raw :: rest) :
    Live sessions { link with queue := rest, toClient := link.toClient ++ [.binary (.ok raw)] } := by
  have written : .binary (.ok raw) ∈ link.toClient ++ [.binary (.ok raw)] :=
    List.mem_append_right _ (List.mem_singleton_self _)
  refine live.carried ⟨rfl, rfl, rfl, ?_, ?_⟩ ?_
  · rintro (⟨message, member, ends⟩ | finishing | server)
    · exact .inl ⟨message, List.mem_append_left _ member, ends⟩
    · exact .inr (.inl finishing)
    · exact .inr (.inr server)
  · rintro other (request | dispatch | ⟨frame, member, answers⟩ | ⟨frame, member, answers⟩)
    · exact .inr (.inl request)
    · exact .inr (.inr (.inl dispatch))
    · rw [waiting] at member
      rcases List.mem_cons.mp member with rfl | later
      · exact .inr (.inr (.inr (.inr ⟨frame, written, answers⟩)))
      · exact .inr (.inr (.inr (.inl ⟨frame, later, answers⟩)))
    · exact .inr (.inr (.inr (.inr ⟨frame, List.mem_append_left _ member, answers⟩)))
  · exact {
      requests := live.traffic.requests
      dispatches := live.traffic.dispatches
      queued := fun frame member => live.traffic.queued frame (waiting ▸ List.mem_cons_of_mem _ member)
      answers := by
        intro message member
        rcases List.mem_append.mp member with before | now
        · exact live.traffic.answers message before
        · exact .inl ⟨raw, List.mem_singleton.mp now, live.traffic.queued raw (waiting ▸ List.mem_cons_self ..)⟩
      unread := live.traffic.unread
      closing := by
        intro reading finished
        obtain ⟨message, member, ends⟩ := live.traffic.closing reading finished
        exact ⟨message, List.mem_append_left _ member, ends⟩ }

theorem Live.serverCloses (live : link.Live sessions) (unread : link.toServer = []) :
    Live sessions { link with phase := .finished, toClient := link.toClient ++ [.close] } := by
  have close : ∃ message ∈ link.toClient ++ [.close], EndsClient sessions message :=
    ⟨.close, List.mem_append_right _ (List.mem_singleton_self _), trivial⟩
  refine live.doom rfl rfl rfl (.inl close) ?_
  exact {
    requests := live.traffic.requests
    dispatches := live.traffic.dispatches
    queued := live.traffic.queued
    answers := by
      intro message member
      rcases List.mem_append.mp member with before | now
      · exact live.traffic.answers message before
      · rw [List.mem_singleton.mp now]
        exact .inr trivial
    unread := fun _ => unread
    closing := fun _ _ => close }

/-! ### The socket -/

/-- A close on its way to the client dooms its reader, whatever else becomes of the traffic. -/
theorem Live.cut (live : link.Live sessions) (delivered : Nat) (futures : next.futures = link.futures)
    (pending : next.pending = link.pending) (reading : next.reading = link.reading)
    (dispatches : next.inflight = link.inflight) (queued : next.queue = link.queue)
    (answers : next.toClient = Link.cut delivered link.toClient)
    (requests : ∀ message ∈ next.toServer, message ∈ link.toServer ∨ message = .close)
    (unread : next.phase ≠ .serving → next.toServer = []) : next.Live sessions := by
  have close : ∃ message ∈ next.toClient, EndsClient sessions message := by
    rw [answers]
    exact ⟨.close, close_mem_cut delivered link.toClient, trivial⟩
  refine live.doom futures pending reading (.inl close) ?_
  exact {
    requests := by
      intro message member
      rcases requests message member with before | rfl
      · exact live.traffic.requests message before
      · exact .inr trivial
    dispatches := dispatches ▸ live.traffic.dispatches
    queued := queued ▸ live.traffic.queued
    answers := by
      intro message member
      rw [answers] at member
      rcases mem_cut member with before | rfl
      · exact live.traffic.answers message before
      · exact .inr trivial
    unread := unread
    closing := fun _ _ => close }

theorem garble_some {codecs : Codecs Obj} {messages garbled : List Message} {k : Nat} {loaded : Except String Cbor}
    (done : garble codecs messages k loaded = some garbled) :
    .binary loaded ∈ garbled ∧ ∀ message ∈ garbled, message ∈ messages ∨ message = .binary loaded := by
  unfold garble at done
  split at done
  · rename_i old found
    split at done
    · cases done
    · cases done
      exact ⟨List.mem_set (List.getElem?_eq_some_iff.mp found).1 _, fun _ => List.mem_or_eq_of_mem_set⟩
  · cases done

theorem Live.garbleRequest {k : Nat} {loaded : Except String Cbor} {toServer : List Message}
    (live : link.Live sessions) (raises : (decodeFrame sessions.server loaded).raises = true)
    (done : garble sessions.server link.toServer k loaded = some toServer) :
    Live sessions { link with toServer := toServer } := by
  obtain ⟨there, others⟩ := garble_some done
  refine live.doom rfl rfl rfl (.inr (.inr ⟨_, there, raises⟩)) ?_
  exact {
    requests := by
      intro message member
      rcases others message member with before | rfl
      · exact live.traffic.requests message before
      · exact .inr raises
    dispatches := live.traffic.dispatches
    queued := live.traffic.queued
    answers := live.traffic.answers
    unread := by
      intro other
      rw [live.traffic.unread other] at done
      cases done
    closing := live.traffic.closing }

theorem Live.garbleAnswer {k : Nat} {loaded : Except String Cbor} {toClient : List Message}
    (live : link.Live sessions) (raises : (decodeFrame sessions.client loaded).raises = true)
    (done : garble sessions.client link.toClient k loaded = some toClient) :
    Live sessions { link with toClient := toClient } := by
  obtain ⟨there, others⟩ := garble_some done
  have ends : ∃ message ∈ toClient, EndsClient sessions message := ⟨_, there, raises⟩
  refine live.doom rfl rfl rfl (.inl ends) ?_
  exact {
    requests := live.traffic.requests
    dispatches := live.traffic.dispatches
    queued := live.traffic.queued
    answers := by
      intro message member
      rcases others message member with before | rfl
      · exact live.traffic.answers message before
      · exact .inr raises
    unread := live.traffic.unread
    closing := fun _ _ => ends }

/-! ### Steps of the client -/

theorem Live.cancel (live : link.Live sessions) (future : Nat) :
    Live sessions { link with futures := link.futures.settle future .cancelled } := by
  have done : (Status.cancelled : Status Nat Failure) ≠ .pending := nofun
  have before {other : Nat} (pending : (link.futures.settle future .cancelled).Pending other) :
      link.futures.Pending other := ((pending_settle done).mp pending).1
  exact {
    traffic := ⟨live.traffic.requests, live.traffic.dispatches, live.traffic.queued, live.traffic.answers,
      live.traffic.unread, live.traffic.closing⟩
    ended := fun reading other pending => live.ended reading other (before pending)
    registered := fun reading other pending => live.registered reading other (before pending)
    held := fun reading other pending => live.held reading other (before pending) }

theorem Live.refuse (live : link.Live sessions) {failure : Failure} {pending : List Nat}
    (kept : ∀ future ∈ link.pending, future ∈ pending) :
    Live sessions { link with pending := pending, futures := link.futures ++ [.exception failure] } := by
  have before {future : Nat} (waits : Table.Pending (link.futures ++ [.exception failure]) future) :
      link.futures.Pending future := (pending_append.mp waits).resolve_right nofun
  exact {
    traffic := ⟨live.traffic.requests, live.traffic.dispatches, live.traffic.queued, live.traffic.answers,
      live.traffic.unread, live.traffic.closing⟩
    ended := fun reading future waits => live.ended reading future (before waits)
    registered := fun reading future waits => kept future (live.registered reading future (before waits))
    held := fun reading future waits => live.held reading future (before waits) }

theorem Live.request (live : link.Live sessions) (reading : link.reading = true) (batch : List Cbor) :
    Live sessions { send { link with pending := link.pending ++ [link.futures.length] }
      (.binary (.ok (encodeRequest (link.futures.length + 1) batch))) with futures := link.futures ++ [.pending] } := by
  have known {future : Nat} (waits : Table.Pending (link.futures ++ [.pending]) future) :
      future ∈ link.pending ++ [link.futures.length] := by
    rcases pending_append.mp waits with before | ⟨rfl, -⟩
    · exact List.mem_append_left _ (live.registered reading future before)
    · exact List.mem_append_right _ (List.mem_singleton_self _)
  unfold send
  split
  · rename_i running
    have sent : Message.binary (.ok (encodeRequest (link.futures.length + 1) batch)) ∈
        link.toServer ++ [.binary (.ok (encodeRequest (link.futures.length + 1) batch))] :=
      List.mem_append_right _ (List.mem_singleton_self _)
    exact {
      traffic := {
        requests := by
          intro message member
          rcases List.mem_append.mp member with before | now
          · exact live.traffic.requests message before
          · exact .inl ⟨_, batch, List.mem_singleton.mp now⟩
        dispatches := live.traffic.dispatches
        queued := live.traffic.queued
        answers := live.traffic.answers
        unread := fun other => absurd running other
        closing := live.traffic.closing }
      ended := fun ceased => nomatch reading.symm.trans ceased
      registered := fun _ _ => known
      held := by
        intro _ future waits
        rcases pending_append.mp waits with before | ⟨rfl, -⟩
        · rcases live.held reading future before with doomed | held
          · left
            rcases doomed with client | finishing | ⟨message, member, ends⟩
            · exact .inl client
            · exact .inr (.inl finishing)
            · exact .inr (.inr ⟨message, List.mem_append_left _ member, ends⟩)
          · right
            rcases held with ⟨message, member, asks⟩ | dispatch | queued | answered
            · exact .inl ⟨message, List.mem_append_left _ member, asks⟩
            · exact .inr (.inl dispatch)
            · exact .inr (.inr (.inl queued))
            · exact .inr (.inr (.inr answered))
        · exact .inr (.inl ⟨_, sent, batch, rfl⟩) }
  · rename_i stopped
    have doomed : link.Doomed sessions := by
      cases phase : link.phase with
      | serving => exact absurd phase stopped
      | finishing => exact .inr (.inl phase)
      | finished => exact .inl (live.traffic.closing reading phase)
    exact {
      traffic := ⟨live.traffic.requests, live.traffic.dispatches, live.traffic.queued, live.traffic.answers,
        live.traffic.unread, live.traffic.closing⟩
      ended := fun ceased => nomatch reading.symm.trans ceased
      registered := fun _ _ => known
      held := fun _ _ _ => .inl doomed }

theorem Live.sendBatch (live : link.Live sessions)
    (served : link.reading = true ∨ link.closed = true ∨ link.socketClosed = true) (encoded : Option (List Cbor)) :
    (link.sendBatch encoded).Live sessions := by
  have registers : ∀ future ∈ link.pending, future ∈ link.pending ++ [link.futures.length] :=
    fun _ member => List.mem_append_left _ member
  unfold Link.sendBatch
  split
  · exact live.refuse fun _ member => member
  · rename_i opened
    cases encoded with
    | none => exact live.refuse registers
    | some batch =>
      simp only
      split
      · exact live.refuse registers
      · rename_i usable
        have reading := served.resolve_right fun either => either.elim opened usable
        exact live.request reading batch

theorem Live.endReader {rest : List Message} (live : link.Live sessions) (reading : link.reading = true)
    (fewer : ∀ message ∈ rest, message ∈ link.toClient) (socketClosed : Bool) :
    Live sessions { Link.endReader { link with toClient := rest } with socketClosed := socketClosed } := by
  have done : (Status.exception Failure.connectionClosed : Status Nat Failure) ≠ .pending := nofun
  exact {
    traffic := {
      requests := live.traffic.requests
      dispatches := live.traffic.dispatches
      queued := live.traffic.queued
      answers := fun message member => live.traffic.answers message (fewer message member)
      unread := live.traffic.unread
      closing := nofun }
    ended := by
      intro _ future waits
      obtain ⟨before, apart⟩ := (pending_settleAll done).mp waits
      exact apart (live.registered reading future before)
    registered := nofun
    held := nofun }

theorem Live.pop {rest : List Message} {raw : Cbor} {reqId : Nat} {status : Status Nat Failure}
    (live : link.Live sessions) (reading : link.reading = true) (waiting : link.toClient = .binary (.ok raw) :: rest)
    (answers : Answers reqId raw) (goesOn : ¬ EndsClient sessions (.binary (.ok raw))) (done : status ≠ .pending)
    (received : List (Frame Obj)) :
    Live sessions (Link.pop { link with toClient := rest, received := received } (.int reqId) status) := by
  have ends (last : ∃ message ∈ link.toClient, EndsClient sessions message) :
      ∃ message ∈ rest, EndsClient sessions message := by
    obtain ⟨message, member, ends⟩ := last
    rw [waiting] at member
    rcases List.mem_cons.mp member with rfl | later
    · exact absurd ends goesOn
    · exact ⟨message, later, ends⟩
  have traffic (futures : Table Nat Failure) (pending : List Nat) :
      Traffic sessions { link with toClient := rest, received := received, futures := futures, pending := pending } :=
    { requests := live.traffic.requests
      dispatches := live.traffic.dispatches
      queued := live.traffic.queued
      answers := fun message member => live.traffic.answers message (waiting ▸ List.mem_cons_of_mem _ member)
      unread := live.traffic.unread
      closing := fun reading finished => ends (live.traffic.closing reading finished) }
  have held {future : Nat} (pending : link.futures.Pending future) (other : future + 1 ≠ reqId) :
      link.Doomed sessions ∨ link.Held (future + 1) → Doomed sessions { link with toClient := rest } ∨
        Held { link with toClient := rest } (future + 1) := by
    rintro ((client | finishing | server) | request | dispatch | queued | ⟨frame, member, again⟩)
    · exact .inl (.inl (ends client))
    · exact .inl (.inr (.inl finishing))
    · exact .inl (.inr (.inr server))
    · exact .inr (.inl request)
    · exact .inr (.inr (.inl dispatch))
    · exact .inr (.inr (.inr (.inl queued)))
    · rw [waiting] at member
      rcases List.mem_cons.mp member with same | later
      · cases same
        exact absurd (answers_unique again answers) other
      · exact .inr (.inr (.inr (.inr ⟨frame, later, again⟩)))
  rcases pop_cases { link with toClient := rest, received := received } (.int reqId) status with
    ⟨impossible, -⟩ | ⟨-, missing, same⟩ | ⟨popped, -, own, same⟩
  · cases impossible
  · rw [same]
    exact {
      traffic := traffic _ _
      ended := live.ended
      registered := live.registered
      held := by
        intro _ future pending
        refine held pending ?_ (live.held reading future pending)
        rintro rfl
        exact missing future (live.registered reading future pending) (by simp [Cbor.isInt]) }
  · rw [same]
    have index : reqId = popped + 1 := by
      have equal : (reqId : Int) = (popped + 1 : Nat) := of_decide_eq_true own
      exact Int.ofNat.inj equal
    exact {
      traffic := traffic _ _
      ended := fun ceased => nomatch reading.symm.trans ceased
      registered := by
        intro _ future pending
        obtain ⟨before, apart⟩ := (pending_settle done).mp pending
        exact (List.mem_erase_of_ne apart).mpr (live.registered reading future before)
      held := by
        intro _ future pending
        obtain ⟨before, apart⟩ := (pending_settle done).mp pending
        refine held before ?_ (live.held reading future before)
        omega }

theorem onFrame_answer (link : Link Obj) {reqId : Nat} {raw : Cbor} (answers : Answers reqId raw) :
    decodeFrame sessions.client (.ok raw) = .raised ∨
      ∃ (frame : Frame Obj) (status : Status Nat Failure), decodeFrame sessions.client (.ok raw) = .ok frame ∧
        status ≠ .pending ∧ link.onFrame frame =
          Link.pop { link with received := link.received ++ [frame] } (.int reqId) status := by
  obtain ⟨outcome, rfl⟩ := answers
  cases outcome with
  | error representation =>
    exact .inr ⟨_, .exception (.protocol link.received.length),
      decodeFrame_protocolError sessions.client (.int reqId) "dispatch_failed" representation, nofun, rfl⟩
  | ok values =>
    rcases decodeFrame_response sessions.client (.int reqId) values.1 values.2 with
      ⟨results, errors, decoded⟩ | raised
    · exact .inr ⟨_, .result link.received.length, decoded, nofun, rfl⟩
    · exact .inl raised

theorem Live.clientReads {message : Message} {rest : List Message} (live : link.Live sessions)
    (reading : link.reading = true) (waiting : link.toClient = message :: rest) :
    (onMessage sessions { link with toClient := rest } message).Live sessions := by
  have fewer : ∀ later ∈ rest, later ∈ link.toClient := fun later member => waiting ▸ List.mem_cons_of_mem _ member
  have raised {loaded : Except String Cbor} (raises : decodeFrame sessions.client loaded = .raised) :
      (onMessage sessions { link with toClient := rest } (.binary loaded)).Live sessions := by
    simp only [onMessage, raises]
    exact live.endReader reading fewer link.socketClosed
  rcases live.traffic.answers message (waiting ▸ List.mem_cons_self ..) with ⟨raw, rfl, reqId, answers⟩ | ends
  · rcases onFrame_answer { link with toClient := rest } answers with raises | ⟨frame, status, decoded, done, popped⟩
    · exact raised raises
    · have goesOn : ¬ EndsClient sessions (.binary (.ok raw)) := by
        simp only [EndsClient, decoded]
        exact Bool.false_ne_true
      simp only [onMessage, decoded, popped]
      exact live.pop reading waiting answers goesOn done _
  · cases message with
    | close => exact live.endReader reading fewer true
    | binary loaded => exact raised (eq_raised ends)

/-! ### Runs -/

theorem Live.step {event : Event} (live : link.Live sessions) (serves : Serves sessions link event)
    (stepped : link.step sessions event = some next) : next.Live sessions := by
  cases event with
  | sendBatch encoded =>
    cases stepped
    exact live.sendBatch serves encoded
  | cancel future =>
    cases stepped
    exact live.cancel future
  | clientReads =>
    simp only [Link.step] at stepped
    split at stepped
    · rename_i message rest reading waiting
      cases stepped
      exact live.clientReads reading waiting
    · cases stepped
  | clientCloses delivered =>
    simp only [Link.step] at stepped
    split at stepped
    · cases stepped
    · cases stepped
      unfold send
      split
      · rename_i running
        refine live.cut delivered rfl rfl rfl rfl rfl rfl ?_ fun other => absurd running other
        intro message member
        exact (List.mem_append.mp member).imp_right List.mem_singleton.mp
      · exact live.cut delivered rfl rfl rfl rfl rfl rfl (fun _ member => .inl member) live.traffic.unread
  | serverReads =>
    simp only [Link.step] at stepped
    split at stepped
    · rename_i message rest waiting
      cases stepped
      exact live.serverReads waiting
    · cases stepped
  | dispatched k outcome =>
    simp only [Link.step] at stepped
    split at stepped
    · rename_i reqId found
      cases stepped
      exact live.dispatched found outcome
    · cases stepped
  | serverWrites =>
    simp only [Link.step] at stepped
    split at stepped
    · rename_i raw rest waiting
      cases stepped
      exact live.serverWrites waiting
    · cases stepped
  | serverStops =>
    simp only [Link.step] at stepped
    split at stepped
    · cases stepped
      exact live.endLoop
    · cases stepped
  | serverCloses =>
    simp only [Link.step] at stepped
    split at stepped
    · rename_i finishing idle written
      cases stepped
      refine live.serverCloses (live.traffic.unread ?_)
      rw [finishing]
      nofun
    · cases stepped
  | disconnect delivered read =>
    cases stepped
    refine live.cut delivered rfl rfl rfl rfl rfl rfl ?_ fun other => if_neg other
    intro message member
    simp only at member
    split at member
    · exact mem_cut member
    · cases member
  | garbleRequest k loaded =>
    obtain ⟨toServer, done, rfl⟩ := Option.map_eq_some_iff.mp stepped
    exact live.garbleRequest serves done
  | garbleAnswer k loaded =>
    obtain ⟨toClient, done, rfl⟩ := Option.map_eq_some_iff.mp stepped
    exact live.garbleAnswer serves done

theorem live_start : (start : Link Obj).Live sessions where
  traffic := ⟨nofun, nofun, nofun, nofun, fun _ => rfl, nofun⟩
  ended := nofun
  registered := nofun
  held := nofun

theorem matched_start : (start : Link Obj).Matched := ⟨nofun, nofun⟩

theorem Live.quiescent (live : link.Live sessions) (quiescent : link.Quiescent) (future : Nat) :
    ¬ link.futures.Pending future := by
  intro pending
  cases reading : link.reading with
  | false => exact live.ended reading future pending
  | true =>
    obtain ⟨toServer, toClient, inflight, queue, settled⟩ := quiescent.resolve_right fun ceased =>
      nomatch reading.symm.trans ceased
    rcases live.held reading future pending with (client | finishing | server) | held
    · simp [toClient] at client
    · exact settled finishing
    · simp [toServer] at server
    · simp [Held, toServer, toClient, inflight, queue] at held

/-- An answer settles the request whose id it carries, and in a run that is served no request waits in a quiescent
state. -/
theorem requests_settled {events : List Event} {last : Link Obj}
    (ran : events.foldlM (Link.step sessions) start = some last) :
    last.Matched ∧ (Along (Link.step sessions) (Serves sessions) start events → last.Quiescent →
      ∀ future, ¬ last.futures.Pending future) := by
  constructor
  · exact foldlM_invariant (fun _ _ _ matched stepped => Matched.step matched stepped) matched_start ran
  · intro served quiescent
    have live : last.Live sessions :=
      foldlM_along (fun _ _ _ live serves stepped => Live.step live serves stepped) live_start served ran
    exact live.quiescent quiescent

/-- Neither side knows a tag. -/
def untagged : Sessions Unit := ⟨fun _ => none, fun _ => none⟩

/-- Two requests, answered in the other order, the first with a failed dispatch. -/
def crossed : List Event :=
  [.sendBatch (some [.int 7]), .sendBatch (some []), .serverReads, .serverReads, .dispatched 1 (.ok ([], [])),
    .dispatched 0 (.error "ValueError()"), .serverWrites, .serverWrites, .clientReads, .clientReads]

theorem requests_settled_crossed :
    ∃ last, crossed.foldlM (Link.step untagged) start = some last ∧
      last.futures = [.exception (.protocol 1), .result 0] ∧ last.Matched ∧
      ∀ future, ¬ last.futures.Pending future := by
  obtain ⟨matched, settles⟩ := @requests_settled Unit untagged crossed _ rfl
  have served : Along (Link.step untagged) (Serves untagged) start crossed := by decide
  exact ⟨_, rfl, by decide, matched, settles served (.inl ⟨rfl, rfl, rfl, rfl, nofun⟩)⟩

/-- The answer to the first request has a tag that the client does not know, which ends its reader; the answer to the
second one is never read. -/
theorem unread_answer_dangles :
    ∃ last, [Event.sendBatch (some [.int 7]), .serverReads, .dispatched 0 (.ok ([(0, .tag 101 .null)], [])),
        .serverWrites, .clientReads, .sendBatch (some [.int 7]), .serverReads, .dispatched 0 (.ok ([(0, .int 1)], [])),
        .serverWrites].foldlM (Link.step untagged) start = some last ∧
      last.futures = [.exception .connectionClosed, .pending] ∧ last.Quiescent ∧
      ¬ (last.Quiescent → ∀ future, ¬ last.futures.Pending future) := by
  refine ⟨_, rfl, by decide, .inr rfl, fun settled => ?_⟩
  exact settled (.inr rfl) 1 rfl

/-- The server reports a malformed request without an id, and the client drops the report. -/
theorem malformed_request_dangles :
    ∃ last, [Event.sendBatch (some [.int 7]), .garbleRequest 0 (.error "premature end of stream"), .serverReads,
        .serverWrites, .clientReads].foldlM (Link.step untagged) start = some last ∧
      last.futures = [.pending] ∧ last.reading = true ∧ last.Quiescent := by
  exact ⟨_, rfl, by decide, rfl, .inl ⟨rfl, rfl, rfl, rfl, nofun⟩⟩

end Link

end Acrobe.Wire
