import Acrobe.Gdb.Message
import Acrobe.Lib.Incremental

/-!
# GDB sessions

A session reads what the client sends into a buffer, takes whole tokens from its front, and hands the packets and
the interrupts to a responder. While a responder waits for a target that runs, it is the one that reads; such a
wait ends what is modelled here.
-/

namespace Acrobe.Gdb
open LittleEndian Incremental

inductive Token where
  | interrupt
  | ack
  | nack
  | stray (byte : UInt8)
  | packet (packet : Bytes)
  deriving DecidableEq

/-- The front of the buffer in `drain_buffer`. -/
def front : Bytes → Front Token Empty
  | [] => .truncated
  | byte :: rest =>
    if byte = 0x03 then .item .interrupt 1
    else if byte = 0x2B then .item .ack 1
    else if byte = 0x2D then .item .nack 1
    else if byte ≠ 0x24 then .item (.stray byte) 1
    else
      match (byte :: rest).idxOf? 0x23 with
      | none => .truncated
      | some stop =>
        if (byte :: rest).length ≤ stop + 2 then .truncated
        else .item (.packet ((byte :: rest).take (stop + 3))) (stop + 3)

structure Responder (σ : Type) where
  state : σ
  packetAck : Bool
  noAckModeRequested : Bool

inductive Handled (σ : Type) where
  | reply (responder : Responder σ) (response : Option Bytes)
  | running (responder : Responder σ)
  | raised

/-- `handle_packet` and `handle_interrupt` -/
structure Handlers (σ : Type) where
  handlePacket : Responder σ → Bytes → Handled σ
  handleInterrupt : Responder σ → Handled σ

inductive Dispatched where
  | interrupt
  | packet (payload : Bytes)

inductive Phase where
  | serving
  | running
  | closed
  deriving DecidableEq

structure Peer (σ : Type) where
  responder : Responder σ
  phase : Phase
  dispatched : List Dispatched
  written : List Bytes

structure Session (σ : Type) where
  peer : Peer σ
  buffer : Bytes

namespace Peer

variable {σ : Type}

def start (state : σ) : Peer σ where
  responder := { state, packetAck := true, noAckModeRequested := false }
  phase := .serving
  dispatched := []
  written := []

def note (self : Peer σ) (dispatched : Dispatched) : Peer σ :=
  { self with dispatched := self.dispatched ++ [dispatched] }

def write (self : Peer σ) (data : Bytes) : Peer σ := { self with written := self.written ++ [data] }

def sendResponse (self : Peer σ) : Option Bytes → Peer σ
  | none => self
  | some payload => self.write (Packet.frame payload)

/-- The mode is flipped after the acknowledgement is sent. -/
def flipAckMode (self : Peer σ) : Peer σ :=
  if self.responder.noAckModeRequested then
    { self with responder := { self.responder with packetAck := false, noAckModeRequested := false } }
  else self

def settle (self : Peer σ) : Handled σ → Peer σ
  | .reply responder response => { self with responder }.sendResponse response
  | .running responder => { self with responder, phase := .running }
  | .raised => { self with phase := .closed }

def dispatch (self : Peer σ) (handlers : Handlers σ) : Token → Peer σ
  | .interrupt =>
    (self.note .interrupt).settle (handlers.handleInterrupt self.responder)
  | .ack => self
  | .nack => self
  | .stray _ => self
  | .packet packet =>
    match Packet.parse packet with
    | none => if self.responder.packetAck then self.write [0x2D] else self
    | some payload =>
      let self := if self.responder.packetAck then self.write [0x2B] else self
      let self := (self.note (.packet payload)).settle (handlers.handlePacket self.responder payload)
      match self.phase with
      | .serving => self.flipAckMode
      | _ => self

end Peer

namespace Session

variable {σ : Type}

def start (state : σ) : Session σ := { peer := .start state, buffer := [] }

def drainBuffer (handlers : Handlers σ) : Nat → Session σ → Session σ
  | 0, self => self
  | fuel + 1, self =>
    match self.peer.phase, front self.buffer with
    | .serving, .item token n =>
      drainBuffer handlers fuel { peer := self.peer.dispatch handlers token, buffer := self.buffer.drop n }
    | _, _ => self

/-- One read of `serve`. -/
def receive (self : Session σ) (handlers : Handlers σ) (chunk : Bytes) : Session σ :=
  match self.peer.phase with
  | .serving =>
    let buffer := self.buffer ++ chunk
    drainBuffer handlers buffer.length { self with buffer }
  | _ => self

def serve (self : Session σ) (handlers : Handlers σ) (chunks : List Bytes) : Session σ :=
  chunks.foldl (fun session chunk => session.receive handlers chunk) self

end Session

/-! ### Tokens -/

theorem idxOf?_append {buf : Bytes} {byte : UInt8} {n : Nat} (found : buf.idxOf? byte = some n) (more : Bytes) :
    (buf ++ more).idxOf? byte = some n := by
  induction buf generalizing n with
  | nil => cases found
  | cons head buf ih =>
    rw [List.cons_append, List.idxOf?_cons] at *
    split
    · rename_i same
      rw [if_pos same] at found
      exact found
    · rename_i other
      rw [if_neg other] at found
      obtain ⟨m, inside, rfl⟩ := Option.map_eq_some_iff.mp found
      rw [ih inside]
      rfl

theorem front_bound {buf : Bytes} {token : Token} {n : Nat} (item : front buf = .item token n) :
    0 < n ∧ n ≤ buf.length := by
  cases buf with
  | nil => cases item
  | cons byte rest =>
    have one : 0 < 1 ∧ 1 ≤ (byte :: rest).length := ⟨Nat.one_pos, Nat.succ_pos _⟩
    rw [front] at item
    split at item
    · cases item
      exact one
    split at item
    · cases item
      exact one
    split at item
    · cases item
      exact one
    split at item
    · cases item
      exact one
    split at item
    · cases item
    split at item
    · cases item
    · cases item
      omega

theorem front_append {buf : Bytes} {token : Token} {n : Nat} (item : front buf = .item token n) (more : Bytes) :
    front (buf ++ more) = .item token n := by
  cases buf with
  | nil => cases item
  | cons byte rest =>
    rw [List.cons_append]
    rw [front] at item ⊢
    split
    · rename_i same
      rw [if_pos same] at item
      exact item
    rename_i notInterrupt
    rw [if_neg notInterrupt] at item
    split
    · rename_i same
      rw [if_pos same] at item
      exact item
    rename_i notAck
    rw [if_neg notAck] at item
    split
    · rename_i same
      rw [if_pos same] at item
      exact item
    rename_i notNack
    rw [if_neg notNack] at item
    split
    · rename_i stray
      rw [if_pos stray] at item
      exact item
    rename_i start
    rw [if_neg start] at item
    cases found : (byte :: rest).idxOf? 0x23 with
    | none =>
      rw [found] at item
      cases item
    | some stop =>
      rw [found] at item
      dsimp only at item
      split at item
      · cases item
      rename_i whole
      rw [← List.cons_append, idxOf?_append found more]
      dsimp only
      rw [if_neg (by rw [List.length_append]; omega), List.take_append_of_le_length (by omega)]
      exact item

def format : Format UInt8 Token Empty where
  front := front
  empty := rfl
  consumes := front_bound
  item_append := front_append
  malformed_append := fun {_ error} => nomatch error

theorem read_error (buf : Bytes) : (format.read buf).error = none := by
  cases failed : (format.read buf).error with
  | none => rfl
  | some error => exact nomatch error

/-! ### Messages -/

/-- What a client sends. -/
inductive Message where
  | packet (payload : Bytes)
  | ack
  | nack
  | interrupt

namespace Message

def bytes : Message → Bytes
  | .packet payload => Packet.frame payload
  | .ack => [0x2B]
  | .nack => [0x2D]
  | .interrupt => [0x03]

def token : Message → Token
  | .packet payload => .packet (Packet.frame payload)
  | .ack => .ack
  | .nack => .nack
  | .interrupt => .interrupt

def handed : Message → Option Dispatched
  | .packet payload => some (.packet payload)
  | .interrupt => some .interrupt
  | .ack => none
  | .nack => none

theorem front_frame (payload : Bytes) :
    front (Packet.frame payload) = .item (.packet (Packet.frame payload)) (Packet.frame payload).length := by
  have clear := Packet.clear_start (@Packet.not_mem_escape payload Packet.packetEnd (by decide) (by decide))
  have found := Packet.idxOf?_end clear (Packet.checksumDigits (Packet.byteSum (Packet.escape payload) % 256))
  have size : (Packet.frame payload).length = (Packet.packetStart :: Packet.escape payload).length + 3 := by
    rw [Packet.frame_eq, List.length_append]
    rfl
  rw [← Packet.frame_eq] at found
  cases shape : Packet.frame payload with
  | nil =>
    rw [shape] at size
    cases size
  | cons byte rest =>
    have start : byte = 0x24 := by
      rw [Packet.frame_eq, List.cons_append] at shape
      exact (List.cons.inj shape).1.symm
    rw [shape] at found size
    rw [front, start, if_neg (by decide), if_neg (by decide), if_neg (by decide), if_neg (by decide), ← start,
      show (0x23 : UInt8) = Packet.packetEnd from rfl, found]
    dsimp only
    rw [if_neg (by omega), ← size, List.take_length]

theorem reads (message : Message) : format.Reads message.bytes [message.token] := by
  apply Format.reads_item
  cases message with
  | packet payload => exact front_frame payload
  | _ => rfl

theorem reads_all (messages : List Message) :
    format.Reads (messages.flatMap Message.bytes) (messages.map Message.token) := by
  induction messages with
  | nil => exact Format.reads_nil
  | cons message messages ih =>
    rw [List.flatMap_cons, List.map_cons]
    exact message.reads.trans ih

end Message

/-! ### Reading -/

variable {σ : Type} {handlers : Handlers σ}

/-- The tokens are taken one by one while the session serves. -/
def Peer.absorb (handlers : Handlers σ) (self : Peer σ) : List Token → Peer σ
  | [] => self
  | token :: tokens =>
    match self.phase with
    | .serving => (self.dispatch handlers token).absorb handlers tokens
    | _ => self

theorem absorb_stopped {peer : Peer σ} (stopped : peer.phase ≠ .serving) (tokens : List Token) :
    peer.absorb handlers tokens = peer := by
  cases tokens with
  | nil => rfl
  | cons token tokens =>
    rw [Peer.absorb]
    split
    · rename_i serving
      exact absurd serving stopped
    · rfl

theorem absorb_append (peer : Peer σ) (xs ys : List Token) :
    peer.absorb handlers (xs ++ ys) = (peer.absorb handlers xs).absorb handlers ys := by
  induction xs generalizing peer with
  | nil => rfl
  | cons token xs ih =>
    cases phase : peer.phase with
    | serving =>
      rw [List.cons_append, Peer.absorb, Peer.absorb, phase]
      exact ih _
    | _ =>
      have stopped : peer.phase ≠ .serving := by
        rw [phase]
        nofun
      rw [absorb_stopped stopped, absorb_stopped stopped, absorb_stopped stopped]

@[simp] theorem Peer.settle_dispatched (peer : Peer σ) (handled : Handled σ) :
    (peer.settle handled).dispatched = peer.dispatched := by
  cases handled with
  | reply responder response => cases response <;> rfl
  | running responder => rfl
  | raised => rfl

theorem Peer.flipAckMode_dispatched (peer : Peer σ) : peer.flipAckMode.dispatched = peer.dispatched := by
  unfold Peer.flipAckMode
  split <;> rfl

theorem dispatch_message (peer : Peer σ) (message : Message) :
    (peer.dispatch handlers message.token).dispatched = peer.dispatched ++ message.handed.toList := by
  cases message with
  | packet payload =>
    have noted : ∀ self : Peer σ, self.dispatched = peer.dispatched →
        ((self.note (.packet payload)).settle (handlers.handlePacket self.responder payload)).dispatched =
          peer.dispatched ++ [.packet payload] := by
      intro self same
      rw [Peer.settle_dispatched, Peer.note, same]
    rw [Message.token, Peer.dispatch, Packet.parse_frame]
    dsimp only
    split
    · rw [Peer.flipAckMode_dispatched]
      exact noted _ (by split <;> rfl)
    · exact noted _ (by split <;> rfl)
  | ack => exact (List.append_nil _).symm
  | nack => exact (List.append_nil _).symm
  | interrupt => exact Peer.settle_dispatched _ _

/-- The responder gets the messages in order, and all of them while the session serves. -/
theorem absorb_messages (peer : Peer σ) (messages : List Message) :
    ∃ left, (peer.absorb handlers (messages.map Message.token)).dispatched ++ left =
        peer.dispatched ++ messages.filterMap Message.handed ∧
      ((peer.absorb handlers (messages.map Message.token)).phase = .serving → left = []) := by
  induction messages generalizing peer with
  | nil => exact ⟨[], rfl, fun _ => rfl⟩
  | cons message messages ih =>
    by_cases serving : peer.phase = .serving
    · obtain ⟨left, order, whole⟩ := ih (peer.dispatch handlers message.token)
      rw [List.map_cons, Peer.absorb, serving]
      refine ⟨left, order.trans ?_, whole⟩
      rw [dispatch_message, List.append_assoc]
      cases message <;> rfl
    · rw [absorb_stopped serving]
      exact ⟨_, rfl, fun again => absurd again serving⟩

namespace Session

/-- The buffer has no whole token. -/
def Idle (session : Session σ) : Prop := session.peer.phase = .serving → format.Settled session.buffer

/-- What a session has become after a stretch of the stream. -/
def Absorbs (later session : Session σ) (handlers : Handlers σ) (stream : Bytes) : Prop :=
  later.peer = session.peer.absorb handlers (format.read stream).items ∧
    (later.peer.phase = .serving → later.buffer = (format.read stream).rest)

theorem drainBuffer_absorbs (fuel : Nat) (session : Session σ) (enough : session.buffer.length ≤ fuel) :
    (drainBuffer handlers fuel session).Absorbs session handlers session.buffer := by
  induction fuel generalizing session with
  | zero =>
    have nothing : session.buffer = [] := List.length_eq_zero_iff.mp (by omega)
    rw [Absorbs, nothing, Format.read_nil, drainBuffer]
    exact ⟨rfl, fun _ => nothing⟩
  | succ fuel ih =>
    rw [drainBuffer]
    split
    · rename_i token n serving item
      have consumed := front_bound item
      have later := ih { peer := session.peer.dispatch handlers token, buffer := session.buffer.drop n }
        (by rw [List.length_drop]; omega)
      rw [Absorbs, Format.read_item (show format.front session.buffer = .item token n from item), Peer.absorb, serving]
      exact later
    · rename_i quiet
      cases phase : session.peer.phase with
      | serving =>
        have settled : format.Settled session.buffer := by
          cases here : front session.buffer with
          | truncated => exact here
          | malformed error => exact nomatch error
          | item token n => exact absurd here (quiet token n phase)
        rw [Absorbs, settled.read]
        exact ⟨rfl, fun _ => rfl⟩
      | _ =>
        have stopped : session.peer.phase ≠ .serving := by
          rw [phase]
          nofun
        exact ⟨(absorb_stopped stopped _).symm, fun serving => absurd serving stopped⟩

theorem Absorbs.idle {later session : Session σ} {stream : Bytes} (absorbs : later.Absorbs session handlers stream) :
    later.Idle := by
  intro serving
  rw [absorbs.2 serving]
  exact Format.settled_rest (read_error stream)

theorem receive_absorbs (session : Session σ) (chunk : Bytes) :
    (session.receive handlers chunk).Absorbs session handlers (session.buffer ++ chunk) := by
  rw [receive]
  split
  · exact drainBuffer_absorbs (session.buffer ++ chunk).length ⟨session.peer, session.buffer ++ chunk⟩ (Nat.le_refl _)
  · rename_i stopped
    exact ⟨(absorb_stopped stopped _).symm, fun serving => absurd serving stopped⟩

theorem serve_absorbs {session : Session σ} (idle : session.Idle) (chunks : List Bytes) :
    (session.serve handlers chunks).Absorbs session handlers (session.buffer ++ chunks.flatten) := by
  induction chunks generalizing session with
  | nil =>
    rw [List.flatten_nil, List.append_nil]
    by_cases serving : session.peer.phase = .serving
    · rw [Absorbs, (idle serving).read]
      exact ⟨rfl, fun _ => rfl⟩
    · exact ⟨(absorb_stopped serving _).symm, fun again => absurd again serving⟩
  | cons chunk chunks ih =>
    have first := @receive_absorbs σ handlers session chunk
    have later := ih first.idle
    change ((session.receive handlers chunk).serve handlers chunks).Absorbs session handlers _
    rw [List.flatten_cons, ← List.append_assoc, Absorbs, Format.read_append (read_error _)]
    dsimp only
    rw [absorb_append, ← first.1]
    by_cases serving : (session.receive handlers chunk).peer.phase = .serving
    · rw [← first.2 serving]
      exact later
    · rw [absorb_stopped serving, later.1, absorb_stopped serving]
      exact ⟨rfl, fun again => absurd again serving⟩

/-- Whatever the responder does, the reads that a stream is cut into make no difference. -/
theorem serve_cut (handlers : Handlers σ) {session : Session σ} (idle : session.Idle) {chunks cuts : List Bytes}
    (same : chunks.flatten = cuts.flatten) :
    (session.serve handlers chunks).peer = (session.serve handlers cuts).peer ∧
      ((session.serve handlers chunks).peer.phase = .serving →
        (session.serve handlers chunks).buffer = (session.serve handlers cuts).buffer) := by
  have one := @serve_absorbs σ handlers session idle chunks
  have other := @serve_absorbs σ handlers session idle cuts
  rw [← same] at other
  have peers := one.1.trans other.1.symm
  refine ⟨peers, fun serving => ?_⟩
  rw [one.2 serving, other.2 (peers ▸ serving)]

theorem serve_cut_packet :
    ((start ()).serve ⟨fun responder payload => .reply responder (some payload), fun responder => .reply responder none⟩
      [[0x24], [0x23, 0x30], [0x30, 0x03]]).peer =
    ((start ()).serve ⟨fun responder payload => .reply responder (some payload), fun responder => .reply responder none⟩
      [[0x24, 0x23, 0x30, 0x30], [0x03]]).peer := by
  have idle : (start ()).Idle := fun _ => rfl
  exact (serve_cut _ idle rfl).1

/-- The messages of a client are handled one by one, however they arrive, until a handler raises or waits for a target
that runs: the responder gets them in order, and all of them if the session still serves. -/
theorem serve_messages (handlers : Handlers σ) {session : Session σ} (empty : session.buffer = [])
    (messages : List Message) {chunks : List Bytes} (sent : chunks.flatten = messages.flatMap Message.bytes) :
    (session.serve handlers chunks).peer = session.peer.absorb handlers (messages.map Message.token) ∧
      ∃ left, (session.serve handlers chunks).peer.dispatched ++ left =
          session.peer.dispatched ++ messages.filterMap Message.handed ∧
        ((session.serve handlers chunks).peer.phase = .serving → left = []) := by
  have idle : session.Idle := fun _ => by rw [empty]; rfl
  have absorbs := @serve_absorbs σ handlers session idle chunks
  rw [empty, List.nil_append, sent] at absorbs
  have whole := Message.reads_all messages
  rw [Format.Reads] at whole
  have peers : (session.serve handlers chunks).peer = session.peer.absorb handlers (messages.map Message.token) := by
    rw [absorbs.1, whole]
  refine ⟨peers, ?_⟩
  rw [peers]
  exact absorb_messages session.peer messages

/-- Two handlers, of which one raises at the interrupt: the packet behind it is left. -/
theorem serve_split :
    let echo : Handlers Unit := ⟨fun responder payload => .reply responder (some payload), fun _ => .raised⟩
    let session := (start ()).serve echo [[0x24, 0x23, 0x30], [0x30, 0x03, 0x24], [0x23, 0x30, 0x30]]
    session.peer =
        (start ()).peer.absorb echo [.packet [0x24, 0x23, 0x30, 0x30], .interrupt, .packet [0x24, 0x23, 0x30, 0x30]] ∧
      session.peer.dispatched = [.packet [], .interrupt] := by
  intro echo session
  have empty : (start ()).buffer = [] := rfl
  have sent : [[0x24, 0x23, 0x30], [0x30, 0x03, 0x24], [0x23, 0x30, 0x30]].flatten =
    [Message.packet [], .interrupt, .packet []].flatMap Message.bytes := rfl
  have all := serve_messages echo empty _ sent
  exact ⟨all.1, by rw [all.1]; rfl⟩

end Session

end Acrobe.Gdb
