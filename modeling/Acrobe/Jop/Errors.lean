import Acrobe.Jop.Session

/-!
# Malformed streams

The operations decoded in the packet that holds the malformed byte are lost with the exception. So
what is executed before the error depends on where the stream is cut.
-/

namespace Acrobe.Jop.Session
open LittleEndian Incremental Jtag

variable {σ : Type} (dev : Device σ)

/-- A session that reads the stream: no loopback, and an incomplete command in the decoder. -/
structure Reading (session : Session σ) (buf : Bytes) : Prop where
  valid : session.Valid
  loopback : session.loopbackActive = false
  decoder : session.decoder = { buf }
  settled : format.Settled buf

theorem receive_ok {self : Session σ} {buf : Bytes} (reading : self.Reading buf) (pkt : H2tPacket)
    (sound : (format.read (buf ++ pkt.payload)).error = none) :
    ∃ next events, self.receive dev pkt = some (next, events) ∧
      next.Reading (format.read (buf ++ pkt.payload)).rest ∧
      ∀ later, beforeError (events ++ later) =
        (beforeError later).map ((format.read (buf ++ pkt.payload)).items ++ ·) := by
  have fed : self.decoder.feed pkt.payload = (.ok (format.read (buf ++ pkt.payload)).items,
      { buf := (format.read (buf ++ pkt.payload)).rest }) := by
    rw [JopDecoder.feed, reading.decoder]
    dsimp only
    rw [sound]
  have here : Valid { self with decoder := { buf := (format.read (buf ++ pkt.payload)).rest } } := reading.valid
  obtain ⟨next, events, run, valid, decoder, loopback⟩ := dispatchAll_valid dev here
    ((format.read (buf ++ pkt.payload)).items.map fun op => (op, { channel := pkt.channel, connId := pkt.connId }))
  refine ⟨next, events, ?_, ⟨valid, loopback.trans reading.loopback, decoder, Format.settled_rest sound⟩,
    fun later => ?_⟩
  · rw [receive, reading.loopback, if_neg Bool.false_ne_true, fed]
    exact run
  · rw [beforeError_dispatchAll dev run later, List.map_map]
    congr 1
    funext ops
    congr 1
    exact List.map_id _

theorem receive_error {self : Session σ} {buf : Bytes} (reading : self.Reading buf) (pkt : H2tPacket) {text : String}
    (failed : (format.read (buf ++ pkt.payload)).error = some text) :
    ∃ next, self.receive dev pkt = some (next, [.decoderError text pkt.payload]) ∧ next.Reading [] := by
  have fed : (self.decoder.feed pkt.payload).1 = .error text := by
    rw [JopDecoder.feed, reading.decoder]
    dsimp only
    rw [failed]
  refine ⟨{ self with decoder := .start }, ?_, ⟨reading.valid, reading.loopback, rfl, rfl⟩⟩
  rw [receive, reading.loopback, if_neg Bool.false_ne_true]
  cases outcome : self.decoder.feed pkt.payload with
  | mk ops decoder =>
    rw [outcome] at fed
    cases fed
    rfl

theorem h2tLoop_cons {self next last : Session σ} {pkt : H2tPacket} {pkts : List H2tPacket} {events later : List Event}
    (step : self.receive dev pkt = some (next, events)) (run : next.h2tLoop dev pkts = some (last, later)) :
    self.h2tLoop dev (pkt :: pkts) = some (last, events ++ later) := by
  simp only [h2tLoop, step, Option.bind_eq_bind, Option.bind_some, run]

theorem h2tLoop_runs {self : Session σ} {buf : Bytes} (reading : self.Reading buf) (pkts : List H2tPacket) :
    ∃ last events, self.h2tLoop dev pkts = some (last, events) := by
  induction pkts generalizing self buf with
  | nil => exact ⟨_, _, rfl⟩
  | cons pkt pkts ih =>
    cases failed : (format.read (buf ++ pkt.payload)).error with
    | some text =>
      obtain ⟨next, step, reading⟩ := receive_error dev reading pkt failed
      obtain ⟨last, later, run⟩ := ih reading
      exact ⟨last, _, h2tLoop_cons dev step run⟩
    | none =>
      obtain ⟨next, events, step, reading, -⟩ := receive_ok dev reading pkt failed
      obtain ⟨last, later, run⟩ := ih reading
      exact ⟨last, _, h2tLoop_cons dev step run⟩

/-! ### The packet with the malformed byte -/

/-- Where a packet ends, the stream is cut. -/
def CutAfter (buf whole : Bytes) (pkts : List H2tPacket) : Prop :=
  ∃ k, buf ++ (pkts.take k).flatMap H2tPacket.payload = whole

theorem cutAfter_cons {buf rest following : Bytes} {pkt : H2tPacket} {pkts : List H2tPacket} :
    CutAfter buf (buf ++ pkt.payload ++ following) (pkt :: pkts) ↔ CutAfter rest (rest ++ following) pkts := by
  constructor
  · rintro ⟨k, same⟩
    cases k with
    | zero =>
      rw [List.append_assoc] at same
      have nothing := (List.append_eq_nil_iff.mp (List.append_cancel_left same).symm).2
      exact ⟨0, by rw [nothing]; rfl⟩
    | succ k =>
      rw [List.take_succ_cons, List.flatMap_cons, ← List.append_assoc] at same
      exact ⟨k, by rw [List.append_cancel_left same]⟩
  · rintro ⟨k, same⟩
    refine ⟨k + 1, ?_⟩
    rw [List.take_succ_cons, List.flatMap_cons, ← List.append_assoc, List.append_cancel_left same]

theorem cutAfter_past {buf whole bad : Bytes} {ops : List Op} {text : String} {pkt : H2tPacket}
    {pkts : List H2tPacket} (settled : format.Settled buf) (valid : format.Reads whole ops)
    (past : buf ++ pkt.payload = whole ++ bad) (malformed : decodeOne bad = .malformed text) :
    [] = ops ↔ CutAfter buf whole (pkt :: pkts) := by
  constructor
  · rintro rfl
    have nothing := valid.eq_nil
    subst nothing
    refine ⟨0, ?_⟩
    cases buf with
    | nil => rfl
    | cons first buf =>
      rw [List.nil_append] at past
      rw [← past] at malformed
      have again : decodeOne (first :: buf) = .malformed text := malformed_first malformed buf
      rw [show decodeOne (first :: buf) = .truncated from settled] at again
      cases again
  · rintro ⟨k, same⟩
    cases k with
    | zero =>
      change buf ++ [] = whole at same
      rw [List.append_nil] at same
      subst same
      exact congrArg Outcome.items (settled.read.symm.trans valid)
    | succ k =>
      rw [List.take_succ_cons, List.flatMap_cons, ← List.append_assoc, past, List.append_assoc] at same
      have nothing := (List.append_eq_nil_iff.mp (List.append_right_eq_self.mp same)).1
      rw [nothing] at malformed
      cases malformed

/-- The operations executed before the error are the whole commands when a packet ends right before the
malformed one, and fewer otherwise. -/
theorem executed_iff {self : Session σ} {buf whole malformed : Bytes} {ops : List Op} {text : String}
    (reading : self.Reading buf) {pkts : List H2tPacket}
    (stream : buf ++ pkts.flatMap H2tPacket.payload = whole ++ malformed) (valid : format.Reads whole ops)
    (bad : decodeOne malformed = .malformed text) :
    ∃ last events done, self.h2tLoop dev pkts = some (last, events) ∧ beforeError events = some done ∧
      done <+: ops ∧ (done = ops ↔ CutAfter buf whole pkts) := by
  induction pkts generalizing self buf whole ops with
  | nil =>
    rw [List.flatMap_nil, List.append_nil] at stream
    have failed := congrArg Outcome.error (valid.append malformed)
    have bad : format.front malformed = .malformed text := bad
    rw [← stream, reading.settled.read, Format.read_malformed bad] at failed
    cases failed
  | cons pkt pkts ih =>
    rw [List.flatMap_cons, ← List.append_assoc] at stream
    by_cases past : ∃ first front, buf ++ pkt.payload = whole ++ first :: front
    · obtain ⟨first, front, past⟩ := past
      rw [past, List.append_assoc, List.append_cancel_left_eq] at stream
      have malformed : format.front (first :: front) = .malformed text := by
        rw [← stream, List.cons_append] at bad
        exact malformed_first bad front
      have failed : (format.read (buf ++ pkt.payload)).error = some text := by
        rw [past, valid.append, Format.read_malformed malformed]
      obtain ⟨next, step, reading'⟩ := receive_error dev reading pkt failed
      obtain ⟨last, later, run⟩ := h2tLoop_runs dev reading' pkts
      exact ⟨last, _, [], h2tLoop_cons dev step run, rfl, List.nil_prefix,
        cutAfter_past reading.settled valid past malformed⟩
    · have inside : ∃ following, whole = buf ++ pkt.payload ++ following ∧
          pkts.flatMap H2tPacket.payload = following ++ malformed := by
        rcases List.append_eq_append_iff.mp stream with ⟨following, same, rest⟩ | ⟨front, same, rest⟩
        · exact ⟨following, same, rest⟩
        · cases front with
          | nil => exact ⟨[], by rw [same, List.append_nil, List.append_nil], rest.symm⟩
          | cons first front => exact absurd ⟨first, front, same⟩ past
      obtain ⟨following, rfl, rest⟩ := inside
      obtain ⟨sound, later, reads, rfl⟩ := valid.cut
      obtain ⟨next, events, step, reading', before⟩ := receive_ok dev reading pkt sound
      obtain ⟨last, events', done, run, executed, extends', same⟩ :=
        ih reading' (by rw [rest, List.append_assoc]) reads
      refine ⟨last, _, (format.read (buf ++ pkt.payload)).items ++ done, h2tLoop_cons dev step run, ?_, ?_, ?_⟩
      · rw [before, executed]
        rfl
      · exact (List.prefix_append_right_inj _).mpr extends'
      · rw [List.append_cancel_left_eq, same]
        exact cutAfter_cons.symm

/-- Before a session reports a malformed command, it has executed the commands in front of it exactly when
a packet ends there. -/
theorem executed_before_error_iff (walker : Walker) (device : σ) {pkts : List H2tPacket} {whole malformed : Bytes}
    {ops : List Op} {text : String} (stream : pkts.flatMap H2tPacket.payload = whole ++ malformed)
    (valid : format.Reads whole ops) (bad : decodeOne malformed = .malformed text) :
    ∃ last events executed, (start walker device).h2tLoop dev pkts = some (last, events) ∧
      beforeError events = some executed ∧
      (executed = ops ↔ ∃ k, (pkts.take k).flatMap H2tPacket.payload = whole) := by
  have reading : (start walker device).Reading [] := ⟨fun _ => rfl, rfl, rfl, rfl⟩
  obtain ⟨last, events, executed, run, before, -, same⟩ := executed_iff dev reading stream valid bad
  exact ⟨last, events, executed, run, before, same⟩

def packet (payload : Bytes) : H2tPacket := { sop := true, eop := true, connId := 0, channel := 0, payload }

theorem executed_before_error_cut : ∃ last events executed,
    (start {} ()).h2tLoop idle [packet [0x00], packet [0x20]] = some (last, events) ∧
      beforeError events = some executed ∧ (executed = [.retrieveInfo] ↔
        ∃ k, ([packet [0x00], packet [0x20]].take k).flatMap H2tPacket.payload = [0x00]) := by
  have stream : [packet [0x00], packet [0x20]].flatMap H2tPacket.payload = [0x00] ++ [0x20] := rfl
  have bad : decodeOne [0x20] = .malformed "unknown JoP opcode 0b001" := by decide
  exact executed_before_error_iff idle {} () stream rfl bad

/-- A valid command and a malformed one in a single packet: the valid one is not executed. -/
theorem valid_command_lost : ∃ last events,
    (start {} ()).h2tLoop idle [packet [0x00, 0x20]] = some (last, events) ∧
      format.Reads [0x00] [.retrieveInfo] ∧ decodeOne [0x20] = .malformed "unknown JoP opcode 0b001" ∧
      events = [.decoderError "unknown JoP opcode 0b001" [0x00, 0x20]] ∧ beforeError events = some [] :=
  ⟨_, _, rfl, rfl, by decide, rfl, rfl⟩

end Acrobe.Jop.Session
