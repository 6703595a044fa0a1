import Acrobe.Jop.Session
import Acrobe.Jtag.WalkerTrace

/-!
# Capture windows

What the TDO-enable FIFO is for: each entry counts its own unread bits, one clock at a time. A session
keeps one counter for the entry at the head, which is right as long as no entry is dropped while its
count differs from that of the entry behind it.
-/

namespace Acrobe.Jop
open LittleEndian BitString Jtag Lib

/-! ### Windows that count their own bits -/

structure Window where
  unread : Nat
  tdoEnable : Bool
  eopGen : Bool

structure Hub where
  windows : List Window
  held : BitString

/-- What reaches the hub; a scan is one clock per bit. -/
inductive Signal where
  | retrieveInfo
  | reset
  | push (capture : PushTdoCapture)
  | clock (tdo : Bool)

def PushTdoCapture.windowAt (capture : PushTdoCapture) (unread : Nat) : Window where
  unread := unread
  tdoEnable := capture.tdoEnable
  eopGen := capture.eopGen

def PushTdoCapture.window (capture : PushTdoCapture) : Window := capture.windowAt capture.duration

namespace Hub

def start : Hub := { windows := [], held := [] }

/-- The number of unread bits of the entry at the head. -/
def unread (hub : Hub) : Nat :=
  match hub.windows with
  | [] => 0
  | head :: _ => head.unread

def store (held : BitString) (tdo : Bool) : BitString × Bytes :=
  if held.length = 7 then ([], [UInt8.ofNat (toNat (held ++ [tdo]))]) else (held ++ [tdo], [])

def pad (held : BitString) : BitString × Bytes := if held = [] then ([], []) else ([], [UInt8.ofNat (toNat held)])

def keep (head : Window) (held : BitString) (tdo : Bool) : BitString × Bytes :=
  if head.tdoEnable then store held tdo else (held, [])

def close (head : Window) (held : BitString) : BitString × Bytes :=
  if head.tdoEnable ∧ head.eopGen then pad held else (held, [])

def clock (hub : Hub) (tdo : Bool) : Hub × Bytes :=
  match hub.windows with
  | [] => (hub, [])
  | head :: rest =>
    let (held, bytes) := keep head hub.held tdo
    if head.unread = 1 then
      let (held, last) := close head held
      ({ windows := rest, held }, bytes ++ last)
    else ({ windows := { head with unread := head.unread - 1 } :: rest, held }, bytes)

/-- A third entry drops the whole entry at the head. -/
def push (hub : Hub) (capture : PushTdoCapture) : Hub :=
  let windows := if tdoFifoDepth ≤ hub.windows.length then hub.windows.tail else hub.windows
  { hub with windows := windows ++ [capture.window] }

def step (hub : Hub) : Signal → Hub × Bytes
  | .retrieveInfo => (hub, [configInfoResponseByte])
  | .reset => ({ hub with windows := [] }, [])
  | .push capture => (hub.push capture, [])
  | .clock tdo => hub.clock tdo

def machine : Machine Hub Signal Bytes where
  step := step

end Hub

/-! ### The signals of a sequence of operations -/

section
variable {σ : Type} (dev : Device σ)

def Shift.tcks (scan : Shift) : List Tck := scan.tms.zip scan.tdi

def Op.tcks : Op → List Tck
  | .shift scan => scan.tcks
  | _ => []

/-- The signals of an operation that starts with the TAP in `tap` and the device in `s`. -/
def Op.signals (tap : TapState) (s : σ) : Op → List Signal
  | .retrieveInfo => [.retrieveInfo]
  | .resetTdoFifo => [.reset]
  | .pushTdoCapture capture => [.push capture]
  | .shift scan => ((clockedDevice dev).outputs (tap, s) scan.tcks).map .clock

def signals (tap : TapState) (s : σ) : List Op → List Signal
  | [] => []
  | op :: ops =>
    op.signals dev tap s ++ signals ((clockedDevice dev).finish (tap, s) op.tcks).1
      ((clockedDevice dev).finish (tap, s) op.tcks).2 ops

theorem signals_append (tap : TapState) (s : σ) (front back : List Op) :
    signals dev tap s (front ++ back) = signals dev tap s front ++
      signals dev ((clockedDevice dev).finish (tap, s) (front.flatMap Op.tcks)).1
        ((clockedDevice dev).finish (tap, s) (front.flatMap Op.tcks)).2 back := by
  induction front generalizing tap s with
  | nil => rfl
  | cons op front ih =>
    rw [List.cons_append, signals, signals, ih, List.append_assoc, List.flatMap_cons, Machine.finish_append]

end

/-! ### The encoder holds the bits of an incomplete byte -/

structure Packs (encoder : JopEncoder) (held : BitString) : Prop where
  byte : encoder.byte = toNat held
  bitPos : encoder.bitPos = held.length
  short : held.length < 8

theorem packs_start : Packs .start [] := ⟨rfl, rfl, by decide⟩

theorem emitBit_packs {encoder : JopEncoder} {held : BitString} (packs : Packs encoder held) (bit : Bool) :
    Packs (encoder.emitBit bit).1 (Hub.store held bit).1 ∧ (encoder.emitBit bit).2 = (Hub.store held bit).2 := by
  have joined : encoder.byte ||| bit.toNat <<< encoder.bitPos = toNat (held ++ [bit]) := by
    rw [packs.byte, packs.bitPos, Nat.or_comm, ← Nat.shiftLeft_add_eq_or_of_lt (toNat_lt held), toNat_append,
      Nat.shiftLeft_eq, Nat.mul_comm, Nat.add_comm]
    rfl
  have short := packs.short
  rw [JopEncoder.emitBit, Hub.store, joined, packs.bitPos]
  by_cases full : held.length = 7
  · rw [if_pos full, if_pos (by omega)]
    exact ⟨packs_start, rfl⟩
  · rw [if_neg full, if_neg (by omega)]
    exact ⟨⟨rfl, by simp, by simp; omega⟩, rfl⟩

theorem emitWindow_packs {encoder : JopEncoder} {bits held : BitString}
    (packs : Packs (JopEncoder.packer.finish encoder bits) held) (eop : Bool) :
    Packs (encoder.emitWindow bits eop).1 (if eop then (Hub.pad held).1 else held) ∧
      (encoder.emitWindow bits eop).2.1 =
        (JopEncoder.packer.outputs encoder bits).flatten ++ if eop then (Hub.pad held).2 else [] := by
  rw [JopEncoder.emitWindow]
  dsimp only
  cases eop with
  | false =>
    rw [if_neg Bool.false_ne_true, if_neg Bool.false_ne_true, if_neg Bool.false_ne_true, List.append_nil]
    exact ⟨packs, rfl⟩
  | true =>
    rw [if_pos rfl, if_pos rfl, if_pos rfl, Hub.pad, packs.bitPos, packs.byte]
    by_cases empty : held = []
    · subst empty
      rw [if_pos rfl, if_neg (by decide), List.append_nil]
      exact ⟨packs, rfl⟩
    · rw [if_neg empty, if_pos (List.length_pos_iff.mpr empty)]
      exact ⟨packs_start, rfl⟩

/-! ### The loop over the bits of a scan -/

/-- The entries of the FIFO, with one count for the entry at the head. -/
def windowsOf (remaining : Nat) : List PushTdoCapture → List Window
  | [] => []
  | head :: rest => head.windowAt remaining :: rest.map PushTdoCapture.window

theorem windowsOf_firstDuration (fifo : List PushTdoCapture) :
    windowsOf (Capture.firstDuration fifo) fifo = fifo.map PushTdoCapture.window := by
  cases fifo <;> rfl

theorem firstDuration_eq_zero (fifo : List PushTdoCapture) : Capture.firstDuration fifo = 0 ↔ fifo = [] := by
  cases fifo with
  | nil => exact ⟨fun _ => rfl, fun _ => rfl⟩
  | cons head rest => exact ⟨fun zero => absurd zero (Nat.ne_of_gt head.positive), nofun⟩

namespace Capture

/-- What the loop has captured so far is what the hub holds and has sent. -/
structure Packed (lp : Capture) (held : BitString) (sent : Bytes) : Prop where
  packs : Packs (JopEncoder.packer.finish lp.encoder lp.capturedBits) held
  sent : lp.out ++ (JopEncoder.packer.outputs lp.encoder lp.capturedBits).flatten = sent

theorem keep_packed {lp : Capture} {held : BitString} {sent : Bytes} (packed : lp.Packed held sent)
    (head : PushTdoCapture) (unread : Nat) (tdo : Bool) :
    (lp.keep head tdo).Packed (Hub.keep (head.windowAt unread) held tdo).1
      (sent ++ (Hub.keep (head.windowAt unread) held tdo).2) := by
  rw [keep, Hub.keep, PushTdoCapture.windowAt]
  dsimp only
  by_cases enabled : head.tdoEnable = true
  · rw [if_pos enabled, if_pos enabled]
    obtain ⟨packs, bytes⟩ := emitBit_packs packed.packs tdo
    constructor
    · rw [Machine.finish_append]
      exact packs
    · rw [Machine.outputs_append, List.flatten_append, ← List.append_assoc, packed.sent, ← bytes]
      exact congrArg _ (List.append_nil _)
  · rw [if_neg enabled, if_neg enabled, List.append_nil]
    exact packed

theorem close_packed {lp : Capture} {held : BitString} {sent : Bytes} (packed : lp.Packed held sent)
    (head : PushTdoCapture) (unread : Nat) (captured : head.tdoEnable → lp.capturedBits ≠ []) :
    (lp.close head).Packed (Hub.close (head.windowAt unread) held).1
      (sent ++ (Hub.close (head.windowAt unread) held).2) := by
  rw [close, Hub.close, PushTdoCapture.windowAt]
  dsimp only
  by_cases enabled : head.tdoEnable = true
  · rw [if_pos ⟨captured enabled, enabled⟩]
    obtain ⟨packs, bytes⟩ := emitWindow_packs packed.packs head.eopGen
    cases eop : head.eopGen with
    | true =>
      rw [eop, if_pos rfl] at packs bytes
      rw [if_pos ⟨enabled, rfl⟩]
      refine ⟨packs, (List.append_nil _).trans ?_⟩
      dsimp only
      rw [bytes, ← List.append_assoc, packed.sent]
    | false =>
      rw [eop, if_neg Bool.false_ne_true] at packs bytes
      rw [if_neg (fun both => Bool.false_ne_true both.2), List.append_nil]
      refine ⟨packs, (List.append_nil _).trans ?_⟩
      dsimp only
      rw [bytes, List.append_nil, packed.sent]
  · rw [if_neg (fun both => enabled both.2), if_neg (fun both => enabled both.1), List.append_nil]
    exact packed

/-- The loop and the hub read the same entries. -/
structure Follows (lp : Capture) (hub : Hub) (sent : Bytes) : Prop where
  packed : lp.Packed hub.held sent
  windows : hub.windows = windowsOf lp.headRemaining lp.captureFifo
  counted : lp.headRemaining = 0 ↔ lp.captureFifo = []

theorem keep_captured (lp : Capture) (head : PushTdoCapture) (tdo : Bool) (enabled : head.tdoEnable) :
    (lp.keep head tdo).capturedBits ≠ [] := by
  rw [keep, if_pos enabled]
  exact List.append_ne_nil_of_right_ne_nil _ (List.cons_ne_nil _ _)

theorem bit_follows {lp : Capture} {hub : Hub} {sent : Bytes} (follows : lp.Follows hub sent) (tdo : Bool) :
    ∃ next, lp.bit tdo = some next ∧ next.Follows (hub.clock tdo).1 (sent ++ (hub.clock tdo).2) := by
  have windows := follows.windows
  rw [bit, Hub.clock]
  cases fifo : lp.captureFifo with
  | nil =>
    rw [fifo, windowsOf] at windows
    rw [if_pos (follows.counted.mpr fifo), windows, List.append_nil]
    exact ⟨lp, rfl, follows⟩
  | cons head rest =>
    have waiting : lp.headRemaining ≠ 0 := fun zero => by
      rw [follows.counted.mp zero] at fifo
      cases fifo
    rw [fifo, windowsOf] at windows
    rw [if_neg waiting, windows]
    have kept := keep_packed follows.packed head lp.headRemaining tdo
    dsimp only
    by_cases ends : lp.headRemaining = 1
    · rw [if_pos (show lp.headRemaining - 1 = 0 by omega), if_pos (show (head.windowAt lp.headRemaining).unread = 1 from ends),
        ← List.append_assoc]
      have closed := close_packed kept head lp.headRemaining (keep_captured lp head tdo)
      exact ⟨_, rfl, ⟨closed.packs, closed.sent⟩, (windowsOf_firstDuration rest).symm, firstDuration_eq_zero rest⟩
    · rw [if_neg (show lp.headRemaining - 1 ≠ 0 by omega),
        if_neg (show (head.windowAt lp.headRemaining).unread ≠ 1 from ends)]
      refine ⟨_, rfl, ⟨kept.packs, kept.sent⟩, ?_, ?_⟩
      · rw [keep_captureFifo, fifo]
        rfl
      · rw [keep_captureFifo, fifo]
        exact ⟨fun zero => absurd zero (by dsimp only; omega), by rintro ⟨⟩⟩

theorem bits_follow {lp : Capture} {hub : Hub} {sent : Bytes} (follows : lp.Follows hub sent) (tdo : BitString) :
    ∃ last, tdo.foldlM bit lp = some last ∧
      last.Follows (Hub.machine.finish hub (tdo.map .clock))
        (sent ++ (Hub.machine.outputs hub (tdo.map .clock)).flatten) := by
  induction tdo generalizing lp hub sent with
  | nil => exact ⟨lp, rfl, by simpa using follows⟩
  | cons head tdo ih =>
    obtain ⟨next, step, follows⟩ := bit_follows follows head
    obtain ⟨last, run, follows⟩ := ih follows
    refine ⟨last, by rw [List.foldlM_cons, step]; exact run, ?_⟩
    rw [List.map_cons, Machine.finish_cons, Machine.outputs_cons, List.flatten_cons, ← List.append_assoc]
    exact follows

theorem Follows.drain {lp : Capture} {hub : Hub} {sent : Bytes} (follows : lp.Follows hub sent) :
    Packs lp.drain.encoder hub.held ∧ lp.drain.out = sent ∧ lp.drain.Follows hub sent := by
  have packed := follows.packed
  rw [Capture.drain]
  by_cases captured : lp.capturedBits = []
  · rw [if_neg (fun filled => filled captured)]
    have packs := packed.packs
    have out := packed.sent
    rw [captured] at packs out
    exact ⟨packs, (List.append_nil _).symm.trans out, follows⟩
  · rw [if_pos captured]
    obtain ⟨packs, bytes⟩ := emitWindow_packs packed.packs false
    rw [if_neg Bool.false_ne_true] at packs bytes
    have out : lp.out ++ (lp.encoder.emitWindow lp.capturedBits false).2.1 = sent := by
      rw [bytes, List.append_nil, packed.sent]
    exact ⟨packs, out, ⟨packs, (List.append_nil _).trans out⟩, follows.windows, follows.counted⟩

end Capture

/-! ### Runs of a session -/

def Event.payload : Event → Bytes
  | .sent packet => packet.payload
  | _ => []

def returned (events : List Event) : Bytes := events.flatMap Event.payload

theorem returned_step (op : Op) (sent : List H2tPacket) (later : List Event) :
    returned (.executed op :: sent.map .sent ++ later) = sent.flatMap H2tPacket.payload ++ returned later := by
  rw [returned, List.flatMap_append, List.flatMap_cons, List.flatMap_map]
  rfl

/-- Dropping the head leaves its count right for the entry behind it. -/
def Hub.Even (hub : Hub) : Prop :=
  match hub.windows with
  | head :: next :: _ => head.unread = next.unread
  | _ => True

namespace Session

variable {σ : Type} (dev : Device σ)

/-- A session and the hub, with the TAP in `tap` and the device in `s`. -/
structure Tracks (session : Session σ) (place : TapState × σ) (hub : Hub) : Prop where
  walker : session.walker.state = Walker.collapse place.1
  device : session.device = place.2
  packs : Packs session.encoder hub.held
  windows : hub.windows = windowsOf session.headRemaining session.captureFifo
  counted : session.headRemaining = 0 ↔ session.captureFifo = []

variable {session : Session σ} {place : TapState × σ} {hub : Hub}

theorem Tracks.unread (tracks : session.Tracks place hub) : session.headRemaining = hub.unread := by
  rw [Hub.unread, tracks.windows]
  cases fifo : session.captureFifo with
  | nil => exact tracks.counted.mpr fifo
  | cons head rest => rfl

theorem capture_tracks (tracks : session.Tracks place hub) (tdo : BitString) (route : Route) :
    ∃ next sent, session.capture tdo route = some (next, sent) ∧
      next.Tracks place (Hub.machine.finish hub (tdo.map .clock)) ∧
      sent.flatMap H2tPacket.payload = (Hub.machine.outputs hub (tdo.map .clock)).flatten := by
  have follows : Capture.Follows ⟨session.encoder, session.captureFifo, session.headRemaining, [], false, []⟩ hub [] :=
    ⟨⟨tracks.packs, rfl⟩, tracks.windows, tracks.counted⟩
  obtain ⟨last, run, follows⟩ := Capture.bits_follow follows tdo
  have drained := follows.drain
  refine ⟨_, _, capture_of_run route run, ⟨tracks.walker, tracks.device, drained.1, drained.2.2.windows,
    drained.2.2.counted⟩, ?_⟩
  rw [List.nil_append] at drained
  split
  · rw [List.flatMap_singleton]
    exact drained.2.1
  · rename_i nothing
    rw [← drained.2.1, Decidable.not_not.mp nothing]
    rfl

theorem doShift_tracks (tracks : session.Tracks place hub) (scan : Shift) (route : Route) :
    ∃ next sent, session.doShift dev scan route = some (next, sent) ∧
      next.Tracks ((clockedDevice dev).finish place scan.tcks)
        (Hub.machine.finish hub ((Op.shift scan).signals dev place.1 place.2)) ∧
      sent.flatMap H2tPacket.payload =
        (Hub.machine.outputs hub ((Op.shift scan).signals dev place.1 place.2)).flatten := by
  obtain ⟨done, processed, walked⟩ := Walker.process_follows dev place.1 place.2 session.walker tracks.walker scan.tcks
  rw [Shift.tcks, List.map_fst_zip (Nat.le_of_eq scan.same), List.map_snd_zip (Nat.le_of_eq scan.same.symm),
    ← tracks.device] at processed
  have here : Tracks { session with walker := done.walker, device := done.device }
      ((clockedDevice dev).finish place scan.tcks) hub := by
    refine ⟨?_, ?_, tracks.packs, tracks.windows, tracks.counted⟩
    · rw [finish_clockedDevice]
      exact walked.walker
    · rw [finish_clockedDevice]
      exact walked.device
  obtain ⟨next, sent, captured, tracked, payload⟩ := capture_tracks here done.tdo route
  rw [walked.tdo] at captured tracked payload
  refine ⟨next, sent, ?_, tracked, payload⟩
  rw [doShift, processed]
  dsimp only
  rw [walked.tdo]
  exact captured

/-- A push leaves the count of the head right when the entry that it drops had as many bits left. -/
theorem pushCapture_unread (tracks : session.Tracks place hub) (op : PushTdoCapture) :
    (session.pushCapture op).headRemaining = (hub.push op).unread ↔ hub.Even := by
  have windows := tracks.windows
  have counted := tracks.counted
  rw [pushCapture, Hub.Even, Hub.unread, Hub.push, windows]
  rcases fifo : session.captureFifo with _ | ⟨head, _ | ⟨next, rest⟩⟩
  · rw [fifo] at counted
    rw [if_pos (counted.mpr rfl)]
    exact ⟨fun _ => trivial, fun _ => rfl⟩
  · rw [fifo] at counted
    rw [if_neg (fun zero => List.cons_ne_nil _ _ (counted.mp zero))]
    exact ⟨fun _ => trivial, fun _ => rfl⟩
  · rw [fifo] at counted
    rw [if_neg (fun zero => List.cons_ne_nil _ _ (counted.mp zero)),
      if_pos (show tdoFifoDepth ≤ (windowsOf session.headRemaining (head :: next :: rest)).length by
        simp only [windowsOf, List.map_cons, List.length_cons, tdoFifoDepth]
        omega)]
    exact Iff.rfl

theorem pushCapture_tracks (tracks : session.Tracks place hub) (even : hub.Even) (op : PushTdoCapture) :
    (session.pushCapture op).Tracks place (hub.push op) := by
  have windows := tracks.windows
  have counted := tracks.counted
  rw [Hub.Even, windows] at even
  rcases fifo : session.captureFifo with _ | ⟨head, _ | ⟨next, rest⟩⟩
  · rw [fifo] at counted windows
    have pushed : session.pushCapture op = { session with captureFifo := [op], headRemaining := op.duration } := by
      rw [pushCapture, if_pos (counted.mpr rfl), fifo]
      rfl
    rw [pushed]
    refine ⟨tracks.walker, tracks.device, tracks.packs, ?_, firstDuration_eq_zero [op]⟩
    rw [Hub.push, windows]
    rfl
  · rw [fifo] at counted windows
    have waiting : session.headRemaining ≠ 0 := fun zero => List.cons_ne_nil _ _ (counted.mp zero)
    have pushed : session.pushCapture op = { session with captureFifo := [head, op] } := by
      rw [pushCapture, if_neg waiting, fifo]
      rfl
    rw [pushed]
    refine ⟨tracks.walker, tracks.device, tracks.packs, ?_, fun zero => absurd zero waiting, by rintro ⟨⟩⟩
    rw [Hub.push, windows]
    rfl
  · rw [fifo] at counted windows even
    have waiting : session.headRemaining ≠ 0 := fun zero => List.cons_ne_nil _ _ (counted.mp zero)
    have pushed : session.pushCapture op = { session with captureFifo := next :: rest ++ [op] } := by
      rw [pushCapture, if_neg waiting, fifo, if_pos (by simp only [List.length_cons, tdoFifoDepth]; omega)]
      rfl
    rw [pushed]
    refine ⟨tracks.walker, tracks.device, tracks.packs, ?_, fun zero => absurd zero waiting, by rintro ⟨⟩⟩
    have same : session.headRemaining = next.duration := even
    rw [Hub.push, windows, if_pos (by simp only [windowsOf, List.map_cons, List.length_cons, tdoFifoDepth]; omega)]
    simp only [windowsOf, List.map_cons, List.tail_cons, List.cons_append, List.map_append, List.map_nil, same,
      PushTdoCapture.window]

/-- An operation keeps a session and the hub together, a push under the condition. -/
theorem dispatchOp_tracks (tracks : session.Tracks place hub) (op : Op) (route : Route)
    (even : ∀ capture, op = .pushTdoCapture capture → hub.Even) :
    ∃ next sent, session.dispatchOp dev op route = some (next, sent) ∧
      next.Tracks ((clockedDevice dev).finish place op.tcks)
        (Hub.machine.finish hub (op.signals dev place.1 place.2)) ∧
      sent.flatMap H2tPacket.payload = (Hub.machine.outputs hub (op.signals dev place.1 place.2)).flatten := by
  cases op with
  | retrieveInfo => exact ⟨_, _, rfl, tracks, rfl⟩
  | resetTdoFifo =>
    exact ⟨_, _, rfl, ⟨tracks.walker, tracks.device, tracks.packs, rfl, fun _ => rfl, fun _ => rfl⟩, rfl⟩
  | pushTdoCapture capture => exact ⟨_, _, rfl, pushCapture_tracks tracks (even capture rfl) capture, rfl⟩
  | shift scan => exact doShift_tracks dev tracks scan route

/-! ### Runs -/

/-- At every overflow, the entry that is dropped has as many unread bits as the entry behind it. -/
def EvenOverflows (hub : Hub) : List Signal → Prop
  | [] => True
  | signal :: signals => (∀ capture, signal = .push capture → hub.Even) ∧ EvenOverflows (hub.step signal).1 signals

theorem evenOverflows_append {front back : List Signal} :
    EvenOverflows hub (front ++ back) ↔ EvenOverflows hub front ∧ EvenOverflows (Hub.machine.finish hub front) back := by
  induction front generalizing hub with
  | nil => exact (true_and _).symm.to_iff
  | cons signal front ih => exact (and_congr_right fun _ => ih).trans and_assoc.symm

theorem evenOverflows_clocks (tdo : BitString) : EvenOverflows hub (tdo.map .clock) := by
  induction tdo generalizing hub with
  | nil => trivial
  | cons head tdo ih => exact ⟨nofun, ih⟩

theorem evenOverflows_op (tap : TapState) (s : σ) (op : Op) :
    EvenOverflows hub (op.signals dev tap s) ↔ ∀ capture, op = .pushTdoCapture capture → hub.Even := by
  cases op with
  | retrieveInfo => exact ⟨fun _ => nofun, fun _ => ⟨nofun, trivial⟩⟩
  | resetTdoFifo => exact ⟨fun _ => nofun, fun _ => ⟨nofun, trivial⟩⟩
  | pushTdoCapture capture =>
    exact ⟨fun even _ _ => even.1 capture rfl, fun even => ⟨fun _ _ => even capture rfl, trivial⟩⟩
  | shift scan => exact ⟨fun _ => nofun, fun _ => evenOverflows_clocks _⟩

theorem evenOverflows_cons {op : Op} {ops : List Op} :
    EvenOverflows hub (signals dev place.1 place.2 (op :: ops)) ↔ (∀ capture, op = .pushTdoCapture capture → hub.Even) ∧
      EvenOverflows (Hub.machine.finish hub (op.signals dev place.1 place.2))
        (signals dev ((clockedDevice dev).finish place op.tcks).1 ((clockedDevice dev).finish place op.tcks).2 ops) := by
  rw [signals, evenOverflows_append, evenOverflows_op]

theorem dispatchAll_tracks (tracks : session.Tracks place hub) (ops : List (Op × Route))
    (even : EvenOverflows hub (signals dev place.1 place.2 (ops.map Prod.fst))) :
    ∃ last events, session.dispatchAll dev ops = some (last, events) ∧
      last.headRemaining = (Hub.machine.finish hub (signals dev place.1 place.2 (ops.map Prod.fst))).unread ∧
      returned events = (Hub.machine.outputs hub (signals dev place.1 place.2 (ops.map Prod.fst))).flatten := by
  induction ops generalizing session place hub with
  | nil => exact ⟨_, _, rfl, tracks.unread, rfl⟩
  | cons head ops ih =>
    obtain ⟨op, route⟩ := head
    obtain ⟨first, even⟩ := (evenOverflows_cons dev).mp even
    obtain ⟨next, sent, step, tracks, payload⟩ := dispatchOp_tracks dev tracks op route first
    obtain ⟨last, events, run, unread, bytes⟩ := ih tracks even
    refine ⟨last, _, dispatchAll_cons dev step run, ?_, ?_⟩
    · rw [List.map_cons, signals, Machine.finish_append]
      exact unread
    · rw [returned_step, payload, bytes, List.map_cons, signals, Machine.outputs_append, List.flatten_append]

/-- The count of a session that agrees with the hub after every operation has seen even overflows only. -/
theorem evenOverflows_of_unread (tracks : session.Tracks place hub) (ops : List (Op × Route))
    (agrees : ∀ k, ∃ last events, session.dispatchAll dev (ops.take k) = some (last, events) ∧
      last.headRemaining =
        (Hub.machine.finish hub (signals dev place.1 place.2 ((ops.take k).map Prod.fst))).unread) :
    EvenOverflows hub (signals dev place.1 place.2 (ops.map Prod.fst)) := by
  induction ops generalizing session place hub with
  | nil => trivial
  | cons head ops ih =>
    obtain ⟨op, route⟩ := head
    have first : ∀ capture, op = .pushTdoCapture capture → hub.Even := by
      rintro capture rfl
      obtain ⟨last, events, run, unread⟩ := agrees 1
      obtain ⟨next, sent, later, step, run, -⟩ := dispatchAll_inv dev run
      cases step
      cases run
      exact (pushCapture_unread tracks capture).mp unread
    obtain ⟨next, sent, step, tracks, -⟩ := dispatchOp_tracks dev tracks op route first
    refine (evenOverflows_cons dev).mpr ⟨first, ih tracks fun k => ?_⟩
    obtain ⟨last, events, run, unread⟩ := agrees (k + 1)
    obtain ⟨next', sent', later, step', run, -⟩ := dispatchAll_inv dev run
    cases step.symm.trans step'
    refine ⟨last, later, run, unread.trans ?_⟩
    rw [List.take_succ_cons, List.map_cons, signals, Machine.finish_append]

theorem tracks_start (device : σ) : (start {} device).Tracks (TapState.tlr, device) .start :=
  ⟨rfl, rfl, packs_start, rfl, fun _ => rfl, fun _ => rfl⟩

/-- A session counts the unread bits of the entry at the head, and returns the bits of the windows in
order however the scans are cut, exactly when every overflow drops an entry with as many unread bits as
the entry behind it. -/
theorem capture_accounting_iff (device : σ) (ops : List (Op × Route)) :
    EvenOverflows .start (signals dev .tlr device (ops.map Prod.fst)) ↔
      ∀ k, ∀ cut : List (Op × Route),
        signals dev .tlr device (cut.map Prod.fst) = signals dev .tlr device ((ops.take k).map Prod.fst) →
        ∃ last events, (start {} device).dispatchAll dev cut = some (last, events) ∧
          last.headRemaining =
            (Hub.machine.finish .start (signals dev .tlr device ((ops.take k).map Prod.fst))).unread ∧
          returned events =
            (Hub.machine.outputs .start (signals dev .tlr device ((ops.take k).map Prod.fst))).flatten := by
  constructor
  · intro even k cut same
    rw [← same]
    refine dispatchAll_tracks dev (tracks_start device) cut ?_
    rw [same]
    rw [← List.take_append_drop k ops, List.map_append, signals_append] at even
    exact (evenOverflows_append.mp even).1
  · intro agrees
    refine evenOverflows_of_unread dev (tracks_start device) ops fun k => ?_
    obtain ⟨last, events, run, unread, -⟩ := agrees k (ops.take k) rfl
    exact ⟨last, events, run, unread⟩

def window (duration : Nat) (positive : 0 < duration) : Op :=
  .pushTdoCapture { duration, tdoEnable := true, eopGen := true, positive }

/-- A third entry comes when one of the two bits of the first has been read: the session still counts one
bit, the entry at the head has five. -/
theorem overflow_keeps_count : ∃ last events,
    (start {} ()).dispatchAll idle ([window 2 (by decide), window 5 (by decide),
      .shift { tms := [false], tdi := [false], same := rfl }, window 1 (by decide)].map (·, ⟨0, 0⟩)) =
        some (last, events) ∧
      last.captureFifo.map PushTdoCapture.duration = [5, 1] ∧ last.headRemaining = 1 ∧
      (Hub.machine.finish .start (signals idle .tlr () [window 2 (by decide), window 5 (by decide),
        .shift { tms := [false], tdi := [false], same := rfl }, window 1 (by decide)])).unread = 5 :=
  ⟨_, _, rfl, rfl, rfl, rfl⟩

end Session

end Acrobe.Jop
