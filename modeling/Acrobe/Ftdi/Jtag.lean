import Acrobe.Jtag.TapFsm

/-!
# MPSSE commands

The commands the JTAG adapter posts to the engine, and the clocks the chip
makes of them. A command that does not drive TMS leaves the pin where the
last one put it.
-/

namespace Acrobe.Ftdi
open Jtag BitString TapState

inductive Cmd where
  | shiftTms (data count : Nat) (tdi : Bool := false) (read : Bool := false)
  | shiftBytes (data : BitString) (read : Bool)
  | shiftBits (data count : Nat) (read : Bool)
  | clockBits (count : Nat)
  | clockBytes (count : Nat)
  deriving DecidableEq

/-- What the constructor of a command asserts. -/
def Cmd.Valid : Cmd → Prop
  | .shiftTms _ count _ _ => 1 ≤ count ∧ count ≤ 8
  | .shiftBytes data _ => data.length % 8 = 0 ∧ 1 ≤ data.length / 8 ∧ data.length / 8 ≤ 65536
  | .shiftBits _ count _ => 1 ≤ count ∧ count ≤ 8
  | .clockBits count => 1 ≤ count ∧ count ≤ 8
  | .clockBytes count => 1 ≤ count ∧ count ≤ 65536

/-- The clocks of a command, with TMS and TDI at `pins` before it. -/
def Cmd.clocks (pins : Tck) : Cmd → List Tck
  | .shiftTms data count tdi _ => (ofNat (data % 0x80) count).map fun tms => (tms, tdi)
  | .shiftBytes data _ => hold pins.1 data
  | .shiftBits data count _ => hold pins.1 (ofNat (data % 0x100) count)
  | .clockBits count => List.replicate count pins
  | .clockBytes count => List.replicate (8 * count) pins

def stream (pins : Tck) : List Cmd → List Tck
  | [] => []
  | cmd :: cmds => cmd.clocks pins ++ stream ((cmd.clocks pins).getLastD pins) cmds

def pinsAfter (pins : Tck) (cmds : List Cmd) : Tck := (stream pins cmds).getLastD pins

theorem getLastD_append {α : Type} (d : α) (xs ys : List α) :
    (xs ++ ys).getLastD d = ys.getLastD (xs.getLastD d) := by
  cases ys with
  | nil => rw [List.append_nil]; rfl
  | cons y ys => simp [List.getLastD_eq_getLast?, List.getLast?_append]

theorem stream_append (pins : Tck) (xs ys : List Cmd) :
    stream pins (xs ++ ys) = stream pins xs ++ stream (pinsAfter pins xs) ys := by
  induction xs generalizing pins with
  | nil => rfl
  | cons cmd xs ih => rw [List.cons_append, stream, stream, ih, List.append_assoc, pinsAfter, pinsAfter, stream,
      getLastD_append]

def streams (pins : Tck) : List (List Cmd) → List (List Tck)
  | [] => []
  | cmds :: rest => stream pins cmds :: streams (pinsAfter pins cmds) rest

end Acrobe.Ftdi

/-!
## `JtagMpsse`

Lowering of interface operations to MPSSE commands. What one operation
appends is kept apart; its TDO comes from a range of the commands of the batch.
-/

namespace Acrobe.Ftdi
open Jtag BitString

inductive State where
  | unknown | reset | rti | pause
  deriving DecidableEq

def stateName : State → String
  | .unknown => "unknown"
  | .reset => "reset"
  | .rti => "rti"
  | .pause => "pause"

/-- What one operation of a batch appends, the range its TDO is read from, and
the exception of an operation that is refused by itself. -/
structure Segment where
  cmds : List Cmd
  tdo : Option (Nat × Nat) := none
  rejected : Option PyErr := none
  deriving DecidableEq

def emitTmsPattern (tms : BitString) : List Cmd :=
  (List.range ((tms.length + 6) / 7)).map fun k =>
    let off := 7 * k
    let chunk := min 7 (tms.length - off)
    .shiftTms (toNat (slice tms off (off + chunk))) chunk

/-- `min(left, 65536 * 8) & ~7`. -/
def byteChunk (left : Nat) : Nat := min left (65536 * 8) / 8 * 8

theorem byteChunk_bounds {left : Nat} (h : 8 ≤ left) :
    8 ≤ byteChunk left ∧ byteChunk left ≤ left ∧ byteChunk left % 8 = 0 ∧ byteChunk left / 8 ≤ 65536 := by
  unfold byteChunk
  omega

def emitIdleInRti (left : Nat) : List Cmd :=
  if 8 ≤ left then
    .clockBytes (byteChunk left / 8) :: emitIdleInRti (left - byteChunk left)
  else if left ≠ 0 then [.clockBits left] else []
termination_by left
decreasing_by
  have := byteChunk_bounds ‹8 ≤ left›
  omega

def emitRun (st : State) (cycles : Nat) : State × List Cmd :=
  let exit := if st = .pause then [.shiftTms 0b11 2] else []
  if st ≠ .unknown then
    (.rti, exit ++ .shiftTms 0b0 1 :: emitIdleInRti (cycles - 1))
  else
    (.rti, [.shiftTms 0b11111 5, .shiftTms 0b0 1])

/-- Both Captures: `path` leads from Run-Test/Idle or Update through Capture to Pause. -/
def emitCapture (name : String) (path : Cmd) : State → State × Except PyErr Segment
  | .pause => (.pause, .ok { cmds := [.shiftTms 0b11 2, path] })
  | .rti => (.pause, .ok { cmds := [path] })
  | st => (st, .error (.valueError (name ++ " from unexpected state: " ++ stateName st)))

def emitCaptureDr : State → State × Except PyErr Segment := emitCapture "CaptureDr" (.shiftTms 0b0101 4)

def emitCaptureIr : State → State × Except PyErr Segment := emitCapture "CaptureIr" (.shiftTms 0b01011 5)

def emitBody (read : Bool) (tdi : BitString) (offset left : Nat) : List Cmd :=
  if 8 ≤ left then
    .shiftBytes (slice tdi offset (offset + byteChunk left)) read ::
      emitBody read tdi (offset + byteChunk left) (left - byteChunk left)
  else if 0 < left then [.shiftBits (toNat (slice tdi offset (offset + left))) left read] else []
termination_by left
decreasing_by
  have := byteChunk_bounds ‹8 ≤ left›
  omega

/-- `preLen` is `len(mpsse_ops)` on entry. -/
def emitShift (st : State) (preLen : Nat) (op : Shift) : State × Except PyErr Segment :=
  if st ≠ .pause then (st, .error .assertionError)
  else match op.tdi.getLast? with
    | none =>
      let cmds := if op.postRun ≠ 0 then .shiftTms 0b011 3 :: emitIdleInRti op.postRun else []
      let stop := preLen + cmds.length
      (if op.postRun ≠ 0 then .rti else .pause,
        .ok { cmds, tdo := if op.readTdo then some (stop, stop) else none })
    | some last =>
      let data := emitBody op.readTdo op.tdi 0 (op.tdi.length - 1) ++ [.shiftTms 0b1 1 last op.readTdo]
      let start := preLen + 1
      let exit := if op.postRun ≠ 0 then .shiftTms 0b01 2 :: emitIdleInRti op.postRun else [.shiftTms 0b0 1]
      (if op.postRun ≠ 0 then .rti else .pause,
        .ok { cmds := .shiftTms 0b01 2 :: (data ++ exit),
              tdo := if op.readTdo then some (start, start + data.length) else none })

def lowerOp (st : State) (preLen : Nat) : Op → State × Except PyErr Segment
  | .reset count => (.reset, .ok { cmds := emitTmsPattern (resetTms count) })
  | .swdToJtag => (.reset, .ok { cmds := emitTmsPattern swdToJtagTms })
  | .run cycles => let (st, cmds) := emitRun st cycles; (st, .ok { cmds })
  | .captureDr => emitCaptureDr st
  | .captureIr => emitCaptureIr st
  | .shift s => emitShift st preLen s
  | .other typeName => (st, .ok { cmds := [], rejected := some (.valueError ("Unknown JTAG op: " ++ typeName)) })

/-- The lowering loop of `flush_ops`. When it raises, nothing of the batch is posted. -/
def lower (st : State) (preLen : Nat) : List Op → State × Except PyErr (List Segment)
  | [] => (st, .ok [])
  | op :: ops =>
    match lowerOp st preLen op with
    | (st, .error e) => (st, .error e)
    | (st, .ok segment) =>
      match lower st (preLen + segment.cmds.length) ops with
      | (st, .error e) => (st, .error e)
      | (st, .ok segments) => (st, .ok (segment :: segments))

def lowerCalls (st : State) : List (List Op) → State × Except PyErr (List Segment)
  | [] => (st, .ok [])
  | ops :: calls =>
    match lower st 0 ops with
    | (st, .error e) => (st, .error e)
    | (st, .ok segments) =>
      match lowerCalls st calls with
      | (st, .error e) => (st, .error e)
      | (st, .ok rest) => (st, .ok (segments ++ rest))

end Acrobe.Ftdi
