import Acrobe.Jtag.TapFsm

/-!
# `JtagOpEncoder`

Lowering of interface operations to a TMS/TDI stream, with one operation of
look-ahead. Every emitter appends equally many bits to both streams, so they
are built as one list of clocks.
-/

namespace Acrobe.Jtag
open BitString

/-- The rest states `TLR`, `RTI` and `PAUSE`, and the states `_PRE_SHIFT` and
`_IN_SHIFT` the encoder is only in between two operations of a batch. -/
inductive EncoderState where
  | tlr | rti | pause | preShift | inShift
  deriving DecidableEq

namespace Encoder

def stateName : EncoderState → String
  | .tlr => "TLR"
  | .rti => "RTI"
  | .pause => "PAUSE"
  | .preShift => "_PRE_SHIFT"
  | .inShift => "_IN_SHIFT"

/-- `tms.append(..)` together with `tdi.append(..)`. -/
def clocks (tms tdi : BitString) : List Tck := tms.zip tdi

/-- What one operation appends to the streams and to `slots`. -/
structure Piece where
  bits : List Tck
  slots : List (Shift × Nat) := []

def emitTmsPattern (tms : BitString) : EncoderState × List Tck :=
  (.tlr, clocks tms (zeros tms.length))

def emitRun (st : EncoderState) (cycles : Nat) : EncoderState × List Tck :=
  let exit := if st = .pause then clocks (ofNat 0b11 2) (zeros 2) else []
  let st := if st = .pause then .rti else if st = .tlr ∧ cycles ≠ 0 then .rti else st
  (st, exit ++ clocks (zeros cycles) (zeros cycles))

def emitEnterCapture (st : EncoderState) (ir : Bool) : Except PyErr (List Tck) :=
  match st, ir with
  | .rti, true => .ok (clocks (ofNat 0b011 3) (zeros 3))
  | .rti, false => .ok (clocks (ofNat 0b01 2) (zeros 2))
  | .pause, true => .ok (clocks (ofNat 0b01111 5) (zeros 5))
  | .pause, false => .ok (clocks (ofNat 0b0111 4) (zeros 4))
  | .tlr, true => .ok (clocks (ofNat 0b0110 4) (zeros 4))
  | .tlr, false => .ok (clocks (ofNat 0b010 3) (zeros 3))
  | st, _ => .error (.runtimeError ("unexpected state at Capture entry: " ++ stateName st))

def emitCaptureExit : Option Op → EncoderState × List Tck
  | some (.shift _) => (.preShift, clocks (zeros 1) (zeros 1))
  -- Nothing is emitted here: from Capture, the bits that leave Pause lead to Update as well.
  | some .captureDr | some .captureIr | some (.run _) => (.pause, [])
  | _ => (.pause, clocks (ofNat 0b01 2) (zeros 2))

def emitCapture (st : EncoderState) (ir : Bool) (next : Option Op) :
    EncoderState × Except PyErr Piece :=
  match emitEnterCapture st ir with
  | .error e => (st, .error e)
  | .ok enter =>
    let (st, exit) := emitCaptureExit next
    (st, .ok { bits := enter ++ exit })

def isShift : Option Op → Bool
  | some (.shift _) => true
  | _ => false

def exitShift (next : Option Op) (lastTdiBit : Bool) (skippedPayload : Bool) :
    EncoderState × List Tck :=
  if isShift next then
    (.inShift, if skippedPayload then [] else clocks (zeros 1) [lastTdiBit])
  else
    (.pause, if skippedPayload then clocks (ofNat 0b01 2) (zeros 2)
      else clocks (ofNat 0b01 2) ([lastTdiBit] ++ zeros 1))

def emitPostRun (st : EncoderState) (postRun : Nat) : EncoderState × List Tck :=
  if postRun ≠ 0 then emitRun st postRun else (st, [])

def emitEnterShift : EncoderState → Except PyErr (List Tck)
  | .pause => .ok (clocks (ofNat 0b01 2) (zeros 2))
  | .preShift | .inShift => .ok []
  | st => .error (.runtimeError ("Shift op not preceded by Capture/Pause: state=" ++ stateName st))

/-- `offset` is `len(tdi)` on entry. -/
def emitShift (st : EncoderState) (offset : Nat) (op : Shift) (next : Option Op) :
    EncoderState × Except PyErr Piece :=
  match emitEnterShift st with
  | .error e => (st, .error e)
  | .ok entry =>
    if op.postRun ≠ 0 ∧ isShift next then
      (st, .error (.valueError "post_run on a Shift continued by another Shift"))
    else
      match op.tdi.getLast? with
      | none =>
        let (st, exit) := exitShift next false true
        let (st, idle) := emitPostRun st op.postRun
        (st, .ok { bits := entry ++ exit ++ idle })
      | some lastTdi =>
        let body := clocks (zeros (op.tdi.length - 1)) op.tdi.dropLast
        let (st, exit) := exitShift next lastTdi false
        let (st, idle) := emitPostRun st op.postRun
        (st, .ok { bits := entry ++ body ++ exit ++ idle, slots := [(op, offset + entry.length)] })

def emitOp (st : EncoderState) (offset : Nat) (op : Op) (next : Option Op) :
    EncoderState × Except PyErr Piece :=
  match op with
  | .reset count => let (st, bits) := emitTmsPattern (resetTms count); (st, .ok { bits })
  | .swdToJtag => let (st, bits) := emitTmsPattern swdToJtagTms; (st, .ok { bits })
  | .run cycles => let (st, bits) := emitRun st cycles; (st, .ok { bits })
  | .captureDr => emitCapture st false next
  | .captureIr => emitCapture st true next
  | .shift s => emitShift st offset s next
  | .other typeName => (st, .error (.valueError ("JtagOpEncoder cannot lower " ++ typeName ++
      "; supported: Reset, SwdToJtag, Run, CaptureDr, CaptureIr, Shift")))

/-- The loop of `encode`, keeping what each operation appended apart. -/
def emitOps (st : EncoderState) (offset : Nat) : List Op → EncoderState × Except PyErr (List Piece)
  | [] => (st, .ok [])
  | op :: ops =>
    match emitOp st offset op ops.head? with
    | (st, .error e) => (st, .error e)
    | (st, .ok piece) =>
      match emitOps st (offset + piece.bits.length) ops with
      | (st, .error e) => (st, .error e)
      | (st, .ok pieces) => (st, .ok (piece :: pieces))

structure Output where
  tms : BitString
  tdi : BitString
  slots : List (Shift × Nat)
  deriving DecidableEq

def Output.ofPieces (pieces : List Piece) : Output :=
  let bits := (pieces.map Piece.bits).flatten
  { tms := bits.map Prod.fst, tdi := bits.map Prod.snd, slots := (pieces.map Piece.slots).flatten }

/-- `encode(ops)`, with the state the encoder is left in even when it raises. -/
def encode (st : EncoderState) (ops : List Op) : EncoderState × Except PyErr Output :=
  match emitOps st 0 ops with
  | (st, .error e) => (st, .error e)
  | (st, .ok pieces) => (st, .ok (Output.ofPieces pieces))

def Output.stream (out : Output) : List Tck := out.tms.zip out.tdi

def encodeCalls (st : EncoderState) : List (List Op) → EncoderState × Except PyErr (List Output)
  | [] => (st, .ok [])
  | ops :: calls =>
    match encode st ops with
    | (st, .error e) => (st, .error e)
    | (st, .ok out) =>
      match encodeCalls st calls with
      | (st, .error e) => (st, .error e)
      | (st, .ok outs) => (st, .ok (out :: outs))

end Encoder
end Acrobe.Jtag
