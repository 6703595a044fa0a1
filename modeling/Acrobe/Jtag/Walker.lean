import Acrobe.Jtag.Device

/-!
# `JtagTmsWalker`

The inverse of the encoder: a TMS/TDI stream is walked bit by bit and turned
back into interface operations, and the TDO of the Shifts is laid out along
the stream.
-/

namespace Acrobe.Jtag
open BitString

/-- The states of the walker, which does not tell the two columns apart. -/
inductive WalkerState where
  | tlr | rti | selDr | selIr | capture | shift | exit1 | pause | exit2 | update
  deriving DecidableEq

/-- `NEXT_STATE[tms][state]`. -/
def WalkerState.next : WalkerState → Bool → WalkerState
  | .tlr, false => .rti
  | .rti, false => .rti
  | .selDr, false => .capture
  | .selIr, false => .capture
  | .capture, false => .shift
  | .shift, false => .shift
  | .exit1, false => .pause
  | .pause, false => .pause
  | .exit2, false => .shift
  | .update, false => .rti
  | .tlr, true => .tlr
  | .rti, true => .selDr
  | .selDr, true => .selIr
  | .selIr, true => .tlr
  | .capture, true => .exit1
  | .shift, true => .exit1
  | .exit1, true => .update
  | .pause, true => .exit2
  | .exit2, true => .update
  | .update, true => .selDr

structure Walker where
  state : WalkerState := .tlr
  inIr : Bool := false

namespace Walker

/-- The locals of `process`. The interface executes operations in the order they
are posted and the loop reads no result, so an operation is executed on
the device as it is posted; `slots` holds the TDO of a Shift and its range. -/
structure Loop (σ : Type) where
  walker : Walker
  device : σ
  shiftStart : Option Nat
  runStart : Option Nat
  ops : List Op := []
  slots : List (BitString × Nat × Nat) := []

variable {σ : Type} (dev : Device σ)

def Loop.post (lp : Loop σ) (op : Op) : Loop σ :=
  { lp with device := (dev.exec lp.device op).1, ops := lp.ops ++ [op] }

def Loop.postShift (lp : Loop σ) (tdi : BitString) (start stop : Nat) : Loop σ :=
  let op := Op.shift { tdi := slice tdi start stop }
  { lp.post dev op with slots := lp.slots ++ [((dev.exec lp.device op).2, start, stop)] }

def leaveShift (tdi : BitString) (i : Nat) (next : WalkerState) (lp : Loop σ) : Loop σ :=
  if lp.walker.state = .shift ∧ next ≠ .shift then
    { lp.postShift dev tdi (lp.shiftStart.getD 0) (i + 1) with shiftStart := none }
  else lp

def leaveRti (i : Nat) (next : WalkerState) (lp : Loop σ) : Loop σ :=
  match lp.runStart with
  | some start =>
    if lp.walker.state = .rti ∧ next ≠ .rti then
      { (if i - start > 0 then lp.post dev (.run (i - start)) else lp) with runStart := none }
    else lp
  | none => lp

def leaveTlr (next : WalkerState) (lp : Loop σ) : Loop σ :=
  if lp.walker.state = .tlr ∧ next ≠ .tlr then lp.post dev .resetDefault else lp

def enterCapture (next : WalkerState) (lp : Loop σ) : Loop σ :=
  if next = .capture then
    let inIr := decide (lp.walker.state = .selIr)
    { lp.post dev (if inIr then .captureIr else .captureDr) with walker := { lp.walker with inIr } }
  else lp

def enterShift (i : Nat) (next : WalkerState) (lp : Loop σ) : Loop σ :=
  if next = .shift ∧ lp.walker.state ≠ .shift then { lp with shiftStart := some (i + 1) } else lp

def enterRti (i : Nat) (next : WalkerState) (lp : Loop σ) : Loop σ :=
  if next = .rti ∧ lp.walker.state ≠ .rti then { lp with runStart := some i } else lp

def Loop.step (tdi : BitString) (i : Nat) (tms : Bool) (lp : Loop σ) : Loop σ :=
  let next := lp.walker.state.next tms
  let lp := leaveShift dev tdi i next lp
  let lp := leaveRti dev i next lp
  let lp := leaveTlr dev next lp
  let lp := enterCapture dev next lp
  let lp := enterShift i next lp
  let lp := enterRti i next lp
  { lp with walker := { lp.walker with state := next } }

def Loop.run (tdi : BitString) (i : Nat) : BitString → Loop σ → Loop σ
  | [], lp => lp
  | tms :: rest, lp => Loop.run tdi (i + 1) rest (lp.step dev tdi i tms)

/-- The end of input: a Shift or an idle run still open is posted as far as it goes. -/
def Loop.flush (tdi : BitString) (n : Nat) (lp : Loop σ) : Loop σ :=
  let lp := match lp.walker.state, lp.shiftStart with
    | .shift, some start => if start < n then lp.postShift dev tdi start n else lp
    | _, _ => lp
  match lp.walker.state, lp.runStart with
  | .rti, some start => if start < n then lp.post dev (.run (n - start)) else lp
  | _, _ => lp

def gather (tdo : BitString) (cursor : Nat) : List (BitString × Nat × Nat) → BitString × Nat
  | [] => (tdo, cursor)
  | (result, start, stop) :: slots =>
    gather (tdo ++ zeros (start - cursor) ++ result) stop slots

def assemble (n : Nat) (slots : List (BitString × Nat × Nat)) : BitString :=
  let (tdo, cursor) := gather [] 0 slots
  tdo ++ zeros (n - cursor)

structure Processed (σ : Type) where
  walker : Walker
  device : σ
  ops : List Op
  tdo : BitString

def start (w : Walker) (s : σ) : Loop σ where
  walker := w
  device := s
  shiftStart := if w.state = .shift then some 0 else none
  runStart := if w.state = .rti then some 0 else none

def process (w : Walker) (s : σ) (tms tdi : BitString) : Except PyErr (Processed σ) :=
  if tms.length ≠ tdi.length then
    .error (.valueError ("tms/tdi length mismatch: " ++ toString tms.length ++ " vs " ++ toString tdi.length))
  else if tms.length = 0 then
    .ok { walker := w, device := s, ops := [], tdo := [] }
  else
    let lp := ((start w s).run dev tdi 0 tms).flush dev tdi tms.length
    .ok { walker := lp.walker, device := lp.device, ops := lp.ops, tdo := assemble tms.length lp.slots }

def processCalls (w : Walker) (s : σ) : List (BitString × BitString) → Except PyErr (Processed σ)
  | [] => .ok { walker := w, device := s, ops := [], tdo := [] }
  | (tms, tdi) :: calls =>
    match process dev w s tms tdi with
    | .error e => .error e
    | .ok first =>
      match processCalls first.walker first.device calls with
      | .error e => .error e
      | .ok rest => .ok { rest with ops := first.ops ++ rest.ops, tdo := first.tdo ++ rest.tdo }

end Walker
end Acrobe.Jtag
