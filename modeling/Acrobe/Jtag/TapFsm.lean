import Acrobe.Prelude
import Acrobe.Lib.Machine

/-!
# Interface operations

The operations a `JtagInterface` accepts, and what they amount to once
adjacent idle runs and adjacent shifts are no longer told apart.
-/

namespace Acrobe.Jtag

structure Shift where
  tdi : BitString
  readTdo : Bool := true
  postRun : Nat := 0
  deriving DecidableEq

inductive Op where
  | reset (count : Nat)
  | swdToJtag
  | run (cycles : Nat)
  | captureDr
  | captureIr
  | shift (shift : Shift)
  | other (typeName : String)
  deriving DecidableEq

def Op.resetDefault : Op := .reset 5

def resetTms (count : Nat) : BitString := BitString.ones (max count 5)

def swdToJtagTms : BitString :=
  BitString.ones 50 ++ BitString.ofNat 0xe73c 16 ++ BitString.ones 5

inductive Column where
  | dr | ir
  deriving DecidableEq

end Acrobe.Jtag

/-!
## The test access port controller

The sixteen states of the IEEE 1149.1 controller, and what a device observes
of a clocked TMS/TDI stream: the bits it shifts, the captures, the clocks that
land in Run-Test/Idle and each departure from Test-Logic-Reset.
-/

namespace Acrobe.Jtag
open Lib

inductive TapState where
  | tlr | rti | selDr | selIr
  | capture (c : Column) | shift (c : Column) | exit1 (c : Column)
  | pause (c : Column) | exit2 (c : Column) | update (c : Column)
  deriving DecidableEq

/-- One test clock: the levels of TMS and TDI on its rising edge. -/
abbrev Tck := Bool × Bool

namespace TapState

def next : TapState → Bool → TapState
  | .tlr, false => .rti
  | .tlr, true => .tlr
  | .rti, false => .rti
  | .rti, true => .selDr
  | .selDr, false => .capture .dr
  | .selDr, true => .selIr
  | .selIr, false => .capture .ir
  | .selIr, true => .tlr
  | .capture c, false => .shift c
  | .capture c, true => .exit1 c
  | .shift c, false => .shift c
  | .shift c, true => .exit1 c
  | .exit1 c, false => .pause c
  | .exit1 c, true => .update c
  | .pause c, false => .pause c
  | .pause c, true => .exit2 c
  | .exit2 c, false => .shift c
  | .exit2 c, true => .update c
  | .update _, false => .rti
  | .update _, true => .selDr

end TapState

inductive TapEvent where
  | leaveReset
  | idle
  | capture (c : Column)
  | shift (c : Column) (tdi : Bool)
  deriving DecidableEq

/-- A clock shifts when its edge finds the controller in Shift; the other
events belong to the state the edge leads to. -/
def TapState.events (s : TapState) (t : Tck) : List TapEvent :=
  match s, s.next t.1 with
  | .shift c, _ => [.shift c t.2]
  | .tlr, .rti => [.leaveReset, .idle]
  | _, .rti => [.idle]
  | _, .capture c => [.capture c]
  | _, _ => []

def tapFsm : Machine TapState Tck (List TapEvent) where
  step s t := (s.next t.1, s.events t)

namespace TapState

def clock (s : TapState) (bits : List Tck) : TapState := tapFsm.finish s bits

def trace (s : TapState) (bits : List Tck) : List TapEvent := (tapFsm.outputs s bits).flatten

@[simp] theorem clock_cons (s : TapState) (t : Tck) (bits : List Tck) :
    s.clock (t :: bits) = (s.next t.1).clock bits := rfl

theorem clock_append (s : TapState) (xs ys : List Tck) :
    s.clock (xs ++ ys) = (s.clock xs).clock ys := tapFsm.finish_append s xs ys

@[simp] theorem trace_nil (s : TapState) : s.trace [] = [] := rfl

@[simp] theorem trace_cons (s : TapState) (t : Tck) (bits : List Tck) :
    s.trace (t :: bits) = s.events t ++ (s.next t.1).trace bits := rfl

theorem trace_append (s : TapState) (xs ys : List Tck) :
    s.trace (xs ++ ys) = s.trace xs ++ (s.clock xs).trace ys := by
  simp only [trace, tapFsm.outputs_append, List.flatten_append, clock]

def traces (s : TapState) : List (List Tck) → List (List TapEvent)
  | [] => []
  | bits :: rest => s.trace bits :: traces (s.clock bits) rest

theorem flatten_traces (s : TapState) (parts : List (List Tck)) :
    (s.traces parts).flatten = s.trace parts.flatten := by
  induction parts generalizing s with
  | nil => rfl
  | cons bits rest ih => rw [traces, List.flatten_cons, List.flatten_cons, ih, trace_append]

/-! ### Long stretches -/

def hold (tms : Bool) (tdi : BitString) : List Tck := tdi.map fun b => (tms, b)

theorem clock_shift_hold (c : Column) (tdi : BitString) :
    (shift c).clock (hold false tdi) = shift c := by
  induction tdi with
  | nil => rfl
  | cons b tdi ih => exact ih

theorem trace_shift_hold (c : Column) (tdi : BitString) :
    (shift c).trace (hold false tdi) = tdi.map (.shift c) := by
  induction tdi with
  | nil => rfl
  | cons b tdi ih => exact congrArg (TapEvent.shift c b :: ·) ih

theorem clock_rti_hold (tdi : BitString) : rti.clock (hold false tdi) = rti := by
  induction tdi with
  | nil => rfl
  | cons b tdi ih => exact ih

theorem trace_rti_hold (tdi : BitString) :
    rti.trace (hold false tdi) = List.replicate tdi.length .idle := by
  induction tdi with
  | nil => rfl
  | cons b tdi ih => exact congrArg (TapEvent.idle :: ·) ih

theorem clock_tlr_hold (tdi : BitString) : tlr.clock (hold true tdi) = tlr := by
  induction tdi with
  | nil => rfl
  | cons b tdi ih => exact ih

theorem trace_tlr_hold (tdi : BitString) : tlr.trace (hold true tdi) = [] := by
  induction tdi with
  | nil => rfl
  | cons b tdi ih => exact ih

end TapState
end Acrobe.Jtag
