import Acrobe.Ftdi.Operation
import Acrobe.Lib.DoubleDivision

/-!
# `MpsseEngine`

A batch becomes one command stream and one response read. Where the stream would clock for too long
with nothing to answer, the engine inserts a read of the pins, and drops its byte from the response.
-/

namespace Acrobe.Ftdi
open LittleEndian

/-- `KEEPALIVE_INTERVAL * base` is a whole number in double precision: a tenth of 12 or 60 MHz. -/
def keepaliveCycles (div5 : Bool) (divisor : Nat) : Nat :=
  max 8 ((DoubleDivision.quotient (if div5 then 1200000 else 6000000) (2 * divisor)).getD 0)

theorem keepaliveCycles_least (div5 : Bool) (divisor : Nat) : 8 ≤ keepaliveCycles div5 divisor := Nat.le_max_left ..

structure Engine where
  bracketPre : Bytes := []
  bracketPost : Bytes := []
  div5 : Bool := true
  divisor : Nat := 65536

/-- What stands in a command stream: the bytes of the brackets, operations, ranges of byte shifts,
and what the engine asks for itself. -/
inductive Command where
  | bracket (bytes : Bytes)
  | operation (op : Operation)
  | range (op : ShiftBytes) (start count : Nat)
  | getBitsLow
  | sendImmediate
  deriving DecidableEq

def Command.encode : Command → Bytes
  | .bracket bytes => bytes
  | .operation op => op.encode
  | .range op start count => op.encodeRange start count
  | .getBitsLow => [MpsseCmd.getBitsLow]
  | .sendImmediate => [MpsseCmd.sendImmediate]

/-- The locals of `flush_ops`; `commands` are those whose bytes are in `buf`. -/
structure CommandStream where
  commands : List Command
  filler : List Nat := []
  rspLen : Nat := 0
  clocked : Nat := 0

namespace CommandStream

def buf (st : CommandStream) : Bytes := st.commands.flatMap Command.encode

def keepalive (st : CommandStream) : CommandStream :=
  { commands := st.commands ++ [.getBitsLow, .sendImmediate], filler := st.filler ++ [st.rspLen],
    rspLen := st.rspLen + 1, clocked := 0 }

def emitRange (op : ShiftBytes) (step : Nat) (st : CommandStream) (start : Nat) : CommandStream :=
  let st := if st.clocked ≠ 0 then st.keepalive else st
  let count := min step (op.byteCount - start)
  { st with
    commands := st.commands ++ [.range op start count]
    rspLen := if op.read then st.rspLen + count else st.rspLen
    clocked := count * 8 }

/-- `range(0, stop, step)`. -/
def starts (stop step : Nat) : List Nat := (List.range ((stop + step - 1) / step)).map (step * ·)

def emitOp (st : CommandStream) (op : Operation) : CommandStream :=
  { st with
    commands := st.commands ++ [.operation op]
    rspLen := st.rspLen + op.rspSize
    clocked := st.clocked + op.cycleCount }

def lowerOp (budget : Nat) (st : CommandStream) (op : Operation) : CommandStream :=
  let st := if st.clocked ≠ 0 ∧ budget < st.clocked + op.cycleCount then st.keepalive else st
  match op with
  | .shiftBytes shift =>
    if budget < op.cycleCount then (starts shift.byteCount (budget / 8)).foldl (emitRange shift (budget / 8)) st
    else st.emitOp op
  | _ => st.emitOp op

def finish (bracketPost : Bytes) (st : CommandStream) : CommandStream :=
  let st := if bracketPost ≠ [] then { st with commands := st.commands ++ [.bracket bracketPost] } else st
  let st := if st.rspLen = st.filler.length then
      { st with
        commands := st.commands ++ [.getBitsLow]
        filler := st.filler ++ [st.rspLen]
        rspLen := st.rspLen + 1 }
    else st
  { st with commands := st.commands ++ [.sendImmediate] }

end CommandStream

namespace Engine

def setClock (engine : Engine) : Operation → Engine
  | .clockDiv5 enable => { engine with div5 := enable }
  | .clockDivisor divisor => { engine with divisor }
  | _ => engine

/-- The loop of `flush_ops`. `cycles` is `__keepalive_cycles`. -/
def lower (cycles : Bool → Nat → Nat) (engine : Engine) (st : CommandStream) : List Operation → Engine × CommandStream
  | [] => (engine, st)
  | op :: ops =>
    let engine := engine.setClock op
    lower cycles engine (st.lowerOp (cycles engine.div5 engine.divisor) op) ops

def opening (engine : Engine) : List Command := if engine.bracketPre ≠ [] then [.bracket engine.bracketPre] else []

def flushOps (cycles : Bool → Nat → Nat) (engine : Engine) (batch : List Operation) : Engine × CommandStream :=
  let (engine, st) := engine.lower cycles { commands := engine.opening } batch
  (engine, st.finish engine.bracketPost)

end Engine

/-! ### The response -/

/-- `__strip`. -/
def strip (data : Bytes) (start : Nat) : List Nat → Bytes
  | [] => data.drop start
  | offset :: offsets => (data.take offset).drop start ++ strip data (offset + 1) offsets

/-- What is handed to `rsp_handle` of each operation that expects a response. -/
def handled (data : Bytes) (offset : Nat) : List Operation → List (Option Bytes)
  | [] => []
  | op :: ops =>
    if op.rspSize ≠ 0 then some ((data.take (offset + op.rspSize)).drop offset) :: handled data (offset + op.rspSize) ops
    else none :: handled data offset ops

/-- `read_done`. -/
def readDone (data : Bytes) (filler : List Nat) (batch : List Operation) : List (Option Bytes) :=
  handled (if filler ≠ [] then strip data 0 filler else data) 0 batch

end Acrobe.Ftdi
