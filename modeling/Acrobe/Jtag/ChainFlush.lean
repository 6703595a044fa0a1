import Acrobe.Jtag.Chain
import Mathlib

/-!
# `Chain.flush_ops`

Translation of the operations of the TAPs of a chain into interface operations.
What each envelope posts is kept apart, with the way its future gets resolved.
-/

namespace Acrobe.Jtag
open BitString

structure TapShift where
  irValue : Option Nat
  tdi : Option BitString
  readTdo : Bool
  preDrRun : Nat := 0
  postDrRun : Nat := 0

inductive TapOp where
  | shift (op : TapShift)
  | irStatus
  | run (cycles : Nat)
  | other (typeName : String)

/-- What is posted to a chain: the envelope `TapOp(tap, op)`, or something else. -/
inductive Envelope where
  | tapOp (tap : Tap) (op : TapOp)
  | other (typeName : String)

/-- The fate of the future of an envelope: settled at once, or by the anchor at
an index of the operations of the batch, from a slice of its TDO or with `None`. -/
inductive Outcome where
  | rejected (error : PyErr)
  | settled
  | awaits (anchor : Nat) (slice : Option (Nat × Nat))

structure Entry where
  envelope : Envelope
  ops : List Op
  outcome : Outcome

namespace Chain

def padWith (pad : Nat → BitString) (pre : Int) (data : BitString) (post : Int) : BitString :=
  pad pre.toNat ++ data ++ pad post.toNat

/-- The other contexts are taken to hold BYPASS, enabled or not. -/
def invalidateIrCacheForShift (ch : Chain) (tap : Tap) (newIr : Nat) : Chain :=
  { ch with contexts := ch.contexts.map fun ctx =>
      { ctx with currentIr := some (if ctx.tap = tap then newIr else ctx.tap.bypass) } }

def irScan (ctx : Context) (value : Nat) (readTdo : Bool) : List Op :=
  [.captureIr, .shift { tdi := padWith ones ctx.irPre (ofNat value ctx.tap.irlen) ctx.irPost, readTdo }]

/-- The instruction a TapShift has to load first, unless it is there already. -/
def irToLoad (ctx : Context) (op : TapShift) : Option Nat :=
  if op.irValue = ctx.currentIr then none else op.irValue

def flushIr (ch : Chain) (ctx : Context) (op : TapShift) : Chain × List Op :=
  match irToLoad ctx op with
  | some value => (ch.invalidateIrCacheForShift ctx.tap value, irScan ctx value false)
  | none => (ch, [])

def idle (cycles : Nat) : List Op := if cycles ≠ 0 then [.run cycles] else []

def flushDr (ctx : Context) (op : TapShift) : List Op :=
  match op.tdi with
  | some tdi =>
    [.captureDr, .shift { tdi := padWith zeros ctx.drPre tdi ctx.drPost, readTdo := op.readTdo
                          postRun := op.postDrRun }]
  | none => idle op.postDrRun

def drSlice (ctx : Context) (op : TapShift) : Option (Nat × Nat) :=
  match op.tdi with
  | some tdi => if op.readTdo then some (ctx.drPre.toNat, tdi.length) else none
  | none => none

/-- `posted` is the number of operations posted so far for the batch. The
anchor is the last operation posted, if there is one. -/
def flushShift (ch : Chain) (posted : Nat) (ctx : Context) (op : TapShift) : Chain × List Op × Outcome :=
  let (ch, load) := ch.flushIr ctx op
  let ops := load ++ idle op.preDrRun ++ flushDr ctx op
  (ch, ops, if ops = [] then .settled else .awaits (posted + ops.length - 1) (drSlice ctx op))

def flushOp (ch : Chain) (posted : Nat) : Envelope → Chain × List Op × Outcome
  | .other typeName => (ch, [], .rejected (.typeError ("Chain expects TapOp, got " ++ typeName)))
  | .tapOp tap op =>
    match ch.context? tap with
    | none => (ch, [], .rejected (.valueError
        ("Tap " ++ quoted tap.name ++ " not registered in chain " ++ quoted ch.name)))
    | some ctx =>
      if ctx.enabled then
        match op with
        | .irStatus => (ch.invalidateIrCacheForShift tap tap.bypass, irScan ctx tap.bypass true,
            .awaits (posted + 1) (some (ctx.irPre.toNat, tap.irlen)))
        | .shift op => ch.flushShift posted ctx op
        | .run cycles => (ch, [.run cycles], .awaits posted none)
        | .other typeName => (ch, [], .rejected (.valueError ("Unknown tap op: " ++ typeName)))
      else (ch, [], .rejected (.runtimeError ("Tap " ++ quoted tap.name ++ " is detached from chain " ++
        quoted ch.name ++ "; reattach before posting ops")))

def flushOps (ch : Chain) (posted : Nat) : List Envelope → Chain × List Entry
  | [] => (ch, [])
  | envelope :: batch =>
    let (ch, ops, outcome) := ch.flushOp posted envelope
    let (ch, entries) := flushOps ch (posted + ops.length) batch
    (ch, { envelope, ops, outcome } :: entries)

def postedOps (entries : List Entry) : List Op := entries.flatMap Entry.ops

def flushBatches (ch : Chain) : List (List Envelope) → Chain × List Entry
  | [] => (ch, [])
  | batch :: batches =>
    let (ch, entries) := ch.flushOps 0 batch
    let (ch, rest) := flushBatches ch batches
    (ch, entries ++ rest)

end Chain
end Acrobe.Jtag

/-!
## Futures and callbacks of a batch

How results get from the interface back to the callers. The chain hangs one
callback on its last anchor, a TAP one on the last operation of each batch it
forwards. Completing a future appends its callbacks to the ready queue of the
event loop, which runs them in order.
-/

namespace Acrobe.Jtag
open BitString

inductive Future where
  | pending
  | result (value : Option BitString)
  | failed (error : PyErr)
  deriving DecidableEq

/-- A future set from `future.result()`, or from what that raises. -/
def Future.forwarded : Future → Future
  | .pending => .failed .invalidStateError
  | .result value => .result value
  | .failed error => .failed error

structure Posting where
  tap : Tap
  ops : List TapOp

def Posting.envelopes (posting : Posting) : List Envelope := posting.ops.map (.tapOp posting.tap)

inductive Callback where
  | chain
  | tap (first count : Nat)

/-- One batch of the chain: the postings in it, what was made of each envelope,
and the TDO of each operation posted. -/
structure Flight where
  postings : List Posting
  entries : List Entry
  tdo : Nat → BitString

def Chain.launch (ch : Chain) (postings : List Posting) (tdo : Nat → BitString) : Flight :=
  { postings, entries := (ch.flushOps 0 (postings.flatMap Posting.envelopes)).2, tdo }

/-- The futures of the interface operations, of the envelopes and of the callers,
each by its index in the batch. -/
structure Loop where
  bits : Nat → Future := fun _ => .pending
  tops : Nat → Future := fun _ => .pending
  users : Nat → Future := fun _ => .pending
  ready : List Callback := []

inductive Event where
  | complete (index : Nat)
  | tick

namespace Flight
variable (flight : Flight)

def spans : Nat → List Posting → List (Nat × Nat)
  | _, [] => []
  | first, posting :: postings => (first, posting.ops.length) :: spans (first + posting.ops.length) postings

/-- The callbacks `Tap.flush_ops` leaves on the future of an envelope. -/
def hooks (index : Nat) : List Callback :=
  (spans 0 flight.postings).filterMap fun (first, count) =>
    if 0 < count ∧ first + count = index + 1 then some (.tap first count) else none

def setTop (loop : Loop) (index : Nat) (future : Future) : Loop :=
  { loop with tops := Function.update loop.tops index future, ready := loop.ready ++ flight.hooks index }

/-- The futures `Chain.flush_ops` settles itself. -/
def settlements : List (Nat × Future) :=
  flight.entries.zipIdx.filterMap fun (entry, index) =>
    match entry.outcome with
    | .rejected error => some (index, .failed error)
    | .settled => some (index, .result none)
    | .awaits .. => none

def resolutions : List (Nat × Nat × Option (Nat × Nat)) :=
  flight.entries.zipIdx.filterMap fun (entry, index) =>
    match entry.outcome with
    | .awaits anchor slice => some (index, anchor, slice)
    | _ => none

def lastAnchor : Option Nat := flight.resolutions.getLast?.map fun (_, anchor, _) => anchor

def setTops (loop : Loop) (settled : List (Nat × Future)) : Loop :=
  settled.foldl (fun loop (index, future) => flight.setTop loop index future) loop

def start : Loop := flight.setTops {} flight.settlements

/-- `Chain.__resolve_batch`. -/
def resolveBatch (loop : Loop) : List (Nat × Nat × Option (Nat × Nat)) → Loop
  | [] => loop
  | (index, anchor, slice) :: rest =>
    if loop.tops index ≠ .pending then resolveBatch loop rest
    else
      match loop.bits anchor, slice with
      | .pending, _ => resolveBatch (flight.setTop loop index (.failed .invalidStateError)) rest
      | .failed error, _ => resolveBatch (flight.setTop loop index (.failed error)) rest
      | .result _, none => resolveBatch (flight.setTop loop index (.result none)) rest
      -- Neither `len` nor a slice of `None`: the callback raises.
      | .result none, some _ => loop
      | .result (some value), some (offset, length) =>
        let value := if offset = 0 ∧ length = value.length then value else value.slice offset (offset + length)
        resolveBatch (flight.setTop loop index (.result (some value))) rest

/-- `Tap.__resolve_batch`. -/
def resolveUsers (tops users : Nat → Future) (first count : Nat) : Nat → Future := fun index =>
  if first ≤ index ∧ index < first + count ∧ users index = .pending then (tops index).forwarded else users index

def answer (index : Nat) : Option BitString :=
  match (Chain.postedOps flight.entries)[index]? with
  | some (.shift s) => if s.readTdo then some (flight.tdo index) else none
  | _ => none

def call (loop : Loop) : Callback → Loop
  | .chain => flight.resolveBatch loop flight.resolutions
  | .tap first count => { loop with users := resolveUsers loop.tops loop.users first count }

def exec (loop : Loop) : Event → Loop
  | .complete index =>
    { loop with
      bits := Function.update loop.bits index (.result (flight.answer index))
      ready := loop.ready ++ if flight.lastAnchor = some index then [.chain] else [] }
  | .tick =>
    match loop.ready with
    | [] => loop
    | callback :: ready => flight.call { loop with ready } callback

def run (loop : Loop) (events : List Event) : Loop := events.foldl flight.exec loop

end Flight

def Event.completed (events : List Event) : List Nat :=
  events.filterMap fun
    | .complete index => some index
    | .tick => none

end Acrobe.Jtag
