import Acrobe.Nsl.Wire
import Acrobe.Lib.Futures

/-!
# The continuous transport

Datagrams go to and come from a JTAG data register that is shifted in batches by a background worker.
A batch carries frames of the queued datagrams as far as the credit of the device allows.
-/

namespace Acrobe.Nsl
open LittleEndian Incremental BitString Futures

/-- One queued outgoing datagram; a part of it is still to be framed. -/
structure TxItem where
  data : Bytes
  sent : Nat
  future : Nat
  unfinished : sent < data.length

inductive Op where
  | send (data : Bytes)
  | recv
  | other (name : String)

/-- The future of an operation may be cancelled before its batch is flushed. -/
structure Posted where
  op : Op
  cancelled : Bool

/-- The worker is between two batches, waits for a shift with its local variables, or has stopped. -/
inductive Worker where
  | ready
  | shifting (tdi : Bytes) (sent : Nat) (done : List Nat)
  | stopped
  deriving DecidableEq

def Worker.done : Worker → List Nat
  | .shifting _ _ done => done
  | _ => []

def Worker.tdi : Worker → Bytes
  | .shifting tdi _ _ => tdi
  | _ => []

structure ContinuousTransport where
  preambleCount : Nat
  txBudget : Nat
  tdoPad : Nat
  padDirty : Bool
  padSettle : Nat
  rxCredit : Nat
  txQueue : List TxItem
  rxPartial : Bytes
  rxFrames : List Bytes
  recvWaiters : List Nat
  txLevel : Option Nat
  error : Option String
  worker : Worker
  futures : Table (Option Bytes) String

namespace ContinuousTransport

def tapTxLatency : Nat := 32
def tapRxLatency : Nat := 32
def serializerPadBits : Nat := 1

def start (preambleCount txBudget : Nat) : ContinuousTransport where
  preambleCount := max 2 preambleCount
  txBudget := txBudget
  tdoPad := (8 - serializerPadBits) % 8
  padDirty := true
  padSettle := 0
  rxCredit := 0
  txQueue := []
  rxPartial := []
  rxFrames := []
  recvWaiters := []
  txLevel := none
  error := none
  worker := .ready
  futures := []

def marginBytes (self : ContinuousTransport) : Nat := (tapTxLatency + 7) / 8 + self.preambleCount + 3

def rxFlushBytes : Nat := (tapRxLatency + 7) / 8 + 3

def settle (self : ContinuousTransport) (future : Nat) (status : Status (Option Bytes) String) : ContinuousTransport :=
  { self with futures := self.futures.settle future status }

/-! ### Posting -/

def handOut (self : ContinuousTransport) (cancelled : Bool) : ContinuousTransport :=
  { self with futures := self.futures ++ [if cancelled then .cancelled else .pending] }

def accept (self : ContinuousTransport) (future : Nat) : Op → ContinuousTransport
  | .send data =>
    if filled : 0 < data.length then
      { self with txQueue := self.txQueue ++ [{ data, sent := 0, future, unfinished := filled }] }
    else self.settle future
      (.exception "ContinuousTransport cannot send a zero-length datagram (no zero-byte frame on the wire)")
  | .recv =>
    match self.rxFrames with
    | frame :: frames =>
      if self.futures.Pending future then
        { self with rxFrames := frames, futures := self.futures.settle future (.result (some frame)) }
      else self
    | [] => { self with recvWaiters := self.recvWaiters ++ [future] }
  | .other name => self.settle future (.exception s!"ContinuousTransport: unsupported op {name}")

def flushOp (self : ContinuousTransport) (posted : Posted) : ContinuousTransport :=
  match self.error with
  | some text => (self.handOut posted.cancelled).settle self.futures.length (.exception text)
  | none => (self.handOut posted.cancelled).accept self.futures.length posted.op

def flushOps (self : ContinuousTransport) (batch : List Posted) : ContinuousTransport := batch.foldl flushOp self

/-! ### A batch -/

/-- What the drain of the queue adds to the buffer, and what it leaves. -/
structure Drained where
  buf : Bytes
  sent : Nat
  done : List Nat
  queue : List TxItem

def frameLength (item : TxItem) (allowance : Nat) : Nat :=
  min (min (item.data.length - item.sent) dataBytesMax) allowance

def dataFrame (item : TxItem) (n : Nat) : Bytes :=
  ((if item.sent + n = item.data.length then dataLastBit else 0) ||| UInt8.ofNat (n - 1)) ::
    (item.data.drop item.sent).take n

def drain : Nat → Nat → List TxItem → Drained
  | 0, _, queue => { buf := [], sent := 0, done := [], queue }
  | _ + 1, _, [] => { buf := [], sent := 0, done := [], queue := [] }
  | fuel + 1, allowance, item :: queue =>
    if allowance = 0 then { buf := [], sent := 0, done := [], queue := item :: queue }
    else
      let n := frameLength item allowance
      if unfinished : item.sent + n < item.data.length then
        let rest := drain fuel (allowance - n) ({ item with sent := item.sent + n, unfinished } :: queue)
        { rest with buf := dataFrame item n ++ rest.buf, sent := n + rest.sent }
      else
        let rest := drain fuel (allowance - n) queue
        { rest with
          buf := dataFrame item n ++ rest.buf
          sent := n + rest.sent
          done := item.future :: rest.done }

def drainQueue (self : ContinuousTransport) : Drained := drain self.rxCredit self.rxCredit self.txQueue

/-- The bytes in front of the data frames. -/
def lead (self : ContinuousTransport) : Bytes :=
  List.replicate self.preambleCount preamble ++ [sof] ++
    (if self.padDirty then [setPadBase ||| UInt8.ofNat (self.tdoPad % 8)] else []) ++
    [credit, UInt8.ofNat self.txBudget, UInt8.ofNat (self.txBudget >>> 8)]

def fill (self : ContinuousTransport) (buf : Bytes) : Bytes :=
  let target := max (buf.length + rxFlushBytes) (self.preambleCount + 1 + self.txBudget + self.marginBytes)
  buf ++ List.replicate (target - buf.length) idle

/-- The worker up to the shift. -/
def buildTdi (self : ContinuousTransport) : ContinuousTransport :=
  let drained := self.drainQueue
  let tdi := self.fill (self.lead ++ drained.buf)
  { self with
    padSettle := if self.padDirty then 1 else self.padSettle
    padDirty := false
    txQueue := drained.queue
    worker := .shifting tdi drained.sent drained.done }

def updateCredit (self : ContinuousTransport) (lastCredit : Option Nat) (sent : Nat) : ContinuousTransport :=
  { self with rxCredit := lastCredit.getD self.rxCredit - sent }

def parseFrame (parsed : ContinuousTransport × Option Nat) : Frame → ContinuousTransport × Option Nat
  | .data last bytes =>
    let self := parsed.1
    if last then
      ({ self with rxFrames := self.rxFrames ++ [self.rxPartial ++ bytes], rxPartial := [] }, parsed.2)
    else ({ self with rxPartial := self.rxPartial ++ bytes }, parsed.2)
  | .credit value => (parsed.1, some value)
  | .txLevel value => ({ parsed.1 with txLevel := some value }, parsed.2)
  | .ignored _ => parsed

/-- A frame that the end of the batch cuts is dropped. -/
def parseFrames (self : ContinuousTransport) (payload : Bytes) : ContinuousTransport × Option Nat :=
  (frames.read payload).items.foldl parseFrame (self, none)

def adjustPad (self : ContinuousTransport) (off : Nat) : ContinuousTransport :=
  let sub := off % 8
  if 0 < self.padSettle then { self with padSettle := self.padSettle - 1 }
  else if sub ≠ 0 then { self with tdoPad := (self.tdoPad + 8 - sub) % 8, padDirty := true }
  else self

def parseTdo (self : ContinuousTransport) (tdo : BitString) (sent : Nat) : ContinuousTransport :=
  match findSof tdo with
  | none => self.updateCredit none sent
  | some off =>
    let (self, lastCredit) := (self.adjustPad off).parseFrames (extractBytes tdo off)
    self.updateCredit lastCredit sent

/-- Frames go to the receivers that wait, in order; a cancelled receiver is dropped. -/
def dispatch : List Nat → List Bytes → Table (Option Bytes) String →
    List Nat × List Bytes × Table (Option Bytes) String
  | future :: waiters, frame :: frames, futures =>
    if futures.Pending future then dispatch waiters frames (futures.settle future (.result (some frame)))
    else dispatch waiters (frame :: frames) futures
  | waiters, frames, futures => (waiters, frames, futures)

def dispatchRx (self : ContinuousTransport) : ContinuousTransport :=
  let (recvWaiters, rxFrames, futures) := dispatch self.recvWaiters self.rxFrames self.futures
  { self with recvWaiters, rxFrames, futures }

/-- The worker from the return of the shift to the next batch. -/
def complete (self : ContinuousTransport) (tdo : BitString) : ContinuousTransport :=
  match self.worker with
  | .shifting _ sent done =>
    ({ self with futures := self.futures.settleAll done (.result none), worker := .ready }.parseTdo tdo sent).dispatchRx
  | _ => self

/-- `_fail`, when the shift raises. -/
def fail (self : ContinuousTransport) (text : String) : ContinuousTransport :=
  { self with
    error := some text
    futures := (self.futures.settleAll (self.txQueue.map TxItem.future) (.exception text)).settleAll
      self.recvWaiters (.exception text)
    txQueue := []
    recvWaiters := []
    worker := .stopped }

/-! ### Runs -/

inductive Event where
  | flush (batch : List Posted)
  | cancel (future : Nat)
  | shift
  | returned (tdo : BitString)
  | raised (text : String)

def step (self : ContinuousTransport) : Event → ContinuousTransport
  | .flush batch => self.flushOps batch
  | .cancel future => self.settle future .cancelled
  | .shift => if self.worker = .ready then self.buildTdi else self
  | .returned tdo => self.complete tdo
  | .raised text =>
    match self.worker with
    | .shifting _ _ _ => self.fail text
    | _ => self

def run (self : ContinuousTransport) (events : List Event) : ContinuousTransport := events.foldl step self

end ContinuousTransport

end Acrobe.Nsl
