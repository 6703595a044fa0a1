import Acrobe.Nsl.ContinuousTransport
import Mathlib

/-!
# The device behind the continuous transport

The block in the FPGA is not part of the repository: what the driver relies on is stated here. In each
batch the device reads the frames behind the lock of TDI, up to the latency of its receiver, and stores
the data bytes in a FIFO. On TDO it sends frames of its own, the free space of the FIFO among them.
-/

namespace Acrobe.Nsl
open LittleEndian Incremental BitString

/-- Bytes on the wire, LSB first. -/
def bitsOf (bytes : Bytes) : BitString := bytes.flatMap fun byte => BitString.ofNat byte.toNat 8

/-- The bit search of a deserializer. -/
def findLock (bits : BitString) : Option Nat :=
  ((List.range bits.length).find? fun k => k + 16 ≤ bits.length ∧ slice bits k (k + 16) = sync).map (· + 16)

/-! ### Reassembly -/

structure Assembly where
  done : List Bytes
  rest : Bytes
  deriving DecidableEq

def Assembly.accept (self : Assembly) : Frame → Assembly
  | .data last bytes =>
    if last then { done := self.done ++ [self.rest ++ bytes], rest := [] }
    else { self with rest := self.rest ++ bytes }
  | _ => self

def Assembly.acceptAll (self : Assembly) (frames : List Frame) : Assembly := frames.foldl accept self

def Frame.dataBytes : Frame → Nat
  | .data _ bytes => bytes.length
  | _ => 0

def Frame.credits : Frame → List Nat
  | .credit value => [value]
  | _ => []

/-! ### The FIFO -/

inductive FifoAct where
  | store
  | take
  | advertise (value : Nat)

def FifoAct.stores : FifoAct → Nat
  | store => 1
  | _ => 0

def FifoAct.credits : FifoAct → List Nat
  | advertise value => [value]
  | _ => []

/-- A FIFO with its number of occupied bytes; `overflow` records that a byte came when it was full. -/
structure Fifo where
  capacity : Nat
  level : Nat
  overflow : Bool

/-- What is advertised is the free space at that moment. -/
inductive FifoRun : Fifo → List FifoAct → Fifo → Prop where
  | nil (fifo : Fifo) : FifoRun fifo [] fifo
  | store {fifo last : Fifo} {acts : List FifoAct}
      (later : FifoRun { fifo with
        level := fifo.level + 1, overflow := fifo.overflow || fifo.level ≥ fifo.capacity } acts last) :
      FifoRun fifo (.store :: acts) last
  | take {fifo last : Fifo} {acts : List FifoAct} (filled : 0 < fifo.level)
      (later : FifoRun { fifo with level := fifo.level - 1 } acts last) : FifoRun fifo (.take :: acts) last
  | advertise {fifo last : Fifo} {acts : List FifoAct} {value : Nat} (free : value = fifo.capacity - fifo.level)
      (later : FifoRun fifo acts last) : FifoRun fifo (.advertise value :: acts) last

/-! ### A batch -/

structure Peer where
  fifo : Fifo
  received : Assembly
  sent : Assembly

/-- The frames that the device reads when the last `lost` bits of a batch stay in its receiver. -/
def framesOf (tdi : Bytes) (lost : Nat) : List Frame :=
  let bits := (bitsOf tdi).take ((bitsOf tdi).length - lost)
  match findLock bits with
  | none => []
  | some off => (frames.read (extractBytes bits off)).items

/-- TDO is locked at its head, and carries whole frames up to a frame without data that the end of the
batch may cut. -/
structure Carries (tdo : BitString) (sent : List Frame) : Prop where
  stream : ∃ head body cut tail, tdo = head ++ bitsOf (body ++ cut) ++ tail ∧ tail.length < 8 ∧
    findSof tdo = some head.length ∧ frames.Reads body sent ∧ frames.Settled cut

/-- As many bits come back as are shifted. -/
structure Exchange (peer : Peer) (tdi : Bytes) (tdo : BitString) (next : Peer) : Prop where
  whole : tdo.length = 8 * tdi.length
  batch : ∃ lost sent acts, lost ≤ ContinuousTransport.tapRxLatency ∧ Carries tdo sent ∧
    FifoRun peer.fifo acts next.fifo ∧
    (acts.map FifoAct.stores).sum = ((framesOf tdi lost).map Frame.dataBytes).sum ∧
    acts.flatMap FifoAct.credits = sent.flatMap Frame.credits ∧
    next.received = peer.received.acceptAll (framesOf tdi lost) ∧ next.sent = peer.sent.acceptAll sent

/-! ### The link -/

structure Link where
  host : ContinuousTransport
  peer : Peer
  posted : List Bytes

/-- The datagrams that a batch of operations posts. -/
def datagrams (batch : List Posted) : List Bytes :=
  batch.filterMap fun posted =>
    match posted.op with
    | .send data => if data = [] then none else some data
    | _ => none

inductive Link.Step : Link → Link → Prop where
  | flush (link : Link) (batch : List Posted) :
      Step link { link with host := link.host.flushOps batch, posted := link.posted ++ datagrams batch }
  | cancel (link : Link) (future : Nat) : Step link { link with host := link.host.settle future .cancelled }
  | shift (link : Link) (ready : link.host.worker = .ready) : Step link { link with host := link.host.buildTdi }
  | returned (link : Link) {tdi : Bytes} {sent : Nat} {done : List Nat} {tdo : BitString} {next : Peer}
      (shifting : link.host.worker = .shifting tdi sent done) (exchange : Exchange link.peer tdi tdo next) :
      Step link { link with host := link.host.complete tdo, peer := next }

def Link.start (preambleCount txBudget : Nat) (capacity level : Nat) : Link where
  host := .start preambleCount txBudget
  peer := { fifo := { capacity, level, overflow := false }, received := ⟨[], []⟩, sent := ⟨[], []⟩ }
  posted := []

def Link.Reachable (preambleCount txBudget capacity level : Nat) : Link → Prop :=
  Relation.ReflTransGen Step (start preambleCount txBudget capacity level)

end Acrobe.Nsl
