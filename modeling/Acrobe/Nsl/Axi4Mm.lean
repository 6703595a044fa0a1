import Acrobe.Nsl.Axi4Codec
import Acrobe.Lib.Futures

/-!
# The AXI4 master over a datagram channel

Transactions wait in one queue for each response channel. A response resolves the transaction at the head
of the queue of its channel.
-/

namespace Acrobe.Nsl
open LittleEndian Futures

inductive Kind where
  | read
  | write
  deriving DecidableEq

def Kind.text : Kind → String
  | read => "read"
  | write => "write"

/-- One burst in flight and the future that it resolves. -/
structure Transaction where
  kind : Kind
  burst : Burst
  future : Nat

inductive AxiError where
  | response (kind : Kind) (addr resp : Nat)
  | protocol (text : String)
  | timeout (text : String)
  | transport (text : String)
  deriving DecidableEq

def respNames : List String := ["OKAY", "EXOKAY", "SLVERR", "DECERR"]

def AxiError.text : AxiError → String
  | response kind addr resp =>
    let name := respNames.getD resp ""
    s!"AXI {kind.text} burst at {hexText addr} answered {name}"
  | protocol text => text
  | timeout text => text
  | transport text => text

/-- What `start` has checked. -/
structure Axi4Setup where
  name : String
  codec : Axi4Codec
  prot : Nat
  maxBurst : Nat
  timeout : String
  protection : prot < 8
  bursting : 1 ≤ maxBurst ∧ maxBurst ≤ codec.maxLength

/-- A bus of 32-bit addresses and up to 16 beats, without optional fields. -/
def plainCodec (sizeL2 : Nat) : Axi4Codec where
  addressWidth := 32
  sizeL2
  idWidth := 0
  userWidth := 0
  lenWidth := 4
  hasSize := false
  hasBurst := false
  hasCache := false
  hasLock := false
  hasQos := false
  hasRegion := false
  addressable := by decide
  burstable := by decide

def plainSetup (sizeL2 : Nat) : Axi4Setup where
  name := "nsl_axi4_mm"
  codec := plainCodec sizeL2
  prot := 0
  maxBurst := 16
  timeout := "1.0"
  protection := by decide
  bursting := show 1 ≤ 16 ∧ 16 ≤ 1 <<< 4 by decide

structure Axi4Mm where
  setup : Axi4Setup
  id : Nat
  pendingB : List Transaction
  pendingR : List Transaction
  futures : Table (Option Bytes) AxiError

/-! ### Responses -/

structure Response where
  resp : Nat
  id : Nat
  beats : Option (List Axi4Codec.ReadBeat)

def maxResp (beats : List Axi4Codec.ReadBeat) : Nat := beats.foldl (fun resp beat => max resp beat.resp) 0

def Axi4Codec.response (codec : Axi4Codec) (payload : Bytes) : Kind → Except String Response
  | .write => do
    let (resp, id) ← codec.writeResponse payload
    .ok { resp, id, beats := none }
  | .read => do
    let beats ← codec.readData payload
    .ok { resp := maxResp beats, id := (beats.head?.map ReadBeat.id).getD 0, beats := some beats }

def Transaction.outcome (txn : Transaction) (response : Response) : Status (Option Bytes) AxiError :=
  if Axi4Codec.respSlverr ≤ response.resp then .exception (.response txn.kind txn.burst.addr response.resp)
  else match response.beats with
    | none => .result none
    | some beats =>
      if beats.length ≠ txn.burst.beats then
        .exception (.protocol (s!"read burst at {hexText txn.burst.addr}: {beats.length} beats returned, " ++
          s!"{txn.burst.beats} expected"))
      else .result (some (beats.flatMap Axi4Codec.ReadBeat.data))

def channelKind (channel : UInt8) : Option Kind :=
  if channel = Axi4Codec.chB then some .write
  else if channel = Axi4Codec.chR then some .read
  else none

namespace Axi4Mm

def start (setup : Axi4Setup) (id : Nat) : Axi4Mm :=
  { setup, id, pendingB := [], pendingR := [], futures := [] }

def queue (self : Axi4Mm) : Kind → List Transaction
  | .write => self.pendingB
  | .read => self.pendingR

def withQueue (self : Axi4Mm) (queue : List Transaction) : Kind → Axi4Mm
  | .write => { self with pendingB := queue }
  | .read => { self with pendingR := queue }

def settle (self : Axi4Mm) (future : Nat) (status : Status (Option Bytes) AxiError) : Axi4Mm :=
  { self with futures := self.futures.settle future status }

/-! ### Sending -/

def requestFrames (self : Axi4Mm) (kind : Kind) (burst : Burst) (data : Bytes) : Except String (List Bytes) :=
  let codec := self.setup.codec
  match kind with
  | .write => do
    let (lanes, strobes) := codec.writeLanes burst data
    let address ← codec.address Axi4Codec.chAw burst.addr burst.beats self.id self.setup.prot
    let data ← codec.writeData lanes strobes
    .ok [address, data]
  | .read => do
    let address ← codec.address Axi4Codec.chAr burst.addr burst.beats self.id self.setup.prot
    .ok [address]

/-- The transaction is in its queue before its frames are built and sent. -/
def issue (self : Axi4Mm) (kind : Kind) (burst : Burst) (data : Bytes) : Axi4Mm × Except String (List Bytes) :=
  let txn : Transaction := { kind, burst, future := self.futures.length }
  let self : Axi4Mm := { self with futures := self.futures ++ [.pending] }
  (self.withQueue (self.queue kind ++ [txn]) kind, self.requestFrames kind burst data)

/-- The send of a frame has failed. -/
def onSent (self : Axi4Mm) (txn : Transaction) (exc : AxiError) : Axi4Mm := self.settle txn.future (.exception exc)

/-! ### Failures -/

def failPending (self : Axi4Mm) (exc : AxiError) : Axi4Mm :=
  { self with
    pendingB := []
    pendingR := []
    futures := (self.futures.settleAll (self.pendingB.map Transaction.future) (.exception exc)).settleAll
      (self.pendingR.map Transaction.future) (.exception exc) }

def moveId (self : Axi4Mm) : Axi4Mm :=
  if self.setup.codec.idWidth = 0 then self else { self with id := (self.id + 1) % 2 ^ self.setup.codec.idWidth }

/-- `wait`, when no response comes in time. -/
def timedOut (self : Axi4Mm) (txn : Transaction) : Axi4Mm :=
  (self.failPending (.timeout (s!"{self.setup.name}: no response to {txn.kind.text} burst at " ++
    s!"{hexText txn.burst.addr} within {self.setup.timeout} s"))).moveId

def onResponse (self : Axi4Mm) (kind : Kind) (payload : Bytes) : Axi4Mm :=
  match self.queue kind with
  | [] => self
  | txn :: queue =>
    match self.setup.codec.response payload kind with
    | .error text => (self.withQueue queue kind).settle txn.future (.exception (.protocol text))
    | .ok response =>
      if response.id ≠ self.id then self
      else (self.withQueue queue kind).settle txn.future (txn.outcome response)

def onFrame (self : Axi4Mm) : Bytes → Axi4Mm
  | [] => self
  | channel :: payload =>
    match channelKind channel with
    | none => self
    | some kind => self.onResponse kind payload

end Axi4Mm

end Acrobe.Nsl
