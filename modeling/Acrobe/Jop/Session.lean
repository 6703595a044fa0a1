import Acrobe.Jop.Bytestream
import Acrobe.Jtag.Walker

/-!
# The JoP session

Packets from the host are decoded into operations. Scans go through the TMS walker, and the TDO bits
of the open capture window are packed into bytes and sent back.
-/

namespace Acrobe.Jop
open LittleEndian Incremental BitString Jtag Lib

/-! ### Packing of captured bits -/

structure JopEncoder where
  byte : Nat
  bitPos : Nat

namespace JopEncoder

def start : JopEncoder := { byte := 0, bitPos := 0 }

def emitBit (self : JopEncoder) (bit : Bool) : JopEncoder × Bytes :=
  let byte := self.byte ||| bit.toNat <<< self.bitPos
  let bitPos := self.bitPos + 1
  if bitPos = 8 then (start, [UInt8.ofNat byte]) else ({ byte, bitPos }, [])

def packer : Machine JopEncoder Bool Bytes where
  step := emitBit

/-- The bytes, and where in them the end of packet is marked. -/
def emitWindow (self : JopEncoder) (tdo : BitString) (eop : Bool) : JopEncoder × Bytes × List Nat :=
  let out := (packer.outputs self tdo).flatten
  let self := packer.finish self tdo
  if eop then
    let (self, out) := if 0 < self.bitPos then (start, out ++ [UInt8.ofNat self.byte]) else (self, out)
    (self, out, if out ≠ [] then [out.length - 1] else [])
  else (self, out, [])

def flush (self : JopEncoder) : JopEncoder × Bytes :=
  if self.bitPos = 0 then (self, []) else (start, [UInt8.ofNat self.byte])

end JopEncoder

/-! ### The session -/

structure H2tPacket where
  sop : Bool
  eop : Bool
  connId : Nat
  channel : Nat
  payload : Bytes

structure Session (σ : Type) where
  walker : Walker
  device : σ
  decoder : JopDecoder
  encoder : JopEncoder
  captureFifo : List PushTdoCapture
  headRemaining : Nat
  eopPending : Bool
  serverLoopback : Bool
  hwLoopback : Bool

inductive Event where
  | executed (op : Op)
  | sent (packet : H2tPacket)
  | decoderError (text : String) (payload : Bytes)

/-- Where the answer to a packet goes. -/
structure Route where
  channel : Nat
  connId : Nat

/-- The variables of the loop over the TDO bits of a scan. -/
structure Capture where
  encoder : JopEncoder
  captureFifo : List PushTdoCapture
  headRemaining : Nat
  out : Bytes
  anyEop : Bool
  capturedBits : BitString

namespace Capture

def keep (lp : Capture) (head : PushTdoCapture) (tdo : Bool) : Capture :=
  if head.tdoEnable then { lp with capturedBits := lp.capturedBits ++ [tdo] } else lp

def close (lp : Capture) (head : PushTdoCapture) : Capture :=
  if lp.capturedBits ≠ [] ∧ head.tdoEnable then
    let (encoder, chunk, _) := lp.encoder.emitWindow lp.capturedBits head.eopGen
    { lp with encoder, out := lp.out ++ chunk, capturedBits := [] }
  else lp

def firstDuration : List PushTdoCapture → Nat
  | [] => 0
  | head :: _ => head.duration

/-- `none` is the `IndexError` of an empty FIFO. -/
def bit (lp : Capture) (tdo : Bool) : Option Capture :=
  if lp.headRemaining = 0 then some lp
  else
    match lp.captureFifo with
    | [] => none
    | head :: rest =>
      let remaining := lp.headRemaining - 1
      let lp := lp.keep head tdo
      if remaining = 0 then
        let lp := lp.close head
        some { lp with anyEop := lp.anyEop || head.eopGen, captureFifo := rest, headRemaining := firstDuration rest }
      else some { lp with headRemaining := remaining }

/-- The bits of a window that is still open are held in the encoder. -/
def drain (lp : Capture) : Capture :=
  if lp.capturedBits ≠ [] then
    let (encoder, chunk, _) := lp.encoder.emitWindow lp.capturedBits false
    { lp with encoder, out := lp.out ++ chunk, capturedBits := [] }
  else lp

end Capture

namespace Session

variable {σ : Type} (dev : Device σ)

def start (walker : Walker) (device : σ) : Session σ where
  walker := walker
  device := device
  decoder := .start
  encoder := .start
  captureFifo := []
  headRemaining := 0
  eopPending := false
  serverLoopback := false
  hwLoopback := false

def loopbackActive (self : Session σ) : Bool := self.serverLoopback || self.hwLoopback

def sendT2h (payload : Bytes) (route : Route) (eop : Bool) : H2tPacket where
  sop := true
  eop := eop
  connId := route.connId
  channel := route.channel
  payload := payload

/-- The loop over the TDO bits, and the packet that is sent at its end. -/
def capture (self : Session σ) (tdo : BitString) (route : Route) : Option (Session σ × List H2tPacket) := do
  let lp ← tdo.foldlM Capture.bit
    { encoder := self.encoder, captureFifo := self.captureFifo, headRemaining := self.headRemaining
      out := [], anyEop := false, capturedBits := [] }
  let lp := lp.drain
  some ({ self with encoder := lp.encoder, captureFifo := lp.captureFifo, headRemaining := lp.headRemaining },
    if lp.out ≠ [] then [sendT2h lp.out route lp.anyEop] else [])

/-- The equal lengths of `Shift` leave the walker no error to raise. -/
def doShift (self : Session σ) (scan : Shift) (route : Route) : Option (Session σ × List H2tPacket) :=
  match self.walker.process dev self.device scan.tms scan.tdi with
  | .error _ => none
  | .ok done => { self with walker := done.walker, device := done.device }.capture done.tdo route

def pushCapture (self : Session σ) (op : PushTdoCapture) : Session σ :=
  let fifo := if tdoFifoDepth ≤ self.captureFifo.length then self.captureFifo.tail else self.captureFifo
  let self := { self with captureFifo := fifo ++ [op] }
  if self.headRemaining = 0 then { self with headRemaining := Capture.firstDuration self.captureFifo } else self

def dispatchOp (self : Session σ) (op : Op) (route : Route) : Option (Session σ × List H2tPacket) :=
  match op with
  | .retrieveInfo => some (self, [sendT2h [configInfoResponseByte] route true])
  | .resetTdoFifo => some ({ self with captureFifo := [], headRemaining := 0, eopPending := false }, [])
  | .pushTdoCapture capture => some (self.pushCapture capture, [])
  | .shift scan => self.doShift dev scan route

def dispatchAll (self : Session σ) : List (Op × Route) → Option (Session σ × List Event)
  | [] => some (self, [])
  | (op, route) :: ops => do
    let (self, sent) ← self.dispatchOp dev op route
    let (self, later) ← dispatchAll self ops
    some (self, .executed op :: sent.map .sent ++ later)

/-- One packet of the H2T loop: an error of the decoder resets it, and the loop goes on. -/
def receive (self : Session σ) (pkt : H2tPacket) : Option (Session σ × List Event) :=
  if self.loopbackActive then some (self, [.sent pkt])
  else
    match self.decoder.feed pkt.payload with
    | (.error text, _) => some ({ self with decoder := .start }, [.decoderError text pkt.payload])
    | (.ok ops, decoder) =>
      dispatchAll dev { self with decoder } (ops.map fun op => (op, { channel := pkt.channel, connId := pkt.connId }))

def h2tLoop (self : Session σ) : List H2tPacket → Option (Session σ × List Event)
  | [] => some (self, [])
  | pkt :: pkts => do
    let (self, events) ← self.receive dev pkt
    let (self, later) ← h2tLoop self pkts
    some (self, events ++ later)

def idle : Device Unit := { step := fun device _ => (device, false) }

/-! ### No operation is refused -/

/-- Bits remain only in an entry that waits. -/
def Valid (self : Session σ) : Prop := self.captureFifo = [] → self.headRemaining = 0

end Session

namespace Capture

@[simp] theorem keep_captureFifo (lp : Capture) (head : PushTdoCapture) (tdo : Bool) :
    (lp.keep head tdo).captureFifo = lp.captureFifo := by
  unfold keep
  split <;> rfl

def Valid (lp : Capture) : Prop := lp.captureFifo = [] → lp.headRemaining = 0

theorem bit_valid {lp : Capture} (valid : lp.Valid) (tdo : Bool) : ∃ next, lp.bit tdo = some next ∧ next.Valid := by
  rw [bit]
  by_cases idle : lp.headRemaining = 0
  · exact ⟨lp, if_pos idle, valid⟩
  · rw [if_neg idle]
    match fifo : lp.captureFifo with
    | [] => exact absurd (valid fifo) idle
    | head :: rest =>
      dsimp only
      split
      · exact ⟨_, rfl, fun empty => congrArg firstDuration empty⟩
      · refine ⟨_, rfl, fun empty => ?_⟩
        dsimp only at empty
        rw [keep_captureFifo, fifo] at empty
        cases empty

theorem drain_valid (lp : Capture) (valid : lp.Valid) : lp.drain.Valid := by
  unfold drain
  split <;> exact valid

theorem bits_valid {lp : Capture} (valid : lp.Valid) (tdo : BitString) :
    ∃ last, tdo.foldlM bit lp = some last ∧ last.Valid := by
  induction tdo generalizing lp with
  | nil => exact ⟨lp, rfl, valid⟩
  | cons head tdo ih =>
    obtain ⟨next, step, valid⟩ := bit_valid valid head
    obtain ⟨last, run, valid⟩ := ih valid
    exact ⟨last, by rw [List.foldlM_cons, step]; exact run, valid⟩

end Capture

namespace Session

variable {σ : Type} (dev : Device σ)

theorem capture_of_run {self : Session σ} {tdo : BitString} {last : Capture} (route : Route)
    (run : tdo.foldlM Capture.bit ⟨self.encoder, self.captureFifo, self.headRemaining, [], false, []⟩ = some last) :
    self.capture tdo route =
      some ({ self with
          encoder := last.drain.encoder
          captureFifo := last.drain.captureFifo
          headRemaining := last.drain.headRemaining },
        if last.drain.out ≠ [] then [sendT2h last.drain.out route last.drain.anyEop] else []) := by
  rw [capture, run]
  rfl

theorem capture_valid {self : Session σ} (valid : self.Valid) (tdo : BitString) (route : Route) :
    ∃ next sent, self.capture tdo route = some (next, sent) ∧ next.Valid ∧
      next.decoder = self.decoder ∧ next.loopbackActive = self.loopbackActive := by
  have here : Capture.Valid ⟨self.encoder, self.captureFifo, self.headRemaining, [], false, []⟩ := valid
  obtain ⟨last, run, valid⟩ := Capture.bits_valid here tdo
  exact ⟨_, _, capture_of_run route run, last.drain_valid valid, rfl, rfl⟩

theorem pushCapture_valid (self : Session σ) (op : PushTdoCapture) : (self.pushCapture op).Valid := by
  rw [pushCapture]
  dsimp only
  split
  all_goals
    intro empty
    cases (List.append_eq_nil_iff.mp empty).2

theorem process_isOk (walker : Walker) (device : σ) (scan : Shift) :
    ∃ done, walker.process dev device scan.tms scan.tdi = .ok done := by
  rw [Walker.process, if_neg (fun different => different scan.same)]
  split
  · exact ⟨_, rfl⟩
  · exact ⟨_, rfl⟩

theorem dispatchOp_valid {self : Session σ} (valid : self.Valid) (op : Op) (route : Route) :
    ∃ next sent, self.dispatchOp dev op route = some (next, sent) ∧ next.Valid ∧
      next.decoder = self.decoder ∧ next.loopbackActive = self.loopbackActive := by
  cases op with
  | retrieveInfo => exact ⟨_, _, rfl, valid, rfl, rfl⟩
  | resetTdoFifo => exact ⟨_, _, rfl, fun _ => rfl, rfl, rfl⟩
  | pushTdoCapture capture =>
    refine ⟨_, _, rfl, pushCapture_valid self capture, ?_, ?_⟩
    all_goals
      unfold pushCapture
      dsimp only
      split <;> rfl
  | shift scan =>
    obtain ⟨done, processed⟩ := process_isOk dev self.walker self.device scan
    have here : Valid { self with walker := done.walker, device := done.device } := valid
    obtain ⟨next, sent, captured, valid, decoder, loopback⟩ := capture_valid here done.tdo route
    exact ⟨next, sent, by rw [dispatchOp, doShift, processed]; exact captured, valid, decoder, loopback⟩

theorem dispatchAll_cons {self next last : Session σ} {op : Op} {route : Route} {ops : List (Op × Route)}
    {sent : List H2tPacket} {later : List Event} (step : self.dispatchOp dev op route = some (next, sent))
    (run : next.dispatchAll dev ops = some (last, later)) :
    self.dispatchAll dev ((op, route) :: ops) = some (last, .executed op :: sent.map .sent ++ later) := by
  simp only [dispatchAll, step, Option.bind_eq_bind, Option.bind_some, run]

theorem dispatchAll_valid {self : Session σ} (valid : self.Valid) (ops : List (Op × Route)) :
    ∃ next events, self.dispatchAll dev ops = some (next, events) ∧ next.Valid ∧
      next.decoder = self.decoder ∧ next.loopbackActive = self.loopbackActive := by
  induction ops generalizing self with
  | nil => exact ⟨_, _, rfl, valid, rfl, rfl⟩
  | cons head ops ih =>
    obtain ⟨op, route⟩ := head
    obtain ⟨middle, sent, step, valid, decoder, loopback⟩ := dispatchOp_valid dev valid op route
    obtain ⟨next, events, run, valid, decoders, loopbacks⟩ := ih valid
    exact ⟨next, _, dispatchAll_cons dev step run, valid, decoders.trans decoder, loopbacks.trans loopback⟩

/-! ### Operations executed before an error -/

/-- The operations executed before the first error, `none` when no error is reported. -/
def beforeError : List Event → Option (List Op)
  | [] => none
  | .executed op :: events => (beforeError events).map (op :: ·)
  | .sent _ :: events => beforeError events
  | .decoderError _ _ :: _ => some []

theorem beforeError_sent (sent : List H2tPacket) (events : List Event) :
    beforeError (sent.map .sent ++ events) = beforeError events := by
  induction sent with
  | nil => rfl
  | cons packet sent ih => exact ih

theorem dispatchAll_inv {self last : Session σ} {op : Op} {route : Route} {ops : List (Op × Route)}
    {events : List Event} (run : self.dispatchAll dev ((op, route) :: ops) = some (last, events)) :
    ∃ next sent later, self.dispatchOp dev op route = some (next, sent) ∧
      next.dispatchAll dev ops = some (last, later) ∧ events = .executed op :: sent.map .sent ++ later := by
  simp only [dispatchAll, Option.bind_eq_bind, Option.bind_eq_some_iff, Prod.exists] at run
  obtain ⟨next, sent, step, last, later, rest, same⟩ := run
  cases same
  exact ⟨next, sent, later, step, rest, rfl⟩

theorem beforeError_dispatchAll {self next : Session σ} {ops : List (Op × Route)} {events : List Event}
    (run : self.dispatchAll dev ops = some (next, events)) (later : List Event) :
    beforeError (events ++ later) = (beforeError later).map (ops.map Prod.fst ++ ·) := by
  induction ops generalizing self events with
  | nil =>
    cases run
    rw [List.nil_append]
    cases beforeError later <;> rfl
  | cons head ops ih =>
    obtain ⟨op, route⟩ := head
    obtain ⟨middle, sent, following, step, rest, rfl⟩ := dispatchAll_inv dev run
    rw [List.append_assoc, List.cons_append, beforeError, beforeError_sent, ih rest, Option.map_map]
    rfl

end Session

end Acrobe.Jop
