import Acrobe.Nsl.Batch

/-!
# The JTAG transactor codec

`JtagTransactor` chops JTAG operations into commands of limited size, and puts the TDO bits of a Shift together from
the slices of the response that the commands answer with.
-/

namespace Acrobe.Nsl
open LittleEndian Acrobe.Storage CommandStream

namespace JtagTransactor

structure Shift where
  tdi : BitString
  readTdo : Bool
  postRun : Int

inductive Op where
  | captureDr
  | captureIr
  | swdToJtag
  | reset (count : Int)
  | run (cycles : Int)
  | shift (shift : Shift)
  | other (typeName : String)

/-! ### Commands -/

def cmdShiftByte : Nat := 0x00
def cmdShiftByteW : Nat := 0x40
def cmdShiftByteR : Nat := 0x20
def cmdShiftBit : Nat := 0xe0
def cmdShiftBitW : Nat := 0x10
def cmdShiftBitR : Nat := 0x08
def cmdDrCapture : UInt8 := 0x80
def cmdIrCapture : UInt8 := 0x81
def cmdSwdToJtag : UInt8 := 0x82
def cmdDivisor : UInt8 := 0x83
def cmdTdoDelay : UInt8 := 0x87
def cmdRti : Nat := 0x90
def cmdReset : Nat := 0x98
def cmdRti8 : Nat := 0xa0
def cmdReset8 : Nat := 0xb0

/-! ### The codec -/

/-- The slot of the response that a command with TDO answers in. -/
structure Gather where
  opIdx : Nat
  rspOffset : Nat
  bitCount : Nat

abbrev Encoding := CommandStream.Encoding UInt8 Gather

structure Codec where
  divisor : Nat
  rateDirty : Bool
  tdoDelay : Int
  tdoDelayDirty : Bool
  version : Nat

/-- Groups of eight cycles for the bulk, and the remainder. -/
def encodeCycles (bulk rest : Nat) (acc : Encoding) (cycles : Nat) : Encoding :=
  if 8 ≤ cycles then
    let n := min (cycles / 8) 16
    encodeCycles bulk rest (acc.emit [UInt8.ofNat (bulk ||| (n - 1))]) (cycles - n * 8)
  else if cycles ≠ 0 then acc.emit [UInt8.ofNat (rest ||| (cycles - 1))]
  else acc
termination_by cycles

def encodeReset (count : Int) (acc : Encoding) : Encoding := encodeCycles cmdReset8 cmdReset acc (max 5 count).toNat

def encodeRti (cycles : Int) (acc : Encoding) : Encoding :=
  if cycles ≤ 0 then acc else encodeCycles cmdRti8 cmdRti acc cycles.toNat

def shiftByteCmd (hasTdo : Bool) : Nat := cmdShiftByte ||| cmdShiftByteW ||| if hasTdo then cmdShiftByteR else 0

def shiftBitCmd (hasTdo : Bool) : Nat := cmdShiftBit ||| cmdShiftBitW ||| if hasTdo then cmdShiftBitR else 0

/-- The loop of `__encode_shift`, and the tail behind it. -/
def encodeBits (hasTdo : Bool) (opIdx : Nat) (acc : Encoding) (bitCount : Nat) (data : Bytes) : Encoding :=
  if 8 ≤ bitCount then
    let byteCount := min (bitCount / 8) 32
    encodeBits hasTdo opIdx
      ⟨acc.cmd ++ UInt8.ofNat (shiftByteCmd hasTdo ||| (byteCount - 1)) :: data.take byteCount,
        (if hasTdo then acc.rspSize + byteCount else acc.rspSize) + 1,
        if hasTdo then acc.gather ++ [⟨opIdx, acc.rspSize, byteCount * 8⟩] else acc.gather⟩
      (bitCount - byteCount * 8) (data.drop byteCount)
  else if bitCount ≠ 0 then
    ⟨acc.cmd ++ [UInt8.ofNat (shiftBitCmd hasTdo ||| (bitCount - 1)), data.headD 0],
      (if hasTdo then acc.rspSize + 1 else acc.rspSize) + 1,
      if hasTdo then acc.gather ++ [⟨opIdx, acc.rspSize, bitCount⟩] else acc.gather⟩
  else acc
termination_by bitCount

def encodeShift (op : Shift) (opIdx : Nat) (acc : Encoding) : Encoding :=
  encodeBits op.readTdo opIdx acc op.tdi.length (Bits.pack op.tdi)

def encodeOne (op : Op) (opIdx : Nat) (acc : Encoding) : Except PyErr Encoding :=
  match op with
  | .captureDr => .ok (acc.emit [cmdDrCapture])
  | .captureIr => .ok (acc.emit [cmdIrCapture])
  | .swdToJtag => .ok (acc.emit [cmdSwdToJtag])
  | .reset count => .ok (encodeReset count acc)
  | .run cycles => .ok (encodeRti cycles acc)
  | .shift op =>
    let acc := encodeShift op opIdx acc
    .ok (if op.postRun ≠ 0 then encodeRti op.postRun acc else acc)
  | .other typeName => .error (.typeError ("JtagTransactor cannot encode " ++ typeName))

/-- `value & 0xff` -/
def lowByte (value : Int) : UInt8 := UInt8.ofNat (value % 256).toNat

def Codec.configure (self : Codec) : Codec × Encoding :=
  let (self, acc) :=
    if self.rateDirty then ({ self with rateDirty := false }, Encoding.start.emit [cmdDivisor, lowByte self.divisor])
    else (self, .start)
  if self.tdoDelayDirty ∧ 1 ≤ self.version then
    ({ self with tdoDelayDirty := false }, acc.emit [cmdTdoDelay, lowByte self.tdoDelay])
  else (self, acc)

def Codec.encode (self : Codec) (batch : List (BatchEntry Op)) : Codec × Except PyErr Encoding :=
  let (self, acc) := self.configure
  (self, encodeEach encodeOne acc (batch.map BatchEntry.op).zipIdx)

def chunk (response : Bytes) (g : Gather) : BitString :=
  Bits.ofBytes ((response.drop g.rspOffset).take ((g.bitCount + 7) / 8)) (some g.bitCount)

/-- The bits of an operation so far. -/
def note (response : Bytes) (found : Option BitString) (g : Gather) : Option BitString :=
  match found with
  | none => some (chunk response g)
  | some prev => some (prev ++ chunk response g)

/-- The dictionary `by_op`. -/
def byOp (response : Bytes) (gather : List Gather) : Nat → Option BitString :=
  collect Gather.opIdx (note response) gather

/-- What the future of an operation is set to. -/
def result (op : Op) (found : Option BitString) : Option BitString :=
  match op with
  | .shift op => if op.readTdo then some (found.getD []) else none
  | _ => none

/-- `decode`, or `none` where `response[-1]` raises an `IndexError`. -/
def Codec.decode (self : Codec) (batch : List (BatchEntry Op)) (response : Bytes) (gather : List Gather) :
    Option (Codec × List (Option (Option BitString))) :=
  match response.getLast? with
  | none => none
  | some vb =>
    let self := if 0x5a ≤ vb ∧ vb ≤ 0x5f then { self with version := (vb - 0x5a).toNat } else self
    some (self, decodeEach result (byOp response gather) batch)

/-! ### The transactor -/

/-- What the transactor has the target do. -/
inductive Move where
  | shift (tdi : Bool)
  | idle
  | reset
  | captureDr
  | captureIr
  | swdToJtag

inductive Command where
  | shift (tdi : BitString) (read : Bool)
  | run (cycles : Nat)
  | reset (cycles : Nat)
  | captureDr
  | captureIr
  | swdToJtag
  | divisor (value : UInt8)
  | sysReset (asserted : Bool)
  | tdoDelay (value : UInt8)

def fetch : Bytes → Option (Command × Bytes)
  | [] => none
  | code :: rest =>
    if code &&& 0x80 = 0 then
      let count := (code &&& 0x1f).toNat + 1
      if code &&& 0x40 = 0 ∨ rest.length < count then none
      else some (.shift (Bits.ofBytes (rest.take count) (some (count * 8))) (code &&& 0x20 != 0), rest.drop count)
    else if code &&& 0xe0 = 0xe0 then
      match rest with
      | [] => none
      | data :: rest =>
        if code &&& 0x10 = 0 then none
        else some (.shift (Bits.ofBytes [data] (some ((code &&& 0x07).toNat + 1))) (code &&& 0x08 != 0), rest)
    else if code &&& 0xf8 = 0x98 then some (.reset ((code &&& 0x07).toNat + 1), rest)
    else if code &&& 0xf8 = 0x90 then some (.run ((code &&& 0x07).toNat + 1), rest)
    else if code &&& 0xf0 = 0xb0 then some (.reset (((code &&& 0x0f).toNat + 1) * 8), rest)
    else if code &&& 0xf0 = 0xa0 then some (.run (((code &&& 0x0f).toNat + 1) * 8), rest)
    else if code = 0x80 then some (.captureDr, rest)
    else if code = 0x81 then some (.captureIr, rest)
    else if code = 0x82 then some (.swdToJtag, rest)
    else if code &&& 0xfe = 0x84 then some (.sysReset (code &&& 0x01 != 0), rest)
    else
      match rest with
      | [] => none
      | value :: rest =>
        if code = 0x83 then some (.divisor value, rest)
        else if code = 0x87 then some (.tdoDelay value, rest)
        else none

def Command.moves : Command → List Move
  | .shift tdi _ => tdi.map .shift
  | .run cycles => List.replicate cycles .idle
  | .reset cycles => List.replicate cycles .reset
  | .captureDr => [.captureDr]
  | .captureIr => [.captureIr]
  | .swdToJtag => [.swdToJtag]
  | .divisor _ | .sysReset _ | .tdoDelay _ => []

/-- The bytes that a command reads back, next to its status byte. -/
def Command.readback : Command → Nat
  | .shift tdi true => (tdi.length + 7) / 8
  | _ => 0

/-- The target: the next state and TDO for each move, and the status that the transactor answers with. -/
structure Device (σ : Type) where
  step : σ → Move → σ × Bool
  status : σ → UInt8

namespace Device

variable {σ : Type}

def run (device : Device σ) (s : σ) : List Move → σ × List Bool
  | [] => (s, [])
  | move :: moves =>
    let (next, tdo) := device.step s move
    let (last, tdos) := run device next moves
    (last, tdo :: tdos)

/-- Data first, then the status byte. -/
def answer (device : Device σ) (s : σ) (command : Command) : σ × Bytes :=
  let (next, tdos) := device.run s command.moves
  (next, (match command with | .shift _ true => Bits.pack tdos | _ => []) ++ [device.status next])

def machine (device : Device σ) : Machine σ Command UInt8 := ⟨device.answer⟩

end Device

/-! ### What is asked for -/

def Op.moves : Op → List Move
  | .captureDr => [.captureDr]
  | .captureIr => [.captureIr]
  | .swdToJtag => [.swdToJtag]
  | .reset count => List.replicate (max 5 count).toNat .reset
  | .run cycles => List.replicate cycles.toNat .idle
  | .shift op => op.tdi.map .shift ++ List.replicate op.postRun.toNat .idle
  | .other _ => []

/-- The TDO bits that an operation asks for. -/
def Device.tdo {σ : Type} (device : Device σ) (s : σ) : Op → Option BitString
  | .shift op => if op.readTdo then some (device.run s (op.tdi.map .shift)).2 else none
  | _ => none

/-- What an operation makes of the target, and the TDO bits that it asks for. -/
def Device.perform {σ : Type} (device : Device σ) (s : σ) (op : Op) : σ × Option BitString :=
  ((device.run s op.moves).1, device.tdo s op)

/-- The TDO bits of a batch, operation by operation. -/
def Device.tdos {σ : Type} (device : Device σ) (s : σ) (ops : List Op) : List (Option BitString) :=
  performEach device.perform s ops

def Op.Known : Op → Prop
  | .other _ => False
  | _ => True

end JtagTransactor

end Acrobe.Nsl
