import Acrobe.BitString.Object

/-!
# MPSSE operations

The operations that are posted to the engine: their command bytes, the number of bytes they answer
with, and the clock cycles the engine counts for them.
-/

namespace Acrobe.Ftdi
open LittleEndian

/-! ### `mpsse_cmd` -/

namespace MpsseCmd

def writeNeg : UInt8 := 0x01
def bits : UInt8 := 0x02
def readNeg : UInt8 := 0x04
def lsb : UInt8 := 0x08
def write : UInt8 := 0x10
def read : UInt8 := 0x20
def tms : UInt8 := 0x40
def management : UInt8 := 0x80

def setBitsLow : UInt8 := management ||| 0x00
def getBitsLow : UInt8 := management ||| 0x01
def setBitsHigh : UInt8 := management ||| 0x02
def getBitsHigh : UInt8 := management ||| 0x03
def loopbackEnable : UInt8 := management ||| 0x04
def loopbackDisable : UInt8 := management ||| 0x05
def clkDiv : UInt8 := management ||| 0x06
def sendImmediate : UInt8 := management ||| 0x07
def waitOnHigh : UInt8 := management ||| 0x08
def waitOnLow : UInt8 := management ||| 0x09
def clkDiv5Disable : UInt8 := management ||| 0x0a
def clkDiv5Enable : UInt8 := management ||| 0x0b
def threePhaseEnable : UInt8 := management ||| 0x0c
def threePhaseDisable : UInt8 := management ||| 0x0d
def clkBits : UInt8 := management ||| 0x0e
def clkBytes : UInt8 := management ||| 0x0f
def adaptiveEnable : UInt8 := management ||| 0x16
def adaptiveDisable : UInt8 := management ||| 0x17

end MpsseCmd

inductive Polarity where
  | plus | minus
  deriving DecidableEq

def flag (set : Bool) (value : UInt8) : UInt8 := if set then value else 0

/-! ### Shifts -/

structure ShiftBits where
  data : Option Nat
  count : Nat
  writePol : Polarity := .minus
  readPol : Polarity := .plus
  lsbFirst : Bool := true
  read : Bool := false
  deriving DecidableEq

namespace ShiftBits

def cmdByte (op : ShiftBits) : UInt8 :=
  MpsseCmd.bits ||| flag op.lsbFirst MpsseCmd.lsb ||| flag (op.writePol ≠ .plus) MpsseCmd.writeNeg |||
    flag op.data.isSome MpsseCmd.write ||| flag op.read MpsseCmd.read |||
    flag (op.read && op.readPol ≠ .plus) MpsseCmd.readNeg

def dataByte (op : ShiftBits) (data : Nat) : UInt8 :=
  UInt8.ofNat (if op.lsbFirst then data else data * 2 ^ (8 - op.count))

def encode (op : ShiftBits) : Bytes :=
  op.cmdByte :: UInt8.ofNat (op.count - 1) :: (op.data.map op.dataByte).toList

end ShiftBits

/-- `data_or_bytecnt`. -/
inductive Payload where
  | count (bytes : Nat)
  | bits (data : BitString)
  | bytes (data : Bytes)
  deriving DecidableEq

def Payload.whole : Payload → Bool
  | .bits data => data.length % 8 = 0
  | _ => true

structure ShiftBytes where
  data : Payload
  writePol : Polarity := .minus
  readPol : Polarity := .plus
  lsbFirst : Bool := true
  read : Bool := false
  deriving DecidableEq

namespace ShiftBytes

def writes (op : ShiftBytes) : Bool :=
  match op.data with
  | .count _ => false
  | _ => true

def dataOut (op : ShiftBytes) : Bytes :=
  match op.data with
  | .count _ => []
  | .bits data => if op.lsbFirst then Storage.Bits.pack data else (Storage.Bits.pack data).reverse
  | .bytes data => data

def byteCount (op : ShiftBytes) : Nat :=
  match op.data with
  | .count bytes => bytes
  | _ => op.dataOut.length

def cmdByte (op : ShiftBytes) : UInt8 :=
  flag op.writes MpsseCmd.write ||| flag (op.writePol ≠ .plus) MpsseCmd.writeNeg ||| flag op.lsbFirst MpsseCmd.lsb |||
    flag op.read MpsseCmd.read ||| flag (op.read && op.readPol ≠ .plus) MpsseCmd.readNeg

/-- `encode_range`. -/
def encodeRange (op : ShiftBytes) (start count : Nat) : Bytes :=
  op.cmdByte :: UInt8.ofNat ((count - 1) % 256) :: UInt8.ofNat ((count - 1) / 256) ::
    (op.dataOut.drop start).take count

def encode (op : ShiftBytes) : Bytes := op.encodeRange 0 op.byteCount

def rspSize (op : ShiftBytes) : Nat := if op.read then op.byteCount else 0

def Valid (op : ShiftBytes) : Prop := op.data.whole = true ∧ 1 ≤ op.byteCount ∧ op.byteCount ≤ 65536

instance (op : ShiftBytes) : Decidable op.Valid := inferInstanceAs (Decidable (_ ∧ _ ∧ _))

end ShiftBytes

structure ShiftTms where
  data : Nat
  count : Nat
  writePol : Polarity := .minus
  readPol : Polarity := .plus
  read : Bool := false
  tdi : Bool := false
  deriving DecidableEq

namespace ShiftTms

def cmdByte (op : ShiftTms) : UInt8 :=
  MpsseCmd.bits ||| MpsseCmd.tms ||| MpsseCmd.lsb ||| flag (op.writePol ≠ .plus) MpsseCmd.writeNeg |||
    flag op.read MpsseCmd.read ||| flag (op.read && op.readPol ≠ .plus) MpsseCmd.readNeg

def encode (op : ShiftTms) : Bytes :=
  [op.cmdByte, UInt8.ofNat (op.count - 1), UInt8.ofNat (op.data % 0x80 + if op.tdi then 0x80 else 0)]

end ShiftTms

/-! ### All operations -/

inductive Operation where
  | setBitsLow (value oe : UInt8)
  | setBitsHigh (value oe : UInt8)
  | getBitsLow
  | getBitsHigh
  | loopback (enable : Bool)
  | clockDivisor (divisor : Nat)
  | clockDiv5 (enable : Bool)
  | threePhase (enable : Bool)
  | adaptive (enable : Bool)
  | sendImmediate
  | waitOnHigh
  | waitOnLow
  | clockBits (count : Nat)
  | clockBytes (count : Nat)
  | shiftBits (op : ShiftBits)
  | shiftBytes (op : ShiftBytes)
  | shiftTms (op : ShiftTms)
  deriving DecidableEq

namespace Operation

def encode : Operation → Bytes
  | setBitsLow value oe => [MpsseCmd.setBitsLow, value, oe]
  | setBitsHigh value oe => [MpsseCmd.setBitsHigh, value, oe]
  | getBitsLow => [MpsseCmd.getBitsLow]
  | getBitsHigh => [MpsseCmd.getBitsHigh]
  | loopback enable => [if enable then MpsseCmd.loopbackEnable else MpsseCmd.loopbackDisable]
  | clockDivisor divisor =>
    [MpsseCmd.clkDiv, UInt8.ofNat ((divisor - 1) % 256), UInt8.ofNat ((divisor - 1) / 256)]
  | clockDiv5 enable => [if enable then MpsseCmd.clkDiv5Enable else MpsseCmd.clkDiv5Disable]
  | threePhase enable => [if enable then MpsseCmd.threePhaseEnable else MpsseCmd.threePhaseDisable]
  | adaptive enable => [if enable then MpsseCmd.adaptiveEnable else MpsseCmd.adaptiveDisable]
  | sendImmediate => [MpsseCmd.sendImmediate]
  | waitOnHigh => [MpsseCmd.waitOnHigh]
  | waitOnLow => [MpsseCmd.waitOnLow]
  | clockBits count => [MpsseCmd.clkBits, UInt8.ofNat (count - 1)]
  | clockBytes count => [MpsseCmd.clkBytes, UInt8.ofNat ((count - 1) % 256), UInt8.ofNat ((count - 1) / 256)]
  | shiftBits op => op.encode
  | shiftBytes op => op.encode
  | shiftTms op => op.encode

def rspSize : Operation → Nat
  | getBitsLow | getBitsHigh => 1
  | shiftBits op => if op.read then 1 else 0
  | shiftBytes op => op.rspSize
  | shiftTms op => if op.read then 1 else 0
  | _ => 0

def cycleCount : Operation → Nat
  | setBitsLow _ _ | setBitsHigh _ _ | getBitsLow | getBitsHigh => 1
  | clockBits count => count
  | clockBytes count => count * 8
  | shiftBits op => op.count
  | shiftBytes op => op.byteCount * 8
  | shiftTms op => op.count
  | _ => 0

def Valid : Operation → Prop
  | clockDivisor divisor => 1 ≤ divisor ∧ divisor ≤ 65536
  | clockBits count => 1 ≤ count ∧ count ≤ 8
  | clockBytes count => 1 ≤ count ∧ count ≤ 65536
  | shiftBits op => 1 ≤ op.count ∧ op.count ≤ 8
  | shiftBytes op => op.Valid
  | shiftTms op => 1 ≤ op.count ∧ op.count ≤ 8
  | _ => True

instance : (op : Operation) → Decidable op.Valid
  | clockDivisor divisor => inferInstanceAs (Decidable (1 ≤ divisor ∧ divisor ≤ 65536))
  | clockBits count => inferInstanceAs (Decidable (1 ≤ count ∧ count ≤ 8))
  | clockBytes count => inferInstanceAs (Decidable (1 ≤ count ∧ count ≤ 65536))
  | shiftBits op => inferInstanceAs (Decidable (1 ≤ op.count ∧ op.count ≤ 8))
  | shiftBytes op => inferInstanceAs (Decidable op.Valid)
  | shiftTms op => inferInstanceAs (Decidable (1 ≤ op.count ∧ op.count ≤ 8))
  | setBitsLow _ _ | setBitsHigh _ _ | getBitsLow | getBitsHigh | loopback _ | clockDiv5 _ | threePhase _ | adaptive _
  | sendImmediate | waitOnHigh | waitOnLow => .isTrue trivial

end Operation
end Acrobe.Ftdi
