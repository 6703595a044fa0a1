import Mathlib
import Acrobe.Nsl.Batch

/-!
# The SPI transactor codec

`SpiTransactor` encodes chip selects and shifts for the NSL transactor. A shift is cut into chunks, and what comes
back for them is put together again.
-/

namespace Acrobe.Nsl
open LittleEndian Acrobe.Storage CommandStream

namespace SpiTransactor

inductive Op where
  | cs (value : Option Int) (mode : Int)
  | shift (mosi : BitString) (readMiso : Bool)
  | other (typeName : String)

/-! ### Commands -/

def cmdSelect : Nat := 0x00
def unselectId : Nat := 0x07
def cmdDiv : Nat := 0x20
def cmdDivh : Nat := 0x20
def cmdDivl : Nat := 0x30
def cmdShiftOut : Nat := 0x80
def cmdShiftInout : Nat := 0xc0

inductive DivisorScheme where
  | div5
  | divhDivl

def DivisorScheme.divisorMax : DivisorScheme → Nat
  | .div5 => 0x1f
  | .divhDivl => 0x7f

/-! ### The codec -/

/-- `__Gather`. -/
structure Gather where
  opIdx : Nat
  rspOffset : Nat
  length : Nat

abbrev Encoding := CommandStream.Encoding UInt8 Gather

structure Codec where
  divisorScheme : DivisorScheme
  maxChunk : Int
  divisor : Nat
  rateDirty : Bool
  inRange : divisor ≤ divisorScheme.divisorMax

def defaultMaxChunk : Int := 0x40

def Codec.contextForceRefresh (self : Codec) : Codec := { self with rateDirty := true }

def DivisorScheme.clamp (scheme : DivisorScheme) (d : Int) : Nat := (max 0 (min d scheme.divisorMax)).toNat

theorem DivisorScheme.clamp_le (scheme : DivisorScheme) (d : Int) : scheme.clamp d ≤ scheme.divisorMax := by
  unfold DivisorScheme.clamp
  omega

/-- The codec that is constructed, with `int(base_freq / 1e6) - 1`. -/
def Codec.new (scheme : DivisorScheme) (maxChunk : Option Int) (d : Int) : Codec :=
  ⟨scheme, maxChunk.getD defaultMaxChunk, scheme.clamp d, true, scheme.clamp_le d⟩

/-- `freq_update`, with the divisor before it is clamped. -/
def Codec.freqUpdate (self : Codec) (d : Int) : Codec :=
  if self.divisorScheme.clamp d = self.divisor then self
  else { self with
    divisor := self.divisorScheme.clamp d, rateDirty := true, inRange := self.divisorScheme.clamp_le d }

/-- `__divisor_cmd`. -/
def Codec.divisorCmd (self : Codec) : Bytes :=
  match self.divisorScheme with
  | .div5 => [UInt8.ofNat (cmdDiv ||| self.divisor)]
  | .divhDivl => [UInt8.ofNat (cmdDivh ||| self.divisor / 8), UInt8.ofNat (cmdDivl ||| self.divisor % 8)]

/-- `(mode >> 1) & 1` -/
def cpol (mode : Int) : Nat := (mode / 2 % 2).toNat

/-- `mode & 1` -/
def cpha (mode : Int) : Nat := (mode % 2).toNat

def selectByte (mode : Int) (slave : Nat) : UInt8 := UInt8.ofNat (cmdSelect ||| cpol mode * 16 ||| cpha mode * 8 ||| slave)

/-- `value & 0x7`, or the code of no chip. -/
def slaveId : Option Int → Nat
  | some value => (value % 8).toNat
  | none => unselectId

/-- `base_cmd | (len(chunk) - 1)` -/
def chunkCode (readMiso : Bool) (length : Nat) : Nat :=
  (if readMiso then cmdShiftInout else cmdShiftOut) ||| (length - 1)

/-- The chunks of a shift, of up to `size + 1` bytes each. -/
def encodeChunks (readMiso : Bool) (opIdx size : Nat) (acc : Encoding) (mosi : Bytes) : Except PyErr Encoding :=
  match mosi with
  | [] => .ok acc
  | byte :: rest =>
    let chunk := (byte :: rest).take (size + 1)
    let code := chunkCode readMiso chunk.length
    if 256 ≤ code then .error (.valueError "byte must be in range(0, 256)")
    else
      let rspSize := acc.rspSize + 1
      encodeChunks readMiso opIdx size
        ⟨acc.cmd ++ UInt8.ofNat code :: chunk, if readMiso then rspSize + chunk.length else rspSize,
          if readMiso then acc.gather ++ [⟨opIdx, rspSize, chunk.length⟩] else acc.gather⟩
        ((byte :: rest).drop (size + 1))
termination_by mosi.length

def modeAfter (mode : Int) : Op → Int
  | .cs (some _) mode => mode
  | _ => mode

/-- One operation, with the mode of the last select before it. -/
def encodeOne (maxChunk mode : Int) (op : Op) (opIdx : Nat) (acc : Encoding) : Except PyErr Encoding :=
  match op with
  | .cs value _ => .ok (acc.emit [selectByte (modeAfter mode op) (slaveId value)])
  | .shift mosi readMiso =>
    if mosi.length % 8 ≠ 0 then
      .error (.valueError ("SpiTransactor shifts whole bytes; got " ++ toString mosi.length ++ " bits"))
    else if Bits.pack mosi = [] then .ok acc
    else if maxChunk = 0 then .error (.valueError "range() arg 3 must not be zero")
    else if maxChunk < 0 then .ok acc
    else encodeChunks readMiso opIdx (maxChunk.toNat - 1) acc (Bits.pack mosi)
  | .other typeName => .error (.typeError ("SpiTransactor cannot encode " ++ typeName))

def encodeOps (maxChunk mode : Int) (acc : Encoding) : List (Op × Nat) → Except PyErr Encoding
  | [] => .ok acc
  | (op, opIdx) :: batch =>
    match encodeOne maxChunk mode op opIdx acc with
    | .error error => .error error
    | .ok acc => encodeOps maxChunk (modeAfter mode op) acc batch

def Codec.configure (self : Codec) : Codec × Encoding :=
  if self.rateDirty then ({ self with rateDirty := false }, ⟨self.divisorCmd, self.divisorCmd.length, []⟩)
  else (self, .start)

def Codec.encode (self : Codec) (batch : List (BatchEntry Op)) : Codec × Except PyErr Encoding :=
  let (self, acc) := self.configure
  (self, encodeOps self.maxChunk 0 acc (batch.map BatchEntry.op).zipIdx)

/-! ### Results -/

/-- The bytes of an operation so far. -/
def note (response : Bytes) (found : Option Bytes) (g : Gather) : Option Bytes :=
  some (found.getD [] ++ (response.drop g.rspOffset).take g.length)

/-- What an operation gets for the bytes of its slots. -/
def miso (op : Op) (found : Option Bytes) : Option BitString :=
  match op with
  | .shift mosi true => some (Bits.ofBytes (found.getD []) (some mosi.length))
  | _ => none

def decode (batch : List (BatchEntry Op)) (response : Bytes) (gather : List Gather) : List (Option (Option BitString)) :=
  decodeEach miso (collect Gather.opIdx (note response) gather) batch

/-! ### The transactor -/

inductive Command where
  | select (cpol cpha : Bool) (slave : Nat)
  | div (value : Nat)
  | divh (value : Nat)
  | divl (value : Nat)
  | width (bits : Nat)
  | shiftIn (count : Nat)
  | shiftOut (mosi : Bytes)
  | shiftInout (mosi : Bytes)

def withMosi (count : Nat) (rest : Bytes) (make : Bytes → Command) : Option (Command × Bytes) :=
  if rest.length < count then none else some (make (rest.take count), rest.drop count)

/-- The commands that the two schemes disagree on. -/
def setting (n : Nat) : DivisorScheme → Command
  | .div5 => .div (n - 0x20)
  | .divhDivl =>
    if n < 0x30 then .divh (n - 0x20) else if n < 0x38 then .divl (n - 0x30) else .width (n - 0x38 + 1)

def fetch (scheme : DivisorScheme) : Bytes → Option (Command × Bytes)
  | [] => none
  | code :: rest =>
    let n := code.toNat
    if n < 0x20 then some (.select (n.testBit 4) (n.testBit 3) (n % 8), rest)
    else if n < 0x40 then some (setting n scheme, rest)
    else if n < 0x80 then some (.shiftIn (n - 0x40 + 1), rest)
    else if n < 0xc0 then withMosi (n - 0x80 + 1) rest .shiftOut
    else withMosi (n - 0xc0 + 1) rest .shiftInout

/-- The selected chip, byte by byte, and the transactor's own settings. -/
structure Device (σ : Type) where
  select : σ → (cpol cpha : Bool) → (slave : Nat) → σ
  exchange : σ → UInt8 → σ × UInt8
  receive : σ → σ × UInt8
  div : σ → Nat → σ
  divh : σ → Nat → σ
  divl : σ → Nat → σ
  width : σ → Nat → σ
  status : σ → UInt8

namespace Device

variable {σ : Type} (device : Device σ)

/-- The bytes that come back for the bytes of a shift. -/
def shift (s : σ) : Bytes → σ × Bytes
  | [] => (s, [])
  | byte :: mosi =>
    let (s, back) := device.exchange s byte
    let (s, miso) := shift s mosi
    (s, back :: miso)

def receiveAll (s : σ) : Nat → σ × Bytes
  | 0 => (s, [])
  | count + 1 =>
    let (s, back) := device.receive s
    let (s, miso) := receiveAll s count
    (s, back :: miso)

def answer (s : σ) : Command → σ × Bytes
  | .select cpol cpha slave => (device.select s cpol cpha slave, [device.status s])
  | .div value => (device.div s value, [device.status s])
  | .divh value => (device.divh s value, [device.status s])
  | .divl value => (device.divl s value, [device.status s])
  | .width bits => (device.width s bits, [device.status s])
  | .shiftIn count => ((device.receiveAll s count).1, device.status s :: (device.receiveAll s count).2)
  | .shiftOut mosi => ((device.shift s mosi).1, [device.status s])
  | .shiftInout mosi => ((device.shift s mosi).1, device.status s :: (device.shift s mosi).2)

def machine : Machine σ Command UInt8 := ⟨device.answer⟩

def perform (s : σ) : Op × Int → σ × Option BitString
  | (.cs value mode, before) =>
    let mode := modeAfter before (.cs value mode)
    (device.select s (cpol mode = 1) (cpha mode = 1) (slaveId value), none)
  | (.shift mosi readMiso, _) =>
    let (s, back) := device.shift s (Bits.pack mosi)
    (s, if readMiso then some (Bits.ofBytes back (some mosi.length)) else none)
  | (.other _, _) => (s, none)

end Device

/-- The operations with the modes of the last selects before them. -/
def modes (mode : Int) : List Op → List (Op × Int)
  | [] => []
  | op :: ops => (op, mode) :: modes (modeAfter mode op) ops

def Op.Supported : Op → Prop
  | .cs _ _ => True
  | .shift mosi _ => mosi.length % 8 = 0
  | .other _ => False

end SpiTransactor

end Acrobe.Nsl
