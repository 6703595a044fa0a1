import Acrobe.Lib.LittleEndian

/-!
# The codec of the AXI4 bridge

The beats of the five channels in the frames of the stream, and the bursts of a blob.
-/

namespace Acrobe.Nsl
open LittleEndian

/-- `{value:#x}` -/
def hexText (value : Nat) : String := "0x" ++ String.ofList (Nat.toDigits 16 value)

/-- `addr` is aligned to a bus word; `offset` is relative to the start of the blob. -/
structure Burst where
  addr : Nat
  beats : Nat
  offset : Int
  deriving DecidableEq

structure BusOptions where
  addressWidth : Int := 32
  dataBusWidth : Int := 32
  idWidth : Nat := 0
  userWidth : Nat := 0
  maxLength : Int := 1
  size : Bool := false
  burst : Bool := false
  cache : Bool := false
  lock : Bool := false
  qos : Bool := false
  region : Bool := false

structure Axi4Codec where
  addressWidth : Nat
  sizeL2 : Nat
  idWidth : Nat
  userWidth : Nat
  lenWidth : Nat
  hasSize : Bool
  hasBurst : Bool
  hasCache : Bool
  hasLock : Bool
  hasQos : Bool
  hasRegion : Bool
  addressable : 1 ≤ addressWidth ∧ addressWidth ≤ 64
  burstable : lenWidth ≤ 8
  deriving DecidableEq

namespace Axi4Codec

def chB : UInt8 := 0
def chAw : UInt8 := 1
def chAr : UInt8 := 2
def chR : UInt8 := 3
def chW : UInt8 := 4

def respSlverr : Nat := 2
def burstIncr : Nat := 1
def boundary : Nat := 4096

/-- `n` and `n - 1` have no common bit. -/
def PowerOfTwo (n : Nat) : Prop := n &&& (n - 1) = 0

instance (n : Nat) : Decidable (PowerOfTwo n) := inferInstanceAs (Decidable (_ = _))

theorem log2_le_eight {length : Int} (positive : 1 ≤ length) (bounded : length ≤ 256) : length.toNat.log2 ≤ 8 := by
  have small : length.toNat.log2 < 9 := (Nat.log2_lt (by omega)).mpr (by omega)
  omega

def create (options : BusOptions) : Except String Axi4Codec :=
  let dataBytes := (options.dataBusWidth / 8).toNat
  let lenWidth := options.maxLength.toNat.log2
  if options.dataBusWidth < 8 ∨ options.dataBusWidth % 8 ≠ 0 ∨ ¬PowerOfTwo dataBytes then
    .error s!"data_bus_width must be 8 times a power of two, got {options.dataBusWidth}"
  else if lengths : options.maxLength < 1 ∨ ¬PowerOfTwo options.maxLength.toNat ∨ 256 < options.maxLength then
    .error s!"max_length must be a power of two up to 256, got {options.maxLength}"
  else if widths : 1 ≤ options.addressWidth ∧ options.addressWidth ≤ 64 then
    .ok {
      addressWidth := options.addressWidth.toNat
      sizeL2 := dataBytes.log2
      idWidth := options.idWidth
      userWidth := options.userWidth
      lenWidth
      hasSize := options.size
      hasBurst := options.burst && lenWidth != 0
      hasCache := options.cache
      hasLock := options.lock
      hasQos := options.qos
      hasRegion := options.region
      addressable := by omega
      burstable := log2_le_eight (by omega) (by omega) }
  else .error s!"address_width out of range: {options.addressWidth}"

variable (self : Axi4Codec)

def dataBytes : Nat := 2 ^ self.sizeL2

def maxLength : Nat := 1 <<< self.lenWidth

def addressBits : Nat :=
  self.addressWidth + 3 + (if self.hasSize then 3 else 0) + (if self.hasBurst then 2 else 0) +
    (if self.hasCache then 4 else 0) + self.lenWidth + (if self.hasLock then 1 else 0) + self.idWidth +
    (if self.hasQos then 4 else 0) + (if self.hasRegion then 4 else 0) + self.userWidth

def addressBytes : Nat := (self.addressBits + 7) / 8
def wBytes : Nat := (9 * self.dataBytes + self.userWidth + 7) / 8
def bBytes : Nat := (2 + self.idWidth + self.userWidth + 7) / 8
def rBytes : Nat := (8 * self.dataBytes + 2 + self.idWidth + self.userWidth + 7) / 8

/-! ### Host to device -/

/-- The loop of `pack`: the bits so far, and their count. -/
def packFields : List (Nat × Nat) → Nat → Nat → Except String Nat
  | [], v, _ => .ok v
  | (value, width) :: fields, v, shift =>
    if value >>> width ≠ 0 then .error s!"{hexText value} does not fit in {width} bits"
    else packFields fields (v ||| value <<< shift) (shift + width)

def pack (fields : List (Nat × Nat)) (byteCount : Nat) : Except String Bytes := do
  let v ← packFields fields 0 0
  if v < 256 ^ byteCount then .ok (split v byteCount) else .error "int too big to convert"

def addressFields (addr beats axiId prot : Nat) : List (Nat × Nat) :=
  [(addr, self.addressWidth), (prot, 3)] ++
    (if self.hasSize then [(self.sizeL2, 3)] else []) ++
    (if self.hasBurst then [(burstIncr, 2)] else []) ++
    (if self.hasCache then [(0, 4)] else []) ++
    [(beats - 1, self.lenWidth)] ++
    (if self.hasLock then [(0, 1)] else []) ++
    [(axiId, self.idWidth)] ++
    (if self.hasQos then [(0, 4)] else []) ++
    (if self.hasRegion then [(0, 4)] else []) ++
    [(0, self.userWidth)]

def address (channel : UInt8) (addr beats axiId prot : Nat) : Except String Bytes := do
  let packed ← pack (self.addressFields addr beats axiId prot) self.addressBytes
  .ok (channel :: packed)

def beatFields (lanes : Bytes) (strobe : Nat) : List (Nat × Nat) :=
  [(combine lanes, 8 * self.dataBytes), (strobe, self.dataBytes), (0, self.userWidth)]

def writeData (data : Bytes) (strobes : List Nat) : Except String Bytes := do
  let beats ← strobes.zipIdx.mapM fun (strobe, beat) =>
    pack (self.beatFields ((data.drop (beat * self.dataBytes)).take self.dataBytes) strobe) self.wBytes
  .ok (chW :: beats.flatten)

/-! ### Device to host -/

def writeResponse (payload : Bytes) : Except String (Nat × Nat) :=
  if payload.length ≠ self.bBytes then
    .error s!"B frame of {payload.length} bytes, expected {self.bBytes}"
  else
    let v := combine payload
    .ok (v % 4, v / 4 % 2 ^ self.idWidth)

structure ReadBeat where
  data : Bytes
  resp : Nat
  id : Nat

def readBeat (bytes : Bytes) : ReadBeat :=
  let v := combine bytes
  let rest := v / 256 ^ self.dataBytes
  { data := split v self.dataBytes, resp := rest % 4, id := rest / 4 % 2 ^ self.idWidth }

def readData (payload : Bytes) : Except String (List ReadBeat) :=
  if payload = [] ∨ payload.length % self.rBytes ≠ 0 then
    .error s!"R frame of {payload.length} bytes is not a whole number of {self.rBytes}-byte beats"
  else .ok ((List.range (payload.length / self.rBytes)).map fun beat =>
    self.readBeat ((payload.drop (beat * self.rBytes)).take self.rBytes))

/-! ### Bursts -/

/-- Every burst has at least one bus word, so the size of the blob is fuel enough. -/
def burstsFrom (addr stop maxBurst : Nat) : Nat → Nat → List Burst
  | 0, _ => []
  | fuel + 1, cursor =>
    if stop ≤ cursor then []
    else
      let n := self.dataBytes
      let edge := (cursor / boundary + 1) * boundary
      let limit := min (min stop edge) (cursor + maxBurst * n)
      let beats := (limit - cursor + n - 1) / n
      { addr := cursor, beats, offset := cursor - addr } :: burstsFrom addr stop maxBurst fuel (cursor + beats * n)

def bursts (addr size maxBurst : Nat) : List Burst :=
  self.burstsFrom addr (addr + size) maxBurst size (addr - addr % self.dataBytes)

def InBlob (data : Bytes) (pos : Int) : Prop := 0 ≤ pos ∧ pos < data.length

instance (data : Bytes) (pos : Int) : Decidable (InBlob data pos) := inferInstanceAs (Decidable (_ ∧ _))

def lanePos (burst : Burst) (beat lane : Nat) : Int := burst.offset + beat * self.dataBytes + lane

def strobe (burst : Burst) (data : Bytes) (beat : Nat) : Nat :=
  (List.range self.dataBytes).foldl
    (fun strobe lane => if InBlob data (self.lanePos burst beat lane) then strobe ||| 1 <<< lane else strobe) 0

def lanes (burst : Burst) (data : Bytes) (beat : Nat) : Bytes :=
  (List.range self.dataBytes).map fun lane =>
    let pos := self.lanePos burst beat lane
    if InBlob data pos then data.getD pos.toNat 0 else 0

/-- Lanes outside of the blob are zero and disabled. -/
def writeLanes (burst : Burst) (data : Bytes) : Bytes × List Nat :=
  ((List.range burst.beats).flatMap (self.lanes burst data), (List.range burst.beats).map (self.strobe burst data))

end Axi4Codec

end Acrobe.Nsl
