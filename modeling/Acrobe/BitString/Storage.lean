import Acrobe.Prelude
import Acrobe.Lib.LittleEndian

/-!
# Stored bit strings

`BitString` keeps its bits as a list of byte chunks, a partial last byte, a length and a cache of
the joined bytes. Objects are mutable and slices refer to the object they were taken from, so
the operations act on a heap of objects and slices.
-/

namespace Acrobe.Storage
open LittleEndian

inductive Error where
  | overflowError
  | indexError
  | assertionError
  | nameError
  deriving DecidableEq

/-! ### Built-in operations on integers and bytes -/

/-- `value & ((1 << length) - 1)`, two's complement for a negative value. -/
def mask (value : Int) (length : Nat) : Nat := (value % 2 ^ length).toNat

def fromBytes (data : Bytes) : Nat := combine data

def toBytes (value length : Nat) : Except Error Bytes :=
  if value < 256 ^ length then .ok (split value length) else .error .overflowError

def ljust (data : Bytes) (width : Nat) : Bytes := data ++ List.replicate (width - data.length) 0

/-! ### Objects -/

structure BitString where
  bytes : List Bytes
  lastByte : UInt8
  length : Nat
  dataCache : Option Bytes

namespace BitString

def empty : BitString := { bytes := [], lastByte := 0, length := 0, dataCache := none }

/-- The tail of the constructor and of `append`: the last byte is kept apart when it is partial. -/
def place (chunks : List Bytes) (data : Bytes) (length : Nat) (cache : Option Bytes) : Except Error BitString :=
  if length % 8 ≠ 0 then
    match data.getLast? with
    | none => .error .indexError
    | some last => .ok { bytes := chunks ++ [data.dropLast], lastByte := last, length, dataCache := cache }
  else
    .ok { bytes := chunks ++ [data], lastByte := 0, length, dataCache := cache }

/-- The integer that `data += 1 << length` and the mask leave. -/
def truncate (value : Int) (length : Nat) : Nat :=
  mask (if value < 0 then value + 2 ^ length else value) length

def ofInt (value : Int) (length : Nat) : Except Error BitString := do
  let raw ← toBytes (truncate value length) ((length + 7) / 8)
  place [] raw length (if length ≠ 0 then some raw else none)

/-- An unaligned append: the new data is shifted up past the partial byte and merged with it. -/
def merge (self : BitString) (value length : Nat) : Except Error BitString := do
  let carry := self.length % 8
  let merged ← toBytes (value <<< carry ||| self.lastByte.toNat) ((length + carry + 7) / 8)
  place self.bytes merged (self.length / 8 * 8 + (length + carry)) none

def appendBytes (self : BitString) (data : Bytes) (length : Option Nat) : Except Error BitString :=
  let bits := length.getD (data.length * 8)
  let data := match length with
    | none => data
    | some bits => ljust data ((bits + 7) / 8)
  if self.length % 8 ≠ 0 then self.merge (fromBytes data) bits
  else place self.bytes data (self.length + bits) none

def appendInt (self : BitString) (value : Int) (length : Nat) : Except Error BitString :=
  let data := truncate value length
  if self.length % 8 ≠ 0 then self.merge data length
  else do
    let raw ← toBytes data ((length + 7) / 8)
    place self.bytes raw (self.length + length) none

/-- `BitString(data, length)` for bytes: the exact byte count is taken as it is. -/
def ofBytes (data : Bytes) (length : Option Nat) : Except Error BitString :=
  match length with
  | some bits =>
    if data.length = (bits + 7) / 8 then place [] data bits (some data)
    else empty.appendBytes data (some bits)
  | none => empty.appendBytes data none

def flat (self : BitString) : Bytes :=
  if self.length % 8 ≠ 0 then self.bytes.flatten ++ [self.lastByte] else self.bytes.flatten

/-- The `data` property: the bytes, and the object with its cache filled. -/
def data (self : BitString) : Except Error (Bytes × BitString) :=
  match self.dataCache with
  | some cached => .ok (cached, self)
  | none =>
    if self.length ≤ self.flat.length * 8 then .ok (self.flat, { self with dataCache := some self.flat })
    else .error .assertionError

end BitString

/-! ### The heap -/

structure BitStringSlice where
  bs : Nat
  start : Nat
  stop : Nat
  deriving DecidableEq

structure Heap where
  objects : List BitString
  slices : List BitStringSlice

/-- A `BitStringBase` in hand: an object or a slice of one. -/
inductive Ref where
  | object (i : Nat)
  | slice (i : Nat)
  deriving DecidableEq

namespace Heap

def empty : Heap := { objects := [], slices := [] }

def object (heap : Heap) (i : Nat) : Except Error BitString :=
  match heap.objects[i]? with
  | some self => .ok self
  | none => .error .nameError

def slice (heap : Heap) (i : Nat) : Except Error BitStringSlice :=
  match heap.slices[i]? with
  | some self => .ok self
  | none => .error .nameError

def put (heap : Heap) (i : Nat) (self : BitString) : Heap := { heap with objects := heap.objects.set i self }

def alloc (heap : Heap) (self : BitString) : Heap := { heap with objects := heap.objects ++ [self] }

def objectData (heap : Heap) (i : Nat) : Except Error (Bytes × Heap) := do
  let self ← heap.object i
  let (data, self) ← self.data
  return (data, heap.put i self)

def len (heap : Heap) : Ref → Except Error Nat
  | .object i => do
    let self ← heap.object i
    return self.length
  | .slice i => do
    let self ← heap.slice i
    return self.stop - self.start

def int (heap : Heap) : Ref → Except Error (Nat × Heap)
  | .object i => do
    let (data, heap) ← heap.objectData i
    let self ← heap.object i
    return (mask (fromBytes data) self.length, heap)
  | .slice i => do
    let self ← heap.slice i
    if self.stop - self.start = 0 then return (0, heap)
    let (data, heap) ← heap.objectData self.bs
    let blob := (data.take ((self.stop + 7) / 8)).drop (self.start / 8)
    return (mask (fromBytes blob >>> (self.start % 8) : Nat) (self.stop - self.start), heap)

/-- The `data` property of an object or of a slice. -/
def data (heap : Heap) : Ref → Except Error (Bytes × Heap)
  | .object i => heap.objectData i
  | .slice i => do
    let self ← heap.slice i
    let length := self.stop - self.start
    if length = 0 then return ([], heap)
    if self.start % 8 = 0 ∧ length % 8 = 0 then
      let (data, heap) ← heap.objectData self.bs
      return ((data.take (self.start / 8 + length / 8)).drop (self.start / 8), heap)
    let (value, heap) ← heap.int (.slice i)
    let data ← toBytes value ((length + 7) / 8)
    return (data, heap)

def append (heap : Heap) (i : Nat) (other : Ref) : Except Error Heap := do
  let self ← heap.object i
  let length ← heap.len other
  if self.length % 8 ≠ 0 then
    let (value, heap) ← heap.int other
    let self ← heap.object i
    let self ← self.appendInt value length
    return heap.put i self
  else
    let (data, heap) ← heap.data other
    let self ← heap.object i
    let self ← self.appendBytes data (some length)
    return heap.put i self

/-- An empty object and a general `append`; the argument is a value before the new object exists. -/
def construct (heap : Heap) (other : Ref) : Except Error Heap := do
  let _ ← heap.len other
  (heap.alloc .empty).append heap.objects.length other

/-- `BitString(other)`: an object without an explicit length is cloned. -/
def clone (heap : Heap) (other : Ref) (length : Option Nat) : Except Error Heap :=
  match other, length with
  | .object i, none => do
    let self ← heap.object i
    return heap.alloc self
  | _, _ => heap.construct other

/-- The branch of `__add__` for at most 256 bits. -/
def addSmall (heap : Heap) (i : Nat) (other : Ref) : Except Error Heap := do
  let self ← heap.object i
  let otherLen ← heap.len other
  let (left, heap) ← heap.int (.object i)
  let (right, heap) ← heap.int other
  let sum ← BitString.ofInt (left ||| right <<< self.length : Nat) (self.length + otherLen)
  return heap.alloc sum

/-- The branch of `__add__` that clones and appends. -/
def addLarge (heap : Heap) (i : Nat) (other : Ref) : Except Error Heap := do
  let self ← heap.object i
  (heap.alloc self).append heap.objects.length other

def add (heap : Heap) (left right : Ref) : Except Error Heap :=
  match left with
  | .object i => do
    let self ← heap.object i
    let otherLen ← heap.len right
    if otherLen = 0 then return heap.alloc self
    if self.length = 0 then
      match right with
      | .object j => do
        let other ← heap.object j
        return heap.alloc other
      | .slice _ => do
        let (value, heap) ← heap.int right
        let sum ← BitString.ofInt value otherLen
        return heap.alloc sum
    else if self.length + otherLen ≤ 256 then heap.addSmall i right
    else heap.addLarge i right
  | .slice _ => do
    let length ← heap.len left
    let _ ← heap.len right
    let (value, heap) ← heap.int left
    let sum ← BitString.ofInt value length
    (heap.alloc sum).append heap.objects.length right

def iadd (heap : Heap) (i : Nat) (other : Ref) : Except Error Heap := do
  let self ← heap.object i
  let otherLen ← heap.len other
  match other with
  | .object j =>
    if self.length = 0 then do
      let other ← heap.object j
      return heap.put i { other with dataCache := none }
    else if otherLen ≠ 0 then heap.append i other else return heap
  | .slice _ => if otherLen ≠ 0 then heap.append i other else return heap

/-- The bound that `__getitem__` computes from `start` or `stop`. -/
def clamp (bound : Option Int) (missing length : Nat) : Nat :=
  match bound with
  | none => min missing length
  | some value => (max 0 (min (if value < 0 then value + length else value) length)).toNat

def getSlice (heap : Heap) (self : Ref) (start stop : Option Int) : Except Error Heap := do
  let length ← heap.len self
  let b := clamp start 0 length
  let e := clamp stop length length
  if e ≤ b then
    let zero ← BitString.ofInt 0 0
    return heap.alloc zero
  match self with
  | .object i => return { heap with slices := heap.slices ++ [⟨i, b, e⟩] }
  | .slice i =>
    let base ← heap.slice i
    return { heap with slices := heap.slices ++ [⟨base.bs, base.start + b, base.start + e⟩] }

/-! ### Reading back -/

/-- `data[k]`, a negative index counts from the end. -/
def byteAt (data : Bytes) (k : Int) : Except Error UInt8 :=
  let k := if k < 0 then k + data.length else k
  if k < 0 then .error .indexError
  else match data[k.toNat]? with
    | some byte => .ok byte
    | none => .error .indexError

/-- The bit at an offset counted from the front; a slice does not check its bounds. -/
def itemAt (heap : Heap) (self : Ref) (length : Nat) (offset : Int) : Except Error (Bool × Heap) :=
  match self with
  | .object i =>
    if ¬(0 ≤ offset ∧ offset < length) then .error .indexError
    else do
      let (data, heap) ← heap.objectData i
      let byte ← byteAt data (offset / 8)
      return (byte.toNat >>> (offset % 8).toNat % 2 == 1, heap)
  | .slice i => do
    let base ← heap.slice i
    let absolute := base.start + offset
    let (data, heap) ← heap.objectData base.bs
    let byte ← byteAt data (absolute / 8)
    return (byte.toNat &&& 1 <<< (absolute % 8).toNat != 0, heap)

def getItem (heap : Heap) (self : Ref) (offset : Int) : Except Error (Bool × Heap) := do
  let length ← heap.len self
  heap.itemAt self length (if offset < 0 then offset + length else offset)

def eq (heap : Heap) (left right : Ref) : Except Error (Bool × Heap) := do
  let leftLen ← heap.len left
  let rightLen ← heap.len right
  if leftLen ≠ rightLen then return (false, heap)
  let (leftData, heap) ← heap.data left
  let (rightData, heap) ← heap.data right
  return (leftData == rightData, heap)

end Heap

/-! ### Programs -/

inductive Cmd where
  | new
  | newInt (value : Int) (length : Nat)
  | newBytes (data : Bytes) (length : Option Nat)
  | newBits (other : Ref) (length : Option Nat)
  | append (self : Nat) (other : Ref)
  | appendInt (self : Nat) (value : Int) (length : Nat)
  | appendBytes (self : Nat) (data : Bytes) (length : Option Nat)
  | add (left right : Ref)
  | iadd (self : Nat) (other : Ref)
  | getSlice (self : Ref) (start stop : Option Int)
  | data (self : Ref)

def step (heap : Heap) : Cmd → Except Error Heap
  | .new => .ok (heap.alloc .empty)
  | .newInt value length => do
    let self ← BitString.ofInt value length
    return heap.alloc self
  | .newBytes data length => do
    let self ← BitString.ofBytes data length
    return heap.alloc self
  | .newBits other length => heap.clone other length
  | .append i other => heap.append i other
  | .appendInt i value length => do
    let self ← heap.object i
    let self ← self.appendInt value length
    return heap.put i self
  | .appendBytes i data length => do
    let self ← heap.object i
    let self ← self.appendBytes data length
    return heap.put i self
  | .add left right => heap.add left right
  | .iadd i other => heap.iadd i other
  | .getSlice self start stop => heap.getSlice self start stop
  | .data self => do
    let (_, heap) ← heap.data self
    return heap

def run (program : List Cmd) : Except Error Heap := program.foldlM step .empty

end Acrobe.Storage
