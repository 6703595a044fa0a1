import Acrobe.BitString.Storage
import Acrobe.Lib.Exceptional

/-!
# Bit strings over shared buffers

The chunks of a `BitString` are references. Immutable `bytes` may be shared freely; a `bytearray`
is a buffer on the heap that several objects can hold, and an assignment to a bit may write into
it. The pure Python classes and the extension module run the same statements, the second with C
integers in some places, so both are one program with the implementation as a parameter.

An operation that raises keeps the changes it has made before.
-/

namespace Acrobe.Sharing
open LittleEndian
open Acrobe.Storage (BitStringSlice Ref mask ljust)

inductive Error where
  | overflowError
  | indexError
  | valueError
  | assertionError
  | nameError
  deriving DecidableEq

/-! ### The heap -/

inductive Chunk where
  | bytes (data : Bytes)
  | array (k : Nat)
  deriving DecidableEq

/-- A `bytearray`; `given` tells those that the caller made from those that the class made. -/
structure Buffer where
  data : Bytes
  given : Bool

structure BitString where
  bytes : List Chunk
  lastByte : UInt8
  length : Nat
  dataCache : Option Bytes

def BitString.empty : BitString := { bytes := [], lastByte := 0, length := 0, dataCache := none }

structure Heap where
  arrays : List Buffer
  objects : List BitString
  slices : List BitStringSlice

namespace Heap

def empty : Heap := { arrays := [], objects := [], slices := [] }

def contents (heap : Heap) : Chunk → Bytes
  | .bytes data => data
  | .array k =>
    match heap.arrays[k]? with
    | some buffer => buffer.data
    | none => []

def joined (heap : Heap) (self : BitString) : Bytes := (self.bytes.map heap.contents).flatten

def flat (heap : Heap) (self : BitString) : Bytes :=
  if self.length % 8 ≠ 0 then heap.joined self ++ [self.lastByte] else heap.joined self

end Heap

abbrev Exec := EStateM Error Heap

/-! ### The two implementations -/

/-- The pure Python classes, or the extension module. `past value i` is the outcome of
`value & (1 << i)` where C leaves the shift undefined. -/
inductive Impl where
  | python
  | cython (past : Nat → Nat → Bool)

namespace Impl

/-- Conversion of a Python integer to a `cdef int`. -/
def cint : Impl → Int → Exec Int
  | .python, value => pure value
  | .cython _, value => if -2 ^ 31 ≤ value ∧ value < 2 ^ 31 then pure value else throw .overflowError

/-- The result of `cdef int` arithmetic. -/
def wrap : Impl → Int → Int
  | .python, value => value
  | .cython _, value => (value + 2 ^ 31) % 2 ^ 32 - 2 ^ 31

/-- `value & (1 << i)`. The C shift by 31 is negative, so all bits from 31 on pass its mask. -/
def testBit : Impl → Nat → Nat → Bool
  | .python, value, i => value.testBit i
  | .cython past, value, i =>
    if i < 31 then value.testBit i else if i = 31 then value / 2 ^ 31 != 0 else past value i

/-- `int` of an empty object is 0 without a look at its data. -/
def skipsEmpty : Impl → Bool
  | .python => false
  | .cython _ => true

/-- The `data` property checks the length it has joined. -/
def asserts : Impl → Bool
  | .python => true
  | .cython _ => false

end Impl

/-! ### Access to the heap -/

def object (i : Nat) : Exec BitString := do
  match (← get).objects[i]? with
  | some self => return self
  | none => throw .nameError

def slice (i : Nat) : Exec BitStringSlice := do
  match (← get).slices[i]? with
  | some self => return self
  | none => throw .nameError

def put (i : Nat) (self : BitString) : Exec Unit :=
  modify fun heap => { heap with objects := heap.objects.set i self }

def alloc (self : BitString) : Exec Ref :=
  modifyGet fun heap => (.object heap.objects.length, { heap with objects := heap.objects ++ [self] })

def allocArray (data : Bytes) (given : Bool) : Exec Nat :=
  modifyGet fun heap => (heap.arrays.length, { heap with arrays := heap.arrays ++ [⟨data, given⟩] })

def allocSlice (self : BitStringSlice) : Exec Ref :=
  modifyGet fun heap => (.slice heap.slices.length, { heap with slices := heap.slices ++ [self] })

/-- An object that is dropped again when its constructor raises. -/
def build (self : BitString) (fill : Nat → Exec Unit) : Exec Ref := fun heap =>
  match fill heap.objects.length { heap with objects := heap.objects ++ [self] } with
  | .ok _ after => .ok (.object heap.objects.length) after
  | .error error after => .error error { after with objects := after.objects.take heap.objects.length }

def toBytes (value length : Nat) : Exec Bytes :=
  if value < 256 ^ length then pure (split value length) else throw .overflowError

/-- `data[-1]`. -/
def lastOf (data : Bytes) : Exec UInt8 :=
  match data.getLast? with
  | some byte => pure byte
  | none => throw .indexError

/-- `byte |= 1 << bit` or `byte &= ~(1 << bit)`. -/
def setBit (byte : UInt8) (bit : Nat) (value : Bool) : UInt8 :=
  if value then byte ||| UInt8.ofNat (1 <<< bit) else byte &&& ~~~ UInt8.ofNat (1 <<< bit)

def writeBit (k byteIdx bitIdx : Nat) (value : Bool) : Exec Unit := do
  let heap ← get
  if byteIdx < (heap.contents (.array k)).length then
    set { heap with
      arrays := heap.arrays.modify k fun buffer =>
        { buffer with data := buffer.data.modify byteIdx fun byte => setBit byte bitIdx value } : Heap }
  else throw .indexError

section
variable (impl : Impl)

/-! ### Reading -/

def objectData (i : Nat) : Exec Bytes := do
  let self ← object i
  match self.dataCache with
  | some cached => return cached
  | none =>
    let data := (← get).flat self
    put i { self with dataCache := some data }
    if impl.asserts ∧ ¬self.length ≤ data.length * 8 then throw .assertionError else return data

def len : Ref → Exec Nat
  | .object i => do
    let self ← object i
    return self.length
  | .slice i => do
    let self ← slice i
    return self.stop - self.start

/-- `data[start:stop]`, a negative bound counts from the end. -/
def bytesBetween (data : Bytes) (start : Nat) (stop : Int) : Bytes :=
  (data.take (if stop < 0 then stop + data.length else stop).toNat).drop start

def int : Ref → Exec Nat
  | .object i => do
    let self ← object i
    if impl.skipsEmpty ∧ self.length = 0 then return 0
    else
      let data ← objectData impl i
      return mask (combine data) self.length
  | .slice i => do
    let self ← slice i
    if self.stop - self.start = 0 then return 0
    else
      let data ← objectData impl self.bs
      let blob := bytesBetween data (self.start / 8) (impl.wrap (self.stop + 7) / 8)
      return mask (combine blob >>> (self.start % 8) : Nat) (self.stop - self.start)

def data : Ref → Exec Bytes
  | .object i => objectData impl i
  | .slice i => do
    let self ← slice i
    let length := self.stop - self.start
    if length = 0 then return []
    else if self.start % 8 = 0 ∧ length % 8 = 0 then
      let data ← objectData impl self.bs
      return (data.take (self.start / 8 + length / 8)).drop (self.start / 8)
    else
      let value ← int impl (.slice i)
      toBytes value ((length + 7) / 8)

/-- `data[k]`, a negative index counts from the end. -/
def byteAt (data : Bytes) (k : Int) : Exec UInt8 :=
  let k := if k < 0 then k + data.length else k
  if k < 0 then throw .indexError
  else
    match data[k.toNat]? with
    | some byte => pure byte
    | none => throw .indexError

/-- An object checks the index against its length; a slice leaves it to the data of its root. -/
def getItem (self : Ref) (offset : Int) : Exec Bool := do
  let length ← len self
  let offset := if offset < 0 then offset + length else offset
  match self with
  | .object i =>
    if ¬(0 ≤ offset ∧ offset < length) then throw .indexError
    else
      let data ← objectData impl i
      let byte ← byteAt data (offset / 8)
      return byte.toNat >>> (offset % 8).toNat % 2 == 1
  | .slice i =>
    let base ← slice i
    let absolute ← impl.cint (base.start + offset)
    let data ← objectData impl base.bs
    let byte ← byteAt data (absolute / 8)
    return byte.toNat &&& 1 <<< (absolute % 8).toNat != 0

def eq (left right : Ref) : Exec Bool := do
  let leftLen ← len left
  let rightLen ← len right
  if leftLen ≠ rightLen then return false
  else
    let leftData ← data impl left
    let rightData ← data impl right
    return leftData == rightData

/-- The bound that `__getitem__` and `__setitem__` compute from `start` or `stop`. -/
def bound (value : Option Int) (missing length : Nat) : Exec Nat :=
  match value with
  | none => return min missing length
  | some value => do
    let value ← impl.cint (if value < 0 then value + length else value)
    return (max 0 (min value length)).toNat

/-! ### Appending -/

/-- `data[:-1]`, an object of the same type. -/
def shorten (data : Chunk) : Exec Chunk := do
  match data with
  | .bytes raw => return .bytes raw.dropLast
  | .array k =>
    let k ← allocArray ((← get).contents (.array k)).dropLast false
    return .array k

/-- The end of `append`. -/
def finishAppend (i : Nat) (data : Chunk) (length : Nat) : Exec Unit := do
  let self ← object i
  let total ← impl.cint (self.length + length : Nat)
  let self := { self with length := total.toNat }
  if self.length % 8 ≠ 0 then
    match ((← get).contents data).getLast? with
    | some last =>
      let chunk ← shorten data
      put i { self with bytes := self.bytes ++ [chunk], lastByte := last, dataCache := none }
    | none =>
      put i self
      throw .indexError
  else put i { self with bytes := self.bytes ++ [data], lastByte := 0, dataCache := none }

/-- An append behind a partial byte: the new data is shifted up and merged with it. The path for
bytes clears the partial byte before `to_bytes` can raise. -/
def merge (i : Nat) (clears : Bool) (value length : Nat) : Exec Unit := do
  let self ← object i
  let carry := self.length % 8
  put i { self with length := self.length / 8 * 8, lastByte := if clears then 0 else self.lastByte }
  let raw ← toBytes (value <<< carry ||| self.lastByte.toNat) ((length + carry + 7) / 8)
  finishAppend impl i (.bytes raw) (length + carry)

/-- `data.ljust(width, b'\x00')`; for a `bytearray` always a copy. -/
def justified (data : Chunk) (width : Nat) : Exec Chunk := do
  let raw := ljust ((← get).contents data) width
  match data with
  | .bytes _ => return .bytes raw
  | .array _ =>
    let k ← allocArray raw false
    return .array k

def appendBytes (i : Nat) (data : Chunk) (length : Option Nat) : Exec Unit := do
  let bits := length.getD (((← get).contents data).length * 8)
  let data ← match length with
    | none => pure data
    | some bits => justified data ((bits + 7) / 8)
  let self ← object i
  if self.length % 8 ≠ 0 then merge impl i true (combine ((← get).contents data)) bits
  else finishAppend impl i data bits

def appendInt (i : Nat) (value : Int) (length : Nat) : Exec Unit := do
  let self ← object i
  let data := Storage.BitString.truncate value length
  if self.length % 8 ≠ 0 then merge impl i false data length
  else
    let raw ← toBytes data ((length + 7) / 8)
    finishAppend impl i (.bytes raw) length

def append (i : Nat) (other : Ref) : Exec Unit := do
  let length ← len other
  let self ← object i
  if self.length % 8 ≠ 0 then
    let value ← int impl other
    appendInt impl i value length
  else
    let raw ← data impl other
    appendBytes impl i (.bytes raw) (some length)

/-! ### Construction -/

/-- The fast paths of the constructor: the last byte is kept apart when it is partial. -/
def placed (raw : Bytes) (length : Nat) (cache : Option Bytes) : Exec BitString := do
  if length % 8 ≠ 0 then
    let last ← lastOf raw
    let total ← impl.cint length
    return { bytes := [.bytes raw.dropLast], lastByte := last, length := total.toNat, dataCache := cache }
  else
    let total ← impl.cint length
    return { bytes := [.bytes raw], lastByte := 0, length := total.toNat, dataCache := cache }

def newInt (value : Int) (length : Nat) : Exec Ref := do
  let raw ← toBytes (Storage.BitString.truncate value length) ((length + 7) / 8)
  let self ← placed impl raw length (if length ≠ 0 then some raw else none)
  alloc self

def newBytes (data : Chunk) (length : Option Nat) : Exec Ref := do
  let raw := (← get).contents data
  match length with
  | some bits =>
    if raw.length = (bits + 7) / 8 then
      let self ← placed impl raw bits (some raw)
      alloc self
    else build .empty fun i => appendBytes impl i data (some bits)
  | none => build .empty fun i => appendBytes impl i data none

/-- `BitString(other)`: an object without an explicit length is cloned, its chunks are shared. -/
def clone (other : Ref) (length : Option Nat) : Exec Ref := do
  match other, length with
  | .object i, none =>
    let self ← object i
    alloc self
  | _, _ =>
    let _ ← len other
    build .empty fun i => append impl i other

def add (left right : Ref) : Exec Ref := do
  match left with
  | .object i =>
    let self ← object i
    let otherLen ← len right
    if otherLen = 0 then alloc self
    else if self.length = 0 then
      match right with
      | .object j =>
        let other ← object j
        alloc other
      | .slice _ =>
        let value ← int impl right
        newInt impl value otherLen
    else if self.length + otherLen ≤ 256 then
      let low ← int impl left
      let high ← int impl right
      newInt impl (low ||| high <<< self.length : Nat) (self.length + otherLen)
    else build self fun j => append impl j right
  | .slice _ =>
    let value ← int impl left
    let length ← len left
    let raw ← toBytes (Storage.BitString.truncate value length) ((length + 7) / 8)
    let self ← placed impl raw length (if length ≠ 0 then some raw else none)
    let _ ← len right
    build self fun j => append impl j right

def iadd (i : Nat) (other : Ref) : Exec Unit := do
  let self ← object i
  match other with
  | .object j =>
    let source ← object j
    if self.length = 0 then put i { source with dataCache := none }
    else if source.length ≠ 0 then append impl i other
  | .slice _ =>
    let otherLen ← len other
    if otherLen ≠ 0 then append impl i other

def getSlice (self : Ref) (start stop : Option Int) : Exec Ref := do
  let length ← len self
  let b ← bound impl start 0 length
  let e ← bound impl stop length length
  if e ≤ b then newInt impl 0 0
  else
    match self with
    | .object i => allocSlice ⟨i, b, e⟩
    | .slice i =>
      let base ← slice i
      allocSlice ⟨base.bs, base.start + b, base.start + e⟩

/-! ### Assignment -/

/-- The `bytearray` that is the only chunk; the chunks are joined into a new one when there is none. -/
def soleArray (i : Nat) : Exec Nat := do
  let self ← object i
  match self.bytes with
  | [.array k] => return k
  | _ =>
    let k ← allocArray ((← get).joined self) false
    put i { self with bytes := [.array k] }
    return k

def setItem (i : Nat) (offset : Int) (value : Bool) : Exec Unit := do
  let self ← object i
  let offset := if offset < 0 then offset + self.length else offset
  if ¬(0 ≤ offset ∧ offset < self.length) then throw .indexError
  else
    let byteIdx := (offset / 8).toNat
    let bitIdx := (offset % 8).toNat
    let boundary ← impl.cint ((← get).joined self).length
    if byteIdx < boundary then
      let k ← soleArray i
      writeBit k byteIdx bitIdx value
      let self ← object i
      put i { self with dataCache := none }
    else put i { self with lastByte := setBit self.lastByte bitIdx value, dataCache := none }

def coalesce (i : Nat) : Exec Nat := do
  let self ← object i
  let k ← allocArray ((← get).flat self) false
  put i { self with bytes := [.array k], lastByte := 0, dataCache := none }
  return k

/-- `for i in range(slice_len)`. -/
def writeBits (k b value : Nat) : Nat → Nat → Exec Unit
  | 0, _ => return ()
  | count + 1, i => do
    writeBit k ((b + i) / 8) ((b + i) % 8) (impl.testBit value i)
    writeBits k b value count (i + 1)

/-- The last byte is kept apart again when it is partial. -/
def resplit (i k : Nat) : Exec Unit := do
  let self ← object i
  let flat := (← get).contents (.array k)
  if self.length % 8 ≠ 0 then
    let last ← lastOf flat
    let k ← allocArray flat.dropLast false
    put i { self with bytes := [.array k], lastByte := last, dataCache := none }
  else put i { self with bytes := [.array k], lastByte := 0, dataCache := none }

def setSlice (i : Nat) (start stop : Option Int) (value : Ref) : Exec Unit := do
  let self ← object i
  let b ← bound impl start 0 self.length
  let e ← bound impl stop self.length self.length
  let valueLen ← len value
  if (valueLen : Int) ≠ (e : Int) - b then throw .valueError
  else if e = b then return ()
  else
    let k ← coalesce i
    let bits ← int impl value
    writeBits impl k b bits (e - b) 0
    resplit i k

end

/-! ### Programs -/

inductive Cmd where
  | newArray (data : Bytes)
  | new
  | newInt (value : Int) (length : Nat)
  | newBytes (data : Chunk) (length : Option Nat)
  | newBits (other : Ref) (length : Option Nat)
  | append (self : Nat) (other : Ref)
  | appendInt (self : Nat) (value : Int) (length : Nat)
  | appendBytes (self : Nat) (data : Chunk) (length : Option Nat)
  | add (left right : Ref)
  | iadd (self : Nat) (other : Ref)
  | getSlice (self : Ref) (start stop : Option Int)
  | getItem (self : Ref) (offset : Int)
  | setItem (self : Nat) (offset : Int) (value : Bool)
  | setSlice (self : Nat) (start stop : Option Int) (value : Ref)
  | len (self : Ref)
  | int (self : Ref)
  | data (self : Ref)
  | eq (left right : Ref)

inductive Value where
  | none
  | array (k : Nat)
  | ref (ref : Ref)
  | bool (value : Bool)
  | int (value : Nat)
  | bytes (data : Bytes)
  deriving DecidableEq

/-- Only the arrays that the caller made are in its hands. -/
def borrow : Chunk → Exec Unit
  | .bytes _ => pure ()
  | .array k => do
    match (← get).arrays[k]? with
    | some buffer => if buffer.given then pure () else throw .nameError
    | none => throw .nameError

def step (impl : Impl) : Cmd → Exec Value
  | .newArray data => return .array (← allocArray data true)
  | .new => return .ref (← alloc .empty)
  | .newInt value length => return .ref (← newInt impl value length)
  | .newBytes data length => do
    borrow data
    return .ref (← newBytes impl data length)
  | .newBits other length => return .ref (← clone impl other length)
  | .append i other => do
    append impl i other
    return .none
  | .appendInt i value length => do
    appendInt impl i value length
    return .none
  | .appendBytes i data length => do
    borrow data
    appendBytes impl i data length
    return .none
  | .add left right => return .ref (← add impl left right)
  | .iadd i other => do
    iadd impl i other
    return .none
  | .getSlice self start stop => return .ref (← getSlice impl self start stop)
  | .getItem self offset => return .bool (← getItem impl self offset)
  | .setItem i offset value => do
    setItem impl i offset value
    return .none
  | .setSlice i start stop value => do
    setSlice impl i start stop value
    return .none
  | .len self => return .int (← len self)
  | .int self => return .int (← int impl self)
  | .data self => return .bytes (← data impl self)
  | .eq left right => return .bool (← eq impl left right)

def outcome {α : Type} (x : Exec α) (heap : Heap) : Except Error α × Heap :=
  match x heap with
  | .ok value after => (.ok value, after)
  | .error error after => (.error error, after)

/-- A program goes on after a command that raises. -/
def run (impl : Impl) (heap : Heap) : List Cmd → List (Except Error Value) × Heap
  | [] => ([], heap)
  | cmd :: program =>
    let here := outcome (step impl cmd) heap
    let later := run impl here.2 program
    (here.1 :: later.1, later.2)

end Acrobe.Sharing
