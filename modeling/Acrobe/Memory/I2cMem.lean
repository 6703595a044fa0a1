import Mathlib
import Acrobe.Memory.BlobBatch

/-!
# Memories on an I2C bus

`I2cMem` serves blobs from a memory whose transfers begin with an address. The high bits of an address that has more
bits than its prefix go to the slave address. Writes are split at the pages of the device, reads at its banks.
-/

namespace Acrobe.Memory.I2c
open LittleEndian Acrobe.Lib

/-! ### Configuration -/

/-- The parameters of the constructor, which are also the keys of `option_set`. -/
structure Options where
  saddr : Option Int
  addrBytes : Option Int
  saddrBits : Int
  totalSize : Option Int
  pageSize : Option Int
  readChunk : Option Int

inductive StartError where
  | noSlaveAddress
  | notSevenBit (saddr : Int)
  | addrBytesOutside (addrBytes : Int)
  | pageSizeNotPositive
  | readChunkNotPositive
  | pageSizeDoesNotDivide (pageSize bank : Nat)
  | negativeShiftCount
  | sizeExceeds (totalSize : Int) (maxSize : Nat)

/-- A memory whose configuration `start` has accepted. -/
structure I2cMem where
  saddr : Nat
  addrBytes : Nat
  saddrBits : Nat
  totalSize : Int
  pageSize : Nat
  readChunk : Nat
  sevenBit : saddr ≤ 0x7f
  prefixed : 1 ≤ addrBytes ∧ addrBytes ≤ 4
  paged : 1 ≤ pageSize
  chunked : 1 ≤ readChunk
  divides : pageSize ∣ 1 <<< (addrBytes * 8)
  addressable : totalSize ≤ ((1 <<< (addrBytes * 8) <<< saddrBits : Nat) : Int)

def defaultAddrBytes : Int := 2

def defaultPageSize : Int := 16

def defaultReadChunk : Int := 256

theorem sevenBit_of {saddr : Int} (fits : ¬¬(0 ≤ saddr ∧ saddr ≤ 0x7f)) : saddr.toNat ≤ 0x7f := by omega

theorem prefixed_of {addrBytes : Int} (fits : ¬¬(1 ≤ addrBytes ∧ addrBytes ≤ 4)) :
    1 ≤ addrBytes.toNat ∧ addrBytes.toNat ≤ 4 := by omega

theorem positive_of {n : Int} (positive : ¬n < 1) : 1 ≤ n.toNat := by omega

theorem divides_of {bank : Nat} {pageSize : Int} (divides : ¬bank % pageSize.toNat ≠ 0) : pageSize.toNat ∣ bank :=
  Nat.dvd_of_mod_eq_zero (Decidable.not_not.mp divides)

theorem addressable_of {maxSize : Nat} {totalSize : Int} (fits : ¬(maxSize : Int) < totalSize) : totalSize ≤ maxSize :=
  Int.not_lt.mp fits

/-- The checks of `start`, in their order. -/
def start (options : Options) : Except StartError I2cMem :=
  match options.saddr with
  | none => .error .noSlaveAddress
  | some saddr =>
    let addrBytes := options.addrBytes.getD defaultAddrBytes
    let pageSize := options.pageSize.getD defaultPageSize
    let readChunk := options.readChunk.getD defaultReadChunk
    let bank := 1 <<< (addrBytes.toNat * 8)
    let maxSize := bank <<< options.saddrBits.toNat
    let totalSize := options.totalSize.getD maxSize
    if sevenBit : ¬(0 ≤ saddr ∧ saddr ≤ 0x7f) then .error (.notSevenBit saddr)
    else if prefixed : ¬(1 ≤ addrBytes ∧ addrBytes ≤ 4) then .error (.addrBytesOutside addrBytes)
    else if paged : pageSize < 1 then .error .pageSizeNotPositive
    else if chunked : readChunk < 1 then .error .readChunkNotPositive
    else if divides : bank % pageSize.toNat ≠ 0 then .error (.pageSizeDoesNotDivide pageSize.toNat bank)
    else if options.saddrBits < 0 then .error .negativeShiftCount
    else if addressable : (maxSize : Int) < totalSize then .error (.sizeExceeds totalSize maxSize)
    else
      .ok
        { saddr := saddr.toNat
          addrBytes := addrBytes.toNat
          saddrBits := options.saddrBits.toNat
          totalSize
          pageSize := pageSize.toNat
          readChunk := readChunk.toNat
          sevenBit := sevenBit_of sevenBit
          prefixed := prefixed_of prefixed
          paged := positive_of paged
          chunked := positive_of chunked
          divides := @divides_of bank pageSize divides
          addressable := @addressable_of maxSize totalSize addressable }

namespace I2cMem

def bankSize (mem : I2cMem) : Nat := 1 <<< (mem.addrBytes * 8)

/-! ### Wire encoding -/

/-- The slave address of a byte, and the prefix that goes before the data: `saddr & ~((1 << saddr_bits) - 1)` clears
the bits of the bank. -/
def addressEncode (mem : I2cMem) (addr : Nat) : Nat × Bytes :=
  let lowMask := mem.bankSize - 1
  let bank := addr >>> (mem.addrBytes * 8)
  ((mem.saddr >>> mem.saddrBits <<< mem.saddrBits) ||| bank, (split (addr &&& lowMask) mem.addrBytes).reverse)

end I2cMem

/-- One transfer from start to stop. -/
structure Transfer where
  addr : Nat
  dataW : Bytes
  sizeR : Nat
  deriving DecidableEq

abbrev Transaction := List Transfer

/-- A transaction on the bus, and the item whose result goes to a sub-future; the future of a write is attached
itself. -/
structure Posted where
  tx : Transaction
  item : Option Nat

def makeTransaction (transfer : Transfer) : Transaction := [transfer]

/-- `__item_index` -/
def itemIndex (tx : Transaction) (item : Transfer) : Option Nat := tx.findIdx? (· = item)

/-! ### Lowering -/

inductive Op where
  | readBlob (addr size : Int)
  | writeBlob (addr : Int) (data : Bytes)

/-- `ValueError`: the range that is outside. -/
structure Refused where
  addr : Int
  size : Int

namespace I2cMem

/-- Chunks that neither exceed `read_chunk` nor cross a bank: the offset, the address and the size. -/
def readChunks (mem : I2cMem) (addr size : Nat) : Nat → Nat → List (Nat × Nat × Nat)
  | 0, _ => []
  | fuel + 1, offset =>
    if offset < size then
      let cursor := addr + offset
      let count := min (min mem.readChunk (size - offset)) (mem.bankSize - cursor % mem.bankSize)
      (offset, cursor, count) :: readChunks mem addr size fuel (offset + count)
    else []

/-- The payload, split at the page boundaries. -/
def writeChunks (mem : I2cMem) (addr : Nat) (data : Bytes) : Nat → Nat → List (Nat × Nat × Bytes)
  | 0, _ => []
  | fuel + 1, offset =>
    if offset < data.length then
      let cursor := addr + offset
      let count := min (mem.pageSize - cursor % mem.pageSize) (data.length - offset)
      (offset, cursor, (data.drop offset).take count) :: writeChunks mem addr data fuel (offset + count)
    else []

/-- The check of `__range_check`. -/
def InRange (mem : I2cMem) (addr size : Int) : Prop := ¬(addr < 0 ∨ size < 0 ∨ mem.totalSize < addr + size)

instance (mem : I2cMem) (addr size : Int) : Decidable (mem.InRange addr size) := instDecidableNot

def readPart (mem : I2cMem) (chunk : Nat × Nat × Nat) : Part Posted :=
  let (saddr, front) := mem.addressEncode chunk.2.1
  let transfer : Transfer := ⟨saddr, front, chunk.2.2⟩
  let tx := makeTransaction transfer
  ⟨⟨tx, itemIndex tx transfer⟩, chunk.1, chunk.2.2⟩

def writePart (mem : I2cMem) (chunk : Nat × Nat × Bytes) : Part Posted :=
  let (saddr, front) := mem.addressEncode chunk.2.1
  let transfer : Transfer := ⟨saddr, front ++ chunk.2.2, 0⟩
  ⟨⟨makeTransaction transfer, none⟩, chunk.1, chunk.2.2.length⟩

/-- `__lower_read` and `__lower_write`; a blob without bytes has no parts, and its caller gets the result at once. -/
def lower (mem : I2cMem) (op : Op) (wanted : Bool) : Except Refused (Lowering Posted) :=
  match op with
  | .readBlob addr size =>
    if mem.InRange addr size then
      .ok ⟨(mem.readChunks addr.toNat size.toNat size.toNat 0).map mem.readPart, size.toNat, true, wanted⟩
    else .error ⟨addr, size⟩
  | .writeBlob addr data =>
    if mem.InRange addr data.length then
      .ok ⟨(mem.writeChunks addr.toNat data data.length 0).map mem.writePart, data.length, false, wanted⟩
    else .error ⟨addr, data.length⟩

/-- `flush_ops`: the exception of an operation goes to its future, and leaves the loop where there is none. -/
def flushOps (mem : I2cMem) : List (Op × Bool) → List (Except Refused (Lowering Posted))
  | [] => []
  | (op, wanted) :: batch =>
    match mem.lower op wanted with
    | .ok lowering => .ok lowering :: flushOps mem batch
    | .error refused => if wanted then .error refused :: flushOps mem batch else []

/-- What an operation has on the bus: nothing where it is refused. -/
def onBus : Except Refused (Lowering Posted) → Lowering Posted
  | .ok lowering => lowering
  | .error _ => ⟨[], 0, false, false⟩

def posted (mem : I2cMem) (batch : List (Op × Bool)) : List Transaction :=
  ((mem.flushOps batch).map onBus).flatMap fun lowering => lowering.parts.map fun part => part.tx.tx

/-! ### The device -/

/-- One transfer: the prefix sets the address counter, the payload goes to the page around it, and the bytes read come
from the bank around it. Nobody answers at other slave addresses. -/
def transfer (mem : I2cMem) (memory : ByteMemory) (transfer : Transfer) : ByteMemory × Option Bytes :=
  if transfer.addr >>> mem.saddrBits = mem.saddr >>> mem.saddrBits then
    let bank := transfer.addr % 2 ^ mem.saddrBits
    let low := combine (transfer.dataW.take mem.addrBytes).reverse
    let payload := transfer.dataW.drop mem.addrBytes
    let pos := bank * mem.bankSize + low
    let counter := Nat.iterate (ByteMemory.advance mem.pageSize) payload.length pos
    let after := memory.writeWrapped mem.pageSize pos payload
    (after, some (after.readWrapped mem.bankSize counter transfer.sizeR))
  else (memory, none)

/-- The items of a transaction in order; one that is not acknowledged aborts those after it. -/
def transaction (mem : I2cMem) (memory : ByteMemory) : Transaction → ByteMemory × Option (List Bytes)
  | [] => (memory, some [])
  | item :: items =>
    let here := mem.transfer memory item
    match here.2 with
    | none => (here.1, none)
    | some data =>
      let rest := transaction mem here.1 items
      (rest.1, rest.2.map (data :: ·))

/-- A transaction that was posted, and what its future completes with; `nack` is the exception of the bus. -/
def run (mem : I2cMem) (nack : Error) (memory : ByteMemory) (posted : Posted) : ByteMemory × Except Error Result :=
  let ran := mem.transaction memory posted.tx
  (ran.1,
    match ran.2 with
    | none => .error nack
    | some results =>
      match posted.item with
      | none => .ok .none
      | some i => .ok (.bytes (results.getD i [])))

inductive Failure where
  | valueError (refused : Refused)
  | bus (error : Error)

structure Flushed where
  memory : ByteMemory
  users : Nat → Option (Except Failure Result)

/-- A batch on the bus, its transactions completing in the given order. -/
def flush (mem : I2cMem) (nack : Error) (memory : ByteMemory) (batch : List (Op × Bool)) (order : List Nat) : Flushed :=
  let flushed := mem.flushOps batch
  let ran := runBatch (mem.run nack) memory (flushed.map onBus) order
  { memory := ran.memory
    users := fun i =>
      match flushed[i]? with
      | some (.error refused) => some (.error (.valueError refused))
      | _ => (ran.users i).map fun result => result.mapError .bus }

/-! ### The reference -/

def Op.range : Op → Int × Int
  | .readBlob addr size => (addr, size)
  | .writeBlob addr data => (addr, data.length)

def Accepts (mem : I2cMem) (op : Op) : Prop := mem.InRange (Op.range op).1 (Op.range op).2

instance (mem : I2cMem) (op : Op) : Decidable (mem.Accepts op) :=
  inferInstanceAs (Decidable (mem.InRange (Op.range op).1 (Op.range op).2))

def exec (mem : I2cMem) (memory : ByteMemory) (op : Op) : ByteMemory × Except Failure Result :=
  if mem.Accepts op then
    match op with
    | .readBlob addr size => (memory, .ok (.bytes (memory.read addr.toNat size.toNat)))
    | .writeBlob addr data => (memory.write addr.toNat data, .ok .none)
  else (memory, .error (.valueError ⟨(Op.range op).1, (Op.range op).2⟩))

def execAll (mem : I2cMem) (memory : ByteMemory) : List Op → ByteMemory × List (Except Failure Result)
  | [] => (memory, [])
  | op :: ops =>
    let here := mem.exec memory op
    let rest := execAll mem here.1 ops
    (rest.1, here.2 :: rest.2)

end I2cMem
end Acrobe.Memory.I2c
