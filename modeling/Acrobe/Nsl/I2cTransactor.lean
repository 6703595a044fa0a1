import Mathlib
import Acrobe.Nsl.Batch

/-!
# The I2C transactor codec

`I2cTransactor` encodes transactions for the NSL transactor, one transfer between a START and a STOP, and takes the
acknowledges and the read bytes of each transfer out of the response.
-/

namespace Acrobe.Nsl
open LittleEndian CommandStream

namespace I2cTransactor

structure Transfer where
  addr : Int
  dataW : Bytes
  sizeR : Nat

inductive Item where
  | transfer (transfer : Transfer)
  | waitAck
  | other (typeName : String)

inductive Op where
  | transaction (items : List Item)
  | other (typeName : String)

inductive EncodeError where
  | typeError (message : String)
  | notImplementedError (message : String)
  | valueError (message : String)

/-! ### Commands -/

def cmdDiv : Nat := 0x00
def cmdStart : UInt8 := 0x20
def cmdStop : UInt8 := 0x21
def cmdWrite : Nat := 0x40
def cmdReadNack : Nat := 0x80
def cmdReadAck : Nat := 0xc0

def maxChunk : Nat := 0x40

/-! ### The codec -/

/-- `__TransferGather`. -/
structure TransferGather where
  opIdx : Nat
  itemIdx : Nat
  addrWRspOffset : Nat
  addrRRspOffset : Nat
  writeRspOffset : Nat
  writeSize : Nat
  readRspOffset : Nat
  readSize : Nat
  addr : Int

abbrev Encoding := CommandStream.Encoding UInt8 TransferGather

structure Codec where
  divisor : Nat
  rateDirty : Bool
  inRange : 2 ≤ divisor ∧ divisor ≤ 0x1f

def Codec.contextForceRefresh (self : Codec) : Codec := { self with rateDirty := true }

/-- `__divisor_for`, with the quotient that it rounds up; `none` where no frequency is given. -/
def divisorFor (d : Option Int) : Nat :=
  match d with
  | none => 0x1f
  | some d => (max 2 (min d 0x1f)).toNat

theorem divisorFor_inRange (d : Option Int) : 2 ≤ divisorFor d ∧ divisorFor d ≤ 0x1f := by
  cases d with
  | none => decide
  | some d =>
    show 2 ≤ (max 2 (min d 0x1f)).toNat ∧ (max 2 (min d 0x1f)).toNat ≤ 0x1f
    omega

def Codec.new (d : Int) : Codec := ⟨divisorFor (some d), true, divisorFor_inRange _⟩

def Codec.freqUpdate (self : Codec) (d : Option Int) : Codec :=
  if divisorFor d = self.divisor then self
  else { self with divisor := divisorFor d, rateDirty := true, inRange := divisorFor_inRange d }

/-- A command that writes bytes, with the status of each. -/
def emitWrite (acc : Encoding) (data : Bytes) : Encoding :=
  { acc with cmd := acc.cmd ++ UInt8.ofNat (cmdWrite ||| (data.length - 1)) :: data, rspSize := acc.rspSize + data.length }

/-- The payload of a write, in chunks. -/
def encodePayload (acc : Encoding) (data : Bytes) : Encoding :=
  match data with
  | [] => acc
  | byte :: rest => encodePayload (emitWrite acc ((byte :: rest).take maxChunk)) ((byte :: rest).drop maxChunk)
termination_by data.length
decreasing_by
  rw [List.length_drop, List.length_cons, maxChunk]
  omega

/-- The reads, of which the last one ends with a NACK. -/
def encodeReads (acc : Encoding) (remaining : Nat) : Encoding :=
  if 0 < remaining then
    let chunk := min remaining maxChunk
    let base := if remaining - chunk = 0 then cmdReadNack else cmdReadAck
    encodeReads ⟨acc.cmd ++ [UInt8.ofNat (base ||| (chunk - 1))], acc.rspSize + chunk, acc.gather⟩ (remaining - chunk)
  else acc
termination_by remaining
decreasing_by
  rw [maxChunk]
  omega

/-- `(t.addr << 1) & 0xfe` -/
def writeAddress (addr : Int) : UInt8 := UInt8.ofNat (addr * 2 % 256).toNat

/-- `(t.addr << 1) | 0x01`, or `none` where it is no byte. -/
def readAddress (addr : Int) : Option UInt8 :=
  if 0 ≤ addr * 2 + 1 ∧ addr * 2 + 1 < 256 then some (UInt8.ofNat (addr * 2 + 1).toNat) else none

/-- The write address and the payload; the places of their status bytes. -/
def encodeWrite (t : Transfer) (acc : Encoding) : Encoding × Nat × Nat :=
  if t.dataW = [] then (acc, 0, 0)
  else
    let addressed := emitWrite acc [writeAddress t.addr]
    (encodePayload addressed t.dataW, acc.rspSize, addressed.rspSize)

/-- The repeated START, the read address and the reads; the places of the status byte and of the data. -/
def encodeRead (t : Transfer) (acc : Encoding) : Except EncodeError (Encoding × Nat × Nat) :=
  if t.sizeR = 0 then .ok (acc, 0, 0)
  else
    let started := acc.emit [cmdStart]
    match readAddress t.addr with
    | none => .error (.valueError "byte must be in range(0, 256)")
    | some address =>
      let addressed := emitWrite started [address]
      .ok (encodeReads addressed t.sizeR, started.rspSize, addressed.rspSize)

def encodeTransfer (t : Transfer) (opIdx itemIdx : Nat) (acc : Encoding) : Except EncodeError Encoding :=
  let (acc, addrWOff, writeOff) := encodeWrite t (acc.emit [cmdStart])
  match encodeRead t acc with
  | .error error => .error error
  | .ok (acc, addrROff, readOff) =>
    let acc := acc.emit [cmdStop]
    .ok { acc with gather := acc.gather ++
      [⟨opIdx, itemIdx, addrWOff, addrROff, writeOff, t.dataW.length, readOff, t.sizeR, t.addr⟩] }

def encodeItem (opIdx : Nat) (item : Item) (itemIdx : Nat) (acc : Encoding) : Except EncodeError Encoding :=
  match item with
  | .waitAck => .error (.notImplementedError "I2cTransactor: WaitAck not supported")
  | .other typeName => .error (.typeError ("I2cTransactor cannot encode " ++ typeName))
  | .transfer t => encodeTransfer t opIdx itemIdx acc

def encodeOne (op : Op) (opIdx : Nat) (acc : Encoding) : Except EncodeError Encoding :=
  match op with
  | .other typeName => .error (.typeError ("I2cTransactor expects Transaction, got " ++ typeName))
  | .transaction items => encodeEach (encodeItem opIdx) acc items.zipIdx

def Codec.configure (self : Codec) : Codec × Encoding :=
  if self.rateDirty then ({ self with rateDirty := false }, Encoding.emit .start [UInt8.ofNat (cmdDiv ||| self.divisor)])
  else (self, .start)

def Codec.encode (self : Codec) (batch : List (BatchEntry Op)) : Codec × Except EncodeError Encoding :=
  let (self, acc) := self.configure
  (self, encodeEach encodeOne acc (batch.map BatchEntry.op).zipIdx)

/-! ### Results -/

inductive Failure where
  | addressNack (addr : Int)
  | dataNack (addr : Int)
  | indexError

/-- The status byte of an address, if there is one. -/
def checkAddress (response : Bytes) (size offset : Nat) (addr : Int) : Except Failure Unit :=
  if size = 0 then .ok ()
  else
    match response[offset]? with
    | none => .error .indexError
    | some status => if status = 0 then .error (.addressNack addr) else .ok ()

def decodeTransfer (g : TransferGather) (response : Bytes) : Except Failure (Option Bytes) :=
  match checkAddress response g.writeSize g.addrWRspOffset g.addr with
  | .error failure => .error failure
  | .ok () =>
    match checkAddress response g.readSize g.addrRRspOffset g.addr with
    | .error failure => .error failure
    | .ok () =>
      if g.writeSize ≠ 0 ∧ ¬((response.drop g.writeRspOffset).take g.writeSize).all (· ≠ 0) then
        .error (.dataNack g.addr)
      else .ok (if g.readSize = 0 then none else some ((response.drop g.readRspOffset).take g.readSize))

/-- The results of the transfers of a transaction so far, up to the first one that failed. -/
abbrev Outcome := Except Failure (List (Option Bytes))

/-- The transfers behind a failed one are not looked at. -/
def note (response : Bytes) (found : Option Outcome) (g : TransferGather) : Option Outcome :=
  match found.getD (.ok []) with
  | .error failure => some (.error failure)
  | .ok results =>
    match decodeTransfer g response with
    | .error failure => some (.error failure)
    | .ok result => some (.ok (results ++ [result]))

def decode (batch : List (BatchEntry Op)) (response : Bytes) (gather : List TransferGather) : List (Option Outcome) :=
  decodeEach (fun _ found => found.getD (.ok [])) (collect TransferGather.opIdx (note response) gather) batch

/-! ### The transactor -/

inductive Command where
  | div (value : Nat)
  | start
  | stop
  | write (data : Bytes)
  | read (ack : Bool) (count : Nat)

def fetch : Bytes → Option (Command × Bytes)
  | [] => none
  | code :: rest =>
    let n := code.toNat
    if n < 0x20 then some (.div n, rest)
    else if n < 0x40 then some (if n % 2 = 0 then .start else .stop, rest)
    else if n < 0x80 then
      if rest.length < n - 0x40 + 1 then none
      else some (.write (rest.take (n - 0x40 + 1)), rest.drop (n - 0x40 + 1))
    else if n < 0xc0 then some (.read false (n - 0x80 + 1), rest)
    else some (.read true (n - 0xc0 + 1), rest)

/-- The bus, byte by byte; a status byte is zero for a NACK. -/
structure Device (σ : Type) where
  start : σ → σ × UInt8
  stop : σ → σ × UInt8
  write : σ → UInt8 → σ × UInt8
  read : σ → (ack : Bool) → σ × UInt8
  div : σ → Nat → σ × UInt8

namespace Device

variable {σ : Type} (device : Device σ)

def writeAll (s : σ) : Bytes → σ × Bytes
  | [] => (s, [])
  | byte :: data =>
    let (s, status) := device.write s byte
    let (s, statuses) := writeAll s data
    (s, status :: statuses)

/-- The bytes read, each acknowledged but the last one if it is not to be. -/
def readAll (s : σ) (ack : Bool) : Nat → σ × Bytes
  | 0 => (s, [])
  | count + 1 =>
    let (s, byte) := device.read s (ack || count != 0)
    let (s, data) := readAll s ack count
    (s, byte :: data)

/-- A status byte, one for each byte written, or the bytes read. -/
def answer (s : σ) : Command → σ × Bytes
  | .div value => ((device.div s value).1, [(device.div s value).2])
  | .start => ((device.start s).1, [(device.start s).2])
  | .stop => ((device.stop s).1, [(device.stop s).2])
  | .write data => device.writeAll s data
  | .read ack count => device.readAll s ack count

def machine : Machine σ Command UInt8 := ⟨device.answer⟩

/-- The write phase of a transfer: the status of the address, and those of the payload. -/
def writePhase (s : σ) (t : Transfer) : σ × UInt8 × Bytes :=
  let (s, address) := device.write s (writeAddress t.addr)
  let (s, statuses) := device.writeAll s t.dataW
  (s, address, statuses)

/-- The read phase of a transfer: the status of the address, and the bytes read. -/
def readPhase (s : σ) (t : Transfer) : σ × UInt8 × Bytes :=
  let (s, address) := device.write (device.start s).1 (UInt8.ofNat (t.addr * 2 + 1).toNat)
  let (s, data) := device.readAll s false t.sizeR
  (s, address, data)

/-- A transfer on the bus, and what it gets. -/
def transfer (s : σ) (t : Transfer) : σ × Except Failure (Option Bytes) :=
  let s := (device.start s).1
  let written := if t.dataW = [] then (s, 1, []) else device.writePhase s t
  let read := if t.sizeR = 0 then (written.1, 1, []) else device.readPhase written.1 t
  ((device.stop read.1).1,
    if written.2.1 = 0 ∨ read.2.1 = 0 then .error (.addressNack t.addr)
    else if ∃ status ∈ written.2.2, status = 0 then .error (.dataNack t.addr)
    else .ok (if t.sizeR = 0 then none else some read.2.2))

/-- The transfers of a transaction all happen; it gets their results, or the first failure. -/
def transfers (s : σ) (results : Outcome) : List Item → σ × Outcome
  | [] => (s, results)
  | .transfer t :: items =>
    let (s, result) := device.transfer s t
    transfers s (do return (← results) ++ [← result]) items
  | _ :: items => transfers s results items

def perform (s : σ) : Op → σ × Outcome
  | .transaction items => device.transfers s (.ok []) items
  | .other _ => (s, .ok [])

end Device

/-- A transfer that reads has a seven-bit address. -/
def Item.Supported : Item → Prop
  | .transfer t => t.sizeR = 0 ∨ (0 ≤ t.addr ∧ t.addr ≤ 127)
  | _ => False

def Op.Supported : Op → Prop
  | .transaction items => ∀ item ∈ items, item.Supported
  | .other _ => False

end I2cTransactor

end Acrobe.Nsl
