import Acrobe.Lib.Futures
import Acrobe.Memory.BlobBatch

/-!
# The APB bridge

Blobs become commands of whole words, each a datagram, and every command has one answer. A read is widened to the words
around its bytes; a write has to be whole words.
-/

namespace Acrobe.Nsl.Apb
open LittleEndian Acrobe.Lib Acrobe.Memory Futures

inductive Kind where
  | identify
  | read
  | write
  deriving DecidableEq

inductive ValueError where
  | addressWidth (got : Int)
  | dataBusWidth (got : Int)
  | burstLengthL2 (got : Int)
  | readMoves (maxRead words : Nat)
  | writeMoves (dataBytes length : Nat)
  | wholeWords (dataBytes addr size : Nat)
  | outside (addr : Int) (size : Nat)
  | maxWrite (got : Int)
  | window (got : Int)

inductive Refusal where
  | valueError (reason : ValueError)
  /-- `int.to_bytes` -/
  | overflowError

/-- A command of the bridge; the offset is that of its first byte from the blob's. -/
structure Command where
  kind : Kind
  addr : Nat
  words : Nat
  offset : Int

/-! ### Codec -/

structure ApbStreamCodec where
  addressWidth : Nat
  dataBusWidth : Nat
  burstLengthL2 : Nat
  addressed : 1 ≤ addressWidth ∧ addressWidth ≤ 32
  bussed : dataBusWidth = 8 ∨ dataBusWidth = 16 ∨ dataBusWidth = 32
  bursting : burstLengthL2 ≤ 16

def opcodeWrite : UInt8 := 0x00

def opcodeRead : UInt8 := 0x80

def opcodeIdentify : UInt8 := 0xff

def statusError : UInt8 := 0x01

def toBytes (value size : Nat) : Except Refusal Bytes :=
  if value < 256 ^ size then .ok (split value size) else .error .overflowError

namespace ApbStreamCodec

def create (addressWidth dataBusWidth burstLengthL2 : Int) : Except ValueError ApbStreamCodec :=
  if addressed : ¬(1 ≤ addressWidth ∧ addressWidth ≤ 32) then .error (.addressWidth addressWidth)
  else if bussed : ¬(dataBusWidth = 8 ∨ dataBusWidth = 16 ∨ dataBusWidth = 32) then .error (.dataBusWidth dataBusWidth)
  else if bursting : ¬(0 ≤ burstLengthL2 ∧ burstLengthL2 ≤ 16) then .error (.burstLengthL2 burstLengthL2)
  else
    .ok
      { addressWidth := addressWidth.toNat
        dataBusWidth := dataBusWidth.toNat
        burstLengthL2 := burstLengthL2.toNat
        addressed := by omega
        bussed := by omega
        bursting := by omega }

variable (codec : ApbStreamCodec)

def addressBytes : Nat := (codec.addressWidth + 7) / 8

def dataBytes : Nat := codec.dataBusWidth / 8

def countBytes : Nat := max 1 ((codec.burstLengthL2 + 7) / 8)

def maxRead : Nat := 1 <<< codec.burstLengthL2

def identify : Bytes := [opcodeIdentify]

def read (addr words : Nat) : Except Refusal Bytes :=
  if ¬(1 ≤ words ∧ words ≤ codec.maxRead) then .error (.valueError (.readMoves codec.maxRead words))
  else do
    let address ← toBytes addr codec.addressBytes
    let count ← toBytes (words - 1) codec.countBytes
    .ok (opcodeRead :: (address ++ count))

def write (addr : Nat) (data : Bytes) : Except Refusal Bytes :=
  if data = [] ∨ data.length % codec.dataBytes ≠ 0 then .error (.valueError (.writeMoves codec.dataBytes data.length))
  else do
    let address ← toBytes addr codec.addressBytes
    .ok (opcodeWrite :: (address ++ data))

/-- The loop of `reads`. -/
def readsFrom (addr stop : Nat) : Nat → Nat → List Command
  | 0, _ => []
  | fuel + 1, cursor =>
    if cursor < stop then
      let words := min codec.maxRead ((stop - cursor + codec.dataBytes - 1) / codec.dataBytes)
      ⟨.read, cursor, words, (cursor : Int) - addr⟩ :: readsFrom addr stop fuel (cursor + words * codec.dataBytes)
    else []

def reads (addr size : Nat) : List Command :=
  let cursor := addr - addr % codec.dataBytes
  codec.readsFrom addr (addr + size) (addr + size - cursor) cursor

/-- The loop of `writes`. -/
def writesFrom (addr size maxWords : Nat) : Nat → Nat → List Command
  | 0, _ => []
  | fuel + 1, offset =>
    if offset < size then
      let words := min maxWords ((size - offset) / codec.dataBytes)
      ⟨.write, addr + offset, words, offset⟩ :: writesFrom addr size maxWords fuel (offset + maxWords * codec.dataBytes)
    else []

def writes (addr size maxWords : Nat) : Except Refusal (List Command) :=
  if addr % codec.dataBytes ≠ 0 ∨ size % codec.dataBytes ≠ 0 then
    .error (.valueError (.wholeWords codec.dataBytes addr size))
  else .ok (codec.writesFrom addr size maxWords size 0)

end ApbStreamCodec

/-! ### Lowering -/

/-- What `start` has checked. -/
structure ApbSetup where
  codec : ApbStreamCodec
  maxWrite : Nat
  window : Nat
  writing : 1 ≤ maxWrite
  windowed : 1 ≤ window

/-- `start`: as many words in a write as in a read unless it is told otherwise, and eight commands in flight. -/
def start (addressWidth dataBusWidth burstLengthL2 : Int) (maxWrite window : Option Int) : Except ValueError ApbSetup := do
  let codec ← ApbStreamCodec.create addressWidth dataBusWidth burstLengthL2
  let most := maxWrite.getD codec.maxRead
  let flight := window.getD 8
  if writing : most < 1 then .error (.maxWrite most)
  else if windowed : flight < 1 then .error (.window flight)
  else
    .ok
      { codec
        maxWrite := most.toNat
        window := flight.toNat
        writing := by omega
        windowed := by omega }

inductive BlobOp where
  | readBlob (addr : Int) (size : Nat)
  | writeBlob (addr : Int) (data : Bytes)

namespace BlobOp

def addr : BlobOp → Int
  | readBlob addr _ => addr
  | writeBlob addr _ => addr

def size : BlobOp → Nat
  | readBlob _ size => size
  | writeBlob _ data => data.length

def isRead : BlobOp → Bool
  | readBlob _ _ => true
  | writeBlob _ _ => false

def data : BlobOp → Bytes
  | readBlob _ _ => []
  | writeBlob _ data => data

end BlobOp

/-- A command with the datagram that carries it. -/
structure Issue where
  kind : Kind
  addr : Nat
  words : Nat
  frame : Bytes

namespace ApbSetup

variable (setup : ApbSetup)

def commands : BlobOp → Except Refusal (List Command)
  | .readBlob addr size => .ok (setup.codec.reads addr.toNat size)
  | .writeBlob addr data => setup.codec.writes addr.toNat data.length setup.maxWrite

def frame (data : Bytes) (cmd : Command) : Except Refusal Bytes :=
  match cmd.kind with
  | .read => setup.codec.read cmd.addr cmd.words
  | _ => setup.codec.write cmd.addr ((data.drop cmd.offset.toNat).take (cmd.words * setup.codec.dataBytes))

def part (data : Bytes) (cmd : Command) : Except Refusal (Memory.Part Issue) :=
  (setup.frame data cmd).map fun frame =>
    ⟨⟨cmd.kind, cmd.addr, cmd.words, frame⟩, cmd.offset, cmd.words * setup.codec.dataBytes⟩

/-- `__lower` for a blob: every command is built before the first is issued. -/
def lower (op : BlobOp) (wanted : Bool) : Except Refusal (Lowering Issue) :=
  if op.size = 0 then .ok ⟨[], 0, op.isRead, wanted⟩
  else if op.addr < 0 ∨ ((1 <<< setup.codec.addressWidth : Nat) : Int) < op.addr + op.size then
    .error (.valueError (.outside op.addr op.size))
  else do
    let commands ← setup.commands op
    let parts ← commands.mapM (setup.part op.data)
    .ok ⟨parts, op.size, op.isRead, wanted⟩

end ApbSetup

inductive Op where
  | identify
  | blob (op : BlobOp)

def ApbSetup.issues (setup : ApbSetup) : Op → Except Refusal (List Issue)
  | .identify => .ok [⟨.identify, 0, 0, ApbStreamCodec.identify⟩]
  | .blob op => (setup.lower op true).map Lowering.txs

/-! ### Answers -/

inductive Failure where
  | apbError (kind : Kind) (addr words : Nat) (status : UInt8)
  | emptyAnswer
  | answered (kind : Kind) (addr got expected : Nat)
  | timeout (kind : Kind) (addr : Nat)
  deriving DecidableEq

/-- What the answer to a command makes of its future, in `__on_answer`. -/
def decode (codec : ApbStreamCodec) (kind : Kind) (addr words : Nat) (frame : Bytes) : Status (Option Bytes) Failure :=
  match frame.getLast? with
  | none => .exception .emptyAnswer
  | some status =>
    let payload := frame.dropLast
    let expected := if kind = .read then words * codec.dataBytes else 0
    if kind ≠ .identify ∧ payload.length ≠ expected then
      .exception (.answered kind addr payload.length expected)
    else if status &&& statusError ≠ 0 then .exception (.apbError kind addr words status)
    else if kind = .write then .result none
    else .result (some payload)

/-! ### The bridge -/

/-- A little-endian field of a frame, unless the frame ends inside it. -/
def field (frame : Bytes) (offset size : Nat) : Option Nat :=
  if offset + size ≤ frame.length then some (combine ((frame.drop offset).take size)) else none

namespace ApbStreamCodec

variable (codec : ApbStreamCodec)

def readWords (memory : ByteMemory) : Nat → Nat → Bytes
  | 0, _ => []
  | words + 1, addr =>
    memory.read addr codec.dataBytes ++ readWords memory words ((addr + codec.dataBytes) % 2 ^ codec.addressWidth)

def writeWords (memory : ByteMemory) : Nat → Nat → Bytes → ByteMemory
  | 0, _, _ => memory
  | words + 1, addr, data =>
    writeWords (memory.write addr (data.take codec.dataBytes)) words ((addr + codec.dataBytes) % 2 ^ codec.addressWidth)
      (data.drop codec.dataBytes)

/-- A command and its answer, over a memory that accepts every transfer. -/
def handle (identity : Bytes) (memory : ByteMemory) (frame : Bytes) : ByteMemory × Bytes :=
  match frame.head? with
  | none => (memory, [statusError])
  | some opcode =>
    if opcode = opcodeIdentify then (memory, identity ++ [0])
    else if opcode = opcodeRead then
      match field frame 1 codec.addressBytes, field frame (1 + codec.addressBytes) codec.countBytes with
      | some addr, some count =>
        (memory, codec.readWords memory (count % 2 ^ max 1 codec.burstLengthL2 + 1) addr ++ [0])
      | _, _ => (memory, [statusError])
    else if opcode = opcodeWrite then
      match field frame 1 codec.addressBytes with
      | some addr =>
        let body := frame.drop (1 + codec.addressBytes)
        (codec.writeWords memory (body.length / codec.dataBytes) addr body,
          [if body.length % codec.dataBytes = 0 then 0 else statusError])
      | none => (memory, [statusError])
    else (memory, [statusError])

/-- What a blob makes of the future of one of its commands; `broken` stands for an exception. -/
def outcome (broken : Error) : Status (Option Bytes) Failure → Except Error Result
  | .result (some payload) => .ok (.bytes payload)
  | .result none => .ok .none
  | _ => .error broken

/-- A command on the bridge, and what its future completes with. -/
def run (identity : Bytes) (broken : Error) (memory : ByteMemory) (issue : Issue) : ByteMemory × Except Error Result :=
  let handled := codec.handle identity memory issue.frame
  (handled.1, outcome broken (decode codec issue.kind issue.addr issue.words handled.2))

end ApbStreamCodec

end Acrobe.Nsl.Apb
