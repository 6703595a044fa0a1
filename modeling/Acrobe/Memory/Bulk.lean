import Acrobe.Lib.ByteMemory

/-!
# Blobs over registers

`BulkFromRegister` splits the blob operations of a batch into register accesses, runs the flat
stream on a backend, and puts a blob together when the last of its accesses has completed.
-/

namespace Acrobe.Memory
open LittleEndian Acrobe.Lib

/-! ### Operations -/

inductive Width where
  | byte
  | half
  | word
  deriving DecidableEq

def Width.bytes : Width → Nat
  | .byte => 1
  | .half => 2
  | .word => 4

inductive RegisterOp where
  | read (width : Width) (addr : Nat)
  | write (width : Width) (addr : Nat) (data : Nat)

def read16 := RegisterOp.read .half

def read32 := RegisterOp.read .word

def write8 := RegisterOp.write .byte

inductive Op where
  | register (op : RegisterOp)
  | readBlob (addr size : Nat)
  | writeBlob (addr : Nat) (data : Bytes)

inductive Result where
  | int (value : Nat)
  | bytes (data : Bytes)
  | none
  deriving DecidableEq

inductive Error where
  | misaligned (addr : Nat)
  | overflowError
  | attributeError
  | invalidStateError
  deriving DecidableEq

/-! ### Decomposition -/

structure Chunk where
  offset : Nat
  addr : Nat
  width : Width

/-- `if end - cursor >= 1: take(1)`. -/
def trailingByte (stop cursor offset : Nat) : List Chunk :=
  if 1 ≤ stop - cursor then [⟨offset, cursor, .byte⟩] else []

/-- `if end - cursor >= 2: take(2)` and the rest. -/
def trailingHalf (stop cursor offset : Nat) : List Chunk :=
  if 2 ≤ stop - cursor then ⟨offset, cursor, .half⟩ :: trailingByte stop (cursor + 2) (offset + 2)
  else trailingByte stop cursor offset

/-- `while end - cursor >= 4: take(4)` and the rest. -/
def streamWords (stop : Nat) : Nat → Nat → Nat → List Chunk
  | 0, cursor, offset => trailingHalf stop cursor offset
  | fuel + 1, cursor, offset =>
    if 4 ≤ stop - cursor then ⟨offset, cursor, .word⟩ :: streamWords stop fuel (cursor + 4) (offset + 4)
    else trailingHalf stop cursor offset

/-- `if (cursor & 3) == 2 and end - cursor >= 2: take(2)` and the rest. -/
def leadingHalf (stop fuel cursor offset : Nat) : List Chunk :=
  if cursor % 4 = 2 ∧ 2 ≤ stop - cursor then
    ⟨offset, cursor, .half⟩ :: streamWords stop fuel (cursor + 2) (offset + 2)
  else streamWords stop fuel cursor offset

/-- `Decomposition.chunks`: naturally aligned chunks from the first byte to the last one. -/
def chunks (addr size : Nat) : List Chunk :=
  if addr % 2 = 1 ∧ addr < addr + size then ⟨0, addr, .byte⟩ :: leadingHalf (addr + size) size (addr + 1) 1
  else leadingHalf (addr + size) size addr 0

inductive Decomposition where
  | precise
  | overwide

/-- A register access, its place in the blob and its bytes. -/
structure Triple where
  op : RegisterOp
  offset : Int
  size : Nat

def Decomposition.readOps (addr size : Nat) : Decomposition → List Triple
  | .precise => (chunks addr size).map fun chunk => ⟨.read chunk.width chunk.addr, chunk.offset, chunk.width.bytes⟩
  | .overwide =>
    if size = 0 then []
    else
      let first := addr / 4 * 4
      let last := (addr + size + 3) / 4 * 4
      (List.range ((last - first) / 4)).map fun k => ⟨read32 (first + 4 * k), (first + 4 * k : Nat) - (addr : Int), 4⟩

/-- Writes are precise in either decomposition. -/
def writeOps (addr : Nat) (data : Bytes) : List Triple :=
  (chunks addr data.length).map fun chunk =>
    ⟨.write chunk.width chunk.addr (combine ((data.drop chunk.offset).take chunk.width.bytes)), chunk.offset,
      chunk.width.bytes⟩

/-! ### The backend -/

def RegisterOp.Aligned : RegisterOp → Prop
  | .read width addr => addr % width.bytes = 0
  | .write width addr _ => addr % width.bytes = 0

instance : (op : RegisterOp) → Decidable op.Aligned
  | .read width addr => inferInstanceAs (Decidable (addr % width.bytes = 0))
  | .write width addr _ => inferInstanceAs (Decidable (addr % width.bytes = 0))

def RegisterOp.addr : RegisterOp → Nat
  | .read _ addr => addr
  | .write _ addr _ => addr

def RegisterOp.width : RegisterOp → Width
  | .read width _ => width
  | .write width _ _ => width

/-- One naturally aligned access to the memory behind the backend. -/
def execRegister (memory : ByteMemory) (op : RegisterOp) : ByteMemory × Except Error Result :=
  if op.Aligned then
    match op with
    | .read width addr => (memory, .ok (.int (combine (memory.read addr width.bytes))))
    | .write width addr data => (memory.write addr (split data width.bytes), .ok .none)
  else (memory, .error (.misaligned op.addr))

/-- The accesses of a batch in order, and what each of them completes with. -/
def lowerRegisterOps (memory : ByteMemory) : List RegisterOp → ByteMemory × List (Except Error Result)
  | [] => (memory, [])
  | op :: ops =>
    let here := execRegister memory op
    let rest := lowerRegisterOps here.1 ops
    (rest.1, here.2 :: rest.2)

/-! ### Flushing a batch -/

/-- Who waits for an access: the caller of a register operation, or a pending blob. Both are named by
their place in the batch. -/
inductive Waiter where
  | user (i : Nat)
  | blob (i : Nat)

/-- `subFutures` gives the offset, the bytes and the place of an access in the lowered stream. -/
structure PendingBlob where
  size : Nat
  isRead : Bool
  subFutures : List (Int × Nat × Nat)
  remaining : Nat
  exception : Option Error

structure Futures where
  users : Nat → Option (Except Error Result)
  pendings : Nat → Option PendingBlob
  done : Nat → Bool

def Futures.initial : Futures := { users := fun _ => .none, pendings := fun _ => .none, done := fun _ => false }

def Futures.setUser (futures : Futures) (i : Nat) (outcome : Except Error Result) : Futures :=
  { futures with users := fun j => if j = i then some outcome else futures.users j }

def Futures.setPending (futures : Futures) (i : Nat) (pending : PendingBlob) : Futures :=
  { futures with pendings := fun j => if j = i then some pending else futures.pendings j }

abbrev Lowered := RegisterOp × Option Waiter

/-- `PendingBlob` with every access attached. -/
def attach (size : Nat) (isRead : Bool) (position : Nat) (triples : List Triple) : PendingBlob where
  size := size
  isRead := isRead
  subFutures := triples.mapIdx fun k triple => (triple.offset, triple.size, position + k)
  remaining := triples.length
  exception := .none

/-- `__expand_read` and `__expand_write`. -/
def expandBlob (futures : Futures) (i position size : Nat) (isRead wanted : Bool) (triples : List Triple) :
    List Lowered × Futures :=
  if wanted = false then (triples.map fun triple => (triple.op, .none), futures)
  else if triples = [] then ([], futures.setUser i (.ok (if isRead then .bytes [] else .none)))
  else (triples.map fun triple => (triple.op, some (.blob i)),
    futures.setPending i (attach size isRead position triples))

def expandOp (mode : Decomposition) (futures : Futures) (i position : Nat) (op : Op) (wanted : Bool) :
    List Lowered × Futures :=
  match op with
  | .register op => ([(op, if wanted then some (.user i) else .none)], futures)
  | .readBlob addr size => expandBlob futures i position size true wanted (mode.readOps addr size)
  | .writeBlob addr data => expandBlob futures i position data.length false wanted (writeOps addr data)

/-- The loop of `flush_ops`. -/
def flushFrom (mode : Decomposition) (i position : Nat) (futures : Futures) : List (Op × Bool) → List Lowered × Futures
  | [] => ([], futures)
  | (op, wanted) :: batch =>
    let here := expandOp mode futures i position op wanted
    let rest := flushFrom mode (i + 1) (position + here.1.length) here.2 batch
    (here.1 ++ rest.1, rest.2)

def flushOps (mode : Decomposition) (batch : List (Op × Bool)) : List Lowered × Futures :=
  flushFrom mode 0 0 .initial batch

/-! ### Completion -/

/-- `future.result()`. -/
def Futures.result (futures : Futures) (outcomes : List (Except Error Result)) (position : Nat) : Except Error Result :=
  match futures.done position, outcomes[position]? with
  | true, some outcome => outcome
  | _, _ => .error .invalidStateError

def rawBytes (size : Nat) : Result → Except Error Bytes
  | .int value => if value < 256 ^ size then .ok (split value size) else .error .overflowError
  | .bytes data => .ok data
  | .none => .error .attributeError

/-- `buf[lo:hi] = raw[lo - offset:hi - offset]`, clipped to the blob. -/
def place (size : Nat) (buf : Bytes) (offset : Int) (width : Nat) (raw : Bytes) : Bytes :=
  let lo := (max 0 offset).toNat
  let hi := (min (size : Int) (offset + width)).toNat
  if hi ≤ lo then buf
  else buf.take lo ++ ((raw.take (hi - offset).toNat).drop (lo - offset).toNat) ++ buf.drop hi

/-- The loop over the accesses in `__resolve`; one outside of the blob is not looked at. -/
def assemble (futures : Futures) (outcomes : List (Except Error Result)) (size : Nat) :
    Bytes → List (Int × Nat × Nat) → Except Error Bytes
  | buf, [] => .ok buf
  | buf, (offset, width, position) :: rest =>
    if (min (size : Int) (offset + width)) ≤ max 0 offset then assemble futures outcomes size buf rest
    else do
      let result ← futures.result outcomes position
      let raw ← rawBytes width result
      assemble futures outcomes size (place size buf offset width raw) rest

/-- `__resolve`; a future that is done is left alone. -/
def resolve (futures : Futures) (outcomes : List (Except Error Result)) (i : Nat) (pending : PendingBlob) : Futures :=
  if (futures.users i).isSome then futures
  else match pending.exception with
    | some error => futures.setUser i (.error error)
    | .none =>
      if pending.isRead then
        match assemble futures outcomes pending.size (List.replicate pending.size 0) pending.subFutures with
        | .ok buf => futures.setUser i (.ok (.bytes buf))
        | .error _ => futures
      else futures.setUser i (.ok .none)

/-- `__on_done`. -/
def onDone (futures : Futures) (outcomes : List (Except Error Result)) (i position : Nat) : Futures :=
  match futures.pendings i with
  | .none => futures
  | some pending =>
    let exception := match pending.exception, futures.result outcomes position with
      | .none, .error error => some error
      | exception, _ => exception
    let pending := { pending with remaining := pending.remaining - 1, exception }
    let futures := futures.setPending i pending
    if pending.remaining = 0 then resolve futures outcomes i pending else futures

def complete (lowered : List Lowered) (outcomes : List (Except Error Result)) (futures : Futures) (position : Nat) :
    Futures :=
  let futures := { futures with done := fun p => if p = position then true else futures.done p }
  match lowered[position]?, outcomes[position]? with
  | some (_, some (.user i)), some outcome => futures.setUser i outcome
  | some (_, some (.blob i)), _ => onDone futures outcomes i position
  | _, _ => futures

/-- The accesses somebody waits for. -/
def awaited (lowered : List Lowered) : List Nat :=
  (List.range lowered.length).filter fun position =>
    match lowered[position]? with
    | some (_, some _) => true
    | _ => false

structure Flushed where
  memory : ByteMemory
  users : Nat → Option (Except Error Result)

/-- A batch through the backend, its accesses completing in the given order. -/
def flush (mode : Decomposition) (memory : ByteMemory) (batch : List (Op × Bool)) (order : List Nat) : Flushed :=
  let lowered := (flushOps mode batch).1
  let ran := lowerRegisterOps memory (lowered.map Prod.fst)
  { memory := ran.1, users := (order.foldl (complete lowered ran.2) (flushOps mode batch).2).users }

/-! ### The reference -/

def exec (memory : ByteMemory) : Op → ByteMemory × Result
  | .register (.read width addr) => (memory, .int (combine (memory.read addr width.bytes)))
  | .register (.write width addr data) => (memory.write addr (split data width.bytes), .none)
  | .readBlob addr size => (memory, .bytes (memory.read addr size))
  | .writeBlob addr data => (memory.write addr data, .none)

def execAll (memory : ByteMemory) : List Op → ByteMemory × List Result
  | [] => (memory, [])
  | op :: ops =>
    let here := exec memory op
    let rest := execAll here.1 ops
    (rest.1, here.2 :: rest.2)

end Acrobe.Memory
