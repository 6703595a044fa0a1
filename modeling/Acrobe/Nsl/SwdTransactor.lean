import Acrobe.Nsl.Batch

/-!
# The SWD transactor codec

`SwdTransactor` encodes SWD operations for the NSL transactor and takes their results out of its response.
-/

namespace Acrobe.Nsl
open LittleEndian CommandStream

namespace SwdTransactor

inductive Op where
  | read (ap : Bool) (addr : Int)
  | write (ap : Bool) (addr data : Int)
  | run (cycles : Int)
  | wakeup (cycles : Int)
  | lineReset
  | jtagToSwd
  | swdToDormant
  | dormantToSwd
  | targetSelWrite (target : Int)
  | other (typeName : String)

/-! ### Commands -/

def cmdRun : Nat := 0x00
def cmdRunDio : Nat := 0x40
def cmdRw : Nat := 0x80
def cmdRwR : Nat := 0x10
def cmdRwAp : Nat := 0x20
def cmdTurnaround : Nat := 0xd0
def cmdBitbang : Nat := 0xe0
def cmdDivisor : UInt8 := 0xc1

def rspAckMask : UInt8 := 0x07
def rspParError : UInt8 := 0x08

/-! ### The codec -/

/-- `__Resolve`. -/
structure Resolve where
  opIdx : Nat
  rspOffset : Nat
  isRead : Bool
  ignoreAck : Bool

abbrev Encoding := CommandStream.Encoding UInt8 Resolve

structure Codec where
  divisorWidth : Nat
  divisor : Nat
  rateDirty : Bool
  turnaroundCycles : Nat
  turnaroundDirty : Bool
  width : divisorWidth = 1 ∨ divisorWidth = 2
  inRange : divisor < 256 ^ divisorWidth
  cycles : 1 ≤ turnaroundCycles ∧ turnaroundCycles ≤ 4

def Codec.contextForceRefresh (self : Codec) : Codec := { self with rateDirty := true, turnaroundDirty := true }

def maxDivisor (divisorWidth : Nat) : Nat := 256 ^ divisorWidth - 1

def clampDivisor (divisorWidth : Nat) (d : Int) : Nat := (max 0 (min d (maxDivisor divisorWidth))).toNat

theorem clampDivisor_lt (divisorWidth : Nat) (d : Int) : clampDivisor divisorWidth d < 256 ^ divisorWidth := by
  have positive : 0 < 256 ^ divisorWidth := Nat.pow_pos (by decide)
  unfold clampDivisor maxDivisor
  omega

theorem oneCycle_legal : 1 ≤ 1 ∧ 1 ≤ 4 := by decide

/-- The codec that is constructed, with `int(base_freq / 1e6) - 1`. -/
def Codec.new (divisorWidth : Nat) (width : divisorWidth = 1 ∨ divisorWidth = 2) (d : Int) : Codec :=
  ⟨divisorWidth, clampDivisor divisorWidth d, true, 1, true, width, clampDivisor_lt divisorWidth d, oneCycle_legal⟩

/-- `freq_update`, with the divisor before it is clamped. -/
def Codec.freqUpdate (self : Codec) (d : Int) : Codec :=
  if clampDivisor self.divisorWidth d = self.divisor then self
  else { self with
    divisor := clampDivisor self.divisorWidth d, rateDirty := true, inRange := clampDivisor_lt self.divisorWidth d }

/-- The setter of `turnaround_cycles`. -/
def Codec.setTurnaroundCycles (self : Codec) (n : Int) : Except PyErr Codec :=
  if legal : 1 ≤ n.toNat ∧ n.toNat ≤ 4 then
    .ok (if n.toNat = self.turnaroundCycles then self
      else { self with turnaroundCycles := n.toNat, turnaroundDirty := true, cycles := legal })
  else .error (.valueError ("turnaround_cycles must be 1..4, got " ++ toString n))

/-- Up to 64 cycles a command. -/
def encodeCycles (base : Nat) (acc : Encoding) (count : Nat) : Encoding :=
  if 0 < count then
    let c := min count 64
    encodeCycles base (acc.emit [UInt8.ofNat (base ||| (c - 1))]) (count - c)
  else acc
termination_by count

def encodeRun (cycles : Int) (acc : Encoding) : Encoding := encodeCycles cmdRun acc (max 0 cycles).toNat

def encodeWakeup (cycles : Int) (acc : Encoding) : Encoding := encodeCycles cmdRunDio acc (max 0 cycles).toNat

def encodeBitbang (count value : Nat) (acc : Encoding) : Encoding :=
  acc.emit (UInt8.ofNat (cmdBitbang ||| (count - 1)) :: split value 4)

/-- `value & 0xFFFFFFFF` -/
def word (value : Int) : Nat := (value % 2 ^ 32).toNat

/-- A[3:2]. -/
def regOf (addr : Int) : Nat := (addr / 4 % 4).toNat

/-- The idle cycles before an access, its command and data, and the idle cycles after one of an AP. -/
def encodeAccess (read ap ignoreAck : Bool) (addr : Int) (data : Bytes) (opIdx : Nat) (acc : Encoding) : Encoding :=
  let acc := acc.emit [UInt8.ofNat (cmdRun ||| 2)]
  let byte := cmdRw ||| (if read then cmdRwR else 0) ||| (if ap then cmdRwAp else 0) ||| regOf addr
  let acc : Encoding :=
    ⟨acc.cmd ++ UInt8.ofNat byte :: data, acc.rspSize + if read then 5 else 1,
      acc.gather ++ [⟨opIdx, acc.rspSize, read, ignoreAck⟩]⟩
  if ap then acc.emit [UInt8.ofNat (cmdRun ||| 10)] else acc

def encodeOne (op : Op) (opIdx : Nat) (acc : Encoding) : Except PyErr Encoding :=
  match op with
  | .read ap addr => .ok (encodeAccess true ap false addr [] opIdx acc)
  | .write ap addr data => .ok (encodeAccess false ap false addr (split (word data) 4) opIdx acc)
  | .run cycles => .ok (encodeRun cycles acc)
  | .wakeup cycles => .ok (encodeWakeup cycles acc)
  | .lineReset => .ok (encodeRun 8 (encodeWakeup 60 acc))
  | .jtagToSwd => .ok (encodeRun 16 (encodeWakeup 60 (encodeBitbang 16 0xe79e (encodeWakeup 60 acc))))
  | .swdToDormant => .ok (encodeBitbang 16 0xe3bc (encodeWakeup 60 acc))
  | .dormantToSwd =>
    let acc := encodeWakeup 60 acc
    let acc := [0x6209f392, 0x86852d95, 0xe3ddafe9, 0x19bc0ea2].foldl (fun acc u32 => encodeBitbang 32 u32 acc) acc
    .ok (encodeBitbang 8 0x1a (encodeRun 4 acc))
  | .targetSelWrite target => .ok (encodeAccess false false true 0xc (split (word target) 4) opIdx acc)
  | .other typeName => .error (.typeError ("SwdTransactor cannot encode " ++ typeName))

def Codec.configure (self : Codec) : Codec × Encoding :=
  let acc : Encoding := .start
  let acc :=
    if self.turnaroundDirty then acc.emit [UInt8.ofNat (cmdTurnaround ||| (self.turnaroundCycles - 1))] else acc
  let acc := if self.rateDirty then acc.emit (cmdDivisor :: split self.divisor self.divisorWidth) else acc
  ({ self with rateDirty := false, turnaroundDirty := false }, acc)

def Codec.encode (self : Codec) (batch : List (BatchEntry Op)) : Codec × Except PyErr Encoding :=
  let (self, acc) := self.configure
  (self, encodeEach encodeOne acc (batch.map BatchEntry.op).zipIdx)

/-! ### Results -/

def hex (width value : Nat) : String :=
  let digits := Nat.toDigits 16 value
  String.ofList (List.replicate (width - digits.length) '0' ++ digits)

inductive Failure where
  | wait (message : String)
  | access (message : String)

abbrev Outcome := Except Failure (Option Nat)

def binary3 (value : Nat) : String :=
  String.ofList ([4, 2, 1].map fun bit => if value &&& bit ≠ 0 then '1' else '0')

/-- What a response byte and the data behind it come to. -/
def resolve (isRead : Bool) (ackByte : UInt8) (data : Bytes) : Outcome :=
  let ackBits := ackByte &&& rspAckMask
  if ackBits = 2 then .error (.wait "WAIT (target not ready)")
  else if ackBits = 4 then .error (.access ("FAULT (raw byte 0x" ++ hex 2 ackByte.toNat ++ ")"))
  else if ackBits ≠ 1 then
    .error (.access ("invalid SWD ACK 0b" ++ binary3 ackBits.toNat ++ " (raw byte 0x" ++ hex 2 ackByte.toNat ++ ")"))
  else if isRead then
    if ackByte &&& rspParError ≠ 0 then .error (.access "data parity error") else .ok (some (combine data))
  else .ok none

/-- The entry of an operation in the dictionaries; an exception stays. -/
def note (response : Bytes) (found : Option Outcome) (g : Resolve) : Option Outcome :=
  let outcome : Outcome :=
    if g.ignoreAck then .ok none
    else resolve g.isRead ((response.drop g.rspOffset).headD 0) ((response.drop (g.rspOffset + 1)).take 4)
  match found, outcome with
  | some (.error failure), .ok _ => some (.error failure)
  | _, outcome => some outcome

/-- `decode`, or `none` where `response[entry.rsp_offset]` raises an `IndexError`. -/
def decode (batch : List (BatchEntry Op)) (response : Bytes) (gather : List Resolve) : Option (List (Option Outcome)) :=
  if gather.all fun g => g.rspOffset < response.length then
    some (decodeEach (fun _ found => found.getD (.ok none)) (collect Resolve.opIdx (note response) gather) batch)
  else none

/-! ### The transactor -/

inductive Command where
  | run (cycles : Nat)
  | runDio (cycles : Nat)
  | read (ap : Bool) (reg : Nat)
  | write (ap : Bool) (reg : Nat) (data : Nat)
  | turnaround (cycles : Nat)
  | sysReset (asserted : Bool)
  | bitbang (count : Nat) (value : Nat)
  | abort
  | divisor (value : Nat)

/-- A command with data behind its code. -/
def withData (size : Nat) (rest : Bytes) (make : Nat → Command) : Option (Command × Bytes) :=
  if rest.length < size then none else some (make (combine (rest.take size)), rest.drop size)

def fetch (divisorWidth : Nat) : Bytes → Option (Command × Bytes)
  | [] => none
  | code :: rest =>
    let n := code.toNat
    if n < 0x40 then some (.run (n + 1), rest)
    else if n < 0x80 then some (.runDio (n - 0x40 + 1), rest)
    else if n < 0xc0 then
      if n &&& cmdRwR ≠ 0 then some (.read (n &&& cmdRwAp ≠ 0) (n &&& 0xf), rest)
      else withData 4 rest (.write (n &&& cmdRwAp ≠ 0) (n &&& 0xf))
    else if n = 0xc0 then some (.abort, rest)
    else if n = 0xc1 then withData divisorWidth rest .divisor
    else if 0xd0 ≤ n ∧ n < 0xd4 then some (.turnaround (n - 0xd0 + 1), rest)
    else if n = 0xd8 ∨ n = 0xd9 then some (.sysReset (n = 0xd9), rest)
    else if 0xe0 ≤ n then withData 4 rest (.bitbang (n - 0xe0 + 1))
    else none

/-- The target and the transactor's own settings, cycle by cycle. An access is answered with the byte that the
transactor reports it with and the word that was read. -/
structure Device (σ : Type) where
  idle : σ → σ
  high : σ → σ
  bit : σ → Bool → σ
  access : σ → (ap : Bool) → (reg : Nat) → (data : Option Nat) → σ × UInt8 × Nat
  turnaround : σ → Nat → σ
  divisor : σ → Nat → σ
  sysReset : σ → Bool → σ
  abort : σ → σ
  status : σ → UInt8

def bits (value : Nat) : Nat → List Bool
  | 0 => []
  | count + 1 => (value % 2 == 1) :: bits (value / 2) count

namespace Device

variable {σ : Type} (device : Device σ)

/-- One status byte, and behind the one of a read the four bytes of its word. -/
def answer (s : σ) : Command → σ × Bytes
  | .run cycles => let s := device.idle^[cycles] s; (s, [device.status s])
  | .runDio cycles => let s := device.high^[cycles] s; (s, [device.status s])
  | .read ap reg => let (s, ack, word) := device.access s ap reg none; (s, ack :: split word 4)
  | .write ap reg data => let (s, ack, _) := device.access s ap reg (some data); (s, [ack])
  | .turnaround cycles => let s := device.turnaround s cycles; (s, [device.status s])
  | .sysReset asserted => let s := device.sysReset s asserted; (s, [device.status s])
  | .bitbang count value => let s := (bits value count).foldl device.bit s; (s, [device.status s])
  | .abort => let s := device.abort s; (s, [device.status s])
  | .divisor value => let s := device.divisor s value; (s, [device.status s])

def machine : Machine σ Command UInt8 := ⟨device.answer⟩

/-- One access between idle cycles, and what the operation gets. -/
def transfer (s : σ) (read ap ignoreAck : Bool) (reg : Nat) (data : Option Nat) : σ × Outcome :=
  let (s, ack, word) := device.access (device.idle^[3] s) ap reg data
  (if ap then device.idle^[11] s else s, if ignoreAck then .ok none else resolve read ack (split word 4))

/-- What an operation makes of the target, and what it gets. -/
def perform (s : σ) : Op → σ × Outcome
  | .read ap addr => device.transfer s true ap false (regOf addr) none
  | .write ap addr data => device.transfer s false ap false (regOf addr) (some (word data))
  | .run cycles => (device.idle^[cycles.toNat] s, .ok none)
  | .wakeup cycles => (device.high^[cycles.toNat] s, .ok none)
  | .lineReset => (device.idle^[8] (device.high^[60] s), .ok none)
  | .jtagToSwd =>
    (device.idle^[16] (device.high^[60] ((bits 0xe79e 16).foldl device.bit (device.high^[60] s))), .ok none)
  | .swdToDormant => ((bits 0xe3bc 16).foldl device.bit (device.high^[60] s), .ok none)
  | .dormantToSwd =>
    ((bits 0x1a 8).foldl device.bit (device.idle^[4]
      ((bits 0x19bc0ea2e3ddafe986852d956209f392 128).foldl device.bit (device.high^[60] s))), .ok none)
  | .targetSelWrite target => device.transfer s false false true 3 (some (word target))
  | .other _ => (s, .ok none)

end Device

def Op.Supported : Op → Prop
  | .other _ => False
  | _ => True

end SwdTransactor

end Acrobe.Nsl
