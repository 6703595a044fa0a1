import Acrobe.Memory.Bulk

/-!
# The memory access port

`MemApLowering.lower_register_ops` turns a batch of register accesses into writes of CSW and TAR and
accesses of DRW. It leaves out the writes of CSW and TAR that it takes to be established, by the
accesses before or by the auto-increment of TAR.
-/

namespace Acrobe.Arm
open LittleEndian Acrobe.Lib Acrobe.Memory

/-! ### Registers -/

inductive ApVersion where
  | v1
  | v2

namespace ApVersion

/-- The management area of an APv2 port starts at `0xD00`. -/
def base : ApVersion → Nat
  | .v1 => 0
  | .v2 => 0xD00

def csw (version : ApVersion) : Nat := version.base + 0x00

def tarLo (version : ApVersion) : Nat := version.base + 0x04

def tarHi (version : ApVersion) : Nat := version.base + 0x08

def drw (version : ApVersion) : Nat := version.base + 0x0C

end ApVersion

def cswAddrIncSingle : Nat := 0b01 <<< 4

def cswDeviceEn : Nat := 1 <<< 6

def cswHprot0Priv : Nat := 1 <<< 24

def cswHprot1Buff : Nat := 1 <<< 25

def cswMasterDebug : Nat := 1 <<< 29

def cswDbgSwEnable : Nat := 1 <<< 31

def cfgLa : Nat := 1 <<< 1

/-- The address size that a port with this CFG advertises. -/
def addrSizeBits (cfg : Nat) : Nat := if cfg &&& cfgLa ≠ 0 then 64 else 32

/-- `__size_for`. -/
def sizeFor : Width → Nat
  | .byte => 0b000
  | .half => 0b001
  | .word => 0b010

def cswWith (size addrInc : Nat) : Nat :=
  cswDbgSwEnable ||| cswMasterDebug ||| cswHprot1Buff ||| cswHprot0Priv ||| cswDeviceEn |||
    (addrInc &&& 0b110000) ||| (size &&& 0b111)

/-! ### Lowering -/

inductive RegAccess where
  | read (reg : Nat)
  | write (reg data : Nat)

/-- An access posted to the debug port, and the operation whose future is chained to it. -/
structure Posted where
  access : RegAccess
  chained : Option RegisterOp

structure TarCache where
  csw : Option Nat
  tar : Option Nat

def cswTarSetup (version : ApVersion) (addr size : Nat) (cache : TarCache) : TarCache × List Posted :=
  let newCsw := cswWith size cswAddrIncSingle
  let cswWrites := if cache.csw ≠ some newCsw then [⟨.write version.csw newCsw, none⟩] else []
  let tarWrites := if cache.tar ≠ some addr then [⟨.write version.tarLo (addr &&& 0xffffffff), none⟩] else []
  (⟨some newCsw, some addr⟩, cswWrites ++ tarWrites)

/-- The address that auto-increment leaves in TAR, unless it is past the 1 KiB segment. -/
def tarAdvance (addr sizeBytes : Nat) : Option Nat :=
  if (addr + sizeBytes) &&& 0xFFFFFC00 ≠ addr &&& 0xFFFFFC00 then none else some (addr + sizeBytes)

def drwAccess (version : ApVersion) : RegisterOp → RegAccess
  | .read _ _ => .read version.drw
  | .write _ addr data => .write version.drw ((data <<< ((addr &&& 3) * 8)) &&& 0xffffffff)

def emit (version : ApVersion) (op : RegisterOp) (cache : TarCache) : TarCache × List Posted :=
  let setup := cswTarSetup version op.addr (sizeFor op.width) cache
  (⟨setup.1.csw, tarAdvance op.addr op.width.bytes⟩, setup.2 ++ [⟨drwAccess version op, some op⟩])

def lowerFrom (version : ApVersion) (cache : TarCache) : List RegisterOp → List Posted
  | [] => []
  | op :: ops =>
    let here := emit version op cache
    here.2 ++ lowerFrom version here.1 ops

/-- The cache starts empty on every batch. -/
def lowerBatch (version : ApVersion) (batch : List RegisterOp) : List Posted :=
  lowerFrom version ⟨none, none⟩ batch

def laneResult (raw : Nat) : RegisterOp → Result
  | .read width addr => .int ((raw >>> ((addr &&& 3) * 8)) &&& ((1 <<< (width.bytes * 8)) - 1))
  | .write _ _ _ => .none

/-! ### The access port -/

/-- One access on the bus behind the port. -/
structure BusAccess where
  writes : Bool
  width : Width
  addr : Nat
  deriving DecidableEq

/-- A port of either version. `tarLo` is lost when the
auto-increment leaves its 1 KiB block, the lanes that an access does not use read as `stray`, and
an access whose address or size is not defined is logged as `none`. -/
structure MemAp where
  version : ApVersion
  cfg : Nat
  stray : Nat → UInt8
  csw : Nat
  tarLo : Option Nat
  tarHi : Nat
  memory : ByteMemory
  log : List (Option BusAccess)

namespace MemAp

/-- TAR_HI is there only when CFG.LA is set. -/
def high (ap : MemAp) : Nat := if ap.cfg &&& cfgLa ≠ 0 then ap.tarHi * 2 ^ 32 else 0

def size (ap : MemAp) : Option Width :=
  match ap.csw % 8 with
  | 0 => some .byte
  | 1 => some .half
  | 2 => some .word
  | _ => none

/-- TAR after an access: it stays when `AddrInc` is off, and is defined for single increments only
inside one 1 KiB block. -/
def nextTarLo (ap : MemAp) (tarLo sizeBytes : Nat) : Option Nat :=
  match ap.csw / 16 % 4 with
  | 0 => some tarLo
  | 1 => if (tarLo + sizeBytes) / 1024 = tarLo / 1024 then some (tarLo + sizeBytes) else none
  | _ => none

/-- The address and width of the next access of DRW. -/
def target (ap : MemAp) : Option (Nat × Width) :=
  match ap.tarLo, ap.size with
  | some tarLo, some width => if tarLo % width.bytes = 0 then some (tarLo, width) else none
  | _, _ => none

/-- The four lanes of DRW when `width` bytes are read at `addr`. -/
def lanes (ap : MemAp) (addr : Nat) (width : Width) : Bytes :=
  (List.range 4).map fun lane =>
    if addr % 4 ≤ lane ∧ lane < addr % 4 + width.bytes then ap.memory (addr / 4 * 4 + lane) else ap.stray lane

def readDrw (ap : MemAp) : MemAp × Nat :=
  match ap.target with
  | some (tarLo, width) =>
    ({ ap with
        tarLo := ap.nextTarLo tarLo width.bytes
        log := ap.log ++ [some ⟨false, width, ap.high + tarLo⟩] },
      combine (ap.lanes (ap.high + tarLo) width))
  | none => ({ ap with tarLo := none, log := ap.log ++ [none] }, combine ((List.range 4).map ap.stray))

def writeDrw (ap : MemAp) (data : Nat) : MemAp :=
  match ap.target with
  | some (tarLo, width) =>
    { ap with
      tarLo := ap.nextTarLo tarLo width.bytes
      memory := ap.memory.write (ap.high + tarLo) (((split data 4).drop (tarLo % 4)).take width.bytes)
      log := ap.log ++ [some ⟨true, width, ap.high + tarLo⟩] }
  | none => { ap with tarLo := none, log := ap.log ++ [none] }

def access (ap : MemAp) : RegAccess → MemAp × Nat
  | .read reg => if reg = ap.version.drw then ap.readDrw else (ap, 0)
  | .write reg data =>
    if reg = ap.version.csw then ({ ap with csw := data }, 0)
    else if reg = ap.version.tarLo then ({ ap with tarLo := some data }, 0)
    else if reg = ap.version.tarHi then ({ ap with tarHi := data }, 0)
    else if reg = ap.version.drw then (ap.writeDrw data, 0)
    else (ap, 0)

def run (ap : MemAp) : List Posted → MemAp × List Result
  | [] => (ap, [])
  | posted :: rest =>
    let here := ap.access posted.access
    let later := here.1.run rest
    (later.1, (posted.chained.map (laneResult here.2)).toList ++ later.2)

end MemAp
end Acrobe.Arm
