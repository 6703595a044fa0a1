import Mathlib

/-!
# The debug port

`SwDp` and `JtagDp` lower the same operations to register accesses. An access names a register by
two bits of its address; the rest is taken from SELECT (and SELECT1), which both drivers write only
when the value they have cached is another one.
-/

namespace Acrobe.Arm.Dp

/-! ### Operations -/

inductive Op where
  | apRead (addr : Nat)
  | apWrite (addr data : Nat)
  | dpRead (addr : Nat)
  | dpWrite (addr data : Nat)
  | abort (what : Nat)
  | run (cycles : Nat)
  | other (typeName : String)
  deriving DecidableEq

def ctrlStat : Nat := 0x04

def select1Reg : Nat := 0x54

def selectReg : Nat := 0x08

def rdbuff : Nat := 0x0c

def abortReg : Nat := 0x00

/-- What a started port knows of the hardware: `adi_version` is 5 or 6, `asize` is that of DPIDR1. -/
structure Version where
  adi6 : Bool
  asize : Nat

/-- SELECT1 takes part in the accesses of system addresses that are wider than 32 bits. -/
def Version.usesSelect1 (version : Version) : Bool := version.adi6 && decide (32 < version.asize)

/-! ### Registers -/

inductive Register where
  | ap (address : Nat)
  | dp (bank offset : Nat)

/-- SELECT and SELECT1 of the hardware. -/
structure Selection where
  select : Nat
  select1 : Nat

namespace Version
variable (version : Version)

/-- The registers at 0x8 and 0xc, ABORT, and DPIDR before ADIv6 are in every bank. -/
def banked (read : Bool) (offset : Nat) : Bool := offset == 4 || offset == 0 && read && version.adi6

/-- An ADIv5 port takes APSEL and APBANKSEL from SELECT, an ADIv6 port an address of `asize` bits. -/
def apRegister (selection : Selection) (offset : Nat) : Register :=
  if version.adi6 then
    .ap ((if version.usesSelect1 then selection.select1 % 2 ^ 32 * 2 ^ 32 else 0) +
      selection.select / 16 % 2 ^ 28 * 16 + offset)
  else .ap (selection.select / 2 ^ 24 % 256 * 2 ^ 24 + selection.select / 16 % 16 * 16 + offset)

def dpRegister (select : Nat) (read : Bool) (offset : Nat) : Register :=
  .dp (if version.banked read offset then select % 16 else 0) offset

/-- The register that the operation names. -/
def registerOf : Op → Option Register
  | .apRead addr | .apWrite addr _ => some (version.apRegister ⟨addr, addr >>> 32⟩ (addr &&& 0xc))
  | .dpRead addr => some (version.dpRegister (addr >>> 4) true (addr &&& 0xc))
  | .dpWrite addr _ => some (version.dpRegister (addr >>> 4) false (addr &&& 0xc))
  | .abort _ => some (.dp 0 abortReg)
  | _ => none

end Version

/-- One register access on the wire; of the address only two bits are sent. -/
inductive Access where
  | read (ap : Bool) (addr : Nat)
  | write (ap : Bool) (addr data : Nat)

namespace Access

/-- The register that the hardware addresses. -/
def register (version : Version) (selection : Selection) : Access → Register
  | .read true addr | .write true addr _ => version.apRegister selection (addr &&& 0xc)
  | .read false addr => version.dpRegister selection.select true (addr &&& 0xc)
  | .write false addr _ => version.dpRegister selection.select false (addr &&& 0xc)

def writesSelect : Access → Bool
  | .write false addr _ => addr &&& 0xc == selectReg
  | _ => false

end Access

/-- Data are 32 bits wide; SELECT1 is there from ADIv6 on, in bank 5. -/
def Selection.after (version : Version) (selection : Selection) : Access → Selection
  | .write false addr data =>
    if addr &&& 0xc = selectReg then { selection with select := data % 2 ^ 32 }
    else if addr &&& 0xc = select1Reg &&& 0xc ∧ version.adi6 ∧ selection.select % 16 = 5 then
      { selection with select1 := data % 2 ^ 32 }
    else selection
  | _ => selection

/-- The access of an operation, once SELECT is set. -/
def Op.access : Op → Option Access
  | .apRead addr => some (.read true (addr &&& 0xc))
  | .apWrite addr data => some (.write true (addr &&& 0xc) data)
  | .dpRead addr => some (.read false (addr &&& 0xc))
  | .dpWrite addr data => some (.write false (addr &&& 0xc) data)
  | _ => none

/-! ### Requests -/

/-- The register of an access, and the data of a write, which are 32 bits wide. -/
abbrev Request := Register × Option Nat

def Op.data : Op → Option Nat
  | .apWrite _ data | .dpWrite _ data | .abort data => some (data % 2 ^ 32)
  | _ => none

def Op.request (version : Version) (op : Op) : Option Request :=
  (version.registerOf op).map fun register => (register, op.data)

def requests (version : Version) : Nat → List Op → List (Nat × Request)
  | _, [] => []
  | future, op :: ops =>
    ((op.request version).map fun request => (future, request)).toList ++ requests version (future + 1) ops

/-- What an access did at which register. -/
inductive Event where
  | read (register : Register) (value : Nat)
  | write (register : Register) (data : Nat)

namespace Event

def request : Event → Request
  | .read register _ => (register, none)
  | .write register data => (register, some data)

def value : Event → Option Nat
  | .read _ value => some value
  | .write _ _ => none

end Event

/-- The operation behind a posted access, the index of its future in the batch, and whether no write
of SELECT was posted for it. -/
structure Own where
  op : Op
  future : Nat
  elided : Bool

def owned (owns : List (Option Own)) (events : List (Option Event)) : List (Own × Event) :=
  (owns.zip events).filterMap fun entry => entry.1.bind fun own => entry.2.map fun event => (own, event)

/-- The registers behind the port. A read may change the state, as that of DRW does; `unknown` is
what data that are UNKNOWN read as. -/
structure Device (State : Type) where
  read : Register → State → Nat × State
  write : Register → Nat → State → State
  unknown : State → Nat

/-! ### The fields of SELECT -/

theorem and_low_nibble (value : Nat) : value &&& 0xf = value % 16 := Nat.and_two_pow_sub_one_eq_mod value 4

theorem and_low_byte (value : Nat) : value &&& 0xff = value % 256 := Nat.and_two_pow_sub_one_eq_mod value 8

theorem ap_select_eq (cur addr : Nat) :
    ((addr >>> 24) &&& 0xff) <<< 24 ||| ((addr >>> 4) &&& 0xf) <<< 4 ||| (cur &&& 0xf) =
      addr / 2 ^ 24 % 256 * 2 ^ 24 + addr / 16 % 16 * 16 + cur % 16 := by
  rw [and_low_byte, and_low_nibble, and_low_nibble, Nat.shiftRight_eq_div_pow, Nat.shiftRight_eq_div_pow,
    Nat.or_assoc]
  have nibble : cur % 16 < 2 ^ 4 := Nat.mod_lt _ (by decide)
  have bank : addr / 2 ^ 4 % 16 < 16 := Nat.mod_lt _ (by decide)
  have low : (addr / 2 ^ 4 % 16) <<< 4 + cur % 16 < 2 ^ 24 := by
    rw [Nat.shiftLeft_eq]
    omega
  rw [← Nat.shiftLeft_add_eq_or_of_lt nibble, ← Nat.shiftLeft_add_eq_or_of_lt low, Nat.shiftLeft_eq,
    Nat.shiftLeft_eq]
  omega

theorem dp_select_mod (cur addr : Nat) : ((cur &&& 0xFFFFFFF0) ||| ((addr >>> 4) &&& 0xf)) % 16 = addr / 16 % 16 := by
  have cleared : (cur &&& 0xFFFFFFF0) % 2 ^ 4 = 0 := by
    rw [Nat.and_mod_two_pow]
    exact Nat.and_zero _
  have nibble : (cur &&& 0xFFFFFFF0 ||| ((addr >>> 4) &&& 0xf)) % 2 ^ 4 = ((addr >>> 4) &&& 0xf) % 2 ^ 4 := by
    rw [Nat.or_mod_two_pow, cleared, Nat.zero_or]
  rw [show 16 = 2 ^ 4 from rfl, nibble, and_low_nibble, Nat.shiftRight_eq_div_pow]
  exact Nat.mod_mod _ _

theorem ap_select_lt (cur addr : Nat) :
    ((addr >>> 24) &&& 0xff) <<< 24 ||| ((addr >>> 4) &&& 0xf) <<< 4 ||| (cur &&& 0xf) < 2 ^ 32 := by
  rw [ap_select_eq]
  omega

theorem dp_select_lt (cur addr : Nat) : (cur &&& 0xFFFFFFF0) ||| ((addr >>> 4) &&& 0xf) < 2 ^ 32 :=
  Nat.or_lt_two_pow (Nat.and_lt_two_pow _ (by decide)) (Nat.and_lt_two_pow _ (by decide))

theorem adi6_select_address (cur addr : Nat) : ((addr &&& 0xFFFFFFF0) ||| (cur &&& 0xf)) / 16 % 2 ^ 28 = addr / 16 % 2 ^ 28 := by
  rw [show 16 = 2 ^ 4 from rfl, ← Nat.shiftRight_eq_div_pow, Nat.shiftRight_or_distrib, Nat.shiftRight_and_distrib,
    Nat.shiftRight_and_distrib, ← Nat.shiftRight_eq_div_pow]
  change (addr >>> 4 &&& (2 ^ 28 - 1) ||| cur >>> 4 &&& 0) % 2 ^ 28 = _
  rw [Nat.and_zero, Nat.or_zero, Nat.and_two_pow_sub_one_eq_mod, Nat.mod_mod]

theorem adi6_select_lt (cur addr : Nat) : (addr &&& 0xFFFFFFF0) ||| (cur &&& 0xf) < 2 ^ 32 :=
  Nat.or_lt_two_pow (Nat.and_lt_two_pow _ (by decide)) (Nat.and_lt_two_pow _ (by decide))

end Acrobe.Arm.Dp
