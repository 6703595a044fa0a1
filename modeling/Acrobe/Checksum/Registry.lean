import Acrobe.Checksum.Appended
import Acrobe.Checksum.Swapped

/-!
# The registered algorithms

The database of `Crc`, as the module fills it when it is imported.
-/

namespace Acrobe.Checksum
open LittleEndian
open Acrobe.Crc (swib)

/-! ### Information strings -/

/-- A character without its case, as the regular expression compares it. -/
def foldCase (c : Char) : Char :=
  if 'A' ≤ c ∧ c ≤ 'Z' then Char.ofNat (c.toNat + 32)
  else if c = 'ſ' then 's'
  else if c = 'ı' ∨ c = 'İ' then 'i'
  else c

def isHexDigit (c : Char) : Bool := ('0' ≤ c ∧ c ≤ '9') ∨ ('a' ≤ foldCase c ∧ foldCase c ≤ 'f')

def hexDigit (c : Char) : Nat := if c ≤ '9' then c.toNat - '0'.toNat else (foldCase c).toNat - 'a'.toNat + 10

/-- `0x[0-9a-f]+`, and what comes after it. -/
def hexNumber : List Char → Option (Nat × List Char)
  | zero :: x :: rest =>
    let digits := rest.takeWhile isHexDigit
    if zero = '0' ∧ foldCase x = 'x' ∧ digits ≠ [] then
      some (digits.foldl (fun value c => 16 * value + hexDigit c) 0, rest.dropWhile isHexDigit)
    else none
  | _ => none

/-- `(:0x[0-9a-f]+)?` -/
def initNumber : List Char → Option (Nat × List Char)
  | ':' :: rest => hexNumber rest
  | chars => some (0, chars)

/-- An optional letter. -/
def flag (letter : Char) : List Char → Bool × List Char
  | [] => (false, [])
  | c :: rest => if foldCase c = letter then (true, rest) else (false, c :: rest)

/-- `from_info`, or `none` where it raises a `ValueError`. -/
def fromInfo (info : List Char) : Option Arguments := do
  -- `$` also matches before a newline at the end
  let info := if info.getLast? = some '\n' then info.dropLast else info
  let (poly, rest) ← hexNumber info
  let (init, rest) ← initNumber rest
  let spill ← rest.getLast?
  let (popLsb, rest) := flag 'l' rest.dropLast
  let (order0AtLsb, rest) := flag 'z' rest
  let (complementState, rest) := flag 's' rest
  let (complementInput, rest) := flag 'i' rest
  let (spillBitswap, rest) := flag 'x' rest
  if (foldCase spill = 'l' ∨ foldCase spill = 'h') ∧ rest = [] then
    some {
      poly := poly
      init := init
      popLsb := popLsb
      order0AtLsb := order0AtLsb
      complementInput := complementInput
      complementState := complementState
      spillBitswap := spillBitswap
      spillByteOrder := if spill = 'h' then .big else .little }
  else none

def infos : List (String × String) := [
  ("CRC-8/AUTOSAR", "0x12fzsl"),
  ("CRC-8/BLUETOOTH", "0x1a7lzxl"),
  ("CRC-8/CDMA2000", "0x19b:0xffzl"),
  ("CRC-8/DARC", "0x139lzxl"),
  ("CRC-8/DVB-S2", "0x1d5zl"),
  ("CRC-8/GSM-A", "0x11dzl"),
  ("CRC-8/GSM-B", "0x149:0xffzsl"),
  ("CRC-8/HITAG", "0x11d:0xffzl"),
  ("CRC-8/I-CODE", "0x11d:0xfdzl"),
  ("CRC-8/LTE", "0x19bzl"),
  ("CRC-8/MAXIM-DOW", "0x131lzxl"),
  ("CRC-8/MIFARE-MAD", "0x11d:0xc7zl"),
  ("CRC-8/NRSC-5", "0x131:0xffzl"),
  ("CRC-8/OPENSAFETY", "0x12fzl"),
  ("CRC-8/ROHC", "0x107:0xfflzxl"),
  ("CRC-8/SAE-J1850", "0x11dzsl"),
  ("CRC-8/SMBUS", "0x107zl"),
  ("CRC-8/TECH-3250", "0x11d:0xfflzxl"),
  ("CRC-8/WCDMA", "0x19blzxl"),
  ("CRC-16/ARC", "0x18005lzxl"),
  ("CRC-16/CDMA2000", "0x1c867:0xffffzl"),
  ("CRC-16/CMS", "0x18005:0xffffzl"),
  ("CRC-16/DDS-110", "0x18005:0x800dzl"),
  ("CRC-16/DECT-X", "0x10589zl"),
  ("CRC-16/DNP", "0x13d65:0xfffflzsxl"),
  ("CRC-16/EN-13757", "0x13d65:0xffffzsl"),
  ("CRC-16/GENIBUS", "0x11021zsl"),
  ("CRC-16/GSM", "0x11021:0xffffzsl"),
  ("CRC-16/IBM-3740", "0x11021:0xffffzl"),
  ("CRC-16/IBM-SDLC", "0x11021lzsxl"),
  ("CRC-16/ISO-IEC-14443-3-A", "0x11021:0xc6c6lzxl"),
  ("CRC-16/KERMIT", "0x11021lzxl"),
  ("CRC-16/LJ1200", "0x16f63zl"),
  ("CRC-16/M17", "0x15935:0xffffzl"),
  ("CRC-16/MAXIM-DOW", "0x18005:0xfffflzsxl"),
  ("CRC-16/MCRF4XX", "0x11021:0xfffflzxl"),
  ("CRC-16/MODBUS", "0x18005:0xfffflzxl"),
  ("CRC-16/NRSC-5", "0x1080b:0xfffflzxl"),
  ("CRC-16/OPENSAFETY-A", "0x15935zl"),
  ("CRC-16/OPENSAFETY-B", "0x1755bzl"),
  ("CRC-16/PROFIBUS", "0x11dcfzsl"),
  ("CRC-16/RIELLO", "0x11021:0xb2aalzxl"),
  ("CRC-16/SPI-FUJITSU", "0x11021:0x1d0fzl"),
  ("CRC-16/T10-DIF", "0x18bb7zl"),
  ("CRC-16/TELEDISK", "0x1a097zl"),
  ("CRC-16/TMS37157", "0x11021:0x89eclzxl"),
  ("CRC-16/UMTS", "0x18005zl"),
  ("CRC-16/USB", "0x18005lzsxl"),
  ("CRC-16/XMODEM", "0x11021zl"),
  ("CRC-24/BLE", "0x100065b:0x555555lzxl"),
  ("CRC-24/FLEXRAY-A", "0x15d6dcb:0xfedcbazl"),
  ("CRC-24/FLEXRAY-B", "0x15d6dcb:0xabcdefzl"),
  ("CRC-24/INTERLAKEN", "0x1328b63zsl"),
  ("CRC-24/LTE-A", "0x1864cfbzl"),
  ("CRC-24/LTE-B", "0x1800063zl"),
  ("CRC-24/OPENPGP", "0x1864cfb:0xb704cezl"),
  ("CRC-24/OS-9", "0x1800063zsl"),
  ("CRC-32/AIXM", "0x1814141abzl"),
  ("CRC-32/AUTOSAR", "0x1f4acfb13lzsxl"),
  ("CRC-32/BASE91-D", "0x1a833982blzsxl"),
  ("CRC-32/BZIP2", "0x104c11db7zsl"),
  ("CRC-32/CD-ROM-EDC", "0x18001801blzxl"),
  ("CRC-32/CKSUM", "0x104c11db7:0xffffffffzsl"),
  ("CRC-32/ISCSI", "0x11edc6f41lzsxl"),
  ("CRC-32/ISO-HDLC", "0x104c11db7lzsxl"),
  ("CRC-32/JAMCRC", "0x104c11db7:0xfffffffflzxl"),
  ("CRC-32/MEF", "0x1741b8cd7:0xfffffffflzxl"),
  ("CRC-32/MPEG-2", "0x104c11db7:0xffffffffzl"),
  ("CRC-32/XFER", "0x1000000afzl"),
  ("CRC-40/GSM", "0x10004820009:0xffffffffffzsl"),
  ("CRC-64/ECMA-182", "0x142f0e1eba9ea3693zl"),
  ("CRC-64/GO-ISO", "0x1000000000000001blzsxl"),
  ("CRC-64/MS", "0x1259c84cba6426349:0xfffffffffffffffflzxl"),
  ("CRC-64/REDIS", "0x1ad93d23594c935a9lzxl"),
  ("CRC-64/WE", "0x142f0e1eba9ea3693zsl"),
  ("CRC-64/XZ", "0x142f0e1eba9ea3693lzsxl")]

/-! ### Database -/

def registerInfo (log2 : Log2) (db : List (String × Crc)) (entry : String × String) : Except PyErr (List (String × Crc)) :=
  match fromInfo entry.2.toList with
  | some arguments => (Crc.create log2 arguments).map fun crc => db ++ [(entry.1, crc)]
  | none => .error (.valueError entry.2)

def ethernetFcs : Arguments := ⟨0x104c11db7, 0, true, true, false, true, true, .little⟩

def bluetoothCrc24 : Arguments := ⟨0x100065b, 0x555555, true, true, false, false, true, .little⟩

def hdlc : Arguments := ⟨0x10811, 0, true, false, false, true, false, .little⟩

def oneWire : Arguments := ⟨0x119, 0, true, false, false, false, false, .little⟩

/-- The database, as it is after the module has been imported. -/
def db (log2 : Log2) : Except PyErr (List (String × Crc)) := do
  let ethernetFcs ← Crc.create log2 ethernetFcs
  let swapped ← ethernetFcs.orderSwapped log2
  let zlib ← Crc.create log2 { swapped.toArguments with spillByteOrder := .little }
  let bluetoothCrc24 ← Crc.create log2 bluetoothCrc24
  let hdlc ← Crc.create log2 hdlc
  let iso14443a ← Crc.create log2 { hdlc.toArguments with init := 0x6363, complementState := false }
  let oneWire ← Crc.create log2 oneWire
  infos.foldlM (registerInfo log2) [("ethernet_fcs", ethernetFcs), ("zlib", zlib), ("bluetooth_crc24", bluetoothCrc24),
    ("hdlc", hdlc), ("iso14443a", iso14443a), ("iso14443b", hdlc), ("one_wire", oneWire)]

/-! ### Whole bytes -/

/-- The polynomial of whole bytes, whose logarithm is far from the next integer, and the order of the spilled bits. -/
def Arguments.Regular (arguments : Arguments) : Prop :=
  arguments.poly % 2 = 1 ∧ arguments.poly + arguments.poly / 2 ^ 20 < 2 ^ (Nat.log2 arguments.poly + 1) ∧
    Nat.log2 arguments.poly % 8 = 0 ∧ 8 ≤ Nat.log2 arguments.poly ∧
    arguments.popLsb = (arguments.spillBitswap == arguments.order0AtLsb) ∧ arguments.spillByteOrder = .little

instance (arguments : Arguments) : Decidable arguments.Regular :=
  inferInstanceAs (Decidable (_ ∧ _ ∧ _ ∧ _ ∧ _ ∧ _))

/-- An algorithm with a polynomial of whole bytes. -/
def Crc.Regular (crc : Crc) : Prop := crc.Exact ∧ (∃ n, crc.order = 8 * (n + 1)) ∧
  crc.popLsb = (crc.spillBitswap == crc.order0AtLsb) ∧ crc.spillByteOrder = .little

theorem Crc.Regular.alwaysValid_iff {crc : Crc} (regular : crc.Regular) :
    crc.AlwaysValid ↔ crc.popLsb = true ∨ crc.order = 8 := by
  obtain ⟨exact, ⟨n, whole⟩, popped, little⟩ := regular
  rw [Crc.alwaysValid_iff exact whole, Crc.SpillsInOrder, little]
  grind

theorem create_regular {arguments : Arguments} (regular : arguments.Regular) (log2 : Log2) :
    ∃ crc, Crc.create log2 arguments = .ok crc ∧ crc.Regular ∧ crc.order = Nat.log2 arguments.poly ∧
      crc.toArguments = { arguments with init := arguments.init % 2 ^ Nat.log2 arguments.poly } := by
  obtain ⟨odd, clear, bytes, wide, popped, little⟩ := regular
  have exact := log2.value_eq arguments.poly clear
  have enough : minimalOrder arguments.order0AtLsb ≤ log2.value arguments.poly := by
    rw [minimalOrder]
    split <;> omega
  obtain ⟨crc, created⟩ := Crc.create_isOk odd enough
  obtain ⟨order, same⟩ := Crc.create_ok created
  rw [exact] at order same
  refine ⟨crc, created, ⟨(Crc.create_exact created).mpr exact, ⟨Nat.log2 arguments.poly / 8 - 1, by omega⟩, ?_, ?_⟩, order, same⟩
  · rw [same]
    exact popped
  · rw [same]
    exact little

theorem infos_regular : ∀ entry ∈ infos, ∃ arguments, fromInfo entry.2.toList = some arguments ∧ arguments.Regular := by
  have all : infos.all (fun entry => ((fromInfo entry.2.toList).map fun arguments => decide arguments.Regular) == some true) = true := by
    decide
  intro entry member
  have here := List.all_eq_true.mp all entry member
  rw [beq_iff_eq, Option.map_eq_some_iff] at here
  obtain ⟨arguments, parsed, regular⟩ := here
  exact ⟨arguments, parsed, of_decide_eq_true regular⟩

theorem registered_regular (log2 : Log2) {entries : List (String × String)}
    (regular : ∀ entry ∈ entries, ∃ arguments, fromInfo entry.2.toList = some arguments ∧ arguments.Regular)
    {before : List (String × Crc)} (sound : ∀ entry ∈ before, entry.2.Regular) :
    ∃ after, entries.foldlM (registerInfo log2) before = .ok after ∧ ∀ entry ∈ after, entry.2.Regular := by
  induction entries generalizing before with
  | nil => exact ⟨before, rfl, sound⟩
  | cons entry entries ih =>
    obtain ⟨arguments, parsed, fits⟩ := regular entry List.mem_cons_self
    obtain ⟨crc, created, whole, -⟩ := create_regular fits log2
    have registered : registerInfo log2 before entry = .ok (before ++ [(entry.1, crc)]) := by
      rw [registerInfo, parsed]
      dsimp only
      rw [created]
      rfl
    rw [List.foldlM_cons, registered]
    refine ih (fun entry member => regular entry (List.mem_cons_of_mem _ member)) fun entry member => ?_
    rcases List.mem_append.mp member with old | new
    · exact sound entry old
    · rw [List.mem_singleton.mp new]
      exact whole

theorem ok_bind {α β : Type} (value : α) (next : α → Except PyErr β) : (Except.ok value >>= next) = next value := rfl

/-! ### Filling -/

/-- The algorithm of `ethernet_fcs` in the other layout. -/
def swappedFcs : Arguments := ⟨0x1db710641, 0, true, false, false, true, false, .little⟩

theorem db_regular (log2 : Log2) : ∃ registered, db log2 = .ok registered ∧ ∀ entry ∈ registered, entry.2.Regular := by
  obtain ⟨fcs, madeFcs, soundFcs, order, arguments⟩ := create_regular (show ethernetFcs.Regular by decide) log2
  have swap : { fcs.toArguments with
      poly := swib fcs.poly (fcs.order + 1)
      init := swib fcs.init fcs.order
      order0AtLsb := !fcs.order0AtLsb
      spillBitswap := !fcs.spillBitswap } = swappedFcs := by
    rw [arguments, order]
    decide
  obtain ⟨swapped, madeSwapped, soundSwapped, -, same⟩ := create_regular (show swappedFcs.Regular by decide) log2
  rw [← swap] at madeSwapped
  have spilled : { swapped.toArguments with spillByteOrder := .little } = swappedFcs := by
    rw [same]
    decide
  obtain ⟨zlib, madeZlib, soundZlib, -⟩ := create_regular (show swappedFcs.Regular by decide) log2
  rw [← spilled] at madeZlib
  obtain ⟨bluetooth, madeBluetooth, soundBluetooth, -⟩ := create_regular (show bluetoothCrc24.Regular by decide) log2
  obtain ⟨ccitt, madeCcitt, soundCcitt, -, arguments⟩ := create_regular (show hdlc.Regular by decide) log2
  obtain ⟨cards, madeCards, soundCards, -⟩ :=
    create_regular (show Arguments.Regular { hdlc with init := 0x6363, complementState := false } by decide) log2
  have variant : { ccitt.toArguments with init := 0x6363, complementState := false } =
      { hdlc with init := 0x6363, complementState := false } := by
    rw [arguments]
  rw [← variant] at madeCards
  obtain ⟨wire, madeWire, soundWire, -⟩ := create_regular (show oneWire.Regular by decide) log2
  rw [db, madeFcs, ok_bind, Crc.orderSwapped, madeSwapped, ok_bind, madeZlib, ok_bind, madeBluetooth, ok_bind, madeCcitt,
    ok_bind, madeCards, ok_bind, madeWire, ok_bind]
  refine registered_regular log2 infos_regular fun entry member => ?_
  simp only [List.mem_cons, List.not_mem_nil, or_false] at member
  rcases member with rfl | rfl | rfl | rfl | rfl | rfl | rfl
  · exact soundFcs
  · exact soundZlib
  · exact soundBluetooth
  · exact soundCcitt
  · exact soundCards
  · exact soundCcitt
  · exact soundWire

/-- The registered algorithms that verify their appended checksums are the ones that pop the lowest bit first, and the
ones of a single byte. -/
theorem registered_alwaysValid_iff (log2 : Log2) :
    ∃ registered, db log2 = .ok registered ∧
      ∀ entry ∈ registered, entry.2.AlwaysValid ↔ entry.2.popLsb = true ∨ entry.2.order = 8 := by
  obtain ⟨registered, filled, regular⟩ := db_regular log2
  exact ⟨registered, filled, fun entry member => (regular entry member).alwaysValid_iff⟩

theorem mem_registered {log2 : Log2} {entries : List (String × String)} {before after : List (String × Crc)}
    (ran : entries.foldlM (registerInfo log2) before = .ok after) :
    before ⊆ after ∧ ∀ entry ∈ entries, ∃ arguments crc, fromInfo entry.2.toList = some arguments ∧
      Crc.create log2 arguments = .ok crc ∧ (entry.1, crc) ∈ after := by
  induction entries generalizing before with
  | nil =>
    cases ran
    exact ⟨List.Subset.refl _, nofun⟩
  | cons entry entries ih =>
    rw [List.foldlM_cons] at ran
    obtain ⟨middle, registered, ran⟩ := Exceptional.except_bind_ok ran
    obtain ⟨kept, found⟩ := ih ran
    rw [registerInfo] at registered
    split at registered
    · rename_i arguments parsed
      obtain ⟨crc, created, rfl⟩ := Exceptional.except_map_ok registered
      refine ⟨fun old member => kept (List.mem_append_left _ member), fun other member => ?_⟩
      rcases List.mem_cons.mp member with rfl | member
      · exact ⟨arguments, crc, parsed, created, kept (List.mem_append_right _ (List.mem_singleton_self _))⟩
      · exact found other member
    · cases registered

theorem mem_db {log2 : Log2} {registered : List (String × Crc)} (filled : db log2 = .ok registered) :
    ∀ entry ∈ infos, ∃ arguments crc, fromInfo entry.2.toList = some arguments ∧
      Crc.create log2 arguments = .ok crc ∧ (entry.1, crc) ∈ registered := by
  rw [db] at filled
  obtain ⟨_, -, filled⟩ := Exceptional.except_bind_ok filled
  obtain ⟨_, -, filled⟩ := Exceptional.except_bind_ok filled
  obtain ⟨_, -, filled⟩ := Exceptional.except_bind_ok filled
  obtain ⟨_, -, filled⟩ := Exceptional.except_bind_ok filled
  obtain ⟨_, -, filled⟩ := Exceptional.except_bind_ok filled
  obtain ⟨_, -, filled⟩ := Exceptional.except_bind_ok filled
  obtain ⟨_, -, filled⟩ := Exceptional.except_bind_ok filled
  exact (mem_registered filled).2

def xmodem : Crc := ⟨⟨0x11021, 0, false, true, false, false, false, .little⟩, 16, by decide, by decide, by decide, by decide⟩

/-- The checksum of `1`, which is appended with its bytes in the wrong order. -/
theorem xmodem_not_alwaysValid :
    ¬∀ (log2 : Log2) (registered : List (String × Crc)), db log2 = .ok registered →
      ∀ entry ∈ registered, entry.2.AlwaysValid := by
  intro all
  obtain ⟨registered, filled, -⟩ := db_regular doubleLog2
  obtain ⟨arguments, crc, parsed, created, member⟩ := mem_db filled ("CRC-16/XMODEM", "0x11021zl") (by decide)
  have same : fromInfo "0x11021zl".toList = some xmodem.toArguments := by decide
  obtain rfl := Option.some.inj (same.symm.trans parsed)
  have built : Crc.create doubleLog2 xmodem.toArguments = .ok xmodem := rfl
  obtain rfl := Except.ok.inj (built.symm.trans created)
  obtain ⟨whole, appended, valid, -⟩ := all doubleLog2 registered filled _ member [0x31]
  have made : xmodem.appendTo [0x31] = .ok [0x31, 0x72, 0x26] := rfl
  obtain rfl := Except.ok.inj (made.symm.trans appended)
  revert valid
  decide

end Acrobe.Checksum
