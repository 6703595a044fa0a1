import Acrobe.Lib.Exceptional
import Acrobe.Lib.LittleEndian

/-!
# ELF

Program segments, sections and symbols of an object file. The sections leave out the headers of type `SHT_NULL`,
and a symbol names its section by its place among them.
-/

namespace Acrobe.Vfs.Elf
open LittleEndian Exceptional

abbrev Text := List Char

inductive Error where
  | noMatch
  | headerTooShort
  | badClass (value : UInt8)
  | badData (value : UInt8)
  /-- A read from behind the end of the source. -/
  | outOfRange (offset : Nat)
  /-- `struct.error` -/
  | unpack

def elfMagic : Bytes := [0x7f, 0x45, 0x4c, 0x46]

def elfClass32 : UInt8 := 1

def elfClass64 : UInt8 := 2

def elfData2Lsb : UInt8 := 1

def elfData2Msb : UInt8 := 2

def ptLoad : Nat := 1

def shtNull : Nat := 0

def shtSymtab : Nat := 2

def shnUndef : Nat := 0

def shnAbs : Nat := 0xfff1

def shnCommon : Nat := 0xfff2

/-! ### Numbers in the file -/

structure Format where
  is64 : Bool
  bigEndian : Bool

/-- At most `size` bytes. -/
def read (source : Bytes) (offset size : Nat) : Except Error Bytes :=
  if source.length < offset then .error (.outOfRange offset) else .ok ((source.drop offset).take size)

namespace Format

def unsigned (format : Format) (bytes : Bytes) : Nat := combine (if format.bigEndian then bytes.reverse else bytes)

def fields (format : Format) : List Nat → Bytes → List Nat
  | [], _ => []
  | width :: widths, bytes => format.unsigned (bytes.take width) :: format.fields widths (bytes.drop width)

/-- `struct.unpack` of unsigned numbers of the given widths. -/
def unpack (format : Format) (widths : List Nat) (bytes : Bytes) : Except Error (List Nat) :=
  if bytes.length = widths.sum then .ok (format.fields widths bytes) else .error .unpack

def word (format : Format) : Nat := if format.is64 then 8 else 4

def ehdrSize (format : Format) : Nat := if format.is64 then 64 else 52

def ehdrWidths (format : Format) : List Nat := [2, 2, 4, format.word, format.word, format.word, 4, 2, 2, 2, 2, 2, 2]

def phdrWidths (format : Format) : List Nat :=
  if format.is64 then [4, 4, 8, 8, 8, 8, 8, 8] else [4, 4, 4, 4, 4, 4, 4, 4]

def shdrWidths (format : Format) : List Nat :=
  [4, 4, format.word, format.word, format.word, format.word, 4, 4, format.word, format.word]

def symWidths (format : Format) : List Nat := if format.is64 then [4, 1, 1, 2, 8, 8] else [4, 4, 4, 1, 1, 2]

def symSize (format : Format) : Nat := if format.is64 then 24 else 16

end Format

/-! ### Headers -/

/-- `e_ident` -/
def ident (source : Bytes) : Except Error Format := do
  let head ← read source 0 (min source.length 64)
  if head.take 4 ≠ elfMagic then throw .noMatch
  if head.length < 16 then throw .headerTooShort
  let eiClass := head.getD 4 0
  let eiData := head.getD 5 0
  let is64 ← if eiClass = elfClass32 then pure false
    else if eiClass = elfClass64 then pure true
    else throw (.badClass eiClass)
  let bigEndian ← if eiData = elfData2Lsb then pure false
    else if eiData = elfData2Msb then pure true
    else throw (.badData eiData)
  return { is64, bigEndian }

structure Header where
  type : Nat
  machine : Nat
  entry : Nat
  phoff : Nat
  shoff : Nat
  phentsize : Nat
  phnum : Nat
  shentsize : Nat
  shnum : Nat
  shstrndx : Nat

def fileHeader (source : Bytes) (format : Format) : Except Error Header := do
  let bytes ← read source 16 (format.ehdrSize - 16)
  match ← format.unpack format.ehdrWidths bytes with
  | [type, machine, _, entry, phoff, shoff, _, _, phentsize, phnum, shentsize, shnum, shstrndx] =>
    return { type, machine, entry, phoff, shoff, phentsize, phnum, shentsize, shnum, shstrndx }
  | _ => throw .unpack

structure Segment where
  offset : Nat
  filesz : Nat
  vaddr : Nat
  paddr : Nat
  memsz : Nat
  flags : Nat

/-- Nothing for a program header that loads nothing. -/
def segment (source : Bytes) (format : Format) (header : Header) (i : Nat) : Except Error (Option Segment) := do
  let bytes ← read source (header.phoff + i * header.phentsize) header.phentsize
  let (type, found) ← match format.is64, ← format.unpack format.phdrWidths (bytes.take format.phdrWidths.sum) with
    | true, [type, flags, offset, vaddr, paddr, filesz, memsz, _] =>
      pure (type, ({ offset, filesz, vaddr, paddr, memsz, flags } : Segment))
    | false, [type, offset, vaddr, paddr, filesz, memsz, flags, _] =>
      pure (type, ({ offset, filesz, vaddr, paddr, memsz, flags } : Segment))
    | _, _ => throw .unpack
  if type ≠ ptLoad then return none
  if found.filesz = 0 ∧ found.memsz = 0 then return none
  return some found

def segments (source : Bytes) (format : Format) (header : Header) : Except Error (List Segment) := do
  let found ← (List.range header.phnum).mapM (segment source format header)
  return found.reduceOption

structure SectionHeader where
  name : Nat
  type : Nat
  flags : Nat
  addr : Nat
  offset : Nat
  size : Nat
  link : Nat
  entsize : Nat

def sectionHeader (source : Bytes) (format : Format) (header : Header) (i : Nat) : Except Error SectionHeader := do
  let bytes ← read source (header.shoff + i * header.shentsize) format.shdrWidths.sum
  match ← format.unpack format.shdrWidths bytes with
  | [name, type, flags, addr, offset, size, link, _, _, entsize] =>
    return { name, type, flags, addr, offset, size, link, entsize }
  | _ => throw .unpack

def sectionHeaders (source : Bytes) (format : Format) (header : Header) : Except Error (List SectionHeader) :=
  (List.range header.shnum).mapM (sectionHeader source format header)

/-! ### Names -/

/-- `decode("ascii", errors="replace")` -/
def decodeAscii (bytes : Bytes) : Text := bytes.map fun byte => if byte < 128 then Char.ofNat byte.toNat else '\uFFFD'

/-- The bytes up to the next zero. -/
def cstring (data : Bytes) (start : Nat) : Bytes := (data.drop start).takeWhile (· ≠ 0)

/-- `f"shdr{i}"` -/
def shdrText (i : Nat) : Text := ['s', 'h', 'd', 'r'] ++ Nat.toDigits 10 i

def shstrtabData (source : Bytes) (header : Header) (raw : List SectionHeader) : Except Error (Option Bytes) :=
  if header.shstrndx = 0 then .ok none
  else match raw[header.shstrndx]? with
    | some strings => (read source strings.offset strings.size).map some
    | none => .ok none

def sectionName (shstrtab : Option Bytes) (i : Nat) (shdr : SectionHeader) : Text :=
  match shstrtab with
  | some data =>
    if shdr.name < data.length then
      let name := decodeAscii (cstring data shdr.name)
      if name = [] then shdrText i else name
    else shdrText i
  | none => shdrText i

structure Section where
  index : Nat
  name : Text
  header : SectionHeader

/-- The section of header `i`, if it has one. -/
def sectionOf (shstrtab : Option Bytes) (numbered : SectionHeader × Nat) : Option Section :=
  if numbered.1.type = shtNull then none
  else some { index := numbered.2, name := sectionName shstrtab numbered.2 numbered.1, header := numbered.1 }

def namedSections (shstrtab : Option Bytes) (raw : List SectionHeader) : List Section :=
  raw.zipIdx.filterMap (sectionOf shstrtab)

/-! ### Symbols -/

structure SymbolRecord where
  name : Nat
  info : Nat
  shndx : Nat
  value : Nat
  size : Nat

def symbolRecord (format : Format) (bytes : Bytes) : Option SymbolRecord :=
  match format.is64, format.fields format.symWidths bytes with
  | true, [name, info, _, shndx, value, size] => some { name, info, shndx, value, size }
  | false, [name, value, size, info, _, shndx] => some { name, info, shndx, value, size }
  | _, _ => none

structure Symbol where
  name : Text
  value : Nat
  size : Nat
  type : Nat
  binding : Nat
  sectionName : Text

def symbolName (strtab : Bytes) (record : SymbolRecord) : Text :=
  if record.name < strtab.length then decodeAscii (cstring strtab record.name) else []

def symbolSection (raw : List SectionHeader) (sections : List Section) (shndx : Nat) : Text :=
  if shndx = shnUndef then ['U', 'N', 'D']
  else if shndx = shnAbs then ['A', 'B', 'S']
  else if shndx = shnCommon then ['C', 'O', 'M', 'M', 'O', 'N']
  else if shndx < raw.length then
    match sections[shndx - 1]? with
    | some node => node.name
    | none => shdrText shndx
  else []

def symbol (strtab : Bytes) (raw : List SectionHeader) (sections : List Section) (record : SymbolRecord) :
    Option Symbol :=
  let name := symbolName strtab record
  if name = [] then none
  else some {
    name, value := record.value, size := record.size, type := record.info % 16, binding := record.info / 16 % 16
    sectionName := symbolSection raw sections record.shndx }

/-- `sym_table[name] = symbol` -/
def put (table : List Symbol) (symbol : Symbol) : List Symbol :=
  if table.any fun old => old.name = symbol.name then
    table.map fun old => if old.name = symbol.name then symbol else old
  else table ++ [symbol]

/-- The records that the loop takes from the table. It stops at the first one that is cut short. -/
def records (format : Format) (symtab : SectionHeader) (blob : Bytes) : List SymbolRecord :=
  let count := if symtab.entsize = 0 then symtab.size / format.symSize else symtab.size / symtab.entsize
  let pieces := (List.range count).map fun i => (blob.drop (i * format.symSize)).take format.symSize
  (pieces.takeWhile fun piece => piece.length = format.symSize).filterMap (symbolRecord format)

/-- The strings that the symbol table is linked to. -/
def linkedStrings (source : Bytes) (raw : List SectionHeader) (symtab : SectionHeader) : Except Error Bytes :=
  if symtab.link = 0 then .ok []
  else match raw[symtab.link]? with
    | some strings => read source strings.offset strings.size
    | none => .ok []

def symbolTable (source : Bytes) (format : Format) (raw : List SectionHeader) (sections : List Section) :
    Except Error (List Symbol) :=
  match sections.find? fun section_ => section_.header.type = shtSymtab with
  | none => .ok []
  | some symtab => do
    let strtab ← linkedStrings source raw symtab.header
    let blob ← read source symtab.header.offset symtab.header.size
    return ((records format symtab.header blob).filterMap (symbol strtab raw sections)).foldl put []

/-! ### The file -/

structure File where
  format : Format
  header : Header
  segments : List Segment
  sections : List Section
  symbols : List Symbol

def start (source : Bytes) : Except Error File := do
  let format ← ident source
  let header ← fileHeader source format
  let segments ← segments source format header
  if header.shnum = 0 ∨ header.shoff = 0 then return { format, header, segments, sections := [], symbols := [] }
  else
    let raw ← sectionHeaders source format header
    let shstrtab ← shstrtabData source header raw
    let sections := namedSections shstrtab raw
    let symbols ← symbolTable source format raw sections
    return { format, header, segments, sections, symbols }

end Acrobe.Vfs.Elf

/-!
## The symbols of an ELF file

Every symbol comes from an entry of the symbol table. The reader steps through the table by the size of an entry
and counts the sections without the null ones, so it finds the entry and the section only where these agree with
the headers.
-/

namespace Acrobe.Vfs.Elf
open LittleEndian Exceptional

/-! ### What a symbol should carry -/

/-- The distance from one entry of the table to the next. -/
def stride (format : Format) (symtab : SectionHeader) : Nat :=
  if symtab.entsize = 0 then format.symSize else symtab.entsize

def entryCount (format : Format) (symtab : SectionHeader) : Nat := symtab.size / stride format symtab

def entry (source : Bytes) (format : Format) (symtab : SectionHeader) (i : Nat) : Option SymbolRecord :=
  symbolRecord format ((source.drop (symtab.offset + i * stride format symtab)).take format.symSize)

/-- The record that the reader takes in turn `i`: it steps by the size of an entry, and stops where one is cut
short. -/
def taken (source : Bytes) (format : Format) (symtab : SectionHeader) (i : Nat) : Option SymbolRecord :=
  if i < entryCount format symtab ∧ (i + 1) * format.symSize ≤ symtab.size then
    symbolRecord format ((source.drop (symtab.offset + i * format.symSize)).take format.symSize)
  else none

/-- The name of the section with the header `shndx`, or what stands for a special index. -/
def Attached (raw : List SectionHeader) (shstrtab : Option Bytes) (shndx : Nat) (name : Text) : Prop :=
  if shndx = shnUndef then name = ['U', 'N', 'D']
  else if shndx = shnAbs then name = ['A', 'B', 'S']
  else if shndx = shnCommon then name = ['C', 'O', 'M', 'M', 'O', 'N']
  else match raw[shndx]? with
    | some shdr => shdr.type ≠ shtNull ∧ name = sectionName shstrtab shndx shdr
    | none => name = []

/-- The tables that the symbols of a file are read from. -/
structure Tables (source : Bytes) (file : File) where
  raw : List SectionHeader
  shstrtab : Option Bytes
  symtab : Section
  strtab : Bytes
  started : start source = .ok file
  headers : sectionHeaders source file.format file.header = .ok raw
  names : shstrtabData source file.header raw = .ok shstrtab
  found : file.sections.find? (fun node => node.header.type = shtSymtab) = some symtab
  strings : linkedStrings source raw symtab.header = .ok strtab

namespace Tables
variable {source : Bytes} {file : File}

/-- The symbol carries what its entry says, and is attached to the section that the entry refers to. -/
def Own (tables : Tables source file) (symbol : Symbol) : Prop :=
  ∃ i record, i < entryCount file.format tables.symtab.header ∧
    entry source file.format tables.symtab.header i = some record ∧
    symbol.name = symbolName tables.strtab record ∧ symbol.value = record.value ∧ symbol.size = record.size ∧
    Attached tables.raw tables.shstrtab record.shndx symbol.sectionName

/-- The header with index 0 is a null header. -/
def NullFirst (tables : Tables source file) : Prop := ∃ shdr rest, tables.raw = shdr :: rest ∧ shdr.type = shtNull

def Gapless (raw : List SectionHeader) (shndx : Nat) : Prop :=
  ∀ j, 0 < j → j ≤ shndx → ∀ shdr ∈ raw[j]?, shdr.type ≠ shtNull

/-- Every record with a name lies where an entry of the table does, and no null header stands before the section
that it refers to. -/
structure Regular (tables : Tables source file) : Prop where
  packed : ∀ i record, taken source file.format tables.symtab.header i = some record →
    symbolName tables.strtab record ≠ [] → i = 0 ∨ stride file.format tables.symtab.header = file.format.symSize
  gapless : ∀ i record, taken source file.format tables.symtab.header i = some record →
    symbolName tables.strtab record ≠ [] →
    record.shndx ≠ shnAbs → record.shndx ≠ shnCommon → record.shndx < tables.raw.length →
    Gapless tables.raw record.shndx

/-- The reader takes every record with a name from the place of its entry, and looks its section up by its index. -/
def ReadInPlace (tables : Tables source file) : Prop :=
  ∀ i record, taken source file.format tables.symtab.header i = some record → symbolName tables.strtab record ≠ [] →
    i * file.format.symSize = i * stride file.format tables.symtab.header ∧
      (record.shndx ≠ shnUndef → record.shndx ≠ shnAbs → record.shndx ≠ shnCommon →
        record.shndx < tables.raw.length →
        ∃ node, file.sections[record.shndx - 1]? = some node ∧ node.index = record.shndx)

end Tables

/-! ### Sections -/

section
variable {shstrtab : Option Bytes} {shdr : SectionHeader} {raw : List SectionHeader}

theorem numbered_cons_null (null : shdr.type = shtNull) (n : Nat) :
    ((shdr :: raw).zipIdx n).filterMap (sectionOf shstrtab) = (raw.zipIdx (n + 1)).filterMap (sectionOf shstrtab) := by
  rw [List.zipIdx_cons, List.filterMap_cons, sectionOf, if_pos null]

theorem numbered_cons (some_ : shdr.type ≠ shtNull) (n : Nat) :
    ((shdr :: raw).zipIdx n).filterMap (sectionOf shstrtab) =
      ⟨n, sectionName shstrtab n shdr, shdr⟩ :: (raw.zipIdx (n + 1)).filterMap (sectionOf shstrtab) := by
  rw [List.zipIdx_cons, List.filterMap_cons, sectionOf, if_neg some_]

theorem le_index {n k : Nat} {node : Section}
    (at_ : ((raw.zipIdx n).filterMap (sectionOf shstrtab))[k]? = some node) : n + k ≤ node.index := by
  induction raw generalizing n k with
  | nil => cases at_
  | cons shdr raw ih =>
    by_cases null : shdr.type = shtNull
    · rw [numbered_cons_null null] at at_
      have := ih at_
      omega
    · rw [numbered_cons null] at at_
      cases k with
      | zero =>
        cases at_
        exact Nat.le_refl n
      | succ k =>
        rw [List.getElem?_cons_succ] at at_
        have := ih at_
        omega

/-- The section in place `k` has the header `k` exactly when no null header stands before it. -/
theorem numbered_iff {n k : Nat} (inside : k < raw.length) :
    (∃ node, ((raw.zipIdx n).filterMap (sectionOf shstrtab))[k]? = some node ∧ node.index = n + k) ↔
      ∀ j ≤ k, ∀ shdr ∈ raw[j]?, shdr.type ≠ shtNull := by
  induction raw generalizing n k with
  | nil => cases inside
  | cons shdr raw ih =>
    by_cases null : shdr.type = shtNull
    · rw [numbered_cons_null null]
      constructor
      · rintro ⟨node, at_, index⟩
        have := le_index at_
        omega
      · intro every
        exact absurd null (every 0 (Nat.zero_le _) shdr rfl)
    · rw [numbered_cons null]
      cases k with
      | zero =>
        refine ⟨fun _ j first other member => ?_, fun _ => ⟨_, rfl, rfl⟩⟩
        rw [Nat.le_zero.mp first] at member
        cases member
        exact null
      | succ k =>
        rw [List.getElem?_cons_succ, show n + (k + 1) = n + 1 + k by omega, ih (Nat.lt_of_succ_lt_succ inside)]
        constructor
        · intro every j bound other member
          cases j with
          | zero =>
            cases member
            exact null
          | succ j => exact every j (Nat.le_of_succ_le_succ bound) other member
        · intro every j bound other member
          exact every (j + 1) (Nat.succ_le_succ bound) other member

theorem numbered_at {n k : Nat} {node : Section}
    (at_ : ((raw.zipIdx n).filterMap (sectionOf shstrtab))[k]? = some node) (index : node.index = n + k) :
    ∃ shdr, raw[k]? = some shdr ∧ shdr.type ≠ shtNull ∧ node.name = sectionName shstrtab (n + k) shdr := by
  obtain ⟨⟨shdr, i⟩, numbered, made⟩ := List.mem_filterMap.mp (List.mem_of_getElem? at_)
  obtain ⟨-, found⟩ := List.mem_zipIdx_iff_le_and_getElem?_sub.mp numbered
  unfold sectionOf at made
  obtain ⟨some_, same⟩ := Option.ite_none_left_eq_some.mp made
  cases same
  have place : i = n + k := index
  subst place
  rw [Nat.add_sub_cancel_left] at found
  exact ⟨shdr, found, some_, rfl⟩

/-- Where nothing but the first header is null, the section in place `shndx - 1` has the header `shndx`. -/
theorem attached_symbolSection {shndx : Nat} (nullFirst : shdr.type = shtNull)
    (gapless : shndx ≠ shnAbs → shndx ≠ shnCommon → shndx < (shdr :: raw).length → Tables.Gapless (shdr :: raw) shndx) :
    Attached (shdr :: raw) shstrtab shndx
      (symbolSection (shdr :: raw) (namedSections shstrtab (shdr :: raw)) shndx) := by
  unfold Attached symbolSection
  by_cases undef : shndx = shnUndef
  · rw [if_pos undef, if_pos undef]
  by_cases abs : shndx = shnAbs
  · rw [if_neg undef, if_neg undef, if_pos abs, if_pos abs]
  by_cases common : shndx = shnCommon
  · rw [if_neg undef, if_neg undef, if_neg abs, if_neg abs, if_pos common, if_pos common]
  rw [if_neg undef, if_neg undef, if_neg abs, if_neg abs, if_neg common, if_neg common]
  by_cases inside : shndx < (shdr :: raw).length
  · obtain ⟨k, rfl⟩ := Nat.exists_eq_succ_of_ne_zero undef
    have before : ∀ j ≤ k, ∀ other ∈ raw[j]?, other.type ≠ shtNull := by
      intro j bound other member
      exact gapless abs common inside (j + 1) (Nat.succ_pos j) (Nat.succ_le_succ bound) other member
    obtain ⟨node, at_, index⟩ :=
      (@numbered_iff shstrtab raw 1 k (Nat.lt_of_succ_lt_succ inside)).mpr before
    obtain ⟨other, found, some_, name⟩ := numbered_at at_ index
    rw [namedSections, numbered_cons_null nullFirst, if_pos inside, Nat.succ_sub_one, at_, List.getElem?_cons_succ, found]
    rw [Nat.add_comm] at name
    exact ⟨some_, name⟩
  · rw [if_neg inside, List.getElem?_eq_none (Nat.le_of_not_lt inside)]

end

/-! ### The table -/

theorem mem_put {table : List Symbol} {symbol other : Symbol} (member : other ∈ put table symbol) :
    other = symbol ∨ other ∈ table := by
  unfold put at member
  split at member
  · obtain ⟨old, before, same⟩ := List.mem_map.mp member
    split at same
    · exact .inl same.symm
    · exact .inr (same ▸ before)
  · rcases List.mem_append.mp member with before | new
    · exact .inr before
    · exact .inl (List.mem_singleton.mp new)

theorem mem_foldl_put {symbols table : List Symbol} {symbol : Symbol} (member : symbol ∈ symbols.foldl put table) :
    symbol ∈ symbols ∨ symbol ∈ table := by
  induction symbols generalizing table with
  | nil => exact .inr member
  | cons first symbols ih =>
    rcases ih member with later | before
    · exact .inl (List.mem_cons_of_mem _ later)
    · rcases mem_put before with rfl | old
      · exact .inl List.mem_cons_self
      · exact .inr old

theorem piece_eq {source : Bytes} {offset size start width : Nat}
    (whole : ((((source.drop offset).take size).drop start).take width).length = width) :
    (((source.drop offset).take size).drop start).take width = (source.drop (offset + start)).take width := by
  rw [List.drop_take, List.take_take, List.drop_drop] at whole ⊢
  rw [List.length_take] at whole
  rw [Nat.min_eq_left (by omega)]

theorem mem_records {source blob : Bytes} {format : Format} {symtab : SectionHeader} {record : SymbolRecord}
    (readTable : read source symtab.offset symtab.size = .ok blob) (member : record ∈ records format symtab blob) :
    ∃ i, taken source format symtab i = some record := by
  unfold records at member
  obtain ⟨piece, inside, decoded⟩ := List.mem_filterMap.mp member
  have whole := of_decide_eq_true (List.all_eq_true.mp List.all_takeWhile piece inside)
  obtain ⟨i, bound, rfl⟩ := List.mem_map.mp ((List.takeWhile_sublist _).mem inside)
  unfold read at readTable
  split at readTable
  · cases readTable
  cases readTable
  refine ⟨i, ?_⟩
  rw [taken, if_pos, ← piece_eq whole, decoded]
  constructor
  · unfold entryCount stride
    have turn := List.mem_range.mp bound
    split at turn <;> simp_all
  · have positive : 0 < format.symSize := by
      unfold Format.symSize
      split <;> decide
    rw [List.length_take, List.length_drop, List.length_take, List.length_drop] at whole
    rw [Nat.succ_mul]
    omega

theorem entry_of_taken {source : Bytes} {format : Format} {symtab : SectionHeader} {record : SymbolRecord} {i : Nat}
    (placed : i = 0 ∨ stride format symtab = format.symSize) (took : taken source format symtab i = some record) :
    i < entryCount format symtab ∧ entry source format symtab i = some record := by
  unfold taken at took
  obtain ⟨⟨inside, -⟩, decoded⟩ := Option.ite_none_right_eq_some.mp took
  refine ⟨inside, ?_⟩
  obtain rfl | same := placed
  · rw [Nat.zero_mul] at decoded
    rw [entry, Nat.zero_mul]
    exact decoded
  · rw [entry, same, decoded]

/-! ### The file -/

namespace Tables
variable {source : Bytes} {file : File}

theorem contents_eq (tables : Tables source file) : file.sections = namedSections tables.shstrtab tables.raw ∧ ∃ blob,
    read source tables.symtab.header.offset tables.symtab.header.size = .ok blob ∧
      file.symbols = ((records file.format tables.symtab.header blob).filterMap
        (symbol tables.strtab tables.raw (namedSections tables.shstrtab tables.raw))).foldl put [] := by
  obtain ⟨raw, shstrtab, symtab, strtab, started, headers, names, found, strings⟩ := tables
  unfold start at started
  obtain ⟨format, -, started⟩ := except_bind_ok started
  obtain ⟨header, -, started⟩ := except_bind_ok started
  obtain ⟨segments, -, started⟩ := except_bind_ok started
  split at started
  · cases started
    cases found
  · obtain ⟨raw', headers', started⟩ := except_bind_ok started
    obtain ⟨shstrtab', names', started⟩ := except_bind_ok started
    obtain ⟨symbols, table, started⟩ := except_bind_ok started
    cases started
    cases headers.symm.trans headers'
    cases names.symm.trans names'
    unfold symbolTable at table
    rw [show List.find? _ (namedSections shstrtab raw) = some symtab from found] at table
    obtain ⟨strtab', strings', table⟩ := except_bind_ok table
    obtain ⟨blob, readTable, table⟩ := except_bind_ok table
    cases strings.symm.trans strings'
    cases table
    exact ⟨rfl, blob, readTable, rfl⟩

/-- Where the records with a name lie at their entries and their sections behind no gap, every symbol carries its own
entry and is attached to its own section. -/
theorem own_of_regular (tables : Tables source file) (nullFirst : tables.NullFirst) (regular : tables.Regular) :
    ∀ symbol ∈ file.symbols, tables.Own symbol := by
  intro reported member
  obtain ⟨-, blob, readTable, symbols⟩ := tables.contents_eq
  rw [symbols] at member
  rcases mem_foldl_put member with made | none
  · obtain ⟨record, taken, same⟩ := List.mem_filterMap.mp made
    obtain ⟨i, took⟩ := mem_records readTable taken
    unfold symbol at same
    obtain ⟨named, same⟩ := Option.ite_none_left_eq_some.mp same
    cases same
    obtain ⟨inside, at_⟩ := entry_of_taken (regular.packed i record took named) took
    refine ⟨i, record, inside, at_, rfl, rfl, rfl, ?_⟩
    have gapless := regular.gapless i record took named
    obtain ⟨first, rest, split, null⟩ := nullFirst
    rw [split] at gapless ⊢
    exact attached_symbolSection null gapless
  · cases none

theorem sections_iff (tables : Tables source file) (nullFirst : tables.NullFirst) {shndx : Nat}
    (inside : shndx < tables.raw.length) (defined : shndx ≠ shnUndef) :
    (∃ node, file.sections[shndx - 1]? = some node ∧ node.index = shndx) ↔ Gapless tables.raw shndx := by
  obtain ⟨first, rest, split, null⟩ := nullFirst
  rw [tables.contents_eq.1, namedSections, split, numbered_cons_null null]
  rw [split] at inside
  obtain ⟨k, rfl⟩ := Nat.exists_eq_succ_of_ne_zero defined
  have exact_ := @numbered_iff tables.shstrtab rest 1 k (Nat.lt_of_succ_lt_succ inside)
  rw [Nat.add_comm] at exact_
  refine exact_.trans ⟨?_, ?_⟩
  · intro every j positive bound
    obtain ⟨j, rfl⟩ := Nat.exists_eq_succ_of_ne_zero (Nat.ne_of_gt positive)
    exact every j (Nat.le_of_succ_le_succ bound)
  · intro gapless j bound
    exact gapless (j + 1) (Nat.succ_pos j) (Nat.succ_le_succ bound)

/-- The reader finds every record and its section in place exactly in a regular file, and there every symbol carries
its own entry. -/
theorem readInPlace_iff (tables : Tables source file) (nullFirst : tables.NullFirst) :
    (tables.ReadInPlace ↔ tables.Regular) ∧ (tables.Regular → ∀ symbol ∈ file.symbols, tables.Own symbol) := by
  refine ⟨⟨?_, ?_⟩, tables.own_of_regular nullFirst⟩
  · intro inPlace
    constructor
    · intro i record took named
      obtain ⟨same, -⟩ := inPlace i record took named
      obtain equal | zero := mul_eq_mul_left_iff.mp same
      · exact .inr equal.symm
      · exact .inl zero
    · intro i record took named absolute common inside
      by_cases undef : record.shndx = shnUndef
      · intro j positive bound
        rw [undef] at bound
        exact absurd positive (Nat.not_lt.mpr bound)
      · exact (tables.sections_iff nullFirst inside undef).mp ((inPlace i record took named).2 undef absolute common inside)
  · intro regular i record took named
    constructor
    · obtain rfl | equal := regular.packed i record took named
      · rw [Nat.zero_mul, Nat.zero_mul]
      · rw [equal]
    · intro defined absolute common inside
      exact (tables.sections_iff nullFirst inside defined).mpr (regular.gapless i record took named absolute common inside)

end Tables

/-! ### Three files -/

/-- A 32-bit file: the file header, the numbers of the section headers, and the rest. -/
def sample (headers : List Bytes) (rest : Bytes) : Bytes :=
  elfMagic ++ [1, 1, 1, 0, 0, 0, 0, 0, 0, 0, 0, 0] ++ [1, 0, 0, 0, 1, 0, 0, 0] ++ List.replicate 8 0 ++
    [52, 0, 0, 0] ++ List.replicate 4 0 ++ [52, 0, 0, 0, 0, 0, 40, 0] ++ [UInt8.ofNat headers.length, 0, 0, 0] ++
    headers.flatMap (fun numbers => numbers.flatMap fun number => [number, 0, 0, 0]) ++ rest

def sampleFile (shnum : Nat) (sections : List Section) (symbols : List Symbol) : File where
  format := { is64 := false, bigEndian := false }
  header := {
    type := 1, machine := 0, entry := 0, phoff := 0, shoff := 52, phentsize := 0, phnum := 0, shentsize := 40
    shnum, shstrndx := 0 }
  segments := []
  sections
  symbols

def nullHeader : Bytes := List.replicate 10 0

/-- A symbol in the section of the symbol table, of which the header has index `shndx`. -/
def symbolEntry (shndx : UInt8) : Bytes := [1, 0, 0, 0, 5, 0, 0, 0, 4, 0, 0, 0, 0x10, 0, shndx, 0]

/-- A null header stands before the last one, to which only an entry without a name refers. -/
def plain : Bytes :=
  sample
    [nullHeader, [0, 2, 0, 0, 255, 48, 2, 0, 0, 16], [0, 3, 0, 0, 252, 3, 0, 0, 0, 0], nullHeader,
      [0, 1, 0, 0, 252, 3, 0, 0, 0, 0]]
    ([0, 0x61, 0] ++ List.replicate 16 0 ++ symbolEntry 1 ++ List.replicate 14 0 ++ [4, 0])

def plainFile : File :=
  sampleFile 5
    [⟨1, shdrText 1, ⟨0, 2, 0, 0, 255, 48, 2, 16⟩⟩, ⟨2, shdrText 2, ⟨0, 3, 0, 0, 252, 3, 0, 0⟩⟩,
      ⟨4, shdrText 4, ⟨0, 1, 0, 0, 252, 3, 0, 0⟩⟩]
    [⟨['a'], 5, 4, 0, 1, shdrText 1⟩]

set_option maxRecDepth 8000 in
def plainTables : Tables plain plainFile where
  raw := [⟨0, 0, 0, 0, 0, 0, 0, 0⟩, ⟨0, 2, 0, 0, 255, 48, 2, 16⟩, ⟨0, 3, 0, 0, 252, 3, 0, 0⟩, ⟨0, 0, 0, 0, 0, 0, 0, 0⟩,
    ⟨0, 1, 0, 0, 252, 3, 0, 0⟩]
  shstrtab := none
  symtab := ⟨1, shdrText 1, ⟨0, 2, 0, 0, 255, 48, 2, 16⟩⟩
  strtab := [0, 0x61, 0]
  started := rfl
  headers := rfl
  names := rfl
  found := rfl
  strings := rfl

theorem plainTables_regular : plainTables.Regular where
  packed := fun _ _ _ _ => .inr rfl
  gapless := by
    intro i record took named _ _ _ j positive bound shdr member
    obtain ⟨inside, at_⟩ := entry_of_taken (.inr rfl) took
    have few : i < 3 := inside
    obtain rfl | rfl | rfl : i = 0 ∨ i = 1 ∨ i = 2 := by omega
    · cases at_
      exact absurd rfl named
    · cases at_
      have before : j ≤ 1 := bound
      have place : j = 1 := by omega
      subst place
      cases member
      decide
    · cases at_
      exact absurd rfl named

theorem readInPlace_iff_plain :
    plainTables.ReadInPlace ∧ plainTables.Own ⟨['a'], 5, 4, 0, 1, shdrText 1⟩ :=
  have exact_ := plainTables.readInPlace_iff ⟨_, _, rfl, rfl⟩
  ⟨exact_.1.mpr plainTables_regular, exact_.2 plainTables_regular _ List.mem_cons_self⟩

/-- A second null header stands before the section of the symbol. -/
def gap : Bytes :=
  sample [nullHeader, nullHeader, [0, 2, 0, 0, 212, 32, 3, 0, 0, 16], [0, 3, 0, 0, 244, 3, 0, 0, 0, 0]]
    (List.replicate 16 0 ++ symbolEntry 2 ++ [0, 0x61, 0])

def gapFile : File :=
  sampleFile 4 [⟨2, shdrText 2, ⟨0, 2, 0, 0, 212, 32, 3, 16⟩⟩, ⟨3, shdrText 3, ⟨0, 3, 0, 0, 244, 3, 0, 0⟩⟩]
    [⟨['a'], 5, 4, 0, 1, shdrText 3⟩]

set_option maxRecDepth 4000 in
def gapTables : Tables gap gapFile where
  raw := [⟨0, 0, 0, 0, 0, 0, 0, 0⟩, ⟨0, 0, 0, 0, 0, 0, 0, 0⟩, ⟨0, 2, 0, 0, 212, 32, 3, 16⟩, ⟨0, 3, 0, 0, 244, 3, 0, 0⟩]
  shstrtab := none
  symtab := ⟨2, shdrText 2, ⟨0, 2, 0, 0, 212, 32, 3, 16⟩⟩
  strtab := [0, 0x61, 0]
  started := rfl
  headers := rfl
  names := rfl
  found := rfl
  strings := rfl

/-- The entries are four bytes longer than the structure, and the first padding is not zero. -/
def padded : Bytes :=
  sample [nullHeader, [0, 2, 0, 0, 172, 40, 2, 0, 0, 20], [0, 3, 0, 0, 212, 5, 0, 0, 0, 0]]
    (List.replicate 16 0 ++ [3, 0, 0, 0] ++ symbolEntry 1 ++ List.replicate 4 0 ++ [0, 0x61, 0, 0x62, 0])

def paddedFile : File :=
  sampleFile 3 [⟨1, shdrText 1, ⟨0, 2, 0, 0, 172, 40, 2, 20⟩⟩, ⟨2, shdrText 2, ⟨0, 3, 0, 0, 212, 5, 0, 0⟩⟩]
    [⟨['b'], 1, 5, 4, 0, ['U', 'N', 'D']⟩]

set_option maxRecDepth 4000 in
def paddedTables : Tables padded paddedFile where
  raw := [⟨0, 0, 0, 0, 0, 0, 0, 0⟩, ⟨0, 2, 0, 0, 172, 40, 2, 20⟩, ⟨0, 3, 0, 0, 212, 5, 0, 0⟩]
  shstrtab := none
  symtab := ⟨1, shdrText 1, ⟨0, 2, 0, 0, 172, 40, 2, 20⟩⟩
  strtab := [0, 0x61, 0, 0x62, 0]
  started := rfl
  headers := rfl
  names := rfl
  found := rfl
  strings := rfl

/-- The one file attaches its symbol to the section behind, the other one makes a symbol of padding. -/
theorem symbols_not_own :
    (gapTables.NullFirst ∧ ∃ symbol ∈ gapFile.symbols, ¬gapTables.Own symbol) ∧
      paddedTables.NullFirst ∧ ∃ symbol ∈ paddedFile.symbols, ¬paddedTables.Own symbol := by
  refine ⟨⟨⟨_, _, rfl, rfl⟩, _, List.mem_singleton_self _, ?_⟩, ⟨_, _, rfl, rfl⟩, _, List.mem_singleton_self _, ?_⟩
  · rintro ⟨i, record, inside, at_, name, -, -, attached⟩
    have few : i < 2 := inside
    obtain rfl | rfl : i = 0 ∨ i = 1 := by omega
    · cases at_
      cases name
    · cases at_
      exact absurd attached.2 (by decide)
  · rintro ⟨i, record, inside, at_, name, -⟩
    have few : i < 2 := inside
    obtain rfl | rfl : i = 0 ∨ i = 1 := by omega
    · cases at_
      cases name
    · cases at_
      exact absurd name (by decide)

end Acrobe.Vfs.Elf
