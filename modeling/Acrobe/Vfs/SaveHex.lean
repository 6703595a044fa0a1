import Acrobe.Target.MemoryMap
import Acrobe.Vfs.Ihex

/-!
# Saving as Intel HEX

`save_hex` writes the chunks of a map in records of sixteen bytes at most, with a base record before the first one and
wherever the upper half of the address changes. The parser reads back the picture of the map.
-/

namespace Acrobe.Vfs
open LittleEndian Overlay HexText

namespace Ihex

def hexRecord (rtype : UInt8) (address : Nat) (data : Bytes) : Text :=
  let record := UInt8.ofNat data.length :: UInt8.ofNat (address >>> 8 &&& 0xFF) :: UInt8.ofNat (address &&& 0xFF) ::
    rtype :: data
  ':' :: (hex (record ++ [checksum record])).map Char.toUpper

/-- The inner loop of `save_hex`: the lines from an offset on, and the upper half of the last address. -/
def dataLines (addr : Int) (data : Bytes) (offset : Nat) (lastUpper : Option Nat) : List Text × Option Nat :=
  if _more : offset < data.length then
    let fullAddr := addr + offset
    let upper := (fullAddr / 2 ^ 16 % 2 ^ 16).toNat
    let base := if some upper ≠ lastUpper then [hexRecord 0x04 0x0000 (split upper 2).reverse] else []
    let lower := (fullAddr % 2 ^ 16).toNat
    let chunkSize := min 16 (data.length - offset)
    let (lines, lastUpper) := dataLines addr data (offset + chunkSize) (some upper)
    (base ++ hexRecord 0x00 lower ((data.drop offset).take chunkSize) :: lines, lastUpper)
  else ([], lastUpper)
termination_by data.length - offset

def chunkLines (lastUpper : Option Nat) : List (Chunk UInt8) → List Text
  | [] => []
  | chunk :: chunks =>
    let (lines, lastUpper) := dataLines chunk.1 chunk.2 0 lastUpper
    lines ++ chunkLines lastUpper chunks

def saveHex (m : Target.MemoryMap) : Text :=
  let lines := chunkLines none (sorted m.simplified.chunks) ++ [hexRecord 0x01 0x0000 []]
  ['\n'].intercalate lines ++ ['\n']

/-! ### One record -/

theorem mem_hexRecord {rtype : UInt8} {address : Nat} {data : Bytes} {c : Char} (member : c ∈ hexRecord rtype address data) :
    c = ':' ∨ IsDigit c := by
  rcases List.mem_cons.mp member with colon | digit
  · exact .inl colon
  · exact .inr (isDigit_of_mem_hex digit)

theorem not_isSpace {c : Char} (known : c = ':' ∨ IsDigit c) : Stapl.isSpace c = false := by
  rcases known with rfl | digit
  · rfl
  · rw [IsDigit] at digit
    simp only [Stapl.isSpace, Bool.or_eq_false_iff, Bool.and_eq_false_iff, decide_eq_false_iff_not, beq_eq_false_iff_ne]
    refine ⟨⟨?_, by omega⟩, by omega⟩
    rintro rfl
    have code : ' '.toNat = 32 := rfl
    omega

theorem not_isBreak {c : Char} (known : c = ':' ∨ IsDigit c) : isBreak c = false := by
  rcases known with rfl | digit
  · rfl
  · rw [IsDigit] at digit
    simp only [isBreak, List.contains_eq_mem, List.mem_cons, List.not_mem_nil, or_false, decide_eq_false_iff_not]
    omega

theorem strip_eq_self {text : Text} (solid : ∀ c ∈ text, Stapl.isSpace c = false) : Stapl.strip text = text := by
  have front : text.dropWhile Stapl.isSpace = text := by
    cases text with
    | nil => rfl
    | cons c text => rw [List.dropWhile_cons_of_neg (by rw [solid c List.mem_cons_self]; exact Bool.false_ne_true)]
  rw [Stapl.strip, front, List.rdropWhile_eq_self_iff]
  intro some_
  rw [solid _ (List.getLast_mem some_)]
  exact Bool.false_ne_true

theorem strip_hexRecord (rtype : UInt8) (address : Nat) (data : Bytes) :
    Stapl.strip (hexRecord rtype address data) = hexRecord rtype address data :=
  strip_eq_self fun _ member => not_isSpace (mem_hexRecord member)

theorem address_bytes {address : Nat} (small : address < 2 ^ 16) :
    (UInt8.ofNat (address >>> 8 &&& 0xFF)).toNat <<< 8 ||| (UInt8.ofNat (address &&& 0xFF)).toNat = address := by
  have high : address >>> 8 &&& 0xFF = address / 256 := by
    rw [Nat.shiftRight_eq_div_pow, Nat.and_two_pow_sub_one_eq_mod _ 8]
    omega
  have low : address &&& 0xFF = address % 256 := Nat.and_two_pow_sub_one_eq_mod _ 8
  rw [high, low, UInt8.toNat_ofNat', UInt8.toNat_ofNat', Nat.mod_eq_of_lt (by omega), Nat.mod_eq_of_lt (by omega),
    ← Nat.shiftLeft_add_eq_or_of_lt (by omega), Nat.shiftLeft_eq]
  omega

theorem readRecord_hexRecord (lineNo : Nat) (rtype : UInt8) {address : Nat} (small : address < 2 ^ 16) {data : Bytes}
    (short : data.length < 256) :
    readRecord lineNo (hexRecord rtype address data) = .ok ⟨rtype, address, data⟩ := by
  have count : (UInt8.ofNat data.length).toNat = data.length := by
    rw [UInt8.toNat_ofNat']
    omega
  rw [hexRecord, readRecord, fromhex_upper]
  generalize checksumEq : checksum (_ :: _ :: _ :: _ :: data) = given
  obtain ⟨first, rest, whole⟩ : ∃ first rest, data ++ [given] = first :: rest := by
    cases data with
    | nil => exact ⟨given, [], rfl⟩
    | cons first data => exact ⟨first, data ++ [given], rfl⟩
  simp only [List.cons_append, whole]
  rw [← whole, count, List.take_left, List.getElem?_concat_length]
  dsimp only
  rw [if_neg (by simp), if_neg (by rw [checksumEq]; simp), address_bytes small]

theorem upperHalf_split {upper : Nat} (small : upper < 2 ^ 16) : upperHalf (split upper 2).reverse = .ok upper := by
  change Except.ok ((UInt8.ofNat (upper / 256)).toNat <<< 8 ||| (UInt8.ofNat upper).toNat) = _
  rw [UInt8.toNat_ofNat', UInt8.toNat_ofNat', ← Nat.shiftLeft_add_eq_or_of_lt (by omega), Nat.shiftLeft_eq]
  exact congrArg Except.ok (by omega)

/-! ### Reading lines -/

/-- The lines take the parser from one state to another, whatever their numbers are and whatever follows. -/
def Parses (lines : List Text) (self after : State) : Prop :=
  ∀ (rest : List Text) (lineNo : Nat), ∃ next,
    parseLines self ((lines ++ rest).zipIdx lineNo) = parseLines after (rest.zipIdx next)

theorem Parses.nil (self : State) : Parses [] self self := fun _ lineNo => ⟨lineNo, rfl⟩

theorem Parses.append {front back : List Text} {self between after : State} (first : Parses front self between)
    (second : Parses back between after) : Parses (front ++ back) self after := by
  intro rest lineNo
  obtain ⟨middle, here⟩ := first (back ++ rest) lineNo
  obtain ⟨next, there⟩ := second rest middle
  exact ⟨next, by rw [List.append_assoc, here, there]⟩

theorem parseLines_hexRecord (self : State) (rtype : UInt8) {address : Nat} (small : address < 2 ^ 16) {data : Bytes}
    (short : data.length < 256) (lineNo : Nat) (lines : List (Text × Nat)) :
    parseLines self ((hexRecord rtype address data, lineNo) :: lines) =
      if rtype = 0x01 then .ok self
      else match self.take lineNo ⟨rtype, address, data⟩ with
        | .error error => .error error
        | .ok self => parseLines self lines := by
  have some_ : hexRecord rtype address data ≠ [] := List.cons_ne_nil _ _
  rewrite [parseLines, strip_hexRecord, if_neg some_, readRecord_hexRecord lineNo rtype small short]
  rfl

theorem parses_data (self : State) {address : Nat} (small : address < 2 ^ 16) {data : Bytes} (short : data.length < 256) :
    Parses [hexRecord 0x00 address data] self
      { self with building := self.building.add ((self.extended + address : Nat), data) } := by
  intro rest lineNo
  refine ⟨lineNo + 1, ?_⟩
  rw [List.singleton_append, List.zipIdx_cons, parseLines_hexRecord self 0x00 small short]
  rfl

theorem parses_base (self : State) {upper : Nat} (small : upper < 2 ^ 16) :
    Parses [hexRecord 0x04 0x0000 (split upper 2).reverse] self { self with extended := upper <<< 16 } := by
  intro rest lineNo
  refine ⟨lineNo + 1, ?_⟩
  rw [List.singleton_append, List.zipIdx_cons, parseLines_hexRecord self 0x04 (by decide) (by simp)]
  change (match (upperHalf (split upper 2).reverse).map fun half => { self with extended := half <<< 16 } with
    | .error error => .error error
    | .ok self => parseLines self (rest.zipIdx (lineNo + 1)) : Except ParseError State) = _
  rw [upperHalf_split small]
  rfl

/-- The base that the parser has is the one that has been written last. -/
def Based (self : State) (lastUpper : Option Nat) : Prop := ∀ upper, lastUpper = some upper → self.extended = upper <<< 16

theorem parses_dataLines (addr : Int) (data : Bytes) (offset : Nat) (lastUpper : Option Nat) {self : State}
    (based : Based self lastUpper) (inside : offset < data.length → 0 ≤ addr + offset ∧ addr + data.length ≤ 2 ^ 32) :
    ∃ after, Parses (dataLines addr data offset lastUpper).1 self after ∧
      Based after (dataLines addr data offset lastUpper).2 ∧ after.entry = self.entry ∧
      ∀ a, lookup a after.building.flush =
        (valueAt a (addr + offset, data.drop offset)).or (lookup a self.building.flush) := by
  fun_induction dataLines addr data offset lastUpper generalizing self with
  | case1 offset lastUpper more fullAddr upper base lower chunkSize lines last written =>
    rename_i ih
    rw [written] at ih
    have bounds := inside more
    have small : upper < 2 ^ 16 := by omega
    have piece : ((data.drop offset).take chunkSize).length = chunkSize := by
      rw [List.length_take, List.length_drop]
      omega
    have based : Parses base self { self with extended := upper <<< 16 } := by
      by_cases same : some upper ≠ lastUpper
      · have one : base = [hexRecord 0x04 0x0000 (split upper 2).reverse] := dif_pos same
        rw [one]
        exact parses_base self small
      · have none_ : base = [] := dif_neg same
        rw [none_, ← based upper (Decidable.not_not.mp same).symm]
        exact .nil self
    have place : ((upper <<< 16 + lower : Nat) : Int) = fullAddr := by
      rw [Nat.shiftLeft_eq]
      omega
    have record := parses_data { self with extended := upper <<< 16 } (show lower < 2 ^ 16 by omega)
      (show ((data.drop offset).take chunkSize).length < 256 by omega)
    dsimp only at record
    rw [place] at record
    obtain ⟨after, parses, again, entry, picture⟩ := @ih
      ⟨self.building.add (fullAddr, (data.drop offset).take chunkSize), upper <<< 16, self.entry⟩
      (fun _ same => by cases same; rfl) (fun _ => by omega)
    refine ⟨after, ?_, again, entry, fun a => ?_⟩
    · have whole := based.append (record.append parses)
      rw [List.singleton_append] at whole
      exact whole
    · have parts := valueAt_append a fullAddr ((data.drop offset).take chunkSize) (data.drop (offset + chunkSize))
      rw [← List.drop_drop, List.take_append_drop, List.drop_drop, piece] at parts
      have next : addr + (offset + chunkSize : Nat) = fullAddr + chunkSize := by omega
      rw [picture, lookup_add, ← Option.or_assoc, next, ← parts]
  | case2 offset lastUpper done =>
    refine ⟨self, .nil self, based, rfl, fun a => ?_⟩
    rw [List.drop_eq_nil_of_le (by omega), valueAt_nil, Option.none_or]

/-! ### Round trip -/

theorem parses_chunkLines {chunks : List (Chunk UInt8)} (lastUpper : Option Nat) {self : State}
    (based : Based self lastUpper) (bounds : ∀ chunk ∈ chunks, chunk.2 ≠ [] → 0 ≤ chunk.1 ∧ stop chunk ≤ 2 ^ 32) :
    ∃ after, Parses (chunkLines lastUpper chunks) self after ∧ after.entry = self.entry ∧
      ∀ a, lookup a after.building.flush = (lookup a chunks).or (lookup a self.building.flush) := by
  induction chunks generalizing lastUpper self with
  | nil => exact ⟨self, .nil self, rfl, fun a => by rw [lookup, Option.none_or]⟩
  | cons chunk chunks ih =>
    obtain ⟨addr, data⟩ := chunk
    obtain ⟨between, first, again, same, picture⟩ := parses_dataLines addr data 0 lastUpper based fun more => by
      have inside := bounds (addr, data) List.mem_cons_self (List.length_pos_iff.mp more)
      rw [stop] at inside
      dsimp only at inside
      omega
    obtain ⟨after, rest, entry, pictures⟩ := ih _ again fun chunk member => bounds chunk (List.mem_cons_of_mem _ member)
    refine ⟨after, first.append rest, entry.trans same, fun a => ?_⟩
    rw [pictures, picture, lookup, Option.or_assoc, Int.natCast_zero, Int.add_zero, List.drop_zero]

theorem mem_dataLines {addr : Int} {data : Bytes} {offset : Nat} {lastUpper : Option Nat} {line : Text}
    (member : line ∈ (dataLines addr data offset lastUpper).1) :
    ∃ rtype address data, line = hexRecord rtype address data := by
  fun_induction dataLines addr data offset lastUpper with
  | case1 offset lastUpper more fullAddr upper base lower chunkSize lines last written =>
    rename_i ih
    rw [written] at ih
    rcases List.mem_append.mp member with first | rest
    · by_cases same : some upper ≠ lastUpper
      · have one : base = [hexRecord 0x04 0x0000 (split upper 2).reverse] := dif_pos same
        rw [one] at first
        exact ⟨_, _, _, List.mem_singleton.mp first⟩
      · have none_ : base = [] := dif_neg same
        rw [none_] at first
        cases first
    · rcases List.mem_cons.mp rest with here | later
      · exact ⟨_, _, _, here⟩
      · exact ih later
  | case2 offset lastUpper done => cases member

theorem mem_chunkLines {chunks : List (Chunk UInt8)} {lastUpper : Option Nat} {line : Text}
    (member : line ∈ chunkLines lastUpper chunks) : ∃ rtype address data, line = hexRecord rtype address data := by
  induction chunks generalizing lastUpper with
  | nil => cases member
  | cons chunk chunks ih =>
    rcases List.mem_append.mp member with first | rest
    · exact mem_dataLines first
    · exact ih rest

theorem intercalate_lines (lines : List Text) (some_ : lines ≠ []) :
    ['\n'].intercalate lines ++ ['\n'] = lines.flatMap fun line => line ++ ['\n'] := by
  induction lines with
  | nil => exact absurd rfl some_
  | cons line lines ih =>
    cases lines with
    | nil => simp [List.intercalate]
    | cons next lines =>
      have rest := ih (List.cons_ne_nil _ _)
      rw [List.flatMap_cons, ← rest]
      simp [List.intercalate]

theorem simplified_bounds {m : Target.MemoryMap}
    (bounds : ∀ chunk ∈ m.chunks, chunk.2 ≠ [] → 0 ≤ chunk.1 ∧ stop chunk ≤ 2 ^ 32) :
    ∀ chunk ∈ m.simplified.chunks, chunk.2 ≠ [] → 0 ≤ chunk.1 ∧ stop chunk ≤ 2 ^ 32 := by
  have covered : ∀ a, (∃ chunk ∈ m.simplified.chunks, Covers a chunk) → 0 ≤ a ∧ a < 2 ^ 32 := by
    intro a here
    rw [← lookup_isSome, Target.MemoryMap.lookup_simplified, lookup_sorted_isSome, lookup_isSome] at here
    obtain ⟨chunk, member, covers⟩ := here
    rw [Covers] at covers
    have full : chunk.2 ≠ [] := by
      intro empty
      rw [stop, empty, List.length_nil] at covers
      omega
    have inside := bounds chunk member full
    omega
  intro chunk member full
  have length : 0 < chunk.2.length := List.length_pos_iff.mpr full
  have first := covered chunk.1 ⟨chunk, member, Int.le_refl _, by rw [stop]; omega⟩
  have last := covered (stop chunk - 1) ⟨chunk, member, by rw [stop]; omega, by omega⟩
  omega

/-- What is saved reads back with the picture of the simplified map. -/
theorem parse_saveHex (m : Target.MemoryMap)
    (bounds : ∀ chunk ∈ m.chunks, chunk.2 ≠ [] → 0 ≤ chunk.1 ∧ stop chunk ≤ 2 ^ 32) :
    ∃ regions, parse (saveHex m) = .ok (regions, none) ∧
      ∀ a, lookup a regions = lookup a m.simplified.chunks := by
  have apart := m.separated_simplified
  obtain ⟨after, parses, entry, picture⟩ := @parses_chunkLines m.simplified.chunks none ⟨.start, 0, none⟩ (by rintro _ ⟨⟩)
    (simplified_bounds bounds)
  obtain ⟨next, whole⟩ := parses [hexRecord 0x01 0x0000 []] 1
  have solid : ∀ line ∈ chunkLines none m.simplified.chunks ++ [hexRecord 0x01 0x0000 []],
      ∀ c ∈ line, isBreak c = false := by
    intro line member c present
    obtain ⟨rtype, address, data, rfl⟩ : ∃ rtype address data, line = hexRecord rtype address data := by
      rcases List.mem_append.mp member with data | last
      · exact mem_chunkLines data
      · exact ⟨_, _, _, List.mem_singleton.mp last⟩
    exact not_isBreak (mem_hexRecord present)
  refine ⟨after.building.flush, ?_, fun a => ?_⟩
  · rw [saveHex, sorted_separated apart, intercalate_lines _ (by simp), parse, splitLines_lines _ solid, whole, List.zipIdx_singleton,
      parseLines_hexRecord after 0x01 (by decide) (by decide), if_pos rfl]
    exact congrArg (fun entry => Except.ok (after.building.flush, entry)) entry
  · rw [picture]
    exact Option.or_none

theorem parse_saveHex_straddling :
    ∃ regions, parse (saveHex ⟨[(0x1FFFE, [1, 2, 3, 4]), (0, [5])]⟩) = .ok (regions, none) ∧
      ∀ a, lookup a regions =
        lookup a (Target.MemoryMap.simplified ⟨[(0x1FFFE, [1, 2, 3, 4]), (0, [5])]⟩).chunks :=
  parse_saveHex ⟨[(0x1FFFE, [1, 2, 3, 4]), (0, [5])]⟩ (by decide)

end Ihex

end Acrobe.Vfs
