import Acrobe.Lib.LittleEndian

/-!
# GDB packets

A payload goes between `$` and `#` with four bytes escaped, and a checksum of the escaped bytes in two hex digits
follows. On receipt a run marker repeats the byte before it.
-/

namespace Acrobe.Gdb
open LittleEndian

def ascii (text : String) : Bytes := text.toList.map fun char => UInt8.ofNat char.toNat

namespace Packet

def escapeByte : UInt8 := 0x7D

def packetStart : UInt8 := 0x24

def packetEnd : UInt8 := 0x23

def repeatByte : UInt8 := 0x2A

def needsEscape : Bytes := [escapeByte, packetStart, packetEnd, repeatByte]

def escape (data : Bytes) : Bytes :=
  data.flatMap fun byte => if needsEscape.contains byte then [escapeByte, byte ^^^ 0x20] else [byte]

def unescapeInto (out : Bytes) : Bytes → Bytes
  | [] => out
  | [byte] => out ++ [byte]
  | byte :: next :: rest =>
    if byte = escapeByte then unescapeInto (out ++ [next ^^^ 0x20]) rest
    else if byte = repeatByte then
      match out.getLast? with
      | some last => unescapeInto (out ++ List.replicate (next.toNat + 1 - 29) last) rest
      | none => unescapeInto (out ++ [byte]) (next :: rest)
    else unescapeInto (out ++ [byte]) (next :: rest)

def unescape (data : Bytes) : Bytes := unescapeInto [] data

def byteSum (data : Bytes) : Nat := (data.map UInt8.toNat).sum

def hexValue (byte : UInt8) : Option Nat :=
  if 0x30 ≤ byte ∧ byte ≤ 0x39 then some (byte.toNat - 0x30)
  else if 0x61 ≤ byte ∧ byte ≤ 0x66 then some (byte.toNat - 0x61 + 10)
  else if 0x41 ≤ byte ∧ byte ≤ 0x46 then some (byte.toNat - 0x41 + 10)
  else none

def isSpace (byte : UInt8) : Bool := [0x20, 0x09, 0x0A, 0x0B, 0x0C, 0x0D].contains byte

/-- `int(digits, 16)` of two bytes: blanks around a number are dropped, and it may have a sign. -/
def intHex (high low : UInt8) : Option Int :=
  if isSpace high then (hexValue low).map Int.ofNat
  else if isSpace low then (hexValue high).map Int.ofNat
  else if high = 0x2B then (hexValue low).map Int.ofNat
  else if high = 0x2D then (hexValue low).map fun value => -(value : Int)
  else match hexValue high, hexValue low with
    | some upper, some lower => some (16 * upper + lower : Nat)
    | _, _ => none

def parse (packet : Bytes) : Option Bytes :=
  if packet.length < 4 ∨ packet.head? ≠ some packetStart then none
  else
    match packet.idxOf? packetEnd with
    | none => none
    | some hashIndex =>
      match packet.drop (hashIndex + 1) with
      | high :: low :: _ =>
        let payload := (packet.take hashIndex).drop 1
        match intHex high low with
        | none => none
        | some received => if received ≠ (byteSum payload % 256 : Nat) then none else some (unescape payload)
      | _ => none

def hexDigit (value : Nat) : UInt8 := if value < 10 then UInt8.ofNat (0x30 + value) else UInt8.ofNat (0x61 + (value - 10))

/-- `"%02x" % checksum` -/
def checksumDigits (checksum : Nat) : Bytes := [hexDigit (checksum / 16), hexDigit (checksum % 16)]

def frame (payload : Bytes) : Bytes :=
  let encoded := escape payload
  [packetStart] ++ encoded ++ [packetEnd] ++ checksumDigits (byteSum encoded % 256)

/-! ### Escaping -/

theorem unescapeInto_pair (byte : UInt8) (out rest : Bytes) :
    unescapeInto out (escapeByte :: (byte ^^^ 0x20) :: rest) = unescapeInto (out ++ [byte]) rest := by
  have twice : byte ^^^ 0x20 ^^^ 0x20 = byte := by rw [UInt8.xor_assoc, UInt8.xor_self, UInt8.xor_zero]
  rw [unescapeInto, if_pos rfl, twice]

theorem unescapeInto_plain {byte : UInt8} (plain : byte ∉ needsEscape) (out rest : Bytes) :
    unescapeInto out (byte :: rest) = unescapeInto (out ++ [byte]) rest := by
  cases rest with
  | nil => rfl
  | cons next rest =>
    rw [unescapeInto, if_neg (by rintro rfl; exact plain (by decide)), if_neg (by rintro rfl; exact plain (by decide))]

theorem unescapeInto_escape (out payload : Bytes) : unescapeInto out (escape payload) = out ++ payload := by
  induction payload generalizing out with
  | nil => exact (List.append_nil out).symm
  | cons byte payload ih =>
    have one : unescapeInto out (escape (byte :: payload)) = unescapeInto (out ++ [byte]) (escape payload) := by
      rw [escape, List.flatMap_cons]
      split
      · exact unescapeInto_pair byte out (escape payload)
      · rename_i plain
        exact unescapeInto_plain (fun member => plain (List.contains_iff_mem.mpr member)) out (escape payload)
    rw [one, ih, List.append_assoc]
    rfl

theorem unescape_escape (payload : Bytes) : unescape (escape payload) = payload := unescapeInto_escape [] payload

theorem escape_reserved {payload : Bytes} {byte : UInt8} (member : byte ∈ escape payload)
    (other : byte ≠ escapeByte) : byte ∉ needsEscape := by
  have mangled : ∀ byte ∈ needsEscape, byte ^^^ 0x20 ∉ needsEscape := by decide +kernel
  obtain ⟨source, -, place⟩ := List.mem_flatMap.mp member
  split at place
  · rename_i special
    rcases List.mem_cons.mp place with escaped | place
    · exact absurd escaped other
    · rw [List.mem_singleton.mp place]
      exact mangled source (List.contains_iff_mem.mp special)
  · rename_i plain
    rw [List.mem_singleton.mp place]
    exact fun member => plain (List.contains_iff_mem.mpr member)

theorem not_mem_escape (payload : Bytes) {byte : UInt8} (reserved : byte ∈ needsEscape) (other : byte ≠ escapeByte) :
    byte ∉ escape payload := fun member => escape_reserved member other reserved

/-! ### The checksum -/

theorem hexDigit_facts : ∀ value ∈ List.range 16, isSpace (hexDigit value) = false ∧ hexDigit value ≠ 0x2B ∧
    hexDigit value ≠ 0x2D ∧ hexValue (hexDigit value) = some value := by
  decide

theorem intHex_digits (checksum : Nat) (small : checksum < 256) :
    intHex (hexDigit (checksum / 16)) (hexDigit (checksum % 16)) = some (checksum : Int) := by
  obtain ⟨space, plus, minus, upper⟩ := hexDigit_facts (checksum / 16) (List.mem_range.mpr (by omega))
  obtain ⟨space', -, -, lower⟩ := hexDigit_facts (checksum % 16) (List.mem_range.mpr (by omega))
  rw [intHex, space, space', if_neg Bool.false_ne_true, if_neg Bool.false_ne_true, if_neg plus, if_neg minus, upper, lower]
  dsimp only
  rw [Nat.div_add_mod]

theorem hexDigit_plain (value : Nat) (small : value < 16) : hexDigit value ∉ needsEscape := by
  have all : ∀ value ∈ List.range 16, hexDigit value ∉ needsEscape := by decide
  exact all value (List.mem_range.mpr small)

theorem checksumDigits_plain {checksum : Nat} (small : checksum < 256) {byte : UInt8}
    (member : byte ∈ checksumDigits checksum) : byte ∉ needsEscape := by
  rcases List.mem_cons.mp member with rfl | member
  · exact hexDigit_plain (checksum / 16) (by omega)
  · rw [List.mem_singleton.mp member]
    exact hexDigit_plain (checksum % 16) (by omega)

/-! ### Framing -/

theorem idxOf?_end {front : Bytes} (clear : packetEnd ∉ front) (rest : Bytes) :
    (front ++ packetEnd :: rest).idxOf? packetEnd = some front.length := by
  induction front with
  | nil => rw [List.nil_append, List.idxOf?_cons]; rfl
  | cons byte front ih =>
    have other : byte ≠ packetEnd := fun same => clear (List.mem_cons.mpr (.inl same.symm))
    rw [List.cons_append, List.idxOf?_cons, if_neg (by simpa using other),
      ih fun member => clear (List.mem_cons_of_mem _ member)]
    rfl

theorem clear_start {body : Bytes} (clear : packetEnd ∉ body) : packetEnd ∉ packetStart :: body := by
  intro member
  rcases List.mem_cons.mp member with same | inside
  · exact absurd same (by decide)
  · exact clear inside

theorem frame_eq (payload : Bytes) : frame payload =
    packetStart :: escape payload ++ packetEnd :: checksumDigits (byteSum (escape payload) % 256) := by
  rw [frame, List.append_assoc]
  rfl

theorem parse_eq {body : Bytes} (clear : packetEnd ∉ body) (high low : UInt8) (rest : Bytes) :
    parse ([packetStart] ++ body ++ [packetEnd] ++ high :: low :: rest) =
      match intHex high low with
      | none => none
      | some received => if received ≠ (byteSum body % 256 : Nat) then none else some (unescape body) := by
  rw [show [packetStart] ++ body ++ [packetEnd] ++ high :: low :: rest =
    packetStart :: body ++ packetEnd :: high :: low :: rest by simp, parse, if_neg, idxOf?_end (clear_start clear)]
  · have behind : (packetStart :: body ++ packetEnd :: high :: low :: rest).drop ((packetStart :: body).length + 1) =
        high :: low :: rest := by
      rw [List.append_cons]
      exact List.drop_left' List.length_append
    dsimp only
    rw [behind, List.take_left]
    rfl
  · intro short
    rcases short with short | start
    · rw [List.length_append] at short
      dsimp only [List.length_cons] at short
      omega
    · exact start rfl

theorem parse_frame (payload : Bytes) : parse (frame payload) = some payload := by
  rw [frame, checksumDigits, parse_eq (not_mem_escape payload (by decide) (by decide)),
    intHex_digits _ (Nat.mod_lt _ (by decide))]
  dsimp only
  rw [if_neg (not_not.mpr rfl), unescape_escape]

/-- What is framed is parsed back. The start and the end of a packet stand nowhere else in it, and nothing in its
body is a run marker. -/
theorem framed (payload : Bytes) :
    parse (frame payload) = some payload ∧
      ∃ body digits, frame payload = [packetStart] ++ body ++ [packetEnd] ++ digits ∧ digits.length = 2 ∧
        packetStart ∉ body ++ digits ∧ packetEnd ∉ body ++ digits ∧ repeatByte ∉ body := by
  have small : byteSum (escape payload) % 256 < 256 := Nat.mod_lt _ (by decide)
  have outside : ∀ byte ∈ needsEscape, byte ≠ escapeByte →
      byte ∉ escape payload ++ checksumDigits (byteSum (escape payload) % 256) := by
    intro byte reserved other member
    rcases List.mem_append.mp member with inside | behind
    · exact not_mem_escape payload reserved other inside
    · exact checksumDigits_plain small behind reserved
  exact ⟨parse_frame payload, escape payload, checksumDigits (byteSum (escape payload) % 256), rfl, rfl,
    outside packetStart (by decide) (by decide), outside packetEnd (by decide) (by decide),
    not_mem_escape payload (by decide) (by decide)⟩

end Packet

end Acrobe.Gdb
