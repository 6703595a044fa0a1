import Mathlib

/-!
# Hexadecimal text

Bytes as pairs of hexadecimal digits, the reader that skips white space between the pairs, and lines of text.
-/

namespace HexText

abbrev Text := List Char

def digit (n : Nat) : Char := Char.ofNat (if n < 10 then 48 + n else 87 + n)

/-- `bytes.hex` -/
def hex (data : List UInt8) : Text := data.flatMap fun byte => [digit (byte.toNat / 16), digit (byte.toNat % 16)]

def value (c : Char) : Option Nat :=
  if 48 ≤ c.toNat ∧ c.toNat ≤ 57 then some (c.toNat - 48)
  else if 65 ≤ c.toNat ∧ c.toNat ≤ 70 then some (c.toNat - 55)
  else if 97 ≤ c.toNat ∧ c.toNat ≤ 102 then some (c.toNat - 87)
  else none

def isBlank (c : Char) : Bool := c == ' ' || (9 ≤ c.toNat && c.toNat ≤ 13)

/-- The pairs from a position on, or the position of the character that is no digit. -/
def fromhexAt : Nat → Text → Except Nat (List UInt8)
  | _, [] => .ok []
  | position, [c] =>
    if isBlank c then .ok []
    else match value c with
      | none => .error position
      | some _ => .error (position + 1)
  | position, c :: d :: rest =>
    if isBlank c then fromhexAt (position + 1) (d :: rest)
    else match value c with
      | none => .error position
      | some top =>
        match value d with
        | none => .error (position + 1)
        | some bottom => (fromhexAt (position + 2) rest).map fun data => UInt8.ofNat (16 * top + bottom) :: data

/-- `bytes.fromhex` -/
def fromhex (text : Text) : Except Nat (List UInt8) :=
  match text.findIdx? fun c => 128 ≤ c.toNat with
  | some position => .error position
  | none => fromhexAt 0 text

/-- Where `str.splitlines` breaks; a carriage return takes a line feed with it. -/
def isBreak (c : Char) : Bool := [10, 11, 12, 13, 28, 29, 30, 0x85, 0x2028, 0x2029].contains c.toNat

def splitLinesFrom (line : Text) : Text → List Text
  | [] => if line = [] then [] else [line]
  | '\r' :: '\n' :: rest => line :: splitLinesFrom [] rest
  | c :: rest => if isBreak c then line :: splitLinesFrom [] rest else splitLinesFrom (line ++ [c]) rest

def splitLines (text : Text) : List Text := splitLinesFrom [] text

/-! ### Digits -/

/-- A character of a printed byte string. -/
def IsDigit (c : Char) : Prop := (48 ≤ c.toNat ∧ c.toNat ≤ 57) ∨ (65 ≤ c.toNat ∧ c.toNat ≤ 70)

theorem upper_digit {n : Nat} (small : n < 16) :
    IsDigit (digit n).toUpper ∧ value (digit n).toUpper = some n := by
  have all : ∀ n : Fin 16, ((48 ≤ (digit n).toUpper.toNat ∧ (digit n).toUpper.toNat ≤ 57) ∨
      (65 ≤ (digit n).toUpper.toNat ∧ (digit n).toUpper.toNat ≤ 70)) ∧ value (digit n).toUpper = some n.val := by
    decide
  exact all ⟨n, small⟩

theorem isDigit_of_mem_hex {data : List UInt8} {c : Char} (member : c ∈ (hex data).map Char.toUpper) : IsDigit c := by
  obtain ⟨lower, present, rfl⟩ := List.mem_map.mp member
  obtain ⟨byte, -, here⟩ := List.mem_flatMap.mp present
  have bound := byte.toNat_lt
  rcases List.mem_cons.mp here with rfl | here
  · exact (upper_digit (by omega)).1
  · rw [List.mem_singleton.mp here]
    exact (upper_digit (by omega)).1

theorem not_isBlank_of_isDigit {c : Char} (digit : IsDigit c) : isBlank c = false := by
  rw [IsDigit] at digit
  simp only [isBlank, Bool.or_eq_false_iff, Bool.and_eq_false_iff, decide_eq_false_iff_not, beq_eq_false_iff_ne]
  refine ⟨?_, by omega⟩
  rintro rfl
  have code : ' '.toNat = 32 := rfl
  omega

theorem fromhexAt_upper (data : List UInt8) (position : Nat) :
    fromhexAt position ((hex data).map Char.toUpper) = .ok data := by
  induction data generalizing position with
  | nil => rfl
  | cons byte data ih =>
    have bound := byte.toNat_lt
    have top := @upper_digit (byte.toNat / 16) (by omega)
    have bottom := @upper_digit (byte.toNat % 16) (by omega)
    have whole : UInt8.ofNat (16 * (byte.toNat / 16) + byte.toNat % 16) = byte := by
      rw [Nat.div_add_mod, UInt8.ofNat_toNat]
    change fromhexAt position (_ :: _ :: (hex data).map Char.toUpper) = _
    rw [fromhexAt, not_isBlank_of_isDigit top.1, if_neg Bool.false_ne_true, top.2]
    dsimp only
    rw [bottom.2]
    dsimp only
    rw [ih]
    exact congrArg (fun byte => Except.ok (byte :: data)) whole

theorem fromhex_upper (data : List UInt8) : fromhex ((hex data).map Char.toUpper) = .ok data := by
  have ascii : ((hex data).map Char.toUpper).findIdx? (fun c => 128 ≤ c.toNat) = none := by
    rw [List.findIdx?_eq_none_iff]
    intro c member
    have digit := isDigit_of_mem_hex member
    rw [IsDigit] at digit
    rw [decide_eq_false_iff_not]
    omega
  rw [fromhex, ascii]
  exact fromhexAt_upper data 0

/-! ### Lines -/

theorem splitLinesFrom_line (front line rest : Text) (whole : ∀ c ∈ line, isBreak c = false) :
    splitLinesFrom front (line ++ '\n' :: rest) = (front ++ line) :: splitLines rest := by
  induction line generalizing front with
  | nil =>
    have breaks : isBreak '\n' = true := rfl
    rw [List.nil_append, splitLinesFrom, if_pos breaks, List.append_nil, splitLines]
    simp
  | cons c line ih =>
    have here := whole c List.mem_cons_self
    rw [List.cons_append, splitLinesFrom, here, if_neg Bool.false_ne_true,
      ih _ fun c member => whole c (List.mem_cons_of_mem _ member), List.append_assoc]
    · rfl
    · rintro rest rfl -
      cases here

theorem splitLines_line (line rest : Text) (whole : ∀ c ∈ line, isBreak c = false) :
    splitLines (line ++ '\n' :: rest) = line :: splitLines rest := splitLinesFrom_line [] line rest whole

theorem splitLines_lines (lines : List Text) (whole : ∀ line ∈ lines, ∀ c ∈ line, isBreak c = false) :
    splitLines (lines.flatMap fun line => line ++ ['\n']) = lines := by
  induction lines with
  | nil => rfl
  | cons line lines ih =>
    rw [List.flatMap_cons, List.append_assoc, List.singleton_append, splitLines_line line _ (whole line List.mem_cons_self),
      ih fun line member => whole line (List.mem_cons_of_mem _ member)]

end HexText
