import Acrobe.Stapl.AcaSound

/-!
# Decompression of any text

The loop ends whatever the bits are. What it returns has the announced length unless the block that
fills the buffer is a literal that the text cuts short: the slice assignment then shrinks the buffer.
-/

namespace Acrobe.Stapl.Aca
open LittleEndian Acrobe.Storage Acrobe.Lib
open Acrobe.BitString (toNat)

/-- The loop of `decompress` with nothing that bounds its rounds. -/
inductive Loops (compressed : Bits) (length : Nat) : Bytes → Nat → Nat → Except Error Bytes → Prop where
  | done (output : Bytes) (compressedPos : Nat) : Loops compressed length output length compressedPos (.ok output)
  | mismatch (output : Bytes) {outputPos : Nat} (compressedPos : Nat) (past : length < outputPos) :
    Loops compressed length output outputPos compressedPos (.error (sizeMismatch outputPos length))
  | outOfBits (output : Bytes) {outputPos compressedPos : Nat} (more : outputPos < length)
    (past : compressed[compressedPos]? = none) :
    Loops compressed length output outputPos compressedPos (.error .indexError)
  | literal {output : Bytes} {outputPos compressedPos n : Nat} {result : Except Error Bytes} (more : outputPos < length)
    (bit : compressed[compressedPos]? = some false) (size : n = min (length - outputPos) 3)
    (rest : Loops compressed length (setSlice output outputPos (outputPos + n)
      (Bits.pack (BitString.slice compressed (compressedPos + 1) (compressedPos + 1 + 8 * n)))) (outputPos + n)
      (compressedPos + 1 + 8 * n) result) :
    Loops compressed length output outputPos compressedPos result
  | invalid (output : Bytes) {outputPos compressedPos offset : Nat} (more : outputPos < length)
    (bit : compressed[compressedPos]? = some true)
    (first : offset = toNat (BitString.slice compressed (compressedPos + 1)
      (compressedPos + 1 + offsetFieldWidth outputPos)))
    (outside : outputPos < offset) :
    Loops compressed length output outputPos compressedPos (.error (invalidBackReference offset outputPos))
  | backReference {output : Bytes} {outputPos compressedPos n offset count : Nat} {result : Except Error Bytes}
    (more : outputPos < length) (bit : compressed[compressedPos]? = some true) (width : n = offsetFieldWidth outputPos)
    (first : offset = toNat (BitString.slice compressed (compressedPos + 1) (compressedPos + 1 + n)))
    (inside : offset ≤ outputPos)
    (second : count = min (toNat (BitString.slice compressed (compressedPos + 1 + n) (compressedPos + 1 + n + 8)))
      (length - outputPos))
    (rest : Loops compressed length (setSlice output outputPos (outputPos + count)
      ((output.take (outputPos - offset + count)).drop (outputPos - offset))) (outputPos + count)
      (compressedPos + 1 + n + 8) result) :
    Loops compressed length output outputPos compressedPos result

theorem decompressFrom_loops {compressed : Bits} {length fuel : Nat} (output : Bytes) (outputPos : Nat)
    {compressedPos : Nat} (enough : compressed.length < compressedPos + fuel) :
    Loops compressed length output outputPos compressedPos
      (decompressFrom compressed length fuel output outputPos compressedPos) := by
  induction fuel generalizing output outputPos compressedPos with
  | zero =>
    unfold decompressFrom
    split
    · rename_i more
      exact .outOfBits output more (List.getElem?_eq_none_iff.mpr (by omega))
    · split
      · rename_i full
        subst full
        exact .done output compressedPos
      · exact .mismatch output compressedPos (by omega)
  | succ fuel ih =>
    rw [decompressFrom.eq_def]
    dsimp only
    split
    · rename_i more
      cases bit : compressed[compressedPos]? with
      | none => exact .outOfBits output more bit
      | some block =>
        cases block with
        | false => exact .literal more bit rfl (ih _ _ (by omega))
        | true =>
          dsimp only
          split
          · rename_i outside
            exact .invalid output more bit rfl outside
          · rename_i inside
            exact .backReference more bit rfl rfl (by omega) rfl (ih _ _ (by omega))
    · split
      · rename_i full
        subst full
        exact .done output compressedPos
      · exact .mismatch output compressedPos (by omega)

/-! ### The size of the buffer -/

theorem length_setSlice {output data : Bytes} {start stop : Nat} (inside : stop ≤ output.length) (order : start ≤ stop) :
    (setSlice output start stop data).length = start + data.length + (output.length - stop) := by
  rw [setSlice, List.length_append, List.length_append, List.length_take, List.length_drop]
  omega

/-- The bytes of a literal that the bits hold. -/
def literalBytes (compressed : Bits) (compressedPos n : Nat) : Nat :=
  min n ((compressed.length - (compressedPos + 1) + 7) / 8)

theorem length_literal (compressed : Bits) (compressedPos n : Nat) :
    (Bits.pack (BitString.slice compressed (compressedPos + 1) (compressedPos + 1 + 8 * n))).length =
      literalBytes compressed compressedPos n := by
  rw [length_pack, BitString.slice, List.length_drop, List.length_take, literalBytes]
  omega

def endsInCutLiteral (compressed : Bits) (length : Nat) : Nat → Nat → Nat → Bool
  | 0, _, _ => false
  | fuel + 1, outputPos, compressedPos =>
    if outputPos < length then
      match compressed[compressedPos]? with
      | none => false
      | some false =>
        let n := min (length - outputPos) 3
        (outputPos + n = length && literalBytes compressed compressedPos n < n) ||
          endsInCutLiteral compressed length fuel (outputPos + n) (compressedPos + 1 + 8 * n)
      | some true =>
        let n := offsetFieldWidth outputPos
        let offset := toNat (BitString.slice compressed (compressedPos + 1) (compressedPos + 1 + n))
        let count := toNat (BitString.slice compressed (compressedPos + 1 + n) (compressedPos + 1 + n + 8))
        offset ≤ outputPos && endsInCutLiteral compressed length fuel (outputPos + min count (length - outputPos))
          (compressedPos + 1 + n + 8)
    else false

section
variable {compressed : Bits} {output : Bytes} {length outputPos compressedPos : Nat}

theorem decompressFrom_outOfBits (output : Bytes) (fuel : Nat) (more : outputPos < length) (past : compressed[compressedPos]? = none) :
    decompressFrom compressed length fuel output outputPos compressedPos = .error .indexError ∧
      endsInCutLiteral compressed length fuel outputPos compressedPos = false := by
  cases fuel with
  | zero =>
    rw [decompressFrom.eq_def]
    dsimp only
    rw [if_pos more]
    exact ⟨rfl, rfl⟩
  | succ fuel =>
    rw [decompressFrom.eq_def, endsInCutLiteral]
    dsimp only
    rw [if_pos more, if_pos more, past]
    exact ⟨rfl, rfl⟩

theorem decompressFrom_invalid (output : Bytes) (fuel : Nat) (more : outputPos < length)
    (bit : compressed[compressedPos]? = some true)
    (outside : outputPos < toNat (BitString.slice compressed (compressedPos + 1)
      (compressedPos + 1 + offsetFieldWidth outputPos))) :
    ∃ e, decompressFrom compressed length (fuel + 1) output outputPos compressedPos = .error e := by
  rw [decompressFrom.eq_def]
  dsimp only
  rw [if_pos more, bit]
  dsimp only
  rw [if_pos outside]
  exact ⟨_, rfl⟩

theorem literal_cut {n : Nat} (lacks : literalBytes compressed compressedPos n < n) :
    compressed[compressedPos + 1 + 8 * n]? = none := by
  unfold literalBytes at lacks
  exact List.getElem?_eq_none_iff.mpr (by omega)

theorem length_decompressFrom_iff {fuel : Nat} (whole : output.length = length) (inside : outputPos ≤ length)
    (enough : compressed.length < compressedPos + fuel) :
    (∀ out, decompressFrom compressed length fuel output outputPos compressedPos = .ok out → out.length = length) ↔
      endsInCutLiteral compressed length fuel outputPos compressedPos = false := by
  induction fuel generalizing output outputPos compressedPos with
  | zero =>
    by_cases more : outputPos < length
    · obtain ⟨raised, uncut⟩ := decompressFrom_outOfBits output 0 more
        (List.getElem?_eq_none_iff.mpr (by omega : compressed.length ≤ compressedPos))
      rw [raised, uncut]
      exact ⟨fun _ => rfl, fun _ _ returned => nomatch returned⟩
    · rw [decompressFrom_done 0 (by omega)]
      exact ⟨fun _ => rfl, fun _ out returned => by rwa [← Except.ok.inj returned]⟩
  | succ fuel ih =>
    by_cases more : outputPos < length
    · cases bit : compressed[compressedPos]? with
      | none =>
        obtain ⟨raised, uncut⟩ := decompressFrom_outOfBits output (fuel + 1) more bit
        rw [raised, uncut]
        exact ⟨fun _ => rfl, fun _ _ returned => nomatch returned⟩
      | some block =>
        cases block with
        | false =>
          obtain ⟨n, size⟩ : ∃ n, n = min (length - outputPos) 3 := ⟨_, rfl⟩
          have read := length_literal compressed compressedPos n
          have stored := @length_setSlice output
            (Bits.pack (BitString.slice compressed (compressedPos + 1) (compressedPos + 1 + 8 * n))) outputPos
            (outputPos + n) (by omega) (by omega)
          rw [decompressFrom_literal fuel more bit size, endsInCutLiteral, if_pos more, bit]
          dsimp only
          rw [← size]
          by_cases lacks : literalBytes compressed compressedPos n < n
          · by_cases last : outputPos + n = length
            · rw [decompressFrom_done fuel last]
              simp only [last, lacks, decide_true, Bool.and_self, Bool.true_or, Bool.true_eq_false, iff_false]
              intro law
              have wrong := law _ rfl
              rw [← last] at wrong
              omega
            · obtain ⟨raised, uncut⟩ := decompressFrom_outOfBits
                (setSlice output outputPos (outputPos + n)
                  (Bits.pack (BitString.slice compressed (compressedPos + 1) (compressedPos + 1 + 8 * n))))
                fuel (by omega : outputPos + n < length) (literal_cut lacks)
              rw [raised, uncut]
              simp [last]
          · have all : literalBytes compressed compressedPos n = n := by
              unfold literalBytes at lacks ⊢
              omega
            rw [ih (by omega) (by omega) (by omega)]
            simp [lacks]
        | true =>
          obtain ⟨offset, first⟩ : ∃ offset, offset = toNat (BitString.slice compressed (compressedPos + 1)
            (compressedPos + 1 + offsetFieldWidth outputPos)) := ⟨_, rfl⟩
          rw [endsInCutLiteral, if_pos more, bit]
          dsimp only
          rw [← first]
          by_cases outside : outputPos < offset
          · obtain ⟨e, raised⟩ := decompressFrom_invalid output fuel more bit (first ▸ outside)
            rw [raised]
            simp [outside]
          · obtain ⟨count, second⟩ : ∃ count, min (toNat (BitString.slice compressed
                (compressedPos + 1 + offsetFieldWidth outputPos) (compressedPos + 1 + offsetFieldWidth outputPos + 8)))
                (length - outputPos) = count := ⟨_, rfl⟩
            have room : count ≤ length - outputPos := second ▸ Nat.min_le_right _ _
            have copied : ((output.take (outputPos - offset + count)).drop (outputPos - offset)).length = count := by
              rw [List.length_drop, List.length_take]
              omega
            have stored := @length_setSlice output ((output.take (outputPos - offset + count)).drop (outputPos - offset))
              outputPos (outputPos + count) (by omega) (by omega)
            rw [decompressFrom_backReference fuel more bit rfl first.symm second (by omega), second,
              ih (by omega) (by omega) (by omega)]
            simp [Nat.le_of_not_lt outside]
    · rw [decompressFrom_done (fuel + 1) (by omega), endsInCutLiteral, if_neg more]
      exact ⟨fun _ => rfl, fun _ out returned => by rwa [← Except.ok.inj returned]⟩

end

/-! ### Any text -/

/-- The length that the bits of a text announce. -/
def announced (text : List Char) : Nat :=
  match textToBits text with
  | .ok data => toNat (BitString.slice (Bits.ofBytes data none) 0 32)
  | .error _ => 0

def cutShort (text : List Char) : Bool :=
  match textToBits text with
  | .ok data =>
    endsInCutLiteral (Bits.ofBytes data none) (announced text) ((Bits.ofBytes data none).length + 1) 0 32
  | .error _ => false

/-- What `decompress` ends with, its loop run without a bound. -/
def Ends (text : List Char) (result : Except Error Bytes) : Prop :=
  match textToBits text with
  | .ok data => Loops (Bits.ofBytes data none) (announced text) (List.replicate (announced text) 0) 0 32 result
  | .error e => result = .error e

/-- The decompressor ends on every text. What it returns has the announced length unless the literal that
fills the output is cut short. -/
theorem decompress_any_text (text : List Char) :
    Ends text (decompress text) ∧
      ((∀ out, decompress text = .ok out → out.length = announced text) ↔ cutShort text = false) := by
  unfold Ends cutShort decompress announced
  cases textToBits text with
  | error e => exact ⟨rfl, fun _ => rfl, fun _ _ returned => nomatch returned⟩
  | ok data =>
    refine ⟨decompressFrom_loops _ 0 (by omega), ?_⟩
    exact length_decompressFrom_iff List.length_replicate (Nat.zero_le _) (by omega)

/-- Three bytes are announced, and of the literal there are 15 bits. -/
theorem decompress_cut_literal :
    ¬ ∀ text out, decompress text = .ok out → out.length = announced text := by
  intro law
  have ran : decompress "300000".toList = .ok [0, 0] := by decide
  have wrong := law "300000".toList [0, 0] ran
  revert wrong
  decide

end Acrobe.Stapl.Aca
