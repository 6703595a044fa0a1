import Acrobe.Stapl.Aca

/-!
# Decompression and its reference

The text decodes to the bits of the blocks, and the decompressor copies every back-reference as one
block of a zeroed buffer. That is the byte-at-a-time expansion unless a back-reference reads bytes
of its own that are not zero.
-/

namespace Acrobe.Stapl.Aca
open LittleEndian Acrobe.Storage Acrobe.Lib
open Acrobe.BitString (toNat ofNat toNat_lt toNat_ofNat toNat_append length_ofNat ofNat_toNat)

/-! ### Bits of bytes -/

theorem bits_ext {left right : Bits} (length : left.length = right.length) (value : toNat left = toNat right) :
    left = right := by
  rw [← ofNat_toNat left, length, value, ofNat_toNat]

theorem length_ofBytes (data : Bytes) : (Bits.ofBytes data none).length = 8 * data.length := by
  rw [Bits.ofBytes, length_ofNat, Option.getD_none, Nat.mul_comm]

theorem toNat_ofBytes (data : Bytes) : toNat (Bits.ofBytes data none) = combine data := by
  rw [Bits.ofBytes, toNat_ofNat, Option.getD_none]
  exact Nat.mod_eq_of_lt (BitString.combine_lt_bits data)

theorem pack_ofBytes (data : Bytes) : Bits.pack (Bits.ofBytes data none) = data := by
  apply bytes_ext
  · rw [length_pack, length_ofBytes]
    omega
  · rw [combine_pack, toNat_ofBytes]

theorem ofBytes_append (front back : Bytes) :
    Bits.ofBytes (front ++ back) none = Bits.ofBytes front none ++ Bits.ofBytes back none := by
  apply bits_ext
  · rw [List.length_append, length_ofBytes, length_ofBytes, length_ofBytes, List.length_append]
    omega
  · rw [toNat_append, toNat_ofBytes, toNat_ofBytes, toNat_ofBytes, combine_append, length_ofBytes, two_pow_bytes]

/-! ### Characters -/

theorem letter_facts : ∀ value < 64,
    acaToStd (acaAlphabet.getD value ' ') = some (stdAlphabet.getD (swib value 6) ' ') ∧
      stdAlphabet.idxOf? (stdAlphabet.getD (swib value 6) ' ') = some (swib value 6) ∧
      ¬128 ≤ (stdAlphabet.getD (swib value 6) ' ').toNat ∧ stdAlphabet.getD (swib value 6) ' ' ≠ '=' := by
  decide +kernel

theorem translate_ignores_whitespace (text : List Char) :
    text.filterMap acaToStd = (text.filter (· ∉ whitespace)).filterMap acaToStd := by
  induction text with
  | nil => rfl
  | cons c text ih =>
    by_cases blank : c ∈ whitespace
    · rw [List.filter_cons_of_neg (by simp [blank]), List.filterMap_cons_none (by rw [acaToStd, if_pos blank])]
      exact ih
    · rw [List.filter_cons_of_pos (by simp [blank]), List.filterMap_cons, List.filterMap_cons, ih]

theorem translate_letters {values : List Nat} (small : ∀ value ∈ values, value < 64) :
    (values.map fun value => acaAlphabet.getD value ' ').filterMap acaToStd =
      values.map fun value => stdAlphabet.getD (swib value 6) ' ' := by
  induction values with
  | nil => rfl
  | cons value values ih =>
    rw [List.map_cons, List.filterMap_cons_some ((letter_facts value (small value (List.mem_cons_self ..))).1),
      ih fun other member => small other (List.mem_cons_of_mem _ member), List.map_cons]

theorem a2bBase64_letter {value : Nat} (small : value < 64) (quad : List Nat) (pads : Nat) (rest : List Char) :
    a2bBase64 quad pads (stdAlphabet.getD (swib value 6) ' ' :: rest) = (do
      let bytes ← a2bBase64 (if quad.length = 3 then [] else quad ++ [swib value 6]) 0 rest
      return quadByte quad (swib value 6) ++ bytes) := by
  rw [a2bBase64, if_neg (letter_facts value small).2.2.2, (letter_facts value small).2.1]

/-! ### Four characters -/

theorem swib_parts : ∀ value < 64, swib value 6 / 16 = swib (value % 4) 2 ∧ swib value 6 % 16 = swib (value / 4) 4 ∧
    swib value 6 / 4 = swib (value % 16) 4 ∧ swib value 6 % 4 = swib (value / 16) 2 := by
  decide

theorem swib_joined :
    (∀ a < 64, ∀ low < 4, swib ((swib a 6 * 4 + swib low 2) % 256) 8 = a + 64 * low) ∧
      (∀ high < 16, ∀ low < 16, swib ((swib high 4 * 16 + swib low 4) % 256) 8 = high + 16 * low) ∧
      ∀ high < 4, ∀ d < 64, swib ((swib high 2 * 64 + swib d 6) % 256) 8 = high + 4 * d := by
  decide

theorem first_byte {a b : Nat} (smallA : a < 64) (smallB : b < 64) :
    swib ((swib a 6 * 4 + swib b 6 / 16) % 256) 8 = a + 64 * (b % 4) := by
  rw [(swib_parts b smallB).1]
  exact swib_joined.1 a smallA (b % 4) (Nat.mod_lt b (by decide))

theorem second_byte {b c : Nat} (smallB : b < 64) (smallC : c < 64) :
    swib ((swib b 6 % 16 * 16 + swib c 6 / 4) % 256) 8 = b / 4 + 16 * (c % 16) := by
  rw [(swib_parts b smallB).2.1, (swib_parts c smallC).2.2.1]
  exact swib_joined.2.1 (b / 4) (by omega) (c % 16) (Nat.mod_lt c (by decide))

theorem third_byte {c d : Nat} (smallC : c < 64) (smallD : d < 64) :
    swib ((swib c 6 % 4 * 64 + swib d 6) % 256) 8 = c / 16 + 4 * d := by
  rw [(swib_parts c smallC).2.2.2]
  exact swib_joined.2.2 (c / 16) (by omega) d smallD

theorem toNat_sextet {value : Nat} (small : value < 64) : toNat (ofNat value 6) = value := by
  rw [toNat_ofNat]
  exact Nat.mod_eq_of_lt small

theorem quad_bits {a b c d : Nat} (smallA : a < 64) (smallB : b < 64) (smallC : c < 64) (smallD : d < 64) :
    Bits.ofBytes (bitswap8 [UInt8.ofNat (swib a 6 * 4 + swib b 6 / 16),
      UInt8.ofNat (swib b 6 % 16 * 16 + swib c 6 / 4), UInt8.ofNat (swib c 6 % 4 * 64 + swib d 6)]) none =
      ofNat a 6 ++ (ofNat b 6 ++ (ofNat c 6 ++ ofNat d 6)) := by
  apply bits_ext
  · rw [length_ofBytes]
    simp only [bitswap8, List.map_cons, List.map_nil, List.length_cons, List.length_nil, List.length_append,
      length_ofNat]
  · have value : combine (bitswap8 [UInt8.ofNat (swib a 6 * 4 + swib b 6 / 16),
        UInt8.ofNat (swib b 6 % 16 * 16 + swib c 6 / 4), UInt8.ofNat (swib c 6 % 4 * 64 + swib d 6)]) =
        a + 64 * (b % 4) + 256 * (b / 4 + 16 * (c % 16) + 256 * (c / 16 + 4 * d)) := by
      simp only [bitswap8, List.map_cons, List.map_nil, combine, UInt8.toNat_ofNat',
        first_byte smallA smallB, second_byte smallB smallC, third_byte smallC smallD]
      omega
    rw [toNat_ofBytes, value, toNat_append, toNat_append, toNat_append, length_ofNat, length_ofNat, length_ofNat,
      toNat_sextet smallA, toNat_sextet smallB, toNat_sextet smallC, toNat_sextet smallD]
    omega

/-- The values of four letters, most significant first, are three bytes. -/
def b64Quads : List Nat → Except Error Bytes
  | [] => .ok []
  | a :: b :: c :: d :: rest => do
    let bytes ← b64Quads rest
    return UInt8.ofNat (a * 4 + b / 16) :: UInt8.ofNat (b % 16 * 16 + c / 4) :: UInt8.ofNat (c % 4 * 64 + d) :: bytes
  | _ => .error .valueError

theorem a2bBase64_letters {values : List Nat} (small : ∀ value ∈ values, value < 64)
    (whole : values.length % 4 = 0) :
    a2bBase64 [] 0 (values.map fun value => stdAlphabet.getD (swib value 6) ' ') = b64Quads (values.map (swib · 6)) := by
  match values with
  | [] => rfl
  | [_] | [_, _] | [_, _, _] =>
    simp only [List.length_cons, List.length_nil] at whole
    omega
  | a :: b :: c :: d :: rest =>
    have inside : ∀ value ∈ rest, value < 64 := fun value member => small value (by simp [member])
    have short : rest.length % 4 = 0 := by
      simp only [List.length_cons] at whole
      omega
    have later := a2bBase64_letters inside short
    simp only [List.map_cons]
    rw [a2bBase64_letter (small a (by simp)), a2bBase64_letter (small b (by simp)), a2bBase64_letter (small c (by simp)),
      a2bBase64_letter (small d (by simp)), b64Quads, ← later]
    simp only [List.length_nil, List.length_cons, List.nil_append, List.cons_append, Nat.reduceAdd, Nat.reduceEqDiff,
      reduceIte]
    cases decoded : a2bBase64 [] 0 (rest.map fun value => stdAlphabet.getD (swib value 6) ' ') <;> rfl

theorem b64decode_letters {values : List Nat} (small : ∀ value ∈ values, value < 64)
    (whole : values.length % 4 = 0) :
    b64decode (values.map fun value => stdAlphabet.getD (swib value 6) ' ') = b64Quads (values.map (swib · 6)) := by
  have ascii : (values.map fun value => stdAlphabet.getD (swib value 6) ' ').any (fun c => 128 ≤ c.toNat) = false := by
    rw [List.any_eq_false]
    intro c member
    obtain ⟨value, inside, rfl⟩ := List.mem_map.mp member
    simpa using (letter_facts value (small value inside)).2.2.1
  rw [b64decode, ascii, if_neg Bool.false_ne_true, a2bBase64_letters small whole]

theorem b64Quads_bits (values : List Nat) (small : ∀ value ∈ values, value < 64) (whole : values.length % 4 = 0) :
    ∃ data, b64Quads (values.map (swib · 6)) = .ok data ∧
      Bits.ofBytes (bitswap8 data) none = values.flatMap (ofNat · 6) := by
  match values with
  | [] => exact ⟨[], rfl, rfl⟩
  | [_] | [_, _] | [_, _, _] =>
    simp only [List.length_cons, List.length_nil] at whole
    omega
  | a :: b :: c :: d :: rest =>
    have inside : ∀ value ∈ rest, value < 64 := fun value member => small value (by simp [member])
    have short : rest.length % 4 = 0 := by
      simp only [List.length_cons] at whole
      omega
    obtain ⟨data, decoded, bits⟩ := b64Quads_bits rest inside short
    refine ⟨[UInt8.ofNat (swib a 6 * 4 + swib b 6 / 16), UInt8.ofNat (swib b 6 % 16 * 16 + swib c 6 / 4),
      UInt8.ofNat (swib c 6 % 4 * 64 + swib d 6)] ++ data, ?_, ?_⟩
    · simp only [List.map_cons, b64Quads, decoded]
      rfl
    · have quad := quad_bits (small a (by simp)) (small b (by simp)) (small c (by simp)) (small d (by simp))
      rw [bitswap8, List.map_append, ← bitswap8, ← bitswap8, ofBytes_append, quad, bits]
      simp only [List.flatMap_cons, List.append_assoc]

/-! ### The bits of a text -/

theorem sextets_small (bits : Bits) : ∀ value ∈ sextets bits, value < 64 := by
  have bounded (group : Bits) (short : group.length ≤ 6) : toNat group < 64 :=
    Nat.lt_of_lt_of_le (toNat_lt group) (Nat.pow_le_pow_right (by decide) short)
  induction bits using sextets.induct with
  | case1 => simp [sextets]
  | case2 a b c d e f rest ih =>
    intro value member
    rw [sextets] at member
    rcases List.mem_cons.mp member with rfl | member
    · exact bounded _ (by simp)
    · exact ih value member
  | case3 short notNil notLong =>
    intro value member
    rw [sextets.eq_3 short notNil notLong, List.mem_singleton] at member
    subst member
    apply bounded
    match short with
    | [] | [_] | [_, _] | [_, _, _] | [_, _, _, _] | [_, _, _, _, _] => simp
    | a :: b :: c :: d :: e :: f :: rest => exact (notLong a b c d e f rest rfl).elim

theorem ofNat_zeros (bits : Bits) (more : Nat) :
    ofNat (toNat bits) (bits.length + more) = bits ++ BitString.zeros more := by
  apply bits_ext
  · rw [length_ofNat, List.length_append, BitString.length_zeros]
  · rw [toNat_ofNat, toNat_append, BitString.toNat_zeros, Nat.mul_zero, Nat.add_zero]
    apply Nat.mod_eq_of_lt
    exact Nat.lt_of_lt_of_le (toNat_lt bits) (Nat.pow_le_pow_right (by decide) (by omega))

theorem sextets_bits (bits : Bits) : ∃ more, (sextets bits).flatMap (ofNat · 6) = bits ++ BitString.zeros more := by
  induction bits using sextets.induct with
  | case1 => exact ⟨0, rfl⟩
  | case2 a b c d e f rest ih =>
    obtain ⟨more, padded⟩ := ih
    refine ⟨more, ?_⟩
    have group : ofNat (toNat [a, b, c, d, e, f]) 6 = [a, b, c, d, e, f] := ofNat_toNat [a, b, c, d, e, f]
    rw [sextets, List.flatMap_cons, padded, ← List.append_assoc, group]
    rfl
  | case3 short notNil notLong =>
    have small : short.length ≤ 6 := by
      match short with
      | [] | [_] | [_, _] | [_, _, _] | [_, _, _, _] | [_, _, _, _, _] => simp
      | a :: b :: c :: d :: e :: f :: rest => exact (notLong a b c d e f rest rfl).elim
    refine ⟨6 - short.length, ?_⟩
    rw [sextets.eq_3 short notNil notLong, List.flatMap_singleton, ← ofNat_zeros]
    congr 1
    omega

theorem zero_sextets (count : Nat) : (List.replicate count 0).flatMap (ofNat · 6) = BitString.zeros (6 * count) := by
  induction count with
  | zero => rfl
  | succ count ih =>
    rw [List.replicate_succ, List.flatMap_cons, ih, show 6 * (count + 1) = 6 + 6 * count by omega,
      BitString.zeros, BitString.zeros, List.replicate_add]
    rfl

theorem textToBits_encodes {text : List Char} {bits : Bits} (encoded : Encodes text bits) :
    ∃ data more, textToBits text = .ok data ∧ Bits.ofBytes data none = bits ++ BitString.zeros more := by
  have small := sextets_small bits
  have asStd : text.filterMap acaToStd = (sextets bits).map fun value => stdAlphabet.getD (swib value 6) ' ' := by
    rw [translate_ignores_whitespace, encoded, translate_letters small]
  obtain ⟨count, padded⟩ : ∃ count, count = (4 - (text.filterMap acaToStd).length % 4) % 4 := ⟨_, rfl⟩
  have filled : ∀ value ∈ sextets bits ++ List.replicate count 0, value < 64 := by
    intro value member
    rcases List.mem_append.mp member with member | member
    · exact small value member
    · rw [(List.mem_replicate.mp member).2]
      decide
  have whole : (sextets bits ++ List.replicate count 0).length % 4 = 0 := by
    have length := congrArg List.length asStd
    rw [List.length_map] at length
    rw [List.length_append, List.length_replicate]
    omega
  have letters : text.filterMap acaToStd ++ List.replicate count 'A' =
      (sextets bits ++ List.replicate count 0).map fun value => stdAlphabet.getD (swib value 6) ' ' := by
    have last : List.replicate count 'A' =
        (List.replicate count 0).map fun value => stdAlphabet.getD (swib value 6) ' ' := by
      rw [List.map_replicate]
      rfl
    rw [asStd, last, ← List.map_append]
  obtain ⟨data, decoded, read⟩ := b64Quads_bits _ filled whole
  obtain ⟨more, stored⟩ := sextets_bits bits
  refine ⟨bitswap8 data, more + 6 * count, ?_, ?_⟩
  · unfold textToBits
    dsimp only
    rw [← padded, letters, b64decode_letters filled whole, decoded]
    rfl
  · rw [read, List.flatMap_append, stored, zero_sextets, List.append_assoc, BitString.zeros, BitString.zeros,
      BitString.zeros, ← List.replicate_add]

/-! ### The blocks -/

def Token.copy (out : Bytes) : Token → Bytes
  | .literal bytes => out ++ bytes
  | .backReference offset count => BackReference.block 0 offset out count

theorem Token.length_copy (token : Token) (out : Bytes) : (token.copy out).length = out.length + token.size := by
  cases token with
  | literal bytes => exact List.length_append
  | backReference offset count => exact BackReference.length_block count

theorem Token.length_expand (token : Token) (out : Bytes) : (token.expand out).length = out.length + token.size := by
  cases token with
  | literal bytes => exact List.length_append
  | backReference offset count => exact BackReference.length_run count

theorem Token.copy_prefix (token : Token) (out : Bytes) : out <+: token.copy out := by
  cases token with
  | literal bytes => exact List.prefix_append out bytes
  | backReference offset count => exact BackReference.block_extends count

theorem Token.expand_prefix (token : Token) (out : Bytes) : out <+: token.expand out := by
  cases token with
  | literal bytes => exact List.prefix_append out bytes
  | backReference offset count => exact BackReference.run_extends count

theorem copies_start (tokens : List Token) (out : Bytes) : out <+: tokens.foldl Token.copy out := by
  induction tokens generalizing out with
  | nil => exact List.prefix_rfl
  | cons token tokens ih => exact (token.copy_prefix out).trans (ih _)

theorem expansions_prefix (tokens : List Token) (out : Bytes) : out <+: tokens.foldl Token.expand out := by
  induction tokens generalizing out with
  | nil => exact List.prefix_rfl
  | cons token tokens ih => exact (token.expand_prefix out).trans (ih _)

theorem length_copies (tokens : List Token) (out : Bytes) :
    (tokens.foldl Token.copy out).length = out.length + (tokens.map Token.size).sum := by
  induction tokens generalizing out with
  | nil => rfl
  | cons token tokens ih =>
    rw [List.foldl_cons, ih, token.length_copy, List.map_cons, List.sum_cons, Nat.add_assoc]

theorem length_expansions (tokens : List Token) (out : Bytes) :
    (tokens.foldl Token.expand out).length = out.length + (tokens.map Token.size).sum := by
  induction tokens generalizing out with
  | nil => rfl
  | cons token tokens ih =>
    rw [List.foldl_cons, ih, token.length_expand, List.map_cons, List.sum_cons, Nat.add_assoc]

theorem slice_field {front field back : Bits} {start stop : Nat} (first : front.length = start)
    (last : start + field.length = stop) : BitString.slice (front ++ (field ++ back)) start stop = field := by
  subst first
  subst last
  rw [BitString.slice, ← List.append_assoc, ← List.length_append, List.take_left, List.drop_left]

theorem getElem_field {front back : Bits} {bit : Bool} : (front ++ bit :: back)[front.length]? = some bit := by
  rw [List.getElem?_append_right (Nat.le_refl _), Nat.sub_self]
  rfl

theorem offset_fits {offset pos : Nat} (inside : offset ≤ pos) (bounded : offset ≤ 2 ^ 13 - 1) (positive : 1 ≤ offset) :
    offset < 2 ^ offsetFieldWidth pos := by
  rw [offsetFieldWidth, if_neg (by omega), bitLength, if_neg (by omega)]
  rcases Nat.le_total (Nat.log2 pos + 1) 13 with short | long
  · rw [Nat.min_eq_left short]
    exact Nat.lt_of_le_of_lt inside Nat.lt_log2_self
  · rw [Nat.min_eq_right long]
    omega

theorem setSlice_zeros (out data : Bytes) (size : Nat) :
    setSlice (out ++ List.replicate size 0) out.length (out.length + data.length) data =
      (out ++ data) ++ List.replicate (size - data.length) 0 := by
  rw [setSlice, List.take_left, ← List.drop_drop, List.drop_left, List.drop_replicate]

theorem copied_block {out : Bytes} {offset count size : Nat} (inside : offset ≤ out.length) (room : count ≤ size) :
    ((out ++ List.replicate size 0).take (out.length - offset + count)).drop (out.length - offset) =
      (out.drop (out.length - offset) ++ List.replicate count 0).take count := by
  have source : (out.drop (out.length - offset)).length = offset := by
    rw [List.length_drop]
    omega
  rw [List.drop_take, Nat.add_sub_cancel_left, List.drop_append_of_le_length (by omega), List.take_append,
    List.take_append, source, List.take_replicate, List.take_replicate]
  congr 2
  omega

section
variable {compressed : Bits} {output : Bytes} {length outputPos compressedPos : Nat}

theorem decompressFrom_done (fuel : Nat) (done : outputPos = length) :
    decompressFrom compressed length fuel output outputPos compressedPos = .ok output := by
  unfold decompressFrom
  rw [if_neg (by omega), if_pos done]

theorem decompressFrom_literal (fuel : Nat) (more : outputPos < length)
    (literal : compressed[compressedPos]? = some false) {n : Nat} (size : n = min (length - outputPos) 3) :
    decompressFrom compressed length (fuel + 1) output outputPos compressedPos =
      decompressFrom compressed length fuel (setSlice output outputPos (outputPos + n)
        (Bits.pack (BitString.slice compressed (compressedPos + 1) (compressedPos + 1 + 8 * n))))
        (outputPos + n) (compressedPos + 1 + 8 * n) := by
  subst size
  rw [decompressFrom.eq_def]
  dsimp only
  rw [if_pos more, literal]

theorem decompressFrom_backReference (fuel : Nat) (more : outputPos < length)
    (reference : compressed[compressedPos]? = some true) {n offset count : Nat} (width : n = offsetFieldWidth outputPos)
    (first : toNat (BitString.slice compressed (compressedPos + 1) (compressedPos + 1 + n)) = offset)
    (second : min (toNat (BitString.slice compressed (compressedPos + 1 + n) (compressedPos + 1 + n + 8)))
      (length - outputPos) = count)
    (inside : offset ≤ outputPos) :
    decompressFrom compressed length (fuel + 1) output outputPos compressedPos =
      decompressFrom compressed length fuel (setSlice output outputPos (outputPos + count)
        ((output.take (outputPos - offset + count)).drop (outputPos - offset)))
        (outputPos + count) (compressedPos + 1 + n + 8) := by
  subst width
  rw [decompressFrom.eq_def]
  dsimp only
  rw [if_pos more, reference]
  dsimp only
  rw [first, if_neg (by omega), second]

end

theorem decompress_literal {out bytes : Bytes} {front rest : Bits} {length more : Nat} (fuel : Nat)
    (size : bytes.length = min (length - out.length) 3) (unfinished : out.length < length) :
    decompressFrom (front ++ ((Token.literal bytes).encode out.length ++ rest)) length (fuel + 1)
        (out ++ List.replicate (bytes.length + more) 0) out.length front.length =
      decompressFrom (front ++ ((Token.literal bytes).encode out.length ++ rest)) length fuel
        ((Token.literal bytes).copy out ++ List.replicate more 0) (out.length + bytes.length)
        (front ++ (Token.literal bytes).encode out.length).length := by
  have bit : (front ++ ((Token.literal bytes).encode out.length ++ rest))[front.length]? = some false := getElem_field
  have field : BitString.slice (front ++ ((Token.literal bytes).encode out.length ++ rest)) (front.length + 1)
      (front.length + 1 + 8 * bytes.length) = Bits.ofBytes bytes none := by
    rw [Token.encode, List.cons_append, List.append_cons]
    exact slice_field (by rw [List.length_append]; rfl) (by rw [length_ofBytes])
  have width : (front ++ (Token.literal bytes).encode out.length).length = front.length + 1 + 8 * bytes.length := by
    rw [List.length_append, Token.encode, List.length_cons, length_ofBytes]
    omega
  rw [decompressFrom_literal fuel unfinished bit size, field, pack_ofBytes, setSlice_zeros,
    Nat.add_sub_cancel_left, width]
  rfl

theorem decompress_backReference {out : Bytes} {offset count : Nat} {front rest : Bits} {length more : Nat}
    (fuel : Nat) (positive : 1 ≤ offset) (inside : offset ≤ out.length) (bounded : offset ≤ 2 ^ 13 - 1)
    (byte : count ≤ 255) (room : count ≤ length - out.length) (unfinished : out.length < length) :
    decompressFrom (front ++ ((Token.backReference offset count).encode out.length ++ rest)) length (fuel + 1)
        (out ++ List.replicate (count + more) 0) out.length front.length =
      decompressFrom (front ++ ((Token.backReference offset count).encode out.length ++ rest)) length fuel
        ((Token.backReference offset count).copy out ++ List.replicate more 0) (out.length + count)
        (front ++ (Token.backReference offset count).encode out.length).length := by
  have bit : (front ++ ((Token.backReference offset count).encode out.length ++ rest))[front.length]? = some true :=
    getElem_field
  have first : BitString.slice (front ++ ((Token.backReference offset count).encode out.length ++ rest))
      (front.length + 1) (front.length + 1 + offsetFieldWidth out.length) =
      ofNat offset (offsetFieldWidth out.length) := by
    rw [Token.encode, List.cons_append, List.append_cons, List.append_assoc (ofNat offset _)]
    exact slice_field (by rw [List.length_append]; rfl) (by rw [length_ofNat])
  have second : BitString.slice (front ++ ((Token.backReference offset count).encode out.length ++ rest))
      (front.length + 1 + offsetFieldWidth out.length) (front.length + 1 + offsetFieldWidth out.length + 8) =
      ofNat count 8 := by
    rw [Token.encode, List.cons_append, List.append_cons, List.append_assoc (ofNat offset _),
      ← List.append_assoc (front ++ [true])]
    exact slice_field (by rw [List.length_append, List.length_append, length_ofNat]; rfl) (by rw [length_ofNat])
  have width : (front ++ (Token.backReference offset count).encode out.length).length =
      front.length + 1 + offsetFieldWidth out.length + 8 := by
    rw [List.length_append, Token.encode, List.length_cons, List.length_append, length_ofNat, length_ofNat]
    omega
  have taken : ((out.drop (out.length - offset) ++ List.replicate count 0).take count).length = count := by
    rw [List.length_take, List.length_append, List.length_replicate]
    omega
  have placed := setSlice_zeros out ((out.drop (out.length - offset) ++ List.replicate count 0).take count)
    (count + more)
  rw [taken, Nat.add_sub_cancel_left] at placed
  rw [decompressFrom_backReference fuel unfinished bit rfl
      (by rw [first, toNat_ofNat, Nat.mod_eq_of_lt (offset_fits inside bounded positive)])
      (by rw [second, toNat_ofNat, Nat.mod_eq_of_lt (by omega), Nat.min_eq_left room]) inside,
    copied_block inside (Nat.le_add_right count more), placed, width]
  rfl

theorem decompressFrom_encode (tokens : List Token) (out : Bytes) (front back : Bits) (fuel : Nat)
    (wellFormed : WellFormed out.length tokens) (enough : (encodeFrom out.length tokens).length < fuel) :
    decompressFrom (front ++ (encodeFrom out.length tokens ++ back)) (tokens.foldl Token.copy out).length fuel
      (out ++ List.replicate (tokens.map Token.size).sum 0) out.length front.length =
      .ok (tokens.foldl Token.copy out) := by
  induction tokens generalizing out front fuel with
  | nil =>
    rw [decompressFrom_done fuel (by rfl), List.map_nil, List.sum_nil, List.replicate_zero, List.append_nil]
    rfl
  | cons token tokens ih =>
    have total := length_copies (token :: tokens) out
    rw [List.map_cons, List.sum_cons] at total ⊢
    by_cases unfinished : out.length < ((token :: tokens).foldl Token.copy out).length
    · rw [encodeFrom, List.length_append] at enough
      obtain ⟨fuel, rfl⟩ : ∃ less, fuel = less + 1 := ⟨fuel - 1, by omega⟩
      have step := ih (token.copy out) (front ++ token.encode out.length) fuel
      rw [token.length_copy, List.append_assoc front] at step
      rw [encodeFrom, List.append_assoc]
      cases token with
      | literal bytes =>
        have size : bytes.length = min (((Token.literal bytes :: tokens).foldl Token.copy out).length - out.length) 3 := by
          rw [total, Token.size]
          rcases wellFormed.1 with whole | ⟨short, rfl⟩
          · omega
          · rw [List.map_nil, List.sum_nil]
            omega
        have read : 0 < ((Token.literal bytes).encode out.length).length := Nat.succ_pos _
        rw [Token.size, decompress_literal fuel size unfinished]
        exact step wellFormed.2 (by omega)
      | backReference offset count =>
        obtain ⟨⟨positive, inside, bounded, byte⟩, rest⟩ := wellFormed
        have read : 0 < ((Token.backReference offset count).encode out.length).length := Nat.succ_pos _
        rw [Token.size, decompress_backReference fuel positive inside bounded byte
          (by rw [total, Token.size]; omega) unfinished]
        exact step rest (by omega)
    · rw [decompressFrom_done fuel (by omega), show token.size + (tokens.map Token.size).sum = 0 by omega,
        List.replicate_zero, List.append_nil]
      congr 1
      exact (copies_start (token :: tokens) out).eq_of_length (by omega)

/-! ### Copies and expansions -/

theorem copies_eq_iff (tokens : List Token) (out : Bytes) (wellFormed : WellFormed out.length tokens) :
    tokens.foldl Token.copy out = tokens.foldl Token.expand out ↔ RunsOfZeros out tokens := by
  induction tokens generalizing out with
  | nil => exact ⟨fun _ => trivial, fun _ => rfl⟩
  | cons token tokens ih =>
    cases token with
    | literal bytes => exact ih (out ++ bytes) (by rw [List.length_append]; exact wellFormed.2)
    | backReference offset count =>
      obtain ⟨⟨positive, inside, -, -⟩, rest⟩ := wellFormed
      have later := ih (BackReference.run 0 offset out count) (by rw [BackReference.length_run]; exact rest)
      have here : BackReference.run 0 offset out count = BackReference.block 0 offset out count ↔
          BackReference.Repeats 0 offset out count := BackReference.run_eq_block_iff inside positive count
      constructor
      · intro same
        have before : BackReference.run 0 offset out count = BackReference.block 0 offset out count := by
          have copied := copies_start tokens (BackReference.block 0 offset out count)
          have expanded := expansions_prefix tokens (BackReference.run 0 offset out count)
          rw [List.foldl_cons, List.foldl_cons, Token.copy, Token.expand] at same
          rw [same] at copied
          apply List.IsPrefix.eq_of_length _ (by rw [BackReference.length_run, BackReference.length_block])
          exact List.prefix_of_prefix_length_le expanded copied
            (by rw [BackReference.length_run, BackReference.length_block])
        rw [List.foldl_cons, List.foldl_cons, Token.copy, Token.expand, ← before] at same
        exact ⟨here.mp before, later.mp same⟩
      · rintro ⟨repeats, runs⟩
        rw [List.foldl_cons, List.foldl_cons, Token.copy, Token.expand, ← here.mpr repeats]
        exact later.mpr runs

/-- The decompressor gives the expansion exactly when no back-reference reads a byte of its own that is
not zero. -/
theorem decompress_eq_expand_iff {tokens : List Token} {text : List Char} (wellFormed : WellFormed 0 tokens)
    (fits : (expand tokens).length < 2 ^ 32) (encoded : Encodes text (encodeBits tokens)) :
    decompress text = .ok (expand tokens) ↔ RunsOfZeros [] tokens := by
  obtain ⟨data, more, decoded, bits⟩ := textToBits_encodes encoded
  have total : (expand tokens).length = (tokens.foldl Token.copy []).length := by
    rw [expand, length_expansions, length_copies]
  have sum : (expand tokens).length = (tokens.map Token.size).sum := by
    rw [expand, length_expansions, List.length_nil, Nat.zero_add]
  have header : (ofNat (expand tokens).length 32).length = 32 := length_ofNat _ _
  rw [encodeBits, List.append_assoc] at bits
  have length : toNat (BitString.slice (Bits.ofBytes data none) 0 32) = (expand tokens).length := by
    rw [bits, BitString.slice, List.drop_zero, List.take_left' header, toNat_ofNat, Nat.mod_eq_of_lt fits]
  have enough : (encodeFrom 0 tokens).length < (Bits.ofBytes data none).length + 1 := by
    rw [bits, List.length_append, List.length_append]
    omega
  have ran := decompressFrom_encode tokens [] (ofNat (expand tokens).length 32) (BitString.zeros more)
    ((Bits.ofBytes data none).length + 1) wellFormed enough
  have result : decompress text = .ok (tokens.foldl Token.copy []) := by
    unfold decompress
    rw [decoded]
    change decompressFrom (Bits.ofBytes data none) (toNat (BitString.slice (Bits.ofBytes data none) 0 32))
      ((Bits.ofBytes data none).length + 1) (List.replicate _ 0) 0 32 = _
    rw [length, ← ran, ← total, header, List.nil_append, ← sum, List.length_nil, ← bits]
  rw [result]
  constructor
  · intro same
    exact (copies_eq_iff tokens [] wellFormed).mp (Except.ok.inj same)
  · intro runs
    rw [(copies_eq_iff tokens [] wellFormed).mpr runs, expand]

/-- `abc`, three bytes back three times, then `A`. -/
theorem decompress_spaced_text : decompress "700008\n Cn6\tx388\r".toList = .ok [97, 98, 99, 97, 98, 99, 65] := by
  have tokens : WellFormed 0 [.literal [97, 98, 99], .backReference 3 3, .literal [65]] := by
    simp [WellFormed]
  have runs : RunsOfZeros [] [.literal [97, 98, 99], .backReference 3 3, .literal [65]] := by
    refine ⟨?_, trivial⟩
    intro k early late
    omega
  exact (decompress_eq_expand_iff tokens (by decide) (by unfold Encodes; decide +kernel)).mpr runs

/-- `abc` and the last byte twice: the second copy is a zero of the buffer. -/
theorem decompress_run_of_one :
    ¬∀ (tokens : List Token) (text : List Char), WellFormed 0 tokens → (expand tokens).length < 2 ^ 32 →
      Encodes text (encodeBits tokens) → decompress text = .ok (expand tokens) := by
  intro law
  have expanded := law [.literal [97, 98, 99], .backReference 1 2] "500008Cn6R20".toList (by simp [WellFormed])
    (by decide) (by unfold Encodes; decide +kernel)
  have ran : decompress "500008Cn6R20".toList = .ok [97, 98, 99, 99, 0] := by decide +kernel
  rw [ran] at expanded
  revert expanded
  decide

end Acrobe.Stapl.Aca
