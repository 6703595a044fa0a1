import Acrobe.Checksum.Seek

/-!
# Appended checksums

A message with its checksum is valid just where the spilled bytes are fed with the highest exponent first.
-/

namespace Acrobe.Checksum
open LittleEndian ReflectedCrc
open Acrobe.Crc (bitsIterate bytesIterate swib bytesIterate_split)

/-! ### Words of bits -/

theorem lowBits_toNat (bits : BitString) : lowBits (BitString.toNat bits) bits.length = bits := by
  apply List.ext_getElem?
  intro i
  rw [getElem?_lowBits, testBit_toNat]
  split
  · rename_i inside
    rw [List.getElem?_eq_getElem inside]
    rfl
  · rw [List.getElem?_eq_none (by omega)]

theorem toNat_lowBits (word n : Nat) : BitString.toNat (lowBits word n) = word % 2 ^ n := by
  apply Nat.eq_of_testBit_eq
  intro i
  rw [testBit_toNat, getElem?_lowBits, Nat.testBit_mod_two_pow]
  split <;> simp_all

theorem toNat_reverse (bits : BitString) : BitString.toNat bits.reverse = swib (BitString.toNat bits) bits.length := by
  rw [swib, lowBits_toNat]

theorem foldl_feed (poly state : Nat) (bits : List Bool) :
    bits.foldl (feed poly) state = (shift poly)^[bits.length] (state ^^^ BitString.toNat bits) := by
  have fed := @feed_lowBits poly state (BitString.toNat bits) bits.length
  rwa [lowBits_toNat, Nat.mod_eq_of_lt (BitString.toNat_lt bits)] at fed

theorem length_bitsIterate (word : Nat) (popLsb : Bool) : (bitsIterate word 8 popLsb).length = 8 := by
  rw [bitsIterate]
  split
  · exact length_lowBits word 8
  · rw [List.length_reverse, length_lowBits]

theorem length_bytesIterate (data : Bytes) (popLsb : Bool) : (bytesIterate data popLsb).length = 8 * data.length := by
  induction data with
  | nil => rfl
  | cons byte data ih =>
    have tail : (data.flatMap fun byte => bitsIterate byte.toNat 8 popLsb).length = 8 * data.length := ih
    rw [bytesIterate, List.flatMap_cons, List.length_append, length_bitsIterate, tail, List.length_cons]
    omega

theorem bytesIterate_true (data : Bytes) : bytesIterate data true = lowBits (combine data) (8 * data.length) := by
  rw [← bytesIterate_split, split_combine]

theorem pow_bytes (n : Nat) : 256 ^ n = 2 ^ (8 * n) := by rw [Nat.pow_mul]

theorem toNat_true (data : Bytes) : BitString.toNat (bytesIterate data true) = combine data := by
  rw [bytesIterate_true, toNat_lowBits, ← pow_bytes, Nat.mod_eq_of_lt (combine_lt data)]

theorem toNat_false (data : Bytes) :
    BitString.toNat (bytesIterate data false) = swib (combine data.reverse) (8 * data.length) := by
  have turned := Crc.bytesIterate_reverse data.reverse true
  rw [List.reverse_reverse] at turned
  change bytesIterate data false = _ at turned
  rw [turned, toNat_reverse, toNat_true, length_bytesIterate, List.length_reverse]

theorem split_one (n : Nat) : split 1 (n + 1) = 1 :: List.replicate n 0 := by
  have whole := split_combine (1 :: List.replicate n (0 : UInt8))
  rw [combine, combine_replicate_zero, List.length_cons, List.length_replicate] at whole
  exact whole

theorem split_top (n : Nat) : split (2 ^ (8 * (n + 1) - 1)) (n + 1) = List.replicate n 0 ++ [128] := by
  have whole := split_combine (List.replicate n (0 : UInt8) ++ [128])
  have value : combine (List.replicate n (0 : UInt8) ++ [128]) = 2 ^ (8 * (n + 1) - 1) := by
    rw [combine_append, combine_replicate_zero, List.length_replicate, pow_bytes, show 8 * (n + 1) - 1 = 8 * n + 7 by omega,
      Nat.pow_add]
    change 0 + 2 ^ (8 * n) * 128 = _
    omega
  rw [value, List.length_append, List.length_replicate] at whole
  exact whole

/-- The value of the bytes in the other order. -/
def byteSwap (value n : Nat) : Nat := combine (split value n).reverse

theorem byteSwap_one (n : Nat) : byteSwap 1 (n + 1) = 2 ^ (8 * n) := by
  rw [byteSwap, split_one, List.reverse_cons, List.reverse_replicate, combine_append, combine_replicate_zero,
    List.length_replicate, pow_bytes]
  change 0 + 2 ^ (8 * n) * 1 = _
  omega

theorem byteSwap_top (n : Nat) : byteSwap (2 ^ (8 * (n + 1) - 1)) (n + 1) = 128 := by
  rw [byteSwap, split_top, List.reverse_append, List.reverse_replicate, List.reverse_singleton, combine_append,
    combine_replicate_zero]
  rfl

theorem byteSwap_byte {value : Nat} (small : value < 2 ^ 8) : byteSwap value 1 = value := by
  have whole : combine (split value 1) = value % 2 ^ 8 := combine_split value 1
  rw [Nat.mod_eq_of_lt small] at whole
  exact whole

theorem byteSwap_zero (n : Nat) : byteSwap 0 n = 0 := by
  have zeros : split 0 n = List.replicate n 0 := by
    have whole := split_combine (List.replicate n (0 : UInt8))
    rwa [combine_replicate_zero, List.length_replicate] at whole
  rw [byteSwap, zeros, List.reverse_replicate, combine_replicate_zero]

theorem swib_zero (width : Nat) : swib 0 width = 0 := by
  have twice := swib_xor 0 0 width
  rwa [Nat.xor_self, Nat.xor_self] at twice

namespace Crc
variable {crc : Crc}

/-! ### Spilled words -/

/-- What the register is given by its spilled bytes, as a reflected register. -/
def spilledWord (crc : Crc) (register : Nat) : Nat :=
  BitString.toNat (bytesIterate (crc.asBytes (crc.reflected register)) crc.popLsb)

/-- The bits of the spilled bytes are popped with the highest exponent first. -/
def SpillsInOrder (crc : Crc) : Prop :=
  crc.popLsb = (crc.spillBitswap == crc.order0AtLsb) ∧
    (crc.order = 8 ∨ (crc.popLsb = true ↔ crc.spillByteOrder = .little))

instance : Decidable crc.SpillsInOrder :=
  inferInstanceAs (Decidable (_ ∧ (_ ∨ _)))

theorem asInt_reflected {register : Nat} (small : register < 2 ^ crc.order) : crc.asInt (crc.reflected register) =
    if crc.spillBitswap == crc.order0AtLsb then register else swib register crc.order := by
  rw [asInt, reflected]
  cases crc.spillBitswap <;> cases crc.order0AtLsb <;> simp [swib_swib small]

variable {n : Nat}

theorem byteWidth_of (whole : crc.order = 8 * (n + 1)) : crc.byteWidth = n + 1 := by
  rw [byteWidth, whole]
  omega

theorem spilledWord_eq (whole : crc.order = 8 * (n + 1)) {register : Nat} (small : register < 2 ^ crc.order) :
    let value := if crc.spillBitswap == crc.order0AtLsb then register else swib register crc.order
    crc.spilledWord register =
      match crc.popLsb, crc.spillByteOrder with
      | true, .little => value
      | true, .big => byteSwap value (n + 1)
      | false, .little => swib (byteSwap value (n + 1)) crc.order
      | false, .big => swib value crc.order := by
  intro value
  have bound : value < 2 ^ (8 * (n + 1)) := by
    rw [← whole]
    dsimp only [value]
    split
    · exact small
    · exact swib_lt register crc.order
  have kept : combine (split value (n + 1)) = value := by
    rw [combine_split, pow_bytes, Nat.mod_eq_of_lt bound]
  rw [spilledWord, asBytes, asInt_reflected small, byteWidth_of whole]
  cases crc.popLsb <;> cases crc.spillByteOrder
  · rw [toNat_false, toBytes, length_split, ← whole]
    rfl
  · rw [toNat_false, toBytes, List.reverse_reverse, List.length_reverse, length_split, ← whole]
    exact congrArg (swib · crc.order) kept
  · rw [toNat_true, toBytes]
    exact kept
  · rw [toNat_true, toBytes]
    rfl

theorem spilledWord_self (whole : crc.order = 8 * (n + 1)) (ordered : crc.SpillsInOrder) {register : Nat}
    (small : register < 2 ^ crc.order) : crc.spilledWord register = register := by
  obtain ⟨popped, bytes⟩ := ordered
  have value := spilledWord_eq whole small
  dsimp only at value
  have swapped : crc.order = 8 → ∀ {word}, word < 2 ^ crc.order → byteSwap word (n + 1) = word := by
    intro single word inside
    obtain rfl : n = 0 := by omega
    rw [single] at inside
    exact byteSwap_byte inside
  rw [value]
  cases pops : crc.popLsb with
  | true =>
    rw [pops] at popped bytes
    rw [← popped, if_pos rfl]
    cases spills : crc.spillByteOrder with
    | little => rfl
    | big =>
      rw [spills] at bytes
      exact swapped (bytes.resolve_right fun same => by cases same.mp rfl) small
  | false =>
    rw [pops] at popped bytes
    rw [← popped, if_neg (by decide)]
    cases spills : crc.spillByteOrder with
    | little =>
      rw [spills] at bytes
      dsimp only
      rw [swapped (bytes.resolve_right fun same => by cases same.mpr rfl) (swib_lt _ _), swib_swib small]
    | big => exact swib_swib small

theorem spilledWord_zero (whole : crc.order = 8 * (n + 1)) : crc.spilledWord 0 = 0 := by
  have value := spilledWord_eq whole (Nat.two_pow_pos crc.order)
  dsimp only at value
  rw [swib_zero, ite_self] at value
  rw [value]
  cases crc.popLsb <;> cases crc.spillByteOrder <;> simp only [byteSwap_zero, swib_zero]

/-- The lowest bit of the register is only fed to its own place if all of them are. -/
theorem spillsInOrder_of_one (whole : crc.order = 8 * (n + 1)) (one : crc.spilledWord 1 = 1) : crc.SpillsInOrder := by
  have value := spilledWord_eq whole (Nat.one_lt_two_pow (show crc.order ≠ 0 by omega))
  have top : swib 1 crc.order = 2 ^ (crc.order - 1) := @swib_two_pow 0 crc.order (by omega)
  have back : swib (2 ^ (crc.order - 1)) crc.order = 1 := by
    rw [swib_two_pow (by omega), show crc.order - 1 - (crc.order - 1) = 0 by omega]
    rfl
  have low : byteSwap 1 (n + 1) = 2 ^ (crc.order - 8) := by
    rw [byteSwap_one, whole]
    rfl
  have high : byteSwap (2 ^ (crc.order - 1)) (n + 1) = 2 ^ 7 := by
    rw [whole]
    exact byteSwap_top n
  have lowBack : swib (2 ^ (crc.order - 8)) crc.order = 2 ^ 7 := by
    rw [swib_two_pow (by omega), show crc.order - 1 - (crc.order - 8) = 7 by omega]
  have highBack : swib (2 ^ 7) crc.order = 2 ^ (crc.order - 8) := by
    rw [swib_two_pow (by omega), show crc.order - 1 - 7 = crc.order - 8 by omega]
  have large : 2 ^ (crc.order - 1) ≠ 1 := (Nat.one_lt_two_pow (show crc.order - 1 ≠ 0 by omega)).ne'
  have single : 2 ^ (crc.order - 8) = 1 → crc.order = 8 := by
    intro same
    refine Decidable.byContradiction fun more => ?_
    exact (Nat.one_lt_two_pow (show crc.order - 8 ≠ 0 by omega)).ne' same
  dsimp only at value
  rw [one, top] at value
  rw [SpillsInOrder]
  cases pops : crc.popLsb <;> cases spills : crc.spillByteOrder <;> cases aligned : (crc.spillBitswap == crc.order0AtLsb) <;>
    simp only [pops, spills, aligned, if_true, Bool.false_eq_true, if_false, low, high, back, lowBack, highBack, top] at value
  all_goals simp
  all_goals grind

/-! ### Closing the register -/

theorem swib_mask (width : Nat) : swib (2 ^ width - 1) width = 2 ^ width - 1 := by
  apply Nat.eq_of_testBit_eq
  intro i
  rw [testBit_swib, Nat.testBit_two_pow_sub_one, Nat.testBit_two_pow_sub_one, ← Bool.decide_and]
  exact decide_eq_decide.mpr (by omega)

theorem reflected_stateComp : crc.reflected crc.stateComp = crc.stateComp := by
  rw [reflected, stateComp, mask_eq]
  cases crc.complementState with
  | true => simp [swib_mask]
  | false => simp [swib_zero]

/-- The register after a message, as it is kept outside. -/
def outside (crc : Crc) (message : Bytes) : Nat :=
  crc.stateComp ^^^ (crc.bitsOf message).foldl (feed crc.reflectedPoly) (crc.reflected (crc.stateComp ^^^ crc.init))

def closed (crc : Crc) (register : Nat) : Nat :=
  crc.stateComp ^^^ (crc.bitsOf (crc.asBytes (crc.reflected register))).foldl (feed crc.reflectedPoly) (crc.stateComp ^^^ register)

theorem outside_lt (message : Bytes) : crc.outside message < 2 ^ crc.order :=
  complemented_lt (feed_reflected_lt (complemented_lt crc.init_lt) _)

theorem update_outside (proceeds : crc.Proceeds) (message : Bytes) :
    crc.update crc.init message = .ok (crc.reflected (crc.outside message)) := by
  rw [update_ok proceeds crc.init_lt, outside, reflected_xor, reflected_stateComp]
  rfl

theorem bitsOf_append (front back : Bytes) : crc.bitsOf (front ++ back) = crc.bitsOf front ++ crc.bitsOf back := by
  rw [bitsOf, bitsOf, bitsOf]
  split
  · rw [not_, List.map_append]
    exact List.flatMap_append
  · exact List.flatMap_append

theorem outside_append (message : Bytes) :
    crc.outside (message ++ crc.asBytes (crc.reflected (crc.outside message))) = crc.closed (crc.outside message) := by
  have back : crc.stateComp ^^^ crc.outside message =
      (crc.bitsOf message).foldl (feed crc.reflectedPoly) (crc.reflected (crc.stateComp ^^^ crc.init)) := comp_comp _
  rw [closed, back, outside, bitsOf_append, List.foldl_append]

theorem checkState_eq (proceeds : crc.Proceeds) :
    crc.checkState = .ok (crc.reflected (crc.closed (crc.reflected crc.init))) := by
  rw [checkState, update_outside proceeds, outside, closed, reflected_reflected crc.init_lt,
    reflected_xor crc.stateComp crc.init, reflected_stateComp]

/-- Every message with its checksum appended is valid, and leaves the state that is checked. -/
def AlwaysValid (crc : Crc) : Prop :=
  ∀ message, ∃ whole, crc.appendTo message = .ok whole ∧ crc.isValid whole = .ok true ∧
    crc.update crc.init whole = crc.checkState

theorem closed_lt {register : Nat} (small : register < 2 ^ crc.order) : crc.closed register < 2 ^ crc.order :=
  complemented_lt (foldl_feed_lt reflectedPoly_lt order_pos (complemented_lt small) _)

theorem alwaysValid_closed (proceeds : crc.Proceeds) :
    crc.AlwaysValid ↔ ∀ message, crc.closed (crc.outside message) = crc.closed (crc.reflected crc.init) := by
  have appended : ∀ message, crc.appendTo message = .ok (message ++ crc.asBytes (crc.reflected (crc.outside message))) := by
    intro message
    rw [appendTo, calcBytes, update_outside proceeds]
    rfl
  have states : ∀ message, crc.update crc.init (message ++ crc.asBytes (crc.reflected (crc.outside message))) =
      .ok (crc.reflected (crc.closed (crc.outside message))) := by
    intro message
    rw [update_outside proceeds, outside_append]
  constructor
  · intro valid message
    obtain ⟨whole, made, -, same⟩ := valid message
    obtain rfl := Except.ok.inj ((appended message).symm.trans made)
    rw [states, checkState_eq proceeds] at same
    have twice := congrArg crc.reflected (Except.ok.inj same)
    rwa [reflected_reflected (closed_lt (outside_lt message)), reflected_reflected (closed_lt (reflected_lt crc.init_lt))] at twice
  · intro same message
    have state : crc.update crc.init (message ++ crc.asBytes (crc.reflected (crc.outside message))) = crc.checkState := by
      rw [states, checkState_eq proceeds, same]
    refine ⟨_, appended message, ?_, state⟩
    rw [isValid, state, checkState_eq proceeds]
    exact congrArg Except.ok (beq_self_eq_true _)

/-! ### Reaching registers -/

theorem toNat_not (bits : List Bool) : BitString.toNat (bits.map not) = BitString.toNat bits ^^^ (2 ^ bits.length - 1) := by
  apply Nat.eq_of_testBit_eq
  intro i
  rw [Nat.testBit_xor, testBit_toNat, testBit_toNat, Nat.testBit_two_pow_sub_one, List.getElem?_map]
  by_cases inside : i < bits.length
  · rw [List.getElem?_eq_getElem inside, decide_eq_true inside]
    simp
  · rw [List.getElem?_eq_none (by omega), decide_eq_false inside]
    rfl

theorem bitsIterate_complement (byte : UInt8) (popLsb : Bool) :
    bitsIterate (byte ^^^ 0xFF).toNat 8 popLsb = (bitsIterate byte.toNat 8 popLsb).map not := by
  have low : lowBits (byte ^^^ 0xFF).toNat 8 = (lowBits byte.toNat 8).map not := by
    apply List.ext_getElem?
    intro i
    rw [List.getElem?_map, getElem?_lowBits, getElem?_lowBits, UInt8.toNat_xor, Nat.testBit_xor]
    by_cases inside : i < 8
    · have ones : (0xFF : UInt8).toNat.testBit i = decide (i < 8) := Nat.testBit_two_pow_sub_one 8 i
      rw [if_pos inside, if_pos inside, ones, decide_eq_true inside]
      simp
    · rw [if_neg inside, if_neg inside]
      rfl
  rw [bitsIterate, bitsIterate]
  split
  · exact low
  · rw [low, List.map_reverse]

theorem bytesIterate_complement (data : Bytes) (popLsb : Bool) :
    bytesIterate (not_ data) popLsb = (bytesIterate data popLsb).map not := by
  rw [bytesIterate, bytesIterate, not_, List.flatMap_map, List.map_flatMap]
  congr 1
  funext byte
  exact bitsIterate_complement byte popLsb

/-- The ones that are added to the bits of a byte string. -/
def inputMask (crc : Crc) (n : Nat) : Nat := if crc.complementInput then 2 ^ (8 * n) - 1 else 0

theorem toNat_bitsOf (data : Bytes) :
    BitString.toNat (crc.bitsOf data) = BitString.toNat (bytesIterate data crc.popLsb) ^^^ crc.inputMask data.length := by
  rw [bitsOf, inputMask]
  cases crc.complementInput with
  | true => rw [if_pos rfl, if_pos rfl, bytesIterate_complement, toNat_not, length_bytesIterate]
  | false => rw [if_neg (by decide), if_neg (by decide), Nat.xor_zero]

theorem length_bitsOf (data : Bytes) : (crc.bitsOf data).length = 8 * data.length := by
  rw [bitsOf, length_bytesIterate]
  split
  · rw [not_, List.length_map]
  · rfl

theorem not_not_ (data : Bytes) : not_ (not_ data) = data := by
  rw [not_, not_, List.map_map]
  refine (List.map_congr_left fun byte _ => ?_).trans (List.map_id data)
  change (byte ^^^ 0xFF) ^^^ 0xFF = byte
  rw [UInt8.xor_assoc, UInt8.xor_self, UInt8.xor_zero]

theorem exists_bytes {word n : Nat} (small : word < 2 ^ (8 * n)) :
    ∃ data : Bytes, data.length = n ∧ BitString.toNat (crc.bitsOf data) = word := by
  obtain ⟨data, length, plain⟩ : ∃ data : Bytes, data.length = n ∧ BitString.toNat (bytesIterate data crc.popLsb) = word := by
    cases crc.popLsb with
    | true =>
      refine ⟨split word n, length_split word n, ?_⟩
      rw [toNat_true, combine_split, pow_bytes, Nat.mod_eq_of_lt small]
    | false =>
      refine ⟨(split (swib word (8 * n)) n).reverse, by rw [List.length_reverse, length_split], ?_⟩
      rw [toNat_false, List.reverse_reverse, combine_split, pow_bytes, Nat.mod_eq_of_lt (swib_lt _ _), List.length_reverse,
        length_split, swib_swib small]
  cases complement : crc.complementInput with
  | true =>
    refine ⟨not_ data, by rw [not_, List.length_map, length], ?_⟩
    rw [bitsOf, if_pos complement, not_not_, plain]
  | false =>
    refine ⟨data, length, ?_⟩
    rw [bitsOf, if_neg (by rw [complement]; decide), plain]

theorem exists_outside (exact : crc.Exact) (whole : crc.order = 8 * (n + 1)) {register : Nat} (small : register < 2 ^ crc.order) :
    ∃ message, crc.outside message = register := by
  have odd := reflectedPoly_odd (.inr exact)
  have monic := reflectedPoly_monic exact
  have start := @reflected_lt crc _ (complemented_lt crc.init_lt)
  obtain ⟨word, inside, reached⟩ :=
    iterate_shift_surjective odd monic reflectedPoly_lt order_pos (complemented_lt small) crc.order
  obtain ⟨message, length, fed⟩ := @exists_bytes crc (crc.reflected (crc.stateComp ^^^ crc.init) ^^^ word) (n + 1)
    (by rw [← whole]; exact Nat.xor_lt_two_pow start inside)
  refine ⟨message, ?_⟩
  rw [outside, foldl_feed, fed, length_bitsOf, length, ← whole, ← Nat.xor_assoc, Nat.xor_self, Nat.zero_xor, reached, comp_comp]

theorem length_asBytes (whole : crc.order = 8 * (n + 1)) (state : Nat) : (crc.asBytes state).length = n + 1 := by
  rw [asBytes, byteWidth_of whole]
  cases crc.spillByteOrder with
  | little => exact length_split _ _
  | big => rw [toBytes, List.length_reverse, length_split]

theorem closed_eq (whole : crc.order = 8 * (n + 1)) (register : Nat) : crc.closed register = crc.stateComp ^^^
    (shift crc.reflectedPoly)^[crc.order]
      ((crc.stateComp ^^^ register) ^^^ (crc.spilledWord register ^^^ crc.inputMask (n + 1))) := by
  rw [closed, foldl_feed, toNat_bitsOf, length_bitsOf, length_asBytes whole, ← whole]
  rfl

theorem spilledWord_lt (whole : crc.order = 8 * (n + 1)) (register : Nat) : crc.spilledWord register < 2 ^ crc.order := by
  have bound := BitString.toNat_lt (bytesIterate (crc.asBytes (crc.reflected register)) crc.popLsb)
  rwa [length_bytesIterate, length_asBytes whole, ← whole] at bound

theorem inputMask_lt (whole : crc.order = 8 * (n + 1)) : crc.inputMask (n + 1) < 2 ^ crc.order := by
  have positive := Nat.two_pow_pos crc.order
  rw [inputMask, ← whole]
  split <;> omega

theorem xor_cancel_left {mask left right : Nat} (same : mask ^^^ left = mask ^^^ right) : left = right := by
  have twice := congrArg (mask ^^^ ·) same
  simpa only [← Nat.xor_assoc, Nat.xor_self, Nat.zero_xor] using twice

theorem xor_cancel_both {comp mask left right : Nat} (same : comp ^^^ mask = (comp ^^^ left) ^^^ (right ^^^ mask)) :
    left = right := by
  apply Nat.eq_of_testBit_eq
  intro i
  have bit := congrArg (·.testBit i) same
  simp only [Nat.testBit_xor] at bit
  revert bit
  cases comp.testBit i <;> cases mask.testBit i <;> cases left.testBit i <;> cases right.testBit i <;> simp

/-- An algorithm of whole bytes verifies every appended checksum just where it spills in order. -/
theorem alwaysValid_iff (exact : crc.Exact) (whole : crc.order = 8 * (n + 1)) : crc.AlwaysValid ↔ crc.SpillsInOrder := by
  rw [alwaysValid_closed (.inr exact)]
  constructor
  · intro same
    have one_lt : 1 < 2 ^ crc.order := Nat.one_lt_two_pow (by omega)
    obtain ⟨zero, atZero⟩ := exists_outside exact whole (Nat.two_pow_pos crc.order)
    obtain ⟨one, atOne⟩ := exists_outside exact whole one_lt
    have meet := (same zero).trans (same one).symm
    rw [atZero, atOne, closed_eq whole, closed_eq whole] at meet
    have inside : ∀ {register}, register < 2 ^ crc.order →
        (crc.stateComp ^^^ register) ^^^ (crc.spilledWord register ^^^ crc.inputMask (n + 1)) < 2 ^ crc.order :=
      fun {register} small => Nat.xor_lt_two_pow (complemented_lt small)
        (Nat.xor_lt_two_pow (spilledWord_lt whole register) (inputMask_lt whole))
    have registers := iterate_shift_injective (reflectedPoly_odd (.inr exact)) (reflectedPoly_monic exact) reflectedPoly_lt
      order_pos (inside (Nat.two_pow_pos crc.order)) (inside one_lt) crc.order (xor_cancel_left meet)
    rw [spilledWord_zero whole, Nat.xor_zero, Nat.zero_xor] at registers
    exact spillsInOrder_of_one whole (xor_cancel_both registers).symm
  · intro ordered message
    have closes : ∀ {register}, register < 2 ^ crc.order → crc.closed register =
        crc.stateComp ^^^ (shift crc.reflectedPoly)^[crc.order] (crc.stateComp ^^^ crc.inputMask (n + 1)) := by
      intro register small
      rw [closed_eq whole, spilledWord_self whole ordered small, ← Nat.xor_assoc, Nat.xor_assoc crc.stateComp register register,
        Nat.xor_self, Nat.xor_zero]
    rw [closes (outside_lt message), closes (reflected_lt crc.init_lt)]

end Crc

end Acrobe.Checksum
