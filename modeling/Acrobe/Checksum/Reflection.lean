import Acrobe.Checksum.Crc

/-!
# Reflection

With its bits in the other order, a register that has the highest exponent at its highest bit is one that has it at its
lowest. The operations of both layouts are those of the reflected register, as far as `_forward` does not raise: where
exponent 0 is at the lowest bit, the polynomial must have the bit that the order names.
-/

namespace Acrobe.Checksum
open LittleEndian ReflectedCrc
open Acrobe.Crc (bitsIterate bytesIterate swib)

/-! ### Bits in the other order -/

theorem getElem?_lowBits (word n i : Nat) : (lowBits word n)[i]? = if i < n then some (word.testBit i) else none := by
  induction n generalizing word i with
  | zero => rfl
  | succ n ih =>
    rw [lowBits]
    cases i with
    | zero =>
      rw [List.getElem?_cons_zero, if_pos (Nat.succ_pos n), Nat.testBit_zero]
      simp [beq_eq_decide]
    | succ i =>
      rw [List.getElem?_cons_succ, ih, Nat.testBit_succ]
      simp

theorem length_lowBits (word n : Nat) : (lowBits word n).length = n := by
  induction n generalizing word with
  | zero => rfl
  | succ n ih => rw [lowBits, List.length_cons, ih]

theorem testBit_toNat (bits : BitString) (i : Nat) : (BitString.toNat bits).testBit i = bits[i]?.getD false := by
  induction bits generalizing i with
  | nil => exact Nat.zero_testBit i
  | cons bit bits ih =>
    rw [BitString.toNat]
    cases i with
    | zero =>
      rw [Nat.testBit_zero]
      cases bit <;> simp
    | succ i =>
      rw [Nat.testBit_succ, show (bit.toNat + 2 * BitString.toNat bits) / 2 = BitString.toNat bits by cases bit <;> simp; omega, ih]
      simp

theorem testBit_swib (word width i : Nat) : (swib word width).testBit i = (decide (i < width) && word.testBit (width - 1 - i)) := by
  rw [swib, testBit_toNat]
  by_cases inside : i < width
  · rw [List.getElem?_reverse (by rw [length_lowBits]; exact inside), length_lowBits, getElem?_lowBits, if_pos (by omega)]
    simp [inside]
  · rw [List.getElem?_eq_none (by rw [List.length_reverse, length_lowBits]; omega)]
    simp [inside]

theorem swib_lt (word width : Nat) : swib word width < 2 ^ width := by
  have bound := BitString.toNat_lt (lowBits word width).reverse
  rwa [List.length_reverse, length_lowBits] at bound

theorem swib_swib_mod (word width : Nat) : swib (swib word width) width = word % 2 ^ width := by
  apply Nat.eq_of_testBit_eq
  intro i
  rw [testBit_swib, testBit_swib, Nat.testBit_mod_two_pow]
  by_cases inside : i < width
  · rw [show width - 1 - (width - 1 - i) = i by omega, decide_eq_true (show width - 1 - i < width by omega), Bool.true_and]
  · rw [decide_eq_false inside, Bool.false_and, Bool.false_and]

theorem swib_swib {word width : Nat} (small : word < 2 ^ width) : swib (swib word width) width = word := by
  rw [swib_swib_mod, Nat.mod_eq_of_lt small]

theorem swib_xor (left right width : Nat) : swib (left ^^^ right) width = swib left width ^^^ swib right width := by
  apply Nat.eq_of_testBit_eq
  intro i
  rw [Nat.testBit_xor, testBit_swib, testBit_swib, testBit_swib, Nat.testBit_xor, Bool.and_xor_distrib_left]

theorem lowBits_swib (word width : Nat) : lowBits (swib word width) width = (lowBits word width).reverse := by
  apply List.ext_getElem?
  intro i
  rw [getElem?_lowBits, testBit_swib]
  by_cases inside : i < width
  · rw [List.getElem?_reverse (by rw [length_lowBits]; exact inside), length_lowBits, getElem?_lowBits, if_pos inside,
      if_pos (by omega), decide_eq_true inside, Bool.true_and]
  · rw [if_neg inside, List.getElem?_eq_none (by rw [List.length_reverse, length_lowBits]; omega)]

theorem testBit_bit (bit : Bool) (i : Nat) : bit.toNat.testBit i = (decide (i = 0) && bit) := by
  cases i with
  | zero => cases bit <;> rfl
  | succ i =>
    rw [Nat.testBit_succ, show bit.toNat / 2 = 0 by cases bit <;> rfl, Nat.zero_testBit]
    rfl

theorem and_wbit_ne_zero (word order : Nat) : word &&& 1 <<< order ≠ 0 ↔ word.testBit order = true := by
  rw [Nat.one_shiftLeft, Nat.and_two_pow]
  cases word.testBit order <;> simp

theorem mod_two_eq_one (word : Nat) : word % 2 = 1 ↔ word.testBit 0 = true := by
  rw [Nat.testBit_zero, decide_eq_true_eq]

/-! ### Registers -/

namespace Crc
variable (crc : Crc)

/-- The polynomial has the bit that the order names. -/
def Exact : Prop := crc.poly.testBit crc.order = true

instance : Decidable crc.Exact := inferInstanceAs (Decidable (_ = true))

/-- `_forward` does not raise. -/
def Proceeds : Prop := crc.order0AtLsb = false ∨ crc.Exact

def reflected (state : Nat) : Nat := if crc.order0AtLsb then swib state crc.order else state

def reflectedPoly : Nat := if crc.order0AtLsb then swib crc.poly (crc.order + 1) else crc.poly

variable {crc : Crc}

theorem order_pos : 0 < crc.order := by
  have enough := crc.order_ge
  rw [minimalOrder] at enough
  split at enough <;> omega

theorem reflected_lt {state : Nat} (small : state < 2 ^ crc.order) : crc.reflected state < 2 ^ crc.order := by
  rw [reflected]
  split
  · exact swib_lt state crc.order
  · exact small

theorem reflected_reflected {state : Nat} (small : state < 2 ^ crc.order) : crc.reflected (crc.reflected state) = state := by
  rw [reflected, reflected]
  split
  · exact swib_swib small
  · rfl

theorem reflected_xor (left right : Nat) : crc.reflected (left ^^^ right) = crc.reflected left ^^^ crc.reflected right := by
  rw [reflected, reflected, reflected]
  split
  · exact swib_xor left right crc.order
  · rfl

theorem reflectedPoly_lt : crc.reflectedPoly < 2 ^ (crc.order + 1) := by
  rw [reflectedPoly]
  split
  · exact swib_lt crc.poly (crc.order + 1)
  · exact crc.poly_lt

theorem reflectedPoly_odd (proceeds : crc.Proceeds) : crc.reflectedPoly % 2 = 1 := by
  rw [reflectedPoly]
  split
  · rename_i layout
    rcases proceeds with other | exact
    · rw [layout] at other
      cases other
    · rw [mod_two_eq_one, testBit_swib, show crc.order + 1 - 1 - 0 = crc.order by omega, exact]
      simp
  · exact crc.poly_odd

theorem reflectedPoly_monic (exact : crc.Exact) : crc.reflectedPoly.testBit crc.order = true := by
  rw [reflectedPoly]
  split
  · rw [testBit_swib, show crc.order + 1 - 1 - crc.order = 0 by omega, (mod_two_eq_one crc.poly).mp crc.poly_odd]
    simp
  · exact exact

theorem mask_eq : crc.mask = 2 ^ crc.order - 1 := by rw [mask, wbit, Nat.one_shiftLeft]

theorem stateComp_lt : crc.stateComp < 2 ^ crc.order := by
  have positive := Nat.two_pow_pos crc.order
  rw [stateComp, mask_eq]
  split <;> omega

theorem complemented_lt {state : Nat} (small : state < 2 ^ crc.order) : crc.stateComp ^^^ state < 2 ^ crc.order :=
  Nat.xor_lt_two_pow stateComp_lt small

/-- The register after a bit has been moved in, before the polynomial is added. -/
def moved (crc : Crc) (state : Nat) (bit : Bool) : Nat := (state <<< 1) ^^^ (bit.toNat <<< crc.order)

theorem moved_low (state : Nat) (bit : Bool) {i : Nat} (low : i < crc.order) :
    (crc.moved state bit).testBit i = (decide (1 ≤ i) && state.testBit (i - 1)) := by
  rw [moved, Nat.testBit_xor, Nat.testBit_shiftLeft, Nat.testBit_shiftLeft, decide_eq_false (show ¬i ≥ crc.order by omega)]
  simp

theorem moved_top (state : Nat) (bit : Bool) :
    (crc.moved state bit).testBit crc.order = (state.testBit (crc.order - 1) ^^ bit) := by
  have positive : 0 < crc.order := order_pos
  rw [moved, Nat.testBit_xor, Nat.testBit_shiftLeft, Nat.testBit_shiftLeft, Nat.sub_self, testBit_bit,
    decide_eq_true (show crc.order ≥ 1 by omega), decide_eq_true (Nat.le_refl crc.order)]
  simp

theorem moved_lt {state : Nat} (small : state < 2 ^ crc.order) (bit : Bool) :
    crc.moved state bit < 2 ^ (crc.order + 1) := by
  refine Nat.xor_lt_two_pow ?_ ?_
  · rw [Nat.shiftLeft_eq, Nat.pow_succ]
    omega
  · rw [Nat.shiftLeft_eq, Nat.pow_succ, Nat.mul_comm]
    have positive := Nat.two_pow_pos crc.order
    have low := Bool.toNat_le bit
    exact Nat.mul_lt_mul_of_pos_left (by omega) positive

theorem swib_low (state : Nat) (bit : Bool) (i : Nat) : (swib state crc.order ^^^ bit.toNat).testBit (i + 1) =
    (decide (i + 1 < crc.order) && state.testBit (crc.order - 1 - (i + 1))) := by
  rw [Nat.testBit_xor, testBit_swib, testBit_bit]
  simp

theorem swib_carry (state : Nat) (bit : Bool) :
    (swib state crc.order ^^^ bit.toNat).testBit 0 = (state.testBit (crc.order - 1) ^^ bit) := by
  have positive : 0 < crc.order := order_pos
  rw [Nat.testBit_xor, testBit_swib, testBit_bit, decide_eq_true positive]
  simp

theorem reflectedPoly_bit (layout : crc.order0AtLsb = true) (i : Nat) :
    crc.reflectedPoly.testBit (i + 1) = (decide (i < crc.order) && crc.poly.testBit (crc.order - 1 - i)) := by
  rw [reflectedPoly, if_pos layout, testBit_swib, show crc.order + 1 - 1 - (i + 1) = crc.order - 1 - i by omega]
  simp

theorem lt_of_clear {word : Nat} (bound : word < 2 ^ (crc.order + 1)) (clear : word.testBit crc.order = false) :
    word < 2 ^ crc.order := by
  refine Nat.lt_of_not_le fun large => ?_
  rw [Nat.testBit_of_two_pow_le_and_two_pow_add_one_gt large bound] at clear
  cases clear

theorem swib_moved (state : Nat) (bit : Bool) :
    swib (crc.moved state bit) crc.order = (swib state crc.order ^^^ bit.toNat) >>> 1 := by
  apply Nat.eq_of_testBit_eq
  intro i
  rw [testBit_swib, Nat.testBit_shiftRight, Nat.add_comm 1 i, swib_low]
  by_cases inside : i < crc.order
  · rw [moved_low state bit (by omega), decide_eq_true inside, Bool.true_and,
      show crc.order - 1 - i - 1 = crc.order - 1 - (i + 1) by omega]
    congr 1
    exact decide_eq_decide.mpr (by omega)
  · rw [decide_eq_false inside, decide_eq_false (show ¬i + 1 < crc.order by omega)]
    rfl

theorem swib_poly (layout : crc.order0AtLsb = true) : swib crc.poly crc.order = crc.reflectedPoly >>> 1 := by
  apply Nat.eq_of_testBit_eq
  intro i
  rw [testBit_swib, Nat.testBit_shiftRight, Nat.add_comm 1 i, reflectedPoly_bit layout]

/-- One step where exponent 0 is at the lowest bit, before the assertion. -/
theorem moved_next {state : Nat} (layout : crc.order0AtLsb = true) (exact : crc.Exact) (small : state < 2 ^ crc.order)
    (bit : Bool) :
    let next := if crc.moved state bit &&& crc.wbit ≠ 0 then crc.moved state bit ^^^ crc.poly else crc.moved state bit
    next < 2 ^ crc.order ∧ swib next crc.order = feed crc.reflectedPoly (swib state crc.order) bit := by
  have carry : crc.moved state bit &&& crc.wbit ≠ 0 ↔ (swib state crc.order ^^^ bit.toNat) % 2 = 1 := by
    rw [wbit, and_wbit_ne_zero, mod_two_eq_one, moved_top, swib_carry]
  have top : crc.moved state bit &&& crc.wbit ≠ 0 ↔ (crc.moved state bit).testBit crc.order = true := by
    rw [wbit, and_wbit_ne_zero]
  have bound := moved_lt small bit
  dsimp only
  rw [feed, shift]
  by_cases fed : (swib state crc.order ^^^ bit.toNat) % 2 = 1
  · rw [if_pos (carry.mpr fed), if_pos fed]
    constructor
    · apply lt_of_clear (Nat.xor_lt_two_pow bound crc.poly_lt)
      rw [Nat.testBit_xor, top.mp (carry.mpr fed), exact]
      rfl
    · rw [swib_xor, swib_moved, swib_poly layout, ← Nat.shiftRight_xor_distrib]
  · rw [if_neg (mt carry.mp fed), if_neg fed]
    constructor
    · exact lt_of_clear bound (Bool.eq_false_of_not_eq_true (mt top.mpr (mt carry.mp fed)))
    · exact swib_moved state bit

theorem forward_eq (proceeds : crc.Proceeds) {state : Nat} (small : state < 2 ^ crc.order) (bit : Bool) :
    crc.forward state bit = .ok (crc.reflected (feed crc.reflectedPoly (crc.reflected state) bit)) := by
  cases layout : crc.order0AtLsb with
  | false =>
    have kept : ∀ word, crc.reflected word = word := fun word => by rw [reflected, if_neg (by rw [layout]; decide)]
    have poly : crc.reflectedPoly = crc.poly := by rw [reflectedPoly, if_neg (by rw [layout]; decide)]
    rw [kept, kept, poly, forward, if_neg (by rw [layout]; decide)]
    rfl
  | true =>
    have exact : crc.Exact := by
      rcases proceeds with other | exact
      · rw [layout] at other
        cases other
      · exact exact
    obtain ⟨inside, same⟩ := moved_next layout exact small bit
    rw [forward, if_pos layout, reflected, if_pos layout, reflected, if_pos layout, ← same, swib_swib inside]
    have clear : (if crc.moved state bit &&& crc.wbit ≠ 0 then crc.moved state bit ^^^ crc.poly
        else crc.moved state bit) >>> crc.order = 0 := by
      rw [Nat.shiftRight_eq_div_pow, Nat.div_eq_of_lt inside]
    exact if_neg fun no => no clear

theorem feed_reflected_lt {state : Nat} (small : state < 2 ^ crc.order) (bits : List Bool) :
    bits.foldl (feed crc.reflectedPoly) (crc.reflected state) < 2 ^ crc.order :=
  foldl_feed_lt reflectedPoly_lt order_pos (reflected_lt small) bits

/-- The state after some bits. -/
def fed (crc : Crc) (state : Nat) (bits : List Bool) : Nat :=
  crc.reflected (bits.foldl (feed crc.reflectedPoly) (crc.reflected state))

theorem fed_lt {state : Nat} (small : state < 2 ^ crc.order) (bits : List Bool) : crc.fed state bits < 2 ^ crc.order :=
  reflected_lt (feed_reflected_lt small bits)

theorem reflected_fed {state : Nat} (small : state < 2 ^ crc.order) (bits : List Bool) :
    crc.reflected (crc.fed state bits) = bits.foldl (feed crc.reflectedPoly) (crc.reflected state) :=
  reflected_reflected (feed_reflected_lt small bits)

theorem forwardBits_eq (proceeds : crc.Proceeds) {state : Nat} (small : state < 2 ^ crc.order) (bits : List Bool) :
    crc.forwardBits state bits = .ok (crc.fed state bits) := by
  induction bits generalizing state with
  | nil =>
    rw [fed, List.foldl_nil, reflected_reflected small]
    rfl
  | cons bit bits ih =>
    have inside := fed_lt small [bit]
    have step : crc.forward state bit = .ok (crc.fed state [bit]) := forward_eq proceeds small bit
    rw [forwardBits, List.foldlM_cons, step]
    change crc.forwardBits (crc.fed state [bit]) bits = _
    rw [ih inside, fed, reflected_fed small]
    rfl

/-! ### Backwards -/

theorem swib_half {word : Nat} (even : word.testBit 0 = false) (width : Nat) :
    swib (word >>> 1) width = swib word (width + 1) := by
  apply Nat.eq_of_testBit_eq
  intro i
  rw [testBit_swib, testBit_swib, Nat.testBit_shiftRight]
  rcases Nat.lt_trichotomy i width with below | rfl | above
  · rw [decide_eq_true below, decide_eq_true (show i < width + 1 by omega), show 1 + (width - 1 - i) = width + 1 - 1 - i by omega]
  · rw [show i + 1 - 1 - i = 0 by omega, even]
    simp
  · rw [decide_eq_false (show ¬i < width by omega), decide_eq_false (show ¬i < width + 1 by omega)]
    rfl

theorem swib_succ {word width : Nat} (small : word < 2 ^ width) : swib word (width + 1) = 2 * swib word width := by
  apply Nat.eq_of_testBit_eq
  intro i
  rw [testBit_swib]
  cases i with
  | zero =>
    rw [Nat.testBit_zero, show width + 1 - 1 - 0 = width by omega, Nat.testBit_lt_two_pow small]
    simp
  | succ i =>
    rw [Nat.testBit_succ, Nat.mul_div_cancel_left _ (by decide), testBit_swib, show width + 1 - 1 - (i + 1) = width - 1 - i by omega]
    simp

theorem swib_bit (bit : Bool) (width : Nat) : swib (bit.toNat <<< width) (width + 1) = bit.toNat := by
  apply Nat.eq_of_testBit_eq
  intro i
  rw [testBit_swib, Nat.testBit_shiftLeft, testBit_bit, testBit_bit]
  cases i with
  | zero => simp
  | succ i =>
    by_cases inside : i + 1 < width + 1
    · rw [decide_eq_false (show ¬width + 1 - 1 - (i + 1) ≥ width by omega)]
      simp
    · rw [decide_eq_false inside]
      simp

theorem odd_xor_poly {state : Nat} (odd : state % 2 = 1) : (state ^^^ crc.poly).testBit 0 = false := by
  rw [Nat.testBit_xor, (mod_two_eq_one state).mp odd, (mod_two_eq_one crc.poly).mp crc.poly_odd]
  rfl

def unmoved (crc : Crc) (state : Nat) (bit : Bool) : Nat :=
  (if state % 2 = 1 then state ^^^ crc.poly else state) ^^^ (bit.toNat <<< crc.order)

theorem unmoved_even (state : Nat) (bit : Bool) : (crc.unmoved state bit).testBit 0 = false := by
  have positive : 0 < crc.order := order_pos
  rw [unmoved, Nat.testBit_xor, Nat.testBit_shiftLeft, decide_eq_false (show ¬0 ≥ crc.order by omega)]
  split
  · rename_i odd
    rw [odd_xor_poly odd]
    rfl
  · rename_i even
    rw [Bool.eq_false_of_not_eq_true (mt (mod_two_eq_one state).mpr even)]
    rfl

theorem unmoved_lt {state : Nat} (small : state < 2 ^ crc.order) (bit : Bool) : crc.unmoved state bit < 2 ^ (crc.order + 1) := by
  have wide : state < 2 ^ (crc.order + 1) := Nat.lt_trans small (Nat.pow_lt_pow_right (by decide) (Nat.lt_succ_self crc.order))
  refine Nat.xor_lt_two_pow ?_ ?_
  · split
    · exact Nat.xor_lt_two_pow wide crc.poly_lt
    · exact wide
  · rw [Nat.shiftLeft_eq, Nat.pow_succ, Nat.mul_comm]
    have positive := Nat.two_pow_pos crc.order
    have low := Bool.toNat_le bit
    exact Nat.mul_lt_mul_of_pos_left (by omega) positive

theorem swib_unmoved {state : Nat} (layout : crc.order0AtLsb = true) (small : state < 2 ^ crc.order) (bit : Bool) :
    swib (crc.unmoved state bit >>> 1) crc.order = unfeed crc.reflectedPoly crc.order (swib state crc.order) bit := by
  have positive : 0 < crc.order := order_pos
  have last : (2 * swib state crc.order).testBit crc.order = state.testBit 0 := by
    obtain ⟨below, same⟩ : ∃ below, crc.order = below + 1 := ⟨crc.order - 1, by omega⟩
    rw [same, Nat.testBit_succ, Nat.mul_div_cancel_left _ (by decide), testBit_swib, show below + 1 - 1 - below = 0 by omega]
    simp
  rw [swib_half (unmoved_even state bit), unmoved, swib_xor, swib_bit, unfeed, last]
  congr 1
  by_cases odd : state % 2 = 1
  · rw [if_pos odd, if_pos ((mod_two_eq_one state).mp odd), swib_xor, swib_succ small, reflectedPoly, if_pos layout]
  · rw [if_neg odd, if_neg (mt (mod_two_eq_one state).mpr odd), swib_succ small]

theorem backward_eq {state : Nat} (small : state < 2 ^ crc.order) (bit : Bool) :
    crc.backward state bit = crc.reflected (unfeed crc.reflectedPoly crc.order (crc.reflected state) bit) := by
  cases layout : crc.order0AtLsb with
  | false =>
    have kept : ∀ word, crc.reflected word = word := fun word => by rw [reflected, if_neg (by rw [layout]; decide)]
    have poly : crc.reflectedPoly = crc.poly := by rw [reflectedPoly, if_neg (by rw [layout]; decide)]
    rw [kept, kept, poly, backward, if_neg (by rw [layout]; decide), unfeed, Nat.shiftLeft_eq, Nat.pow_one, Nat.mul_comm]
    dsimp only
    congr 1
    exact if_congr (and_wbit_ne_zero _ _) rfl rfl
  | true =>
    have inside : crc.unmoved state bit >>> 1 < 2 ^ crc.order := by
      have bound := unmoved_lt small bit
      rw [Nat.pow_succ] at bound
      rw [Nat.shiftRight_one]
      omega
    rw [backward, if_pos layout, reflected, if_pos layout, reflected, if_pos layout, ← swib_unmoved layout small, swib_swib inside]
    rfl

end Crc

end Acrobe.Checksum
