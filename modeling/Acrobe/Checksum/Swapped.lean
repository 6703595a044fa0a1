import Acrobe.Checksum.Inverse

/-!
# Swapped layouts

`order_swapped` keeps what an algorithm calculates, where the order of the swapped polynomial is the same.
-/

namespace Acrobe.Checksum
open LittleEndian ReflectedCrc
open Acrobe.Crc (bitsIterate bytesIterate swib)

namespace Crc
variable {crc : Crc}

/-- The swapped algorithm calculates the same, and is swapped back to an equal one. -/
def SwapsAlike (log2 : Log2) (crc : Crc) : Prop :=
  ∃ swapped, crc.orderSwapped log2 = .ok swapped ∧
    (∀ data, swapped.calcInt data = crc.calcInt data ∧ swapped.calcBytes data = crc.calcBytes data) ∧
    ∃ again, swapped.orderSwapped log2 = .ok again ∧ again.toArguments = crc.toArguments

theorem create_isOk {log2 : Log2} {arguments : Arguments} (odd : arguments.poly % 2 = 1)
    (enough : minimalOrder arguments.order0AtLsb ≤ log2.value arguments.poly) :
    ∃ crc, create log2 arguments = .ok crc := by
  rw [create, dif_pos odd]
  dsimp only
  rw [dif_pos enough]
  exact ⟨_, rfl⟩

theorem swapped_odd : swib crc.poly (crc.order + 1) % 2 = 1 ↔ crc.Exact := by
  rw [mod_two_eq_one, testBit_swib, show crc.order + 1 - 1 - 0 = crc.order by omega, Exact]
  simp

theorem swapped_top : (swib crc.poly (crc.order + 1)).testBit crc.order = true := by
  rw [testBit_swib, show crc.order + 1 - 1 - crc.order = 0 by omega, (mod_two_eq_one crc.poly).mp crc.poly_odd]
  simp

/-! ### Simulation -/

/-- The register of the other layout. -/
structure Mirrors (swapped crc : Crc) : Prop where
  order : swapped.order = crc.order
  poly : swapped.poly = swib crc.poly (crc.order + 1)
  init : swapped.init = swib crc.init crc.order
  layout : swapped.order0AtLsb = !crc.order0AtLsb
  popLsb : swapped.popLsb = crc.popLsb
  complementInput : swapped.complementInput = crc.complementInput
  complementState : swapped.complementState = crc.complementState
  spillBitswap : swapped.spillBitswap = !crc.spillBitswap
  spillByteOrder : swapped.spillByteOrder = crc.spillByteOrder

variable {swapped : Crc}

theorem Mirrors.reflectedPoly_eq (mirrors : Mirrors swapped crc) : swapped.reflectedPoly = crc.reflectedPoly := by
  rw [reflectedPoly, reflectedPoly, mirrors.layout, mirrors.poly, mirrors.order]
  cases crc.order0AtLsb with
  | true => rfl
  | false => exact swib_swib crc.poly_lt

theorem Mirrors.reflected_eq (mirrors : Mirrors swapped crc) {state : Nat} (small : state < 2 ^ crc.order) :
    swapped.reflected (swib state crc.order) = crc.reflected state := by
  rw [reflected, reflected, mirrors.layout, mirrors.order]
  cases crc.order0AtLsb with
  | true => rfl
  | false => exact swib_swib small

theorem Mirrors.proceeds (mirrors : Mirrors swapped crc) : swapped.Proceeds := by
  refine .inr ?_
  rw [Exact, mirrors.poly, mirrors.order]
  exact swapped_top

theorem Mirrors.reflected_back (mirrors : Mirrors swapped crc) {state : Nat} (small : state < 2 ^ crc.order) :
    swapped.reflected state = swib (crc.reflected state) crc.order := by
  have same := mirrors.reflected_eq (swib_lt state crc.order)
  rw [swib_swib small] at same
  rw [same, reflected, reflected]
  cases crc.order0AtLsb with
  | true => rfl
  | false => rfl

theorem Mirrors.fed_eq (mirrors : Mirrors swapped crc) {state : Nat} (small : state < 2 ^ crc.order) (bits : List Bool) :
    swapped.fed (swib state crc.order) bits = swib (crc.fed state bits) crc.order := by
  rw [fed, fed, mirrors.reflectedPoly_eq, mirrors.reflected_eq small, mirrors.reflected_back (feed_reflected_lt small bits)]

theorem Mirrors.stateComp_eq (mirrors : Mirrors swapped crc) : swapped.stateComp = swib crc.stateComp crc.order := by
  rw [stateComp, stateComp, mirrors.complementState, mask_eq, mask_eq, mirrors.order]
  apply Nat.eq_of_testBit_eq
  intro i
  rw [testBit_swib]
  split
  · rw [Nat.testBit_two_pow_sub_one, Nat.testBit_two_pow_sub_one, ← Bool.decide_and]
    exact decide_eq_decide.mpr (by omega)
  · rw [Nat.zero_testBit, Nat.zero_testBit, Bool.and_false]

theorem Mirrors.update_eq (mirrors : Mirrors swapped crc) (proceeds : crc.Proceeds) (data : Bytes) :
    swapped.update swapped.init data = (crc.update crc.init data).map (swib · crc.order) := by
  have bits : swapped.bitsOf data = crc.bitsOf data := by rw [bitsOf, bitsOf, mirrors.complementInput, mirrors.popLsb]
  rw [update_ok mirrors.proceeds swapped.init_lt, update_ok proceeds crc.init_lt, bits, mirrors.init, mirrors.stateComp_eq,
    ← swib_xor, mirrors.fed_eq (complemented_lt crc.init_lt), ← swib_xor]
  rfl

theorem Mirrors.asInt_eq (mirrors : Mirrors swapped crc) {state : Nat} (small : state < 2 ^ crc.order) :
    swapped.asInt (swib state crc.order) = crc.asInt state := by
  rw [asInt, asInt, mirrors.spillBitswap, mirrors.order]
  cases crc.spillBitswap with
  | true => rfl
  | false => exact swib_swib small

theorem Mirrors.asBytes_eq (mirrors : Mirrors swapped crc) {state : Nat} (small : state < 2 ^ crc.order) :
    swapped.asBytes (swib state crc.order) = crc.asBytes state := by
  rw [asBytes, asBytes, mirrors.asInt_eq small, byteWidth, byteWidth, mirrors.order, mirrors.spillByteOrder]

theorem Mirrors.calculates (mirrors : Mirrors swapped crc) (proceeds : crc.Proceeds) (data : Bytes) :
    swapped.calcInt data = crc.calcInt data ∧ swapped.calcBytes data = crc.calcBytes data := by
  have small := complemented_lt (fed_lt (complemented_lt crc.init_lt) (crc.bitsOf data))
  rw [calcInt, calcInt, calcBytes, calcBytes, mirrors.update_eq proceeds, update_ok proceeds crc.init_lt]
  exact ⟨congrArg Except.ok (mirrors.asInt_eq small), congrArg Except.ok (mirrors.asBytes_eq small)⟩

theorem orderSwapped_mirrors {log2 : Log2} (swaps : crc.orderSwapped log2 = .ok swapped)
    (order : log2.value (swib crc.poly (crc.order + 1)) = crc.order) : Mirrors swapped crc := by
  obtain ⟨width, same⟩ := create_ok swaps
  dsimp only at width same
  rw [order, Nat.mod_eq_of_lt (swib_lt crc.init crc.order)] at same
  exact {
    order := width.trans order
    poly := by rw [same]
    init := by rw [same]
    layout := by rw [same]
    popLsb := by rw [same]
    complementInput := by rw [same]
    complementState := by rw [same]
    spillBitswap := by rw [same]
    spillByteOrder := by rw [same] }

/-! ### Swapping back -/

theorem swapsAlike_of {log2 : Log2} (exact : crc.Exact) (enough : minimalOrder (!crc.order0AtLsb) ≤ crc.order)
    (order : log2.value (swib crc.poly (crc.order + 1)) = crc.order) (own : log2.value crc.poly = crc.order) :
    crc.SwapsAlike log2 := by
  obtain ⟨swapped, swaps⟩ : ∃ swapped, crc.orderSwapped log2 = .ok swapped :=
    create_isOk (swapped_odd.mpr exact) (by dsimp only; rw [order]; exact enough)
  have mirrors := orderSwapped_mirrors swaps order
  have poly : swib swapped.poly (swapped.order + 1) = crc.poly := by rw [mirrors.poly, mirrors.order, swib_swib crc.poly_lt]
  obtain ⟨again, back⟩ : ∃ again, swapped.orderSwapped log2 = .ok again := by
    refine create_isOk ?_ ?_
    · dsimp only
      rw [poly]
      exact crc.poly_odd
    · dsimp only
      rw [poly, own, mirrors.layout, Bool.not_not]
      exact crc.order_ge
  have twice := orderSwapped_mirrors back (by rw [poly, own, mirrors.order])
  refine ⟨swapped, swaps, mirrors.calculates (.inr exact), again, back, ?_⟩
  have init : again.init = crc.init := by rw [twice.init, mirrors.init, mirrors.order, swib_swib crc.init_lt]
  exact Arguments.ext (twice.poly.trans poly) init (twice.popLsb.trans mirrors.popLsb)
    (by rw [twice.layout, mirrors.layout, Bool.not_not]) (twice.complementInput.trans mirrors.complementInput)
    (twice.complementState.trans mirrors.complementState) (by rw [twice.spillBitswap, mirrors.spillBitswap, Bool.not_not])
    (twice.spillByteOrder.trans mirrors.spillByteOrder)

theorem of_swapsAlike {log2 : Log2} (alike : crc.SwapsAlike log2) :
    crc.Exact ∧ minimalOrder (!crc.order0AtLsb) ≤ crc.order ∧ log2.value (swib crc.poly (crc.order + 1)) = crc.order := by
  obtain ⟨swapped, swaps, -, again, back, -⟩ := alike
  obtain ⟨width, same⟩ := create_ok swaps
  dsimp only at width same
  have poly : swapped.poly = swib crc.poly (crc.order + 1) := by rw [same]
  have layout : swapped.order0AtLsb = !crc.order0AtLsb := by rw [same]
  have exact : crc.Exact := by
    rw [← swapped_odd, ← poly]
    exact swapped.poly_odd
  have poly' : again.poly = swib swapped.poly (swapped.order + 1) := by rw [(create_ok back).2]
  have exact' : swapped.Exact := by
    rw [← swapped_odd, ← poly']
    exact again.poly_odd
  have order : swapped.order = crc.order := by
    apply Nat.le_antisymm
    · refine Nat.le_of_not_lt fun beyond => ?_
      rw [Exact, poly, Nat.testBit_lt_two_pow (Nat.lt_of_lt_of_le (swib_lt _ _) (Nat.pow_le_pow_right (by decide) beyond))] at exact'
      cases exact'
    · have top := Nat.ge_two_pow_of_testBit (@swapped_top crc)
      have nonzero : swib crc.poly (crc.order + 1) ≠ 0 := by
        have positive := Nat.two_pow_pos crc.order
        omega
      rw [width]
      exact Nat.le_trans ((Nat.le_log2 nonzero).mpr top) (log2.log2_le _)
  refine ⟨exact, ?_, width.symm.trans order⟩
  rw [← layout, ← order]
  exact swapped.order_ge

/-- The layouts are alike just where both logarithms are not rounded up, and the order is enough for the other layout. -/
theorem swapsAlike_iff {log2 : Log2} {arguments : Arguments} (created : create log2 arguments = .ok crc) :
    crc.SwapsAlike log2 ↔ log2.value arguments.poly = Nat.log2 arguments.poly ∧
      minimalOrder (!arguments.order0AtLsb) ≤ log2.value arguments.poly ∧
      log2.value (swib arguments.poly (log2.value arguments.poly + 1)) = log2.value arguments.poly := by
  obtain ⟨order, same⟩ := create_ok created
  have poly : crc.poly = arguments.poly := by rw [same]
  have layout : crc.order0AtLsb = arguments.order0AtLsb := by rw [same]
  rw [← create_exact created, ← order, ← poly, ← layout]
  constructor
  · exact of_swapsAlike
  · rintro ⟨exact, enough, swaps⟩
    exact swapsAlike_of exact enough swaps (by rw [poly, order])

theorem swapsAlike_iff_ccitt : ∃ crc, create doubleLog2 reflectedCcitt = .ok crc ∧
    (crc.SwapsAlike doubleLog2 ↔ doubleLog2.value reflectedCcitt.poly = Nat.log2 reflectedCcitt.poly ∧
      minimalOrder (!reflectedCcitt.order0AtLsb) ≤ doubleLog2.value reflectedCcitt.poly ∧
      doubleLog2.value (swib reflectedCcitt.poly (doubleLog2.value reflectedCcitt.poly + 1)) =
        doubleLog2.value reflectedCcitt.poly) :=
  ⟨_, rfl, swapsAlike_iff rfl⟩

def parity : Arguments := ⟨3, 0, true, true, false, false, false, .little⟩

theorem parity_not_swapped :
    ¬∀ (log2 : Log2) (arguments : Arguments) (crc : Crc), create log2 arguments = .ok crc → crc.SwapsAlike log2 := by
  intro all
  obtain ⟨swapped, swaps, -⟩ := all doubleLog2 parity ⟨parity, 1, rfl, by decide, by decide, by decide⟩ rfl
  cases swaps

end Crc

end Acrobe.Checksum
