import Acrobe.Checksum.Appended

/-!
# Patches that keep the checksum

`data_mod_data_delta_compute` moves the difference that a modification makes to where it is patched, forwards by a
product and backwards bit by bit.
-/

namespace Acrobe.Checksum
open LittleEndian ReflectedCrc
open Acrobe.Crc (bitsIterate bytesIterate swib)

inductive PatchError where
  | raised (error : PyErr)
  | overflowError (message : String)

namespace Crc

/-- `value.to_bytes(width, byteorder)` -/
def toBytesChecked (value width : Nat) (byteOrder : ByteOrder) : Except PatchError Bytes :=
  if value < 256 ^ width then .ok (toBytes value width byteOrder) else .error (.overflowError "int too big to convert")

variable (crc : Crc)

def dataModStateDeltaCompute (dataOffset : Nat) (dataDiff : Bytes) (patchOffset : Nat) : Except PyErr Nat := do
  let dataDiffContribution ← crc.forwardBytes 0 dataDiff
  let offsetToPatch : Int := patchOffset - (dataOffset + dataDiff.length)
  if offsetToPatch > 0 then crc.forwardMany dataDiffContribution (offsetToPatch * 8).toNat
  else return crc.backwardMany dataDiffContribution (-offsetToPatch * 8).toNat

def dataModDataDeltaCompute (dataOffset : Nat) (dataDiff : Bytes) (patchOffset : Nat) : Except PatchError Bytes := do
  let crcDelta ← (crc.dataModStateDeltaCompute dataOffset dataDiff patchOffset).mapError .raised
  let crcDelta := if crc.order0AtLsb then swib crcDelta crc.order else crcDelta
  if crc.popLsb then toBytesChecked crcDelta crc.byteWidth .little
  else toBytesChecked (swib crcDelta crc.order) crc.byteWidth .big

/-- `xor_` -/
def xor_ (a b : Bytes) : Bytes := List.zipWith (· ^^^ ·) a b

/-- A payload with a difference laid on at an offset. -/
def xorAt (payload : Bytes) (offset : Nat) (delta : Bytes) : Bytes :=
  payload.take offset ++ xor_ ((payload.drop offset).take delta.length) delta ++ payload.drop (offset + delta.length)

/-- The patch takes back what a modification does to the checksum. -/
def Patches : Prop :=
  ∀ payload dataOffset dataDiff patchOffset, dataOffset + dataDiff.length ≤ payload.length →
    patchOffset + crc.byteWidth ≤ payload.length →
    ∃ patch state, crc.dataModDataDeltaCompute dataOffset dataDiff patchOffset = .ok patch ∧
      crc.update crc.init payload = .ok state ∧
      crc.update crc.init (xorAt (xorAt payload dataOffset dataDiff) patchOffset patch) = .ok state

variable {crc : Crc}

theorem stateDelta_of {contribution dataOffset patchOffset : Nat} {dataDiff : Bytes}
    (fed : crc.forwardBytes 0 dataDiff = .ok contribution) :
    crc.dataModStateDeltaCompute dataOffset dataDiff patchOffset =
      if dataOffset + dataDiff.length < patchOffset then
        crc.forwardMany contribution (8 * (patchOffset - (dataOffset + dataDiff.length)))
      else .ok (crc.backwardMany contribution (8 * (dataOffset + dataDiff.length - patchOffset))) := by
  rw [dataModStateDeltaCompute, fed]
  change (if ((patchOffset : Int) - (dataOffset + dataDiff.length)) > 0 then
      crc.forwardMany contribution (((patchOffset : Int) - (dataOffset + dataDiff.length)) * 8).toNat
    else .ok (crc.backwardMany contribution (-((patchOffset : Int) - (dataOffset + dataDiff.length)) * 8).toNat)) = _
  refine if_congr (by omega) ?_ ?_
  · congr 1
    omega
  · congr 2
    omega

theorem dataDelta_of {delta dataOffset patchOffset : Nat} {dataDiff : Bytes}
    (moved : crc.dataModStateDeltaCompute dataOffset dataDiff patchOffset = .ok delta) :
    crc.dataModDataDeltaCompute dataOffset dataDiff patchOffset =
      if crc.popLsb then toBytesChecked (if crc.order0AtLsb then swib delta crc.order else delta) crc.byteWidth .little
      else toBytesChecked (swib (if crc.order0AtLsb then swib delta crc.order else delta) crc.order) crc.byteWidth .big := by
  rw [dataModDataDeltaCompute, moved]
  rfl

/-! ### Differences -/

theorem foldl_feed_xor {poly left right : Nat} {bits bits' : List Bool} (even : bits.length = bits'.length) :
    (List.zipWith Bool.xor bits bits').foldl (feed poly) (left ^^^ right) =
      bits.foldl (feed poly) left ^^^ bits'.foldl (feed poly) right := by
  induction bits generalizing bits' left right with
  | nil =>
    obtain rfl := List.length_eq_zero_iff.mp even.symm
    rfl
  | cons bit bits ih =>
    cases bits' with
    | nil => cases even
    | cons bit' bits' =>
      have step : feed poly (left ^^^ right) (bit ^^ bit') = feed poly left bit ^^^ feed poly right bit' := by
        rw [feed, feed, feed, ← shift_xor]
        congr 1
        have both : (bit ^^ bit').toNat = bit.toNat ^^^ bit'.toNat := by cases bit <;> cases bit' <;> rfl
        rw [both]
        ac_rfl
      rw [List.zipWith_cons_cons, List.foldl_cons, List.foldl_cons, List.foldl_cons, step]
      exact ih (Nat.succ.inj even)

theorem foldl_feed_difference (poly left right : Nat) (bits : List Bool) :
    bits.foldl (feed poly) (left ^^^ right) = bits.foldl (feed poly) left ^^^ (shift poly)^[bits.length] right := by
  induction bits generalizing left right with
  | nil => rfl
  | cons bit bits ih =>
    have step : feed poly (left ^^^ right) bit = feed poly left bit ^^^ shift poly right := by
      rw [feed, feed, ← shift_xor]
      congr 1
      ac_rfl
    rw [List.foldl_cons, step, ih]
    rfl

theorem bitsIterate_xor (a b : UInt8) (popLsb : Bool) : bitsIterate (a ^^^ b).toNat 8 popLsb =
    List.zipWith Bool.xor (bitsIterate a.toNat 8 popLsb) (bitsIterate b.toNat 8 popLsb) := by
  have low : lowBits (a ^^^ b).toNat 8 = List.zipWith Bool.xor (lowBits a.toNat 8) (lowBits b.toNat 8) := by
    apply List.ext_getElem?
    intro i
    rw [List.getElem?_zipWith, getElem?_lowBits, getElem?_lowBits, getElem?_lowBits, UInt8.toNat_xor, Nat.testBit_xor]
    split <;> rfl
  rw [bitsIterate, bitsIterate, bitsIterate]
  split
  · exact low
  · rw [low, List.reverse_zipWith (by rw [length_lowBits, length_lowBits])]

theorem bytesIterate_xor {a b : Bytes} (even : a.length = b.length) (popLsb : Bool) :
    bytesIterate (xor_ a b) popLsb = List.zipWith Bool.xor (bytesIterate a popLsb) (bytesIterate b popLsb) := by
  induction a generalizing b with
  | nil =>
    obtain rfl := List.length_eq_zero_iff.mp even.symm
    rfl
  | cons byte a ih =>
    cases b with
    | nil => cases even
    | cons byte' b =>
      have tail := ih (Nat.succ.inj even)
      rw [bytesIterate, bytesIterate, bytesIterate] at tail ⊢
      rw [xor_] at tail ⊢
      rw [List.zipWith_cons_cons, List.flatMap_cons, List.flatMap_cons, List.flatMap_cons, tail, bitsIterate_xor,
        List.zipWith_append (by rw [length_bitsIterate, length_bitsIterate])]

theorem not_xor_ (a b : Bytes) : not_ (xor_ a b) = xor_ (not_ a) b := by
  rw [not_, not_, xor_, xor_, List.map_zipWith, List.zipWith_map_left]
  congr 1
  funext byte byte'
  rw [UInt8.xor_assoc, UInt8.xor_comm byte', ← UInt8.xor_assoc]

theorem bitsOf_xor {a b : Bytes} (even : a.length = b.length) :
    crc.bitsOf (xor_ a b) = List.zipWith Bool.xor (crc.bitsOf a) (bytesIterate b crc.popLsb) := by
  rw [bitsOf, bitsOf]
  split
  · rw [not_xor_, bytesIterate_xor (by rw [not_, List.length_map, even])]
  · exact bytesIterate_xor even crc.popLsb

theorem foldl_xorAt {payload delta : Bytes} {offset : Nat} (inside : offset + delta.length ≤ payload.length) (register : Nat) :
    (crc.bitsOf (xorAt payload offset delta)).foldl (feed crc.reflectedPoly) register =
      (crc.bitsOf payload).foldl (feed crc.reflectedPoly) register ^^^
        (shift crc.reflectedPoly)^[8 * (payload.length - offset - delta.length)]
          ((bytesIterate delta crc.popLsb).foldl (feed crc.reflectedPoly) 0) := by
  have even : ((payload.drop offset).take delta.length).length = delta.length := by
    rw [List.length_take, List.length_drop]
    omega
  have parts : payload = payload.take offset ++ (payload.drop offset).take delta.length ++ payload.drop (offset + delta.length) := by
    rw [← List.drop_drop, List.append_assoc, List.take_append_drop, List.take_append_drop]
  have rest : (crc.bitsOf (payload.drop (offset + delta.length))).length = 8 * (payload.length - offset - delta.length) := by
    rw [length_bitsOf, List.length_drop]
    omega
  have middle := @foldl_feed_xor crc.reflectedPoly ((crc.bitsOf (payload.take offset)).foldl (feed crc.reflectedPoly) register) 0
    (crc.bitsOf ((payload.drop offset).take delta.length)) (bytesIterate delta crc.popLsb)
    (by rw [length_bitsOf, length_bytesIterate, even])
  rw [Nat.xor_zero] at middle
  rw [xorAt, bitsOf_append, bitsOf_append, bitsOf_xor even, List.foldl_append, List.foldl_append, middle,
    foldl_feed_difference, rest]
  congr 1
  conv_rhs => rw [parts]
  rw [bitsOf_append, bitsOf_append, List.foldl_append, List.foldl_append]

/-! ### Moving differences -/

/-- The register after a difference alone. -/
def contribution (crc : Crc) (delta : Bytes) : Nat := (bytesIterate delta crc.popLsb).foldl (feed crc.reflectedPoly) 0

theorem contribution_lt (delta : Bytes) : crc.contribution delta < 2 ^ crc.order :=
  foldl_feed_lt reflectedPoly_lt order_pos (Nat.two_pow_pos crc.order) _

theorem forwardBytes_zero (proceeds : crc.Proceeds) (delta : Bytes) :
    crc.forwardBytes 0 delta = .ok (crc.reflected (crc.contribution delta)) := by
  rw [forwardBytes, forwardBits_eq proceeds (Nat.two_pow_pos crc.order), fed, reflected_zero]
  rfl

def unshift (crc : Crc) (register : Nat) : Nat := unfeed crc.reflectedPoly crc.order register false

theorem unshift_lt (exact : crc.Exact) {register : Nat} (small : register < 2 ^ crc.order) : crc.unshift register < 2 ^ crc.order :=
  unfeed_lt (reflectedPoly_monic exact) reflectedPoly_lt order_pos small false

theorem iterate_unshift_lt (exact : crc.Exact) {register : Nat} (small : register < 2 ^ crc.order) (n : Nat) :
    crc.unshift^[n] register < 2 ^ crc.order := by
  induction n generalizing register with
  | zero => exact small
  | succ n ih => exact ih (unshift_lt exact small)

theorem shift_unshift (proceeds : crc.Proceeds) (register : Nat) : shift crc.reflectedPoly (crc.unshift register) = register := by
  rw [← feed_false, unshift, feed_unfeed (reflectedPoly_odd proceeds)]

theorem iterate_shift_unshift (proceeds : crc.Proceeds) (register n more : Nat) :
    (shift crc.reflectedPoly)^[more + n] (crc.unshift^[n] register) = (shift crc.reflectedPoly)^[more] register := by
  have inverse : Function.LeftInverse (shift crc.reflectedPoly) crc.unshift := shift_unshift proceeds
  rw [Function.iterate_add_apply, inverse.iterate n register]

theorem backwardMany_eq (exact : crc.Exact) {state : Nat} (small : state < 2 ^ crc.order) (n : Nat) :
    crc.backwardMany state n = crc.reflected (crc.unshift^[n] (crc.reflected state)) := by
  rw [backwardMany]
  induction n generalizing state with
  | zero => exact (reflected_reflected small).symm
  | succ n ih =>
    have back : crc.backward state false = crc.reflected (crc.unshift (crc.reflected state)) := backward_eq small false
    have inside := @unshift_lt crc exact _ (reflected_lt small)
    rw [Function.iterate_succ_apply, Function.iterate_succ_apply, back, ih (reflected_lt inside), reflected_reflected inside]

theorem stateDelta_eq (exact : crc.Exact) (wide : 2 ≤ crc.order) (dataOffset : Nat) (dataDiff : Bytes) (patchOffset : Nat) :
    ∃ register, register < 2 ^ crc.order ∧
      crc.dataModStateDeltaCompute dataOffset dataDiff patchOffset = .ok (crc.reflected register) ∧
      ∀ size, dataOffset + dataDiff.length ≤ size → patchOffset ≤ size →
        (shift crc.reflectedPoly)^[8 * (size - patchOffset)] register =
          (shift crc.reflectedPoly)^[8 * (size - dataOffset - dataDiff.length)] (crc.contribution dataDiff) := by
  have small := @contribution_lt crc dataDiff
  rw [stateDelta_of (forwardBytes_zero (.inr exact) dataDiff)]
  split
  · rename_i behind
    refine ⟨(shift crc.reflectedPoly)^[8 * (patchOffset - (dataOffset + dataDiff.length))] (crc.contribution dataDiff),
      iterate_shift_lt reflectedPoly_lt small _, ?_, fun size _ inside => ?_⟩
    · rw [forwardMany_eq (.inr exact) wide (reflected_lt small), fed, reflected_reflected small, foldl_feed_zeros]
    · rw [← Function.iterate_add_apply]
      congr 1
      omega
  · rename_i before
    refine ⟨crc.unshift^[8 * (dataOffset + dataDiff.length - patchOffset)] (crc.contribution dataDiff),
      iterate_unshift_lt exact small _, ?_, fun size inside _ => ?_⟩
    · rw [backwardMany_eq exact (reflected_lt small), reflected_reflected small]
    · rw [show 8 * (size - patchOffset) = 8 * (size - dataOffset - dataDiff.length) +
        8 * (dataOffset + dataDiff.length - patchOffset) by omega, iterate_shift_unshift (.inr exact)]

variable {n : Nat}

theorem dataDelta_eq (whole : crc.order = 8 * (n + 1)) {register dataOffset patchOffset : Nat} {dataDiff : Bytes}
    (small : register < 2 ^ crc.order)
    (moved : crc.dataModStateDeltaCompute dataOffset dataDiff patchOffset = .ok (crc.reflected register)) :
    ∃ patch : Bytes, crc.dataModDataDeltaCompute dataOffset dataDiff patchOffset = .ok patch ∧ patch.length = n + 1 ∧
      BitString.toNat (bytesIterate patch crc.popLsb) = register := by
  have bytes : 256 ^ crc.byteWidth = 2 ^ crc.order := by rw [byteWidth_of whole, pow_bytes, whole]
  have turned : (if crc.order0AtLsb then swib (crc.reflected register) crc.order else crc.reflected register) = register := by
    rw [reflected]
    split
    · exact swib_swib small
    · rfl
  rw [dataDelta_of moved, turned]
  cases crc.popLsb with
  | true =>
    refine ⟨split register crc.byteWidth, ?_, by rw [length_split, byteWidth_of whole], ?_⟩
    · rw [if_pos rfl, toBytesChecked, if_pos (by rw [bytes]; exact small)]
      rfl
    · rw [toNat_true, combine_split, bytes, Nat.mod_eq_of_lt small]
  | false =>
    have bound := swib_lt register crc.order
    refine ⟨(split (swib register crc.order) crc.byteWidth).reverse, ?_, by
      rw [List.length_reverse, length_split, byteWidth_of whole], ?_⟩
    · rw [if_neg (by decide), toBytesChecked, if_pos (by rw [bytes]; exact bound)]
      rfl
    · rw [toNat_false, List.reverse_reverse, combine_split, bytes, Nat.mod_eq_of_lt bound, List.length_reverse, length_split,
        byteWidth_of whole, ← whole, swib_swib small]

theorem length_xorAt {payload delta : Bytes} {offset : Nat} (inside : offset + delta.length ≤ payload.length) :
    (xorAt payload offset delta).length = payload.length := by
  rw [xorAt, List.length_append, List.length_append, xor_, List.length_zipWith, List.length_take, List.length_take,
    List.length_drop, List.length_drop]
  omega

theorem patches_of_exact (exact : crc.Exact) (whole : crc.order = 8 * (n + 1)) : crc.Patches := by
  intro payload dataOffset dataDiff patchOffset inside window
  rw [byteWidth_of whole] at window
  obtain ⟨register, small, moved, meets⟩ := stateDelta_eq exact (by omega) dataOffset dataDiff patchOffset
  obtain ⟨patch, computed, length, word⟩ := dataDelta_eq whole small moved
  refine ⟨patch, _, computed, update_outside (.inr exact) payload, ?_⟩
  have placed : patchOffset + patch.length ≤ (xorAt payload dataOffset dataDiff).length := by
    rw [length_xorAt inside, length]
    exact window
  have fed : (bytesIterate patch crc.popLsb).foldl (feed crc.reflectedPoly) 0 =
      (shift crc.reflectedPoly)^[8 * (n + 1)] register := by
    rw [foldl_feed, word, Nat.zero_xor, length_bytesIterate, length]
  rw [update_outside (.inr exact), outside, outside, foldl_xorAt placed, foldl_xorAt inside, fed, length_xorAt inside, length,
    ← Function.iterate_add_apply, show 8 * (payload.length - patchOffset - (n + 1)) + 8 * (n + 1) =
      8 * (payload.length - patchOffset) by omega, meets payload.length inside (by omega), Nat.xor_assoc]
  have cancels : (shift crc.reflectedPoly)^[8 * (payload.length - dataOffset - dataDiff.length)]
      ((bytesIterate dataDiff crc.popLsb).foldl (feed crc.reflectedPoly) 0) =
      (shift crc.reflectedPoly)^[8 * (payload.length - dataOffset - dataDiff.length)] (crc.contribution dataDiff) := rfl
  rw [cancels, Nat.xor_self, Nat.xor_zero]

/-! ### Lost differences -/

theorem contribution_raises (layout : crc.order0AtLsb = true) (inexact : ¬crc.Exact) :
    crc.forwardBytes 0 [0xFF] = .error .assertionError := by
  have ones : ∀ popLsb, bytesIterate [0xFF] popLsb = true :: List.replicate 7 true := by decide
  rw [forwardBytes, ones, forwardBits, List.foldlM_cons, forward_raises layout inexact (by rw [Nat.zero_testBit]; rfl)]
  rfl

theorem contribution_last (layout : crc.order0AtLsb = false) :
    crc.contribution [if crc.popLsb then 0x80 else 1] = crc.poly / 2 := by
  have last : ∀ popLsb : Bool, bytesIterate [if popLsb then 0x80 else 1] popLsb = List.replicate 7 false ++ [true] := by decide
  have zero := (@linear_shift crc.reflectedPoly).iterate 7 |>.zero
  have odd := crc.poly_odd
  rw [contribution, last, List.foldl_append, foldl_feed_zeros, zero, reflectedPoly, if_neg (by rw [layout]; decide)]
  change shift crc.poly 1 = _
  rw [shift, if_pos rfl, Nat.shiftRight_xor_distrib, Nat.shiftRight_one, Nat.shiftRight_one]
  exact Nat.zero_xor _

theorem backward_unfeed (layout : crc.order0AtLsb = false) (state : Nat) :
    crc.backward state false = unfeed crc.poly crc.order state false := by
  rw [backward, if_neg (by rw [layout]; decide), unfeed, Nat.shiftLeft_eq, Nat.pow_one, Nat.mul_comm]
  dsimp only
  congr 1
  exact if_congr (and_wbit_ne_zero _ _) rfl rfl

theorem lost_beyond (degree : crc.poly < 2 ^ crc.order) (near : 2 ^ (crc.order - 1) ≤ crc.poly) (wide : 2 ≤ crc.order) :
    2 ^ crc.order ≤ (fun state => unfeed crc.poly crc.order state false)^[crc.order] (crc.poly / 2) := by
  obtain ⟨rest, same⟩ : ∃ rest, crc.order = rest + 2 := ⟨crc.order - 2, by omega⟩
  rw [same, show rest + 2 - 1 = rest + 1 by omega] at near
  have powers : 2 ^ (rest + 2) = 4 * 2 ^ rest := by rw [Nat.pow_add, Nat.mul_comm]
  have powers' : 2 ^ (rest + 1) = 2 * 2 ^ rest := Nat.pow_succ'
  rw [same, powers] at degree
  have first : unfeed crc.poly (rest + 2) (crc.poly / 2) false = 2 * (crc.poly / 2) := by
    have clear : (2 * (crc.poly / 2)).testBit (rest + 2) = false := Nat.testBit_lt_two_pow (by omega)
    rw [unfeed, clear, if_neg (by decide), Bool.toNat_false, Nat.xor_zero]
  rw [same, Function.iterate_succ_apply, first]
  exact iterate_unfeed_ge (by omega) (by omega) rest

theorem xor_eq_self {word mask : Nat} (same : word ^^^ mask = word) : mask = 0 :=
  xor_cancel_left (same.trans (Nat.xor_zero word).symm)

/-- The delta that is computed for the last byte of a payload, at its first one. -/
theorem stateDelta_last (layout : crc.order0AtLsb = false) (whole : crc.order = 8 * (n + 1)) :
    crc.dataModStateDeltaCompute n [if crc.popLsb then 0x80 else 1] 0 =
      .ok ((fun state => unfeed crc.poly crc.order state false)^[crc.order] (crc.poly / 2)) := by
  have kept : ∀ word, crc.reflected word = word := fun word => by rw [reflected, if_neg (by rw [layout]; decide)]
  have back : (fun state => crc.backward state false) = fun state => unfeed crc.poly crc.order state false :=
    funext (backward_unfeed layout)
  have fed := forwardBytes_zero (.inl layout) [if crc.popLsb then 0x80 else 1]
  rw [contribution_last layout, kept] at fed
  rw [stateDelta_of fed, List.length_singleton, if_neg (by omega), backwardMany, back, whole]
  rfl

/-- Where the polynomial lacks the highest bit, a change of the last byte cannot be patched at the first. -/
theorem not_patches (layout : crc.order0AtLsb = false) (inexact : ¬crc.Exact) (whole : crc.order = 8 * (n + 1))
    (near : 2 ^ (crc.order - 1) ≤ crc.poly) : ¬crc.Patches := by
  intro patches
  have degree : crc.poly < 2 ^ crc.order := lt_of_clear crc.poly_lt (Bool.eq_false_of_not_eq_true inexact)
  have bytes : 256 ^ crc.byteWidth = 2 ^ crc.order := by rw [byteWidth_of whole, pow_bytes, whole]
  have poly : crc.reflectedPoly = crc.poly := by rw [reflectedPoly, if_neg (by rw [layout]; decide)]
  have inside : n + [if crc.popLsb then (0x80 : UInt8) else 1].length ≤ (List.replicate (n + 1) (0 : UInt8)).length := by
    rw [List.length_replicate]
    exact Nat.le_refl _
  obtain ⟨patch, state, computed, original, patched⟩ := patches (List.replicate (n + 1) 0) n
    [if crc.popLsb then 0x80 else 1] 0 inside (by rw [List.length_replicate, byteWidth_of whole]; omega)
  rw [dataDelta_of (stateDelta_last layout whole), layout] at computed
  have lost := half_poly_lost crc.poly_odd degree near (show 2 ≤ crc.order by omega)
  have moved := @iterate_unfeed_mod crc.poly crc.order order_pos (crc.poly / 2) crc.order
  rw [Nat.mod_eq_of_lt (show crc.poly / 2 < 2 ^ crc.order by omega)] at moved
  cases pops : crc.popLsb with
  | true =>
    have beyond := lost_beyond degree near (show 2 ≤ crc.order by omega)
    rw [pops, if_pos rfl, if_neg (by decide), toBytesChecked, if_neg (by rw [bytes]; exact Nat.not_lt_of_le beyond)] at computed
    cases computed
  | false =>
    rw [pops, if_neg (by decide), if_neg (by decide), toBytesChecked, if_pos (by rw [bytes]; exact swib_lt _ _)] at computed
    obtain rfl := Except.ok.inj computed
    generalize (fun state => unfeed crc.poly crc.order state false)^[crc.order] (crc.poly / 2) = delta at *
    have length : (toBytes (swib delta crc.order) crc.byteWidth .big).length = n + 1 := by
      rw [toBytes, List.length_reverse, length_split, byteWidth_of whole]
    have word : BitString.toNat (bytesIterate (toBytes (swib delta crc.order) crc.byteWidth .big) crc.popLsb) =
        delta % 2 ^ crc.order := by
      rw [pops, toBytes, toNat_false, List.reverse_reverse, combine_split, bytes, Nat.mod_eq_of_lt (swib_lt _ _),
        List.length_reverse, length_split, byteWidth_of whole, ← whole, swib_swib_mod]
    have placed : 0 + (toBytes (swib delta crc.order) crc.byteWidth .big).length ≤
        (xorAt (List.replicate (n + 1) 0) n [if crc.popLsb then 0x80 else 1]).length := by
      rw [length_xorAt inside, length, List.length_replicate]
      omega
    have last := contribution_last layout
    have fed : (bytesIterate (toBytes (swib delta crc.order) crc.byteWidth .big) crc.popLsb).foldl (feed crc.reflectedPoly) 0 =
        (shift crc.reflectedPoly)^[crc.order] (delta % 2 ^ crc.order) := by
      rw [foldl_feed, word, Nat.zero_xor, length_bytesIterate, length, ← whole]
    have kept : ∀ word, crc.reflected word = word := fun word => by rw [reflected, if_neg (by rw [layout]; decide)]
    rw [update_outside (.inl layout), kept] at original patched
    have same := Except.ok.inj (patched.trans original.symm)
    rw [outside, outside] at same
    have folds := xor_cancel_left same
    rw [foldl_xorAt placed, foldl_xorAt inside, Nat.xor_assoc, length_xorAt inside, fed, length, List.length_replicate,
      List.length_singleton, show 8 * (n + 1 - 0 - (n + 1)) = 0 by omega, show 8 * (n + 1 - n - 1) = 0 by omega, poly] at folds
    rw [contribution, poly] at last
    rw [last, moved] at folds
    exact lost (Nat.xor_eq_zero_iff.mp (xor_eq_self folds)).symm

theorem exact_of_patches (whole : crc.order = 8 * (n + 1)) (near : 2 ^ (crc.order - 1) ≤ crc.poly) (patches : crc.Patches) :
    crc.Exact := by
  refine Decidable.byContradiction fun inexact => ?_
  cases layout : crc.order0AtLsb with
  | false => exact not_patches layout inexact whole near patches
  | true =>
    obtain ⟨patch, state, computed, -⟩ := patches (List.replicate (n + 1) 0) 0 [0xFF] 0
      (by rw [List.length_replicate]; exact Nat.le_add_left 1 n) (by rw [List.length_replicate, byteWidth_of whole]; omega)
    rw [dataModDataDeltaCompute, dataModStateDeltaCompute, contribution_raises layout inexact] at computed
    cases computed

/-- A patch keeps the checksum just where the logarithm of the polynomial is not rounded up. -/
theorem patches_iff {log2 : Log2} {arguments : Arguments} (created : create log2 arguments = .ok crc) (whole : 8 ∣ crc.order) :
    crc.Patches ↔ log2.value arguments.poly = Nat.log2 arguments.poly := by
  obtain ⟨order, same⟩ := create_ok created
  have poly : crc.poly = arguments.poly := by rw [same]
  have positive : 0 < crc.order := order_pos
  obtain ⟨n, bytes⟩ : ∃ n, crc.order = 8 * (n + 1) := ⟨crc.order / 8 - 1, by omega⟩
  have near : 2 ^ (crc.order - 1) ≤ crc.poly := by
    have odd := crc.poly_odd
    have bound := log2.value_le arguments.poly
    rw [← order, ← poly] at bound
    exact Nat.le_trans (Nat.pow_le_pow_right (by decide) (by omega)) (Nat.log2_self_le (by omega))
  rw [← create_exact created]
  exact ⟨exact_of_patches bytes near, fun exact => patches_of_exact exact bytes⟩

theorem patches_iff_ccitt : ∃ crc, create doubleLog2 reflectedCcitt = .ok crc ∧
    (crc.Patches ↔ doubleLog2.value reflectedCcitt.poly = Nat.log2 reflectedCcitt.poly) :=
  ⟨_, rfl, patches_iff rfl (by decide)⟩

theorem rounded_order_not_patched : ¬∀ (log2 : Log2) (arguments : Arguments) (crc : Crc),
    create log2 arguments = .ok crc → 8 ∣ crc.order → crc.Patches := by
  intro all
  obtain ⟨crc, created⟩ : ∃ crc, create doubleLog2 { roundedUp with poly := 2 ^ 56 - 1 } = .ok crc := ⟨_, rfl⟩
  have order : crc.order = 56 := (create_ok created).1
  have poly : crc.poly = 2 ^ 56 - 1 := by rw [(create_ok created).2]
  have near : 2 ^ (crc.order - 1) ≤ crc.poly := by
    rw [order, poly]
    decide
  have exact := exact_of_patches (n := 6) order near (all doubleLog2 _ crc created (by omega))
  have rounded := (create_exact created).mp exact
  revert rounded
  decide

end Crc

end Acrobe.Checksum
