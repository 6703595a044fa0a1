import Acrobe.Checksum.Inverse

/-!
# Seeking

`update_seek` multiplies by a power of the exponent 1, and feeding zeros shifts again and again.
-/

namespace Acrobe.Checksum
open LittleEndian ReflectedCrc
open Acrobe.Crc (bitsIterate bytesIterate swib)

namespace Crc
variable {crc : Crc}

theorem swib_two_pow {i width : Nat} (inside : i < width) : swib (2 ^ i) width = 2 ^ (width - 1 - i) := by
  apply Nat.eq_of_testBit_eq
  intro j
  rw [testBit_swib, Nat.testBit_two_pow, Nat.testBit_two_pow, ← Bool.decide_and]
  exact decide_eq_decide.mpr (by omega)

theorem reflected_unit : crc.reflected crc.unit = ReflectedCrc.unit crc.order := by
  have positive : 0 < crc.order := order_pos
  have one := @swib_two_pow 0 crc.order positive
  rw [reflected, unit]
  split
  · exact one
  · exact Nat.one_shiftLeft _

theorem reflected_two (wide : 2 ≤ crc.order) : crc.reflected crc.two = 2 ^ (crc.order - 2) := by
  have two := @swib_two_pow 1 crc.order wide
  rw [reflected, Crc.two]
  split
  · exact two
  · exact Nat.one_shiftLeft _

theorem unit_lt : crc.unit < 2 ^ crc.order := by
  have positive : 0 < crc.order := order_pos
  rw [unit]
  split
  · exact Nat.one_lt_two_pow (by omega)
  · rw [Nat.one_shiftLeft]
    exact Nat.pow_lt_pow_right (by decide) (by omega)

theorem two_lt (wide : 2 ≤ crc.order) : crc.two < 2 ^ crc.order := by
  rw [two]
  split
  · exact Nat.pow_lt_pow_right (show 1 < 2 by decide) wide
  · rw [Nat.one_shiftLeft]
    exact Nat.pow_lt_pow_right (by decide) (by omega)

/-! ### Products -/

theorem bitsIterate_coefficients (word : Nat) :
    bitsIterate word crc.order crc.order0AtLsb = coefficients crc.order (crc.reflected word) := by
  rw [bitsIterate, coefficients, reflected]
  split
  · rw [lowBits_swib, List.reverse_reverse]
  · rfl

theorem reflected_zero : crc.reflected 0 = 0 := by
  have twice := @reflected_xor crc 0 0
  rwa [Nat.xor_self, Nat.xor_self] at twice

theorem reflected_fed_zero {state : Nat} (small : state < 2 ^ crc.order) :
    crc.reflected (crc.fed state [false]) = shift crc.reflectedPoly (crc.reflected state) := by
  rw [reflected_fed small, List.foldl_cons, List.foldl_nil, feed, Bool.toNat_false, Nat.xor_zero]

theorem gfmulStep_eq (proceeds : crc.Proceeds) {a : Nat} (small : a < 2 ^ crc.order) (r : Nat) (bit : Bool) :
    crc.gfmulStep (r, a) bit = .ok (r ^^^ (if bit then a else 0), crc.fed a [false]) := by
  have step : crc.forward a false = .ok (crc.fed a [false]) := forward_eq proceeds small false
  rw [gfmulStep, step]
  cases bit with
  | false => exact congrArg (fun r => Except.ok (r, crc.fed a [false])) (Nat.xor_zero r).symm
  | true => rfl

theorem gfmul_loop (proceeds : crc.Proceeds) {a : Nat} (small : a < 2 ^ crc.order) (bits : List Bool) (r : Nat) :
    ∃ rest, bits.foldlM crc.gfmulStep (r, a) =
      .ok (r ^^^ crc.reflected (combination crc.reflectedPoly bits (crc.reflected a)), rest) := by
  induction bits generalizing r a with
  | nil =>
    refine ⟨a, ?_⟩
    rw [combination, reflected_zero, Nat.xor_zero]
    rfl
  | cons bit bits ih =>
    obtain ⟨rest, looped⟩ := ih (fed_lt small [false]) (r ^^^ (if bit then a else 0))
    refine ⟨rest, ?_⟩
    have term : crc.reflected (if bit then crc.reflected a else 0) = if bit then a else 0 := by
      cases bit with
      | false => exact reflected_zero
      | true => exact reflected_reflected small
    rw [List.foldlM_cons, gfmulStep_eq proceeds small, combination, reflected_xor, term, ← Nat.xor_assoc, ← reflected_fed_zero small]
    exact looped

theorem gfmul_eq (proceeds : crc.Proceeds) {a : Nat} (small : a < 2 ^ crc.order) (b : Nat) :
    crc.gfmul a b = .ok (crc.reflected (product crc.reflectedPoly crc.order (crc.reflected a) (crc.reflected b))) := by
  obtain ⟨rest, looped⟩ := gfmul_loop proceeds small (coefficients crc.order (crc.reflected b)) 0
  rw [gfmul, bitsIterate_coefficients, looped, Nat.zero_xor]
  rfl

/-! ### Powers -/

theorem gfexpLoop_eq (proceeds : crc.Proceeds) {r x : Nat} (small : r < 2 ^ crc.order) (small' : x < 2 ^ crc.order) (n : Nat) :
    crc.gfexpLoop r x n =
      .ok (crc.reflected (power crc.reflectedPoly crc.order (crc.reflected r) (crc.reflected x) n)) := by
  have inside : ∀ {a}, a < 2 ^ crc.order → ∀ b, product crc.reflectedPoly crc.order (crc.reflected a) b < 2 ^ crc.order :=
    fun {a} small b => product_lt reflectedPoly_lt (reflected_lt small) b
  induction n using Nat.strong_induction_on generalizing r x with
  | _ n ih =>
    rw [gfexpLoop, power]
    split
    · rw [reflected_reflected small]
    · have squared := gfmul_eq proceeds small' x
      have halved : n / 2 < n := by omega
      split
      · rw [gfmul_eq proceeds small x]
        change (crc.gfmul x x >>= _) = _
        rw [squared]
        change crc.gfexpLoop _ _ (n / 2) = _
        rw [ih (n / 2) halved (reflected_lt (inside small _)) (reflected_lt (inside small' _)),
          reflected_reflected (inside small _), reflected_reflected (inside small' _)]
      · change (crc.gfmul x x >>= _) = _
        rw [squared]
        change crc.gfexpLoop _ _ (n / 2) = _
        rw [ih (n / 2) halved small (reflected_lt (inside small' _)), reflected_reflected (inside small' _)]

theorem foldl_feed_zeros (poly state n : Nat) : (List.replicate n false).foldl (feed poly) state = (shift poly)^[n] state := by
  induction n generalizing state with
  | zero => rfl
  | succ n ih =>
    rw [List.replicate_succ, List.foldl_cons, ih, feed, Bool.toNat_false, Nat.xor_zero, Function.iterate_succ_apply]

theorem forwardMany_eq (proceeds : crc.Proceeds) (wide : 2 ≤ crc.order) {state : Nat} (small : state < 2 ^ crc.order) (n : Nat) :
    crc.forwardMany state n = .ok (crc.fed state (List.replicate n false)) := by
  have power := gfexpLoop_eq proceeds unit_lt (two_lt wide) n
  have bound := power_lt (@reflectedPoly_lt crc) (reflected_lt unit_lt) (2 ^ (crc.order - 2)) n
  rw [forwardMany, gfexp, power, reflected_two wide]
  change crc.gfmul state _ = _
  rw [gfmul_eq proceeds small, reflected_reflected bound, reflected_unit, product_seek reflectedPoly_lt wide (reflected_lt small),
    fed, foldl_feed_zeros]

/-! ### Seeking -/

def feedZeros (crc : Crc) (state n : Nat) : Except PyErr Nat :=
  (crc.forwardBits (crc.stateComp ^^^ state) (List.replicate n crc.complementInput)).map (crc.stateComp ^^^ ·)

/-- Seeking ends where zeros lead, and goes on from there. -/
def Seeks (crc : Crc) : Prop :=
  ∀ state n, state < 2 ^ crc.order → ∃ reached, crc.updateSeek state n = .ok reached ∧ crc.feedZeros state n = .ok reached ∧
    (∀ k, n = 8 * k → crc.update state (List.replicate k 0) = .ok reached) ∧
    ∀ more, crc.updateSeek reached more = crc.updateSeek state (n + more)

theorem feedZeros_ok (proceeds : crc.Proceeds) {state : Nat} (small : state < 2 ^ crc.order) (n : Nat) :
    crc.feedZeros state n =
      .ok (crc.stateComp ^^^ crc.fed (crc.stateComp ^^^ state) (List.replicate n crc.complementInput)) := by
  rw [feedZeros, forwardBits_eq proceeds (complemented_lt small)]
  rfl

theorem updateSeek_eq (proceeds : crc.Proceeds) (wide : 2 ≤ crc.order) {state : Nat} (small : state < 2 ^ crc.order) (n : Nat) :
    crc.updateSeek state n = crc.feedZeros state n := by
  rw [updateSeek, feedZeros]
  cases crc.complementInput with
  | true =>
    rw [if_pos rfl]
    rfl
  | false =>
    rw [if_neg (by decide), forwardMany_eq proceeds wide (complemented_lt small), forwardBits_eq proceeds (complemented_lt small)]
    rfl

theorem bitsOf_zeros (k : Nat) : crc.bitsOf (List.replicate k 0) = List.replicate (8 * k) crc.complementInput := by
  have byte : ∀ complement popLsb, bitsIterate (if complement then (0 : UInt8) ^^^ 0xFF else 0).toNat 8 popLsb =
      List.replicate 8 complement := by decide
  have same : (if crc.complementInput then not_ (List.replicate k 0) else List.replicate k 0) =
      List.replicate k (if crc.complementInput then (0 : UInt8) ^^^ 0xFF else 0) := by
    cases crc.complementInput with
    | false => rfl
    | true => exact List.map_replicate
  rw [bitsOf, same, bytesIterate]
  clear same
  induction k with
  | zero => rfl
  | succ k ih => 
    rw [List.replicate_succ, List.flatMap_cons, ih, byte, ← List.replicate_add]
    congr 1
    omega

theorem seeks_of_proceeds (proceeds : crc.Proceeds) (wide : 2 ≤ crc.order) : crc.Seeks := by
  intro state n small
  have inside := @complemented_lt crc state small
  refine ⟨_, (updateSeek_eq proceeds wide small n).trans (feedZeros_ok proceeds small n), feedZeros_ok proceeds small n, ?_, ?_⟩
  · rintro k rfl
    rw [update_ok proceeds small, bitsOf_zeros]
  · intro more
    have reached := complemented_lt (fed_lt inside (List.replicate n crc.complementInput))
    rw [updateSeek_eq proceeds wide reached, updateSeek_eq proceeds wide small, feedZeros_ok proceeds reached,
      feedZeros_ok proceeds small, comp_comp, ← fed_append inside, List.replicate_add]

theorem proceeds_of_seeks (seeks : crc.Seeks) : crc.Proceeds := by
  cases layout : crc.order0AtLsb with
  | false => exact .inl layout
  | true =>
    refine .inr (Decidable.byContradiction fun inexact => ?_)
    have positive : 0 < crc.order := order_pos
    obtain ⟨state, small, carried⟩ : ∃ state, state < 2 ^ crc.order ∧ (state.testBit (crc.order - 1) ^^ crc.complementInput) = true := by
      cases crc.complementInput with
      | true => exact ⟨0, Nat.two_pow_pos crc.order, by rw [Nat.zero_testBit]; rfl⟩
      | false =>
        exact ⟨2 ^ (crc.order - 1), Nat.pow_lt_pow_right (by decide) (by omega), by rw [Nat.testBit_two_pow_self]; rfl⟩
    obtain ⟨reached, -, fed, -⟩ := seeks (crc.stateComp ^^^ state) 1 (complemented_lt small)
    rw [feedZeros, comp_comp, forwardBits, List.replicate_one, List.foldlM_cons, forward_raises layout inexact carried] at fed
    cases fed

/-- Seeking is feeding zeros just where exponent 0 is at the highest bit, or the logarithm is not rounded up. -/
theorem seeks_iff {log2 : Log2} {arguments : Arguments} (created : create log2 arguments = .ok crc) (wide : 2 ≤ crc.order) :
    crc.Seeks ↔ arguments.order0AtLsb = false ∨ log2.value arguments.poly = Nat.log2 arguments.poly := by
  have layout : crc.order0AtLsb = arguments.order0AtLsb := by rw [(create_ok created).2]
  rw [← create_exact created, ← layout]
  exact ⟨proceeds_of_seeks, fun proceeds => seeks_of_proceeds proceeds wide⟩

theorem seeks_iff_ccitt : ∃ crc, create doubleLog2 reflectedCcitt = .ok crc ∧
    (crc.Seeks ↔ reflectedCcitt.order0AtLsb = false ∨ doubleLog2.value reflectedCcitt.poly = Nat.log2 reflectedCcitt.poly) :=
  ⟨_, rfl, seeks_iff rfl (by decide)⟩

theorem rounded_order_not_sought :
    ¬∀ (log2 : Log2) (arguments : Arguments) (crc : Crc), create log2 arguments = .ok crc → 2 ≤ crc.order → crc.Seeks := by
  intro all
  obtain ⟨crc, created⟩ : ∃ crc, create doubleLog2 { roundedUp with order0AtLsb := true } = .ok crc := ⟨_, rfl⟩
  have order : crc.order = 54 := (create_ok created).1
  have layout : crc.order0AtLsb = true := by rw [(create_ok created).2]
  rcases proceeds_of_seeks (all doubleLog2 _ crc created (by omega)) with other | exact
  · rw [layout] at other
    cases other
  · have rounded := (create_exact created).mp exact
    revert rounded
    decide

end Crc

end Acrobe.Checksum
