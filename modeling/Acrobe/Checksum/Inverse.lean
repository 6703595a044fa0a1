import Acrobe.Checksum.Reflection

/-!
# Unfeeding

`unupdate` takes back what `update` has fed, where the polynomial has the bit that the order names. Without it, two
states are fed alike, or the step raises.
-/

namespace Acrobe.Checksum
open LittleEndian ReflectedCrc
open Acrobe.Crc (bitsIterate bytesIterate swib)

namespace Crc
variable {crc : Crc}

/-- The bits that a byte string feeds. -/
def bitsOf (crc : Crc) (data : Bytes) : List Bool := bytesIterate (if crc.complementInput then not_ data else data) crc.popLsb

theorem update_eq (state : Nat) (data : Bytes) :
    crc.update state data = (crc.forwardBits (crc.stateComp ^^^ state) (crc.bitsOf data)).map (crc.stateComp ^^^ ·) := rfl

theorem comp_comp (state : Nat) : crc.stateComp ^^^ (crc.stateComp ^^^ state) = state := by
  rw [← Nat.xor_assoc, Nat.xor_self, Nat.zero_xor]

theorem update_ok (proceeds : crc.Proceeds) {state : Nat} (small : state < 2 ^ crc.order) (data : Bytes) :
    crc.update state data = .ok (crc.stateComp ^^^ crc.fed (crc.stateComp ^^^ state) (crc.bitsOf data)) := by
  rw [update_eq, forwardBits_eq proceeds (complemented_lt small)]
  rfl

theorem bitsIterate_not (word : Nat) (popLsb : Bool) : bitsIterate word 8 (!popLsb) = (bitsIterate word 8 popLsb).reverse := by
  cases popLsb with
  | false =>
    rw [bitsIterate, bitsIterate, if_pos (by decide), if_neg (by decide), List.reverse_reverse]
  | true =>
    rw [bitsIterate, bitsIterate, if_neg (by decide), if_pos (by decide)]

theorem bytesIterate_reverse (data : Bytes) (popLsb : Bool) :
    bytesIterate data.reverse (!popLsb) = (bytesIterate data popLsb).reverse := by
  rw [bytesIterate, bytesIterate, List.reverse_flatMap]
  congr 1
  funext byte
  exact bitsIterate_not byte.toNat popLsb

theorem unupdate_eq (state : Nat) (data : Bytes) : crc.unupdate state data =
    crc.stateComp ^^^ (crc.bitsOf data).reverse.foldl crc.backward (crc.stateComp ^^^ state) := by
  rw [unupdate, bitsOf, backwardBytes, bytesIterate_reverse]

/-! ### One bit -/

theorem fed_cons {state : Nat} (small : state < 2 ^ crc.order) (bit : Bool) (bits : List Bool) :
    crc.fed state (bit :: bits) = crc.fed (crc.fed state [bit]) bits := by
  rw [fed, fed, reflected_fed small]
  rfl

theorem fed_append {state : Nat} (small : state < 2 ^ crc.order) (front back : List Bool) :
    crc.fed state (front ++ back) = crc.fed (crc.fed state front) back := by
  rw [fed, List.foldl_append, fed, reflected_fed small]

theorem backward_fed (exact : crc.Exact) {state : Nat} (small : state < 2 ^ crc.order) (bit : Bool) :
    crc.backward (crc.fed state [bit]) bit = state := by
  rw [backward_eq (fed_lt small [bit]), reflected_fed small, List.foldl_cons, List.foldl_nil,
    unfeed_feed (reflectedPoly_odd (.inr exact)) (reflectedPoly_monic exact) order_pos (reflected_lt small),
    reflected_reflected small]

theorem backward_lt (exact : crc.Exact) {state : Nat} (small : state < 2 ^ crc.order) (bit : Bool) :
    crc.backward state bit < 2 ^ crc.order := by
  rw [backward_eq small]
  exact reflected_lt (unfeed_lt (reflectedPoly_monic exact) reflectedPoly_lt order_pos (reflected_lt small) bit)

theorem fed_backward (exact : crc.Exact) {state : Nat} (small : state < 2 ^ crc.order) (bit : Bool) :
    crc.fed (crc.backward state bit) [bit] = state := by
  have inside := unfeed_lt (reflectedPoly_monic exact) reflectedPoly_lt order_pos (reflected_lt small) bit
  rw [backward_eq small, fed, reflected_reflected inside, List.foldl_cons, List.foldl_nil,
    feed_unfeed (reflectedPoly_odd (.inr exact)), reflected_reflected small]

/-! ### Bit strings -/

theorem foldl_backward_fed (exact : crc.Exact) {state : Nat} (small : state < 2 ^ crc.order) (bits : List Bool) :
    bits.reverse.foldl crc.backward (crc.fed state bits) = state := by
  induction bits generalizing state with
  | nil => exact reflected_reflected small
  | cons bit bits ih =>
    rw [List.reverse_cons, List.foldl_append, fed_cons small, ih (fed_lt small [bit])]
    exact backward_fed exact small bit

theorem foldl_backward_lt (exact : crc.Exact) {state : Nat} (small : state < 2 ^ crc.order) (bits : List Bool) :
    bits.foldl crc.backward state < 2 ^ crc.order := by
  induction bits generalizing state with
  | nil => exact small
  | cons bit bits ih => exact ih (backward_lt exact small bit)

theorem fed_foldl_backward (exact : crc.Exact) {state : Nat} (small : state < 2 ^ crc.order) (bits : List Bool) :
    crc.fed (bits.reverse.foldl crc.backward state) bits = state := by
  induction bits with
  | nil => exact reflected_reflected small
  | cons bit bits ih =>
    have inside := foldl_backward_lt exact small bits.reverse
    rw [List.reverse_cons, List.foldl_append, List.foldl_cons, List.foldl_nil, fed_cons (backward_lt exact inside bit),
      fed_backward exact inside, ih]

/-! ### Lost states -/

/-- `unupdate` inverts `update`, and the other way round. -/
def Inverts (crc : Crc) : Prop :=
  ∀ state data, state < 2 ^ crc.order →
    (crc.update state data).map (fun updated => crc.unupdate updated data) = .ok state ∧
      crc.update (crc.unupdate state data) data = .ok state

theorem inverts_of_exact (exact : crc.Exact) : crc.Inverts := by
  intro state data small
  have inside := @complemented_lt crc state small
  constructor
  · rw [update_ok (.inr exact) small]
    change Except.ok (crc.unupdate _ data) = _
    rw [unupdate_eq, comp_comp, foldl_backward_fed exact inside, comp_comp]
  · rw [unupdate_eq, update_eq, comp_comp, forwardBits_eq (.inr exact) (foldl_backward_lt exact inside _),
      fed_foldl_backward exact inside]
    change Except.ok (crc.stateComp ^^^ (crc.stateComp ^^^ state)) = _
    rw [comp_comp]

def quiet (crc : Crc) : UInt8 := if crc.complementInput then 0xFF else 0

theorem bitsOf_quiet : crc.bitsOf [crc.quiet] = List.replicate 8 false := by
  have zeros : ∀ popLsb, bytesIterate [0] popLsb = List.replicate 8 false := by decide
  rw [bitsOf, quiet]
  cases crc.complementInput with
  | false => exact zeros crc.popLsb
  | true => exact zeros crc.popLsb

theorem forward_raises (layout : crc.order0AtLsb = true) (inexact : ¬crc.Exact) {state : Nat} {bit : Bool}
    (carried : (state.testBit (crc.order - 1) ^^ bit) = true) : crc.forward state bit = .error .assertionError := by
  rw [← moved_top] at carried
  have stays : (crc.moved state bit ^^^ crc.poly).testBit crc.order = true := by
    rw [Nat.testBit_xor, carried, Bool.eq_false_of_not_eq_true inexact]
    rfl
  have carry : (state <<< 1 ^^^ bit.toNat <<< crc.order) &&& crc.wbit ≠ 0 := (and_wbit_ne_zero _ _).mpr carried
  rw [forward, if_pos layout]
  dsimp only
  rw [if_pos carry, if_pos]
  intro cleared
  rw [Nat.shiftRight_eq_div_pow, Nat.div_eq_zero_iff_lt (Nat.two_pow_pos crc.order)] at cleared
  change crc.moved state bit ^^^ crc.poly < 2 ^ crc.order at cleared
  rw [Nat.testBit_lt_two_pow cleared] at stays
  cases stays

theorem forward_loses (layout : crc.order0AtLsb = false) : crc.forward (1 ^^^ crc.poly) false = crc.forward 1 false := by
  have even : (1 ^^^ crc.poly) % 2 = 0 := by
    have flips := @Nat.xor_mod_two_eq_one 1 crc.poly
    have odd := crc.poly_odd
    omega
  rw [forward, forward, if_neg (by rw [layout]; decide), if_neg (by rw [layout]; decide)]
  dsimp only
  rw [Bool.toNat_false, Nat.xor_zero, Nat.xor_zero, if_neg (by omega), if_pos rfl]

theorem exact_of_inverts (inverts : crc.Inverts) : crc.Exact := by
  refine Decidable.byContradiction fun inexact => ?_
  have quiet : ∀ state, crc.update (crc.stateComp ^^^ state) [crc.quiet] =
      (crc.forward state false >>= fun next => crc.forwardBits next (List.replicate 7 false)).map (crc.stateComp ^^^ ·) := by
    intro state
    rw [update_eq, comp_comp, bitsOf_quiet]
    rfl
  have positive : 0 < crc.order := order_pos
  cases layout : crc.order0AtLsb with
  | true =>
    have small : 2 ^ (crc.order - 1) < 2 ^ crc.order := Nat.pow_lt_pow_right (by decide) (by omega)
    have returns := (inverts _ [crc.quiet] (complemented_lt small)).1
    rw [quiet, forward_raises layout inexact (by rw [Nat.testBit_two_pow_self]; rfl)] at returns
    cases returns
  | false =>
    have poly : crc.poly < 2 ^ crc.order := lt_of_clear crc.poly_lt (Bool.eq_false_of_not_eq_true inexact)
    have small : 1 < 2 ^ crc.order := Nat.one_lt_two_pow (by omega)
    have one := (inverts _ [crc.quiet] (complemented_lt small)).1
    have other := (inverts _ [crc.quiet] (complemented_lt (Nat.xor_lt_two_pow small poly))).1
    rw [quiet, forward_loses layout, ← quiet, one] at other
    have same : 1 = 1 ^^^ crc.poly := by
      have twice := congrArg (crc.stateComp ^^^ ·) (Except.ok.inj other)
      simpa only [comp_comp] using twice
    have odd := crc.poly_odd
    have none : crc.poly = 0 := by
      have cancelled : 1 ^^^ 1 = 1 ^^^ (1 ^^^ crc.poly) := congrArg (1 ^^^ ·) same
      rw [← Nat.xor_assoc, Nat.xor_self, Nat.zero_xor] at cancelled
      exact cancelled.symm
    omega

theorem create_exact {log2 : Log2} {arguments : Arguments} (created : create log2 arguments = .ok crc) :
    crc.Exact ↔ log2.value arguments.poly = Nat.log2 arguments.poly := by
  obtain ⟨order, same⟩ := create_ok created
  have poly : crc.poly = arguments.poly := by rw [same]
  have nonzero : arguments.poly ≠ 0 := by
    have odd := crc.poly_odd
    omega
  rw [Exact, order, poly]
  constructor
  · intro set
    refine Nat.le_antisymm (Nat.le_of_not_lt fun beyond => ?_) (log2.log2_le arguments.poly)
    rw [Nat.testBit_lt_two_pow ((Nat.log2_lt nonzero).mp beyond)] at set
    cases set
  · intro exact
    rw [exact]
    exact Nat.testBit_log2 nonzero

/-- What is fed can be taken back just where the logarithm of the polynomial is not rounded up. -/
theorem inverts_iff {log2 : Log2} {arguments : Arguments} (created : create log2 arguments = .ok crc) :
    crc.Inverts ↔ log2.value arguments.poly = Nat.log2 arguments.poly := by
  rw [← create_exact created]
  exact ⟨exact_of_inverts, inverts_of_exact⟩

def reflectedCcitt : Arguments := ⟨0x10811, 0, true, false, false, true, false, .little⟩

theorem inverts_iff_ccitt : ∃ crc, create doubleLog2 reflectedCcitt = .ok crc ∧
    (crc.Inverts ↔ doubleLog2.value reflectedCcitt.poly = Nat.log2 reflectedCcitt.poly) :=
  ⟨_, rfl, inverts_iff rfl⟩

def roundedUp : Arguments := ⟨2 ^ 54 - 1, 0, true, false, false, false, false, .little⟩

theorem rounded_order_not_inverted :
    ¬∀ (log2 : Log2) (arguments : Arguments) (crc : Crc), create log2 arguments = .ok crc → crc.Inverts := by
  intro all
  obtain ⟨crc, created⟩ : ∃ crc, create doubleLog2 roundedUp = .ok crc := ⟨_, rfl⟩
  have exact := (create_exact created).mp (exact_of_inverts (all doubleLog2 roundedUp crc created))
  revert exact
  decide

end Crc

end Acrobe.Checksum
