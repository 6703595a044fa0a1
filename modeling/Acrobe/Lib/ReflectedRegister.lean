import Mathlib

/-!
# Reflected shift registers

A register that is divided by a polynomial one bit at a time, the lowest bit leaving first. Feeding a
word is the same as adding it to the register and shifting, so feeding the register its own value
leaves what a register of zero has.
-/

namespace ReflectedCrc

/-- The low bits of a word, lowest first. -/
def lowBits (word : Nat) : Nat → List Bool
  | 0 => []
  | count + 1 => (word % 2 == 1) :: lowBits (word / 2) count

def shift (poly state : Nat) : Nat := (if state % 2 = 1 then state ^^^ poly else state) >>> 1

def feed (poly state : Nat) (bit : Bool) : Nat := shift poly (state ^^^ bit.toNat)

variable {poly : Nat}

theorem shift_xor (left right : Nat) : shift poly (left ^^^ right) = shift poly left ^^^ shift poly right := by
  unfold shift
  rw [← Nat.shiftRight_xor_distrib]
  congr 1
  by_cases odd : left % 2 = 1
  · by_cases odd' : right % 2 = 1
    · rw [if_neg (by rw [Nat.xor_mod_two_eq_one, odd, odd']; decide), if_pos odd, if_pos odd', Nat.xor_comm right,
        ← Nat.xor_assoc, Nat.xor_assoc left, Nat.xor_self, Nat.xor_zero]
    · rw [if_pos (Nat.xor_mod_two_eq_one.mpr fun same => odd' (same.mp odd)), if_pos odd, if_neg odd', Nat.xor_assoc,
        Nat.xor_comm right, ← Nat.xor_assoc]
  · by_cases odd' : right % 2 = 1
    · rw [if_pos (Nat.xor_mod_two_eq_one.mpr fun same => odd (same.mpr odd')), if_neg odd, if_pos odd', Nat.xor_assoc]
    · rw [if_neg (fun both => Nat.xor_mod_two_eq_one.mp both ⟨fun yes => absurd yes odd, fun yes => absurd yes odd'⟩),
        if_neg odd, if_neg odd']

theorem shift_double (word : Nat) : shift poly (2 * word) = word := by
  rw [shift, if_neg (by omega), Nat.shiftRight_one]
  omega

theorem low_xor_double (word : Nat) (bit : Bool) : bit.toNat ^^^ (2 * word) = bit.toNat + 2 * word := by
  apply Nat.eq_of_testBit_eq
  intro i
  cases bit with
  | false => rw [Bool.toNat_false, Nat.zero_xor, Nat.zero_add]
  | true =>
    rw [Bool.toNat_true, Nat.testBit_xor]
    cases i with
    | zero => simp [Nat.testBit_zero]
    | succ i =>
      rw [Nat.testBit_succ, Nat.testBit_succ, Nat.testBit_succ]
      have whole : (1 + 2 * word) / 2 = word := by omega
      have double : 2 * word / 2 = word := by omega
      rw [whole, double]
      simp

theorem toNat_odd (word : Nat) : (word % 2 == 1).toNat = word % 2 := by
  obtain even | odd := Nat.mod_two_eq_zero_or_one word
  · rw [even]
    rfl
  · rw [odd]
    rfl

theorem feed_lowBits (state word count : Nat) :
    (lowBits word count).foldl (feed poly) state = (shift poly)^[count] (state ^^^ (word % 2 ^ count)) := by
  induction count generalizing state word with
  | zero => rw [Nat.pow_zero, Nat.mod_one, Nat.xor_zero]; rfl
  | succ count ih =>
    have parts : word % 2 ^ (count + 1) = (word % 2 == 1).toNat ^^^ (2 * (word / 2 % 2 ^ count)) := by
      rw [low_xor_double, toNat_odd, Nat.pow_succ, Nat.mul_comm (2 ^ count), Nat.mod_mul]
    rw [lowBits, List.foldl_cons, ih, Function.iterate_succ_apply, parts, ← Nat.xor_assoc, shift_xor, shift_double]
    rfl

theorem feed_complement {state word count : Nat} (value : state ^^^ (word % 2 ^ count) = 2 ^ count - 1) :
    (lowBits word count).foldl (feed poly) state = (lowBits 0 count).foldl (feed poly) (2 ^ count - 1) := by
  rw [feed_lowBits, feed_lowBits, value, Nat.zero_mod, Nat.xor_zero]

end ReflectedCrc

/-!
## Reflected registers as a ring

The register of `ReflectedCrc`, of a given width, with the step that takes a bit back and the product of two states.
The shift is linear over the exclusive or. Linear maps that commute with it are determined at the unit, from which the
shift reaches every power of two, so that the products commute and powers add up.
-/

namespace ReflectedCrc

def Linear (f : Nat → Nat) : Prop := ∀ left right, f (left ^^^ right) = f left ^^^ f right

def unfeed (poly width state : Nat) (bit : Bool) : Nat :=
  (if (2 * state).testBit width then (2 * state) ^^^ poly else 2 * state) ^^^ bit.toNat

/-- The sum of the shifts of a state that a list of coefficients selects. -/
def combination (poly : Nat) : List Bool → Nat → Nat
  | [], _ => 0
  | bit :: bits, state => (if bit then state else 0) ^^^ combination poly bits (shift poly state)

/-- The coefficients of a state, lowest exponent first. -/
def coefficients (width state : Nat) : List Bool := (lowBits state width).reverse

def product (poly width left right : Nat) : Nat := combination poly (coefficients width right) left

def unit (width : Nat) : Nat := 2 ^ (width - 1)

def power (poly width result base n : Nat) : Nat :=
  if n = 0 then result
  else power poly width (if n % 2 = 1 then product poly width result base else result) (product poly width base base) (n / 2)

variable {poly width : Nat}

/-! ### Linear maps -/

theorem Linear.zero {f : Nat → Nat} (linear : Linear f) : f 0 = 0 := by
  have twice := linear 0 0
  rwa [Nat.xor_self, Nat.xor_self] at twice

theorem linear_shift : Linear (shift poly) := shift_xor

theorem Linear.comp {f g : Nat → Nat} (first : Linear f) (second : Linear g) : Linear fun state => f (g state) := by
  intro left right
  exact (congrArg f (second left right)).trans (first _ _)

theorem Linear.iterate {f : Nat → Nat} (linear : Linear f) (n : Nat) : Linear f^[n] := by
  induction n with
  | zero => exact fun _ _ => rfl
  | succ n ih =>
    intro left right
    rw [Function.iterate_succ_apply', Function.iterate_succ_apply', Function.iterate_succ_apply', ih, linear]

theorem xor_two_pow_lt {state : Nat} (small : state < 2 ^ (width + 1)) (large : 2 ^ width ≤ state) :
    state ^^^ 2 ^ width < 2 ^ width := by
  have top : state.testBit width = true := Nat.testBit_of_two_pow_le_and_two_pow_add_one_gt large small
  apply Nat.lt_pow_two_of_testBit
  intro i above
  rw [Nat.testBit_xor, Nat.testBit_two_pow]
  by_cases same : width = i
  · subst same
    rw [top]
    simp
  · have high : state.testBit i = false :=
      Nat.testBit_lt_two_pow (Nat.lt_of_lt_of_le small (Nat.pow_le_pow_right (by decide) (by omega)))
    rw [high]
    simp [same]

/-- Linear maps that agree on the powers of two agree on all words. -/
theorem Linear.eq_of_powers {f g : Nat → Nat} (first : Linear f) (second : Linear g)
    (agree : ∀ i, i < width → f (2 ^ i) = g (2 ^ i)) {state : Nat} (small : state < 2 ^ width) : f state = g state := by
  induction width generalizing state with
  | zero =>
    obtain rfl : state = 0 := by simpa using small
    rw [first.zero, second.zero]
  | succ width ih =>
    have below : ∀ {state}, state < 2 ^ width → f state = g state := ih fun i inside => agree i (by omega)
    by_cases low : state < 2 ^ width
    · exact below low
    · have rest := below (xor_two_pow_lt small (Nat.le_of_not_lt low))
      have whole : state = (state ^^^ 2 ^ width) ^^^ 2 ^ width := by
        rw [Nat.xor_assoc, Nat.xor_self, Nat.xor_zero]
      rw [whole, first, second, rest, agree width (Nat.lt_succ_self width)]

/-! ### Steps -/

theorem bit_lt (bit : Bool) (positive : 0 < width) : bit.toNat < 2 ^ width :=
  Nat.lt_of_le_of_lt (Bool.toNat_le bit) (Nat.one_lt_two_pow (by omega))

theorem shift_lt {state : Nat} (degree : poly < 2 ^ (width + 1)) (small : state < 2 ^ width) :
    shift poly state < 2 ^ width := by
  have wide : state < 2 ^ (width + 1) := Nat.lt_trans small (Nat.pow_lt_pow_right (by decide) (Nat.lt_succ_self width))
  have summed : (if state % 2 = 1 then state ^^^ poly else state) < 2 ^ (width + 1) := by
    split
    · exact Nat.xor_lt_two_pow wide degree
    · exact wide
  rw [Nat.pow_succ] at summed
  rw [shift, Nat.shiftRight_one]
  omega

theorem feed_lt {state : Nat} (degree : poly < 2 ^ (width + 1)) (positive : 0 < width) (small : state < 2 ^ width)
    (bit : Bool) : feed poly state bit < 2 ^ width :=
  shift_lt degree (Nat.xor_lt_two_pow small (bit_lt bit positive))

theorem foldl_feed_lt {state : Nat} (degree : poly < 2 ^ (width + 1)) (positive : 0 < width) (small : state < 2 ^ width)
    (bits : List Bool) : bits.foldl (feed poly) state < 2 ^ width := by
  induction bits generalizing state with
  | nil => exact small
  | cons bit bits ih => exact ih (feed_lt degree positive small bit)

theorem iterate_shift_lt {state : Nat} (degree : poly < 2 ^ (width + 1)) (small : state < 2 ^ width) (n : Nat) :
    (shift poly)^[n] state < 2 ^ width := by
  induction n generalizing state with
  | zero => exact small
  | succ n ih => exact ih (shift_lt degree small)

theorem double_shift {state : Nat} (odd : poly % 2 = 1) :
    2 * shift poly state = if state % 2 = 1 then state ^^^ poly else state := by
  rw [shift, Nat.shiftRight_one]
  split
  · rename_i fed
    have even : (state ^^^ poly) % 2 = 0 := by
      have := @Nat.xor_mod_two_eq_one state poly
      omega
    omega
  · omega

theorem unfeed_feed {state : Nat} (odd : poly % 2 = 1) (monic : poly.testBit width = true) (positive : 0 < width)
    (small : state < 2 ^ width) (bit : Bool) : unfeed poly width (feed poly state bit) bit = state := by
  have fed : (state ^^^ bit.toNat).testBit width = false :=
    Nat.testBit_lt_two_pow (Nat.xor_lt_two_pow small (bit_lt bit positive))
  have whole : ((state ^^^ bit.toNat) ^^^ bit.toNat) = state := by
    rw [Nat.xor_assoc, Nat.xor_self, Nat.xor_zero]
  rw [unfeed, feed, double_shift odd]
  split
  · rw [Nat.testBit_xor, fed, monic, if_pos (by decide), Nat.xor_assoc _ poly poly, Nat.xor_self, Nat.xor_zero, whole]
  · rw [if_neg (by rw [fed]; exact Bool.false_ne_true), whole]

theorem unfeed_lt {state : Nat} (monic : poly.testBit width = true) (degree : poly < 2 ^ (width + 1))
    (positive : 0 < width) (small : state < 2 ^ width) (bit : Bool) : unfeed poly width state bit < 2 ^ width := by
  have wide : 2 * state < 2 ^ (width + 1) := by
    rw [Nat.pow_succ]
    omega
  rw [unfeed]
  refine Nat.xor_lt_two_pow ?_ (bit_lt bit positive)
  split
  · rename_i high
    apply Nat.lt_pow_two_of_testBit
    intro i above
    rw [Nat.testBit_xor]
    rcases Nat.eq_or_lt_of_le above with rfl | beyond
    · rw [high, monic]
      rfl
    · have limit : 2 ^ (width + 1) ≤ 2 ^ i := Nat.pow_le_pow_right (by decide) beyond
      rw [Nat.testBit_lt_two_pow (Nat.lt_of_lt_of_le wide limit), Nat.testBit_lt_two_pow (Nat.lt_of_lt_of_le degree limit)]
      rfl
  · rename_i low
    refine Nat.lt_of_not_le fun large => low ?_
    exact Nat.testBit_of_two_pow_le_and_two_pow_add_one_gt large wide

theorem feed_unfeed {state : Nat} (odd : poly % 2 = 1) (bit : Bool) :
    feed poly (unfeed poly width state bit) bit = state := by
  have whole : ∀ word, ((word ^^^ bit.toNat) ^^^ bit.toNat) = word := by
    intro word
    rw [Nat.xor_assoc, Nat.xor_self, Nat.xor_zero]
  rw [feed, unfeed, whole]
  split
  · have flipped : (2 * state ^^^ poly) % 2 = 1 := by
      rw [Nat.xor_mod_two_eq_one]
      omega
    rw [shift, if_pos flipped, Nat.xor_assoc, Nat.xor_self, Nat.xor_zero, Nat.shiftRight_one]
    omega
  · exact shift_double state

theorem feed_false (state : Nat) : feed poly state false = shift poly state := by
  rw [feed, Bool.toNat_false, Nat.xor_zero]

theorem shift_injective (odd : poly % 2 = 1) (monic : poly.testBit width = true) (positive : 0 < width) {left right : Nat}
    (small : left < 2 ^ width) (small' : right < 2 ^ width) (same : shift poly left = shift poly right) : left = right := by
  have one := unfeed_feed odd monic positive small false
  have other := unfeed_feed odd monic positive small' false
  rw [feed_false] at one other
  rw [← one, same, other]

theorem iterate_shift_injective (odd : poly % 2 = 1) (monic : poly.testBit width = true) (degree : poly < 2 ^ (width + 1))
    (positive : 0 < width) {left right : Nat} (small : left < 2 ^ width) (small' : right < 2 ^ width) (n : Nat)
    (same : (shift poly)^[n] left = (shift poly)^[n] right) : left = right := by
  induction n generalizing left right with
  | zero => exact same
  | succ n ih => exact shift_injective odd monic positive small small' (ih (shift_lt degree small) (shift_lt degree small') same)

theorem iterate_shift_surjective (odd : poly % 2 = 1) (monic : poly.testBit width = true) (degree : poly < 2 ^ (width + 1))
    (positive : 0 < width) {target : Nat} (small : target < 2 ^ width) (n : Nat) :
    ∃ state, state < 2 ^ width ∧ (shift poly)^[n] state = target := by
  induction n with
  | zero => exact ⟨target, small, rfl⟩
  | succ n ih =>
    obtain ⟨state, inside, reached⟩ := ih
    refine ⟨unfeed poly width state false, unfeed_lt monic degree positive inside false, ?_⟩
    rw [Function.iterate_succ_apply, ← feed_false, feed_unfeed odd, reached]

/-! ### Products -/

theorem linear_combine (bits : List Bool) : Linear (combination poly bits) := by
  induction bits with
  | nil => exact fun _ _ => (Nat.xor_self 0).symm
  | cons bit bits ih =>
    intro left right
    rw [combination, combination, combination, linear_shift, ih]
    cases bit with
    | false => simp
    | true =>
      simp only [if_true]
      ac_rfl

theorem combination_shift (bits : List Bool) : Function.Commute (combination poly bits) (shift poly) := by
  induction bits with
  | nil => exact fun _ => linear_shift.zero.symm
  | cons bit bits ih =>
    intro state
    rw [combination, combination, linear_shift, ih]
    cases bit with
    | false => simp [linear_shift.zero]
    | true => simp

theorem combination_commutes {f : Nat → Nat} (linear : Linear f) (commutes : Function.Commute f (shift poly))
    (bits : List Bool) (state : Nat) : f (combination poly bits state) = combination poly bits (f state) := by
  induction bits generalizing state with
  | nil => exact linear.zero
  | cons bit bits ih =>
    rw [combination, combination, linear, ih, commutes]
    cases bit with
    | false => simp [linear.zero]
    | true => simp

theorem combination_lt {state : Nat} (degree : poly < 2 ^ (width + 1)) (small : state < 2 ^ width) (bits : List Bool) :
    combination poly bits state < 2 ^ width := by
  induction bits generalizing state with
  | nil => exact Nat.two_pow_pos width
  | cons bit bits ih =>
    refine Nat.xor_lt_two_pow ?_ (ih (shift_lt degree small))
    split
    · exact small
    · exact Nat.two_pow_pos width

theorem product_lt {left : Nat} (degree : poly < 2 ^ (width + 1)) (small : left < 2 ^ width) (right : Nat) :
    product poly width left right < 2 ^ width := combination_lt degree small _

theorem iterate_shift_two_pow (i n : Nat) : (shift poly)^[n] (2 ^ (i + n)) = 2 ^ i := by
  induction n with
  | zero => rfl
  | succ n ih =>
    have halved : shift poly (2 ^ (i + (n + 1))) = 2 ^ (i + n) := by
      rw [show i + (n + 1) = (i + n) + 1 by omega, Nat.pow_succ, Nat.mul_comm, shift_double]
    rw [Function.iterate_succ_apply, halved, ih]

/-- Linear maps that commute with the shift are determined at the unit. -/
theorem eq_of_unit {f g : Nat → Nat} (first : Linear f) (second : Linear g) (commutes : Function.Commute f (shift poly))
    (commutes' : Function.Commute g (shift poly)) (same : f (unit width) = g (unit width)) {state : Nat}
    (small : state < 2 ^ width) : f state = g state := by
  refine first.eq_of_powers second (fun i inside => ?_) small
  have reached := @iterate_shift_two_pow poly i (width - 1 - i)
  rw [show i + (width - 1 - i) = width - 1 by omega] at reached
  have one := commutes.iterate_right (width - 1 - i) (unit width)
  have other := commutes'.iterate_right (width - 1 - i) (unit width)
  rw [← reached]
  exact one.trans ((congrArg _ same).trans other.symm)

theorem lowBits_snoc (word n : Nat) : lowBits word (n + 1) = lowBits word n ++ [word.testBit n] := by
  induction n generalizing word with
  | zero => simp [lowBits, Nat.testBit_zero, beq_eq_decide]
  | succ n ih =>
    rw [lowBits, ih, lowBits, Nat.testBit_succ]
    rfl

theorem top_xor_mod (word n : Nat) : (if word.testBit n then 2 ^ n else 0) ^^^ word % 2 ^ n = word % 2 ^ (n + 1) := by
  apply Nat.eq_of_testBit_eq
  intro i
  rw [Nat.testBit_xor, Nat.testBit_mod_two_pow, Nat.testBit_mod_two_pow]
  rcases Nat.lt_trichotomy i n with below | rfl | above
  · have clear : (if word.testBit n then 2 ^ n else 0).testBit i = false := by
      split
      · rw [Nat.testBit_two_pow]
        simp
        omega
      · exact Nat.zero_testBit i
    rw [clear, decide_eq_true below, decide_eq_true (show i < n + 1 by omega)]
    simp
  · have top : (if word.testBit i then 2 ^ i else 0).testBit i = word.testBit i := by
      split
      · rename_i set
        rw [Nat.testBit_two_pow_self, set]
      · rename_i clear
        rw [Nat.zero_testBit, Bool.eq_false_of_not_eq_true clear]
    rw [top]
    simp
  · have clear : (if word.testBit n then 2 ^ n else 0).testBit i = false := by
      split
      · rw [Nat.testBit_two_pow]
        simp
        omega
      · exact Nat.zero_testBit i
    rw [clear, decide_eq_false (show ¬i < n by omega), decide_eq_false (show ¬i < n + 1 by omega)]
    simp

theorem combination_coefficients (word n : Nat) : combination poly (coefficients n word) (2 ^ (n - 1)) = word % 2 ^ n := by
  induction n with
  | zero => rw [Nat.pow_zero, Nat.mod_one]; rfl
  | succ n ih =>
    have split : coefficients (n + 1) word = word.testBit n :: coefficients n word := by
      rw [coefficients, lowBits_snoc, List.reverse_append]
      rfl
    rw [split, combination, Nat.add_sub_cancel, ← top_xor_mod word n, ← ih]
    cases n with
    | zero => rfl
    | succ n =>
      have halved : shift poly (2 ^ (n + 1)) = 2 ^ n := by rw [Nat.pow_succ, Nat.mul_comm, shift_double]
      rw [halved, Nat.add_sub_cancel]

theorem product_unit {state : Nat} (small : state < 2 ^ width) : product poly width (unit width) state = state := by
  rw [product, unit, combination_coefficients, Nat.mod_eq_of_lt small]

theorem product_comm {left right : Nat} (small : left < 2 ^ width) (small' : right < 2 ^ width) :
    product poly width left right = product poly width right left := by
  have one : combination poly (coefficients width left) (unit width) = left := product_unit small
  have other : combination poly (coefficients width right) (unit width) = right := product_unit small'
  have commutes := combination_commutes (@linear_combine poly (coefficients width right))
    (combination_shift (coefficients width right)) (coefficients width left) (unit width)
  rw [one, other] at commutes
  exact commutes

theorem product_product {left right state : Nat} (degree : poly < 2 ^ (width + 1)) (small : left < 2 ^ width)
    (inside : state < 2 ^ width) : product poly width state (product poly width left right) =
      product poly width (product poly width state left) right := by
  refine eq_of_unit (linear_combine _) ((linear_combine _).comp (linear_combine _)) (combination_shift _)
    (fun state => ?_) ?_ inside
  · dsimp only
    rw [combination_shift, combination_shift]
  · change product poly width (unit width) (product poly width left right) =
      product poly width (product poly width (unit width) left) right
    rw [product_unit (product_lt degree small right), product_unit small]

/-! ### Powers -/

theorem power_lt {result : Nat} (degree : poly < 2 ^ (width + 1)) (small : result < 2 ^ width) (base n : Nat) :
    power poly width result base n < 2 ^ width := by
  fun_induction power poly width result base n with
  | case1 => exact small
  | case2 result base n more ih =>
    apply ih
    split
    · exact product_lt degree small base
    · exact small

theorem iterate_congr {f g : Nat → Nat} (agree : ∀ state, state < 2 ^ width → f state = g state)
    (keeps : ∀ state, state < 2 ^ width → g state < 2 ^ width) {state : Nat} (small : state < 2 ^ width) (n : Nat) :
    f^[n] state = g^[n] state := by
  induction n generalizing state with
  | zero => rfl
  | succ n ih => rw [Function.iterate_succ_apply, Function.iterate_succ_apply, agree state small, ih (keeps state small)]

theorem product_power {result base state : Nat} (degree : poly < 2 ^ (width + 1)) (small : result < 2 ^ width)
    (small' : base < 2 ^ width) (inside : state < 2 ^ width) (n : Nat) :
    product poly width state (power poly width result base n) =
      (fun state => product poly width state base)^[n] (product poly width state result) := by
  induction n using Nat.strong_induction_on generalizing result base state with
  | _ n ih =>
    rw [power]
    split
    · rename_i none
      rw [none]
      rfl
    · rename_i some
      have squared := product_lt degree small' base
      have twice : ∀ state, state < 2 ^ width → product poly width state (product poly width base base) =
          (fun state => product poly width state base)^[2] state :=
        fun state inside => product_product degree small' inside
      have keeps : ∀ state, state < 2 ^ width → (fun state => product poly width state base)^[2] state < 2 ^ width :=
        fun state inside => product_lt degree (product_lt degree inside base) base
      split
      · rename_i odd
        have started : product poly width state (product poly width result base) < 2 ^ width := product_lt degree inside _
        rw [ih (n / 2) (by omega) (product_lt degree small base) squared inside, iterate_congr twice keeps started,
          ← Function.iterate_mul, product_product degree small inside]
        change (fun state => product poly width state base)^[2 * (n / 2)]
          ((fun state => product poly width state base) (product poly width state result)) = _
        rw [← Function.iterate_succ_apply, show (2 * (n / 2)).succ = n by omega]
      · have started : product poly width state result < 2 ^ width := product_lt degree inside _
        rw [ih (n / 2) (by omega) small squared inside, iterate_congr twice keeps started, ← Function.iterate_mul,
          show 2 * (n / 2) = n by omega]

theorem product_seek {state : Nat} (degree : poly < 2 ^ (width + 1)) (wide : 2 ≤ width) (small : state < 2 ^ width)
    (n : Nat) : product poly width state (power poly width (unit width) (2 ^ (width - 2)) n) = (shift poly)^[n] state := by
  have one : unit width < 2 ^ width := Nat.pow_lt_pow_right (by decide) (by omega)
  have two : 2 ^ (width - 2) < 2 ^ width := Nat.pow_lt_pow_right (by decide) (by omega)
  have identity : product poly width state (unit width) = state := by
    rw [product_comm small one, product_unit small]
  have shifted : shift poly (unit width) = 2 ^ (width - 2) := by
    rw [unit, show width - 1 = (width - 2) + 1 by omega, Nat.pow_succ, Nat.mul_comm, shift_double]
  have step : ∀ state, state < 2 ^ width → product poly width state (2 ^ (width - 2)) = shift poly state := by
    intro state inside
    refine eq_of_unit (linear_combine _) linear_shift (combination_shift _) (Function.Commute.refl _) ?_ inside
    exact (product_unit two).trans shifted.symm
  rw [product_power degree one two small, identity, iterate_congr step (fun _ => shift_lt degree) small]

/-! ### Polynomials without their highest bit -/

theorem unfeed_ge {state : Nat} (degree : poly < 2 ^ width) (large : 2 ^ width ≤ 2 * state) :
    2 ^ width ≤ unfeed poly width state false := by
  rw [unfeed, Bool.toNat_false, Nat.xor_zero]
  split
  · refine Nat.le_of_not_lt fun small => ?_
    have quotient : (2 * state ^^^ poly) >>> width = (2 * state) >>> width := by
      rw [Nat.shiftRight_xor_distrib, Nat.shiftRight_eq_div_pow poly, Nat.div_eq_of_lt degree, Nat.xor_zero]
    rw [Nat.shiftRight_eq_div_pow, Nat.shiftRight_eq_div_pow, Nat.div_eq_of_lt small] at quotient
    have positive := Nat.div_pos large (Nat.two_pow_pos width)
    omega
  · exact large

theorem iterate_unfeed_ge {state : Nat} (degree : poly < 2 ^ width) (large : 2 ^ width ≤ 2 * state) (n : Nat) :
    2 ^ width ≤ (fun state => unfeed poly width state false)^[n + 1] state := by
  induction n generalizing state with
  | zero => exact unfeed_ge degree large
  | succ n ih =>
    have step := unfeed_ge degree large
    rw [Function.iterate_succ_apply]
    exact ih (by omega)

/-- A step back within the width. -/
def unfeedLow (poly width state : Nat) : Nat := unfeed poly width state false % 2 ^ width

theorem unfeedLow_mod (positive : 0 < width) (state : Nat) :
    unfeedLow poly width (state % 2 ^ width) = unfeedLow poly width state := by
  have doubled : ∀ word i, (2 * word).testBit i = (decide (1 ≤ i) && word.testBit (i - 1)) := by
    intro word i
    cases i with
    | zero => simp [Nat.testBit_zero]
    | succ i =>
      rw [Nat.testBit_succ, Nat.mul_div_cancel_left _ (by decide)]
      simp
  have top : (2 * (state % 2 ^ width)).testBit width = (2 * state).testBit width := by
    rw [doubled, doubled, Nat.testBit_mod_two_pow, decide_eq_true (show width - 1 < width by omega), Bool.true_and]
  have low : 2 * (state % 2 ^ width) % 2 ^ width = 2 * state % 2 ^ width := by
    rw [Nat.mul_mod, Nat.mod_mod, ← Nat.mul_mod]
  rw [unfeedLow, unfeedLow, unfeed, unfeed, top, Bool.toNat_false, Nat.xor_zero, Nat.xor_zero]
  split
  · rw [Nat.xor_mod_two_pow, low, ← Nat.xor_mod_two_pow]
  · exact low

theorem iterate_unfeed_mod (positive : 0 < width) (state n : Nat) :
    (fun state => unfeed poly width state false)^[n] state % 2 ^ width = (unfeedLow poly width)^[n] (state % 2 ^ width) := by
  induction n generalizing state with
  | zero => rfl
  | succ n ih =>
    rw [Function.iterate_succ_apply, Function.iterate_succ_apply, ih, unfeedLow_mod positive]
    rfl

/-- A step back and a step forward lose the highest bit. -/
theorem shift_unfeedLow (odd : poly % 2 = 1) (degree : poly < 2 ^ width) (positive : 0 < width) (state : Nat) :
    shift poly (unfeedLow poly width state) = state % 2 ^ (width - 1) := by
  have halves : 2 ^ width = 2 * 2 ^ (width - 1) := by
    rw [← Nat.pow_succ']
    congr 1
    omega
  have low : 2 * state % 2 ^ width = 2 * (state % 2 ^ (width - 1)) := by rw [halves, Nat.mul_mod_mul_left]
  rw [unfeedLow, unfeed, Bool.toNat_false, Nat.xor_zero]
  split
  · have word : (2 * state ^^^ poly) % 2 ^ width = 2 * (state % 2 ^ (width - 1)) ^^^ poly := by
      rw [Nat.xor_mod_two_pow, low, Nat.mod_eq_of_lt degree]
    have flipped : (2 * (state % 2 ^ (width - 1)) ^^^ poly) % 2 = 1 := by
      rw [Nat.xor_mod_two_eq_one]
      omega
    rw [word, shift, if_pos flipped, Nat.xor_assoc, Nat.xor_self, Nat.xor_zero, Nat.shiftRight_one]
    omega
  · rw [low, shift_double]

theorem dvd_xor {k left right : Nat} (one : 2 ^ k ∣ left) (other : 2 ^ k ∣ right) : 2 ^ k ∣ left ^^^ right := by
  apply Nat.dvd_of_mod_eq_zero
  rw [Nat.xor_mod_two_pow, Nat.mod_eq_zero_of_dvd one, Nat.mod_eq_zero_of_dvd other, Nat.xor_zero]

theorem iterate_shift_unfeedLow (odd : poly % 2 = 1) (degree : poly < 2 ^ width) {state n : Nat} (small : state < 2 ^ width)
    (short : n ≤ width) : ∃ lost, lost < 2 ^ width ∧ 2 ^ (width - n) ∣ lost ∧
      (shift poly)^[n] ((unfeedLow poly width)^[n] state) = state ^^^ lost := by
  induction n generalizing state with
  | zero => exact ⟨0, Nat.two_pow_pos width, Nat.dvd_zero _, (Nat.xor_zero state).symm⟩
  | succ n ih =>
    have next : unfeedLow poly width state < 2 ^ width := Nat.mod_lt _ (Nat.two_pow_pos width)
    obtain ⟨lost, inside, high, reached⟩ := ih next (by omega)
    obtain ⟨half, rfl⟩ : ∃ half, lost = 2 * half := by
      obtain ⟨factor, rfl⟩ := high
      refine ⟨2 ^ (width - (n + 1)) * factor, ?_⟩
      rw [← Nat.mul_assoc, ← Nat.pow_succ', show (width - (n + 1)).succ = width - n by omega]
    have halved : 2 ^ (width - (n + 1)) ∣ half := by
      have same : 2 ^ (width - n) = 2 * 2 ^ (width - (n + 1)) := by
        rw [← Nat.pow_succ']
        congr 1
        omega
      rw [same] at high
      exact Nat.dvd_of_mul_dvd_mul_left (by decide) high
    have back : (shift poly)^[n + 1] ((unfeedLow poly width)^[n + 1] state) = state % 2 ^ (width - 1) ^^^ half := by
      rw [Function.iterate_succ_apply (unfeedLow poly width), Function.iterate_succ_apply', reached, shift_xor, shift_double,
        shift_unfeedLow odd degree (by omega)]
    have top : 2 ^ (width - 1) ∣ state % 2 ^ (width - 1) ^^^ state := by
      apply Nat.dvd_of_mod_eq_zero
      rw [Nat.xor_mod_two_pow, Nat.mod_mod, Nat.xor_self]
    refine ⟨(state % 2 ^ (width - 1) ^^^ state) ^^^ half, ?_, ?_, ?_⟩
    · exact Nat.xor_lt_two_pow (Nat.xor_lt_two_pow (Nat.lt_of_le_of_lt (Nat.mod_le _ _) small) small) (by omega)
    · exact dvd_xor (Nat.dvd_trans (Nat.pow_dvd_pow 2 (by omega)) top) halved
    · rw [back, ← Nat.xor_assoc, Nat.xor_comm state, Nat.xor_assoc (state % 2 ^ (width - 1)), Nat.xor_self, Nat.xor_zero]

theorem half_poly_lost (odd : poly % 2 = 1) (degree : poly < 2 ^ width) (near : 2 ^ (width - 1) ≤ poly) (wide : 2 ≤ width) :
    (shift poly)^[width] ((unfeedLow poly width)^[width] (poly / 2)) ≠ poly / 2 := by
  obtain ⟨rest, rfl⟩ : ∃ rest, width = rest + 2 := ⟨width - 2, by omega⟩
  rw [show rest + 2 - 1 = rest + 1 by omega] at near
  have powers : 2 ^ (rest + 2) = 4 * 2 ^ rest := by
    rw [Nat.pow_add, Nat.mul_comm]
  have powers' : 2 ^ (rest + 1) = 2 * 2 ^ rest := Nat.pow_succ'
  have first : unfeedLow poly (rest + 2) (poly / 2) = 2 * (poly / 2) := by
    have clear : (2 * (poly / 2)).testBit (rest + 2) = false := Nat.testBit_lt_two_pow (by omega)
    rw [unfeedLow, unfeed, clear, if_neg (by decide), Bool.toNat_false, Nat.xor_zero, Nat.mod_eq_of_lt (by omega)]
  have started : unfeedLow poly (rest + 2) (2 * (poly / 2)) < 2 ^ (rest + 2) := Nat.mod_lt _ (Nat.two_pow_pos _)
  obtain ⟨lost, inside, high, reached⟩ := iterate_shift_unfeedLow odd degree started (show rest ≤ rest + 2 by omega)
  obtain ⟨quarter, rfl⟩ : ∃ quarter, lost = 2 * (2 * quarter) := by
    obtain ⟨factor, rfl⟩ := high
    refine ⟨factor, ?_⟩
    rw [show rest + 2 - rest = 2 by omega]
    omega
  have second : shift poly (unfeedLow poly (rest + 2) (2 * (poly / 2))) = 2 * (poly / 2 % 2 ^ rest) := by
    rw [shift_unfeedLow odd degree (by omega), show rest + 2 - 1 = rest + 1 by omega, powers', Nat.mul_mod_mul_left]
  have value : (shift poly)^[rest + 2] ((unfeedLow poly (rest + 2))^[rest + 2] (poly / 2)) = poly / 2 % 2 ^ rest ^^^ quarter := by
    rw [show rest + 2 = 2 + rest by omega, Function.iterate_add_apply _ 2 rest, show 2 + rest = rest + 2 by omega,
      Function.iterate_add_apply (unfeedLow poly (rest + 2)) rest 2]
    change shift poly (shift poly ((shift poly)^[rest] ((unfeedLow poly (rest + 2))^[rest]
      (unfeedLow poly (rest + 2) (unfeedLow poly (rest + 2) (poly / 2)))))) = _
    rw [first, reached, shift_xor, shift_double, second, shift_xor, shift_double, shift_double]
  have bound : poly / 2 % 2 ^ rest ^^^ quarter < 2 ^ rest :=
    Nat.xor_lt_two_pow (Nat.mod_lt _ (Nat.two_pow_pos rest)) (by omega)
  rw [value]
  omega

end ReflectedCrc
