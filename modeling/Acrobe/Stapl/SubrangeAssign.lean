import Acrobe.Lib.ForwardCopy
import Acrobe.Stapl.Interpreter

/-!
# Sub-ranges on both sides

`target[high..low] = source[high..low]` copies the bits one after the other. The right-hand side is a view of its
variable, unless it descends.
-/

namespace Acrobe.Stapl
open LittleEndian Acrobe.Storage

/-! ### Ranges -/

def rangeCount (high low : Int) : Nat := (high - low).natAbs + 1

/-- The index of a bit of a range, counted from `low` on. -/
def rangePlace (high low : Int) (k : Nat) : Nat := if low ≤ high then low.toNat + k else low.toNat - k

/-- A range of bits that the variable has. -/
structure RangeWithin (bits : Bits) (high low : Int) : Prop where
  high_nonneg : 0 ≤ high
  high_lt : high < bits.length
  low_nonneg : 0 ≤ low
  low_lt : low < bits.length

/-- Every bit of the target range holds what its bit of the source range held, every other bit is left. -/
structure Simultaneous (s s' : State) (target : Name) (bits held : Bits) (high low high' low' : Int) : Prop where
  stores : ∃ bits' : Bits, s' = { s with store := s.store.setBoolean target bits' } ∧ bits'.length = bits.length ∧
    (∀ k < rangeCount high low, k < rangeCount high' low' →
      bits'.getD (rangePlace high low k) false = held.getD (rangePlace high' low' k) false) ∧
    ∀ i, (∀ k < rangeCount high low, k < rangeCount high' low' → i ≠ rangePlace high low k) → bits'.getD i false = bits.getD i false

/-- An ascending copy within one variable does not run upwards into its source, or the source repeats itself there. A
descending target is as long as its source, or the source repeats itself. -/
def Undisturbed (target source : Name) (held : Bits) (high low high' low' : Int) : Prop :=
  let n := min (rangeCount high low) (rangeCount high' low')
  let bit (k : Nat) : Bool := held.getD (rangePlace high' low' k) false
  if low ≤ high then
    target = source → low' ≤ high' → low' < low →
      ∀ k < n, (low - low').toNat ≤ k → bit k = bit (k - (low - low').toNat)
  else ∀ k < n, bit (k + (rangeCount high' low' - n)) = bit k

/-! ### Writing -/

namespace Store

variable {store : Store} {name : Name} {bits : Bits}

theorem setBoolean_setBoolean (bits' : Bits) :
    (store.setBoolean name bits).setBoolean name bits' = store.setBoolean name bits' := by
  rw [setBoolean, setBoolean, setBoolean]
  dsimp only
  rw [Function.update_idem]

theorem setBoolean_self (held : store.booleans name = some bits) : store.setBoolean name bits = store := by
  rw [setBoolean, ← held, Function.update_eq_self]

theorem booleans_setBoolean (bits : Bits) : (store.setBoolean name bits).booleans name = some bits :=
  Function.update_self ..

theorem writeBits_succ (start count : Nat) (source : BitsRef) : store.writeBits name start (count + 1) source =
    (store.writeBits name start count source).setBit name (start + count)
      (((store.writeBits name start count source).bits source).getD count false) := by
  rw [writeBits, List.range_succ, List.foldl_append]
  rfl

theorem getD_set {i k : Nat} (bit : Bool) (inside : k < bits.length) :
    (bits.set k bit).getD i false = if i = k then bit else bits.getD i false := by
  rw [List.getD_eq_getElem?_getD, List.getElem?_set]
  by_cases same : k = i
  · rw [if_pos same, if_pos inside, if_pos same.symm]
    rfl
  · rw [if_neg same, if_neg (Ne.symm same), List.getD_eq_getElem?_getD]

theorem getD_slice {start stop k : Nat} (inside : k < stop - start) :
    (BitString.slice bits start stop).getD k false = bits.getD (start + k) false := by
  rw [BitString.slice, List.getD_eq_getElem?_getD, List.getElem?_drop, List.getElem?_take_of_lt (by omega),
    List.getD_eq_getElem?_getD]

theorem writeBits_apart {start count : Nat} {source : BitsRef} (held : store.booleans name = some bits)
    (inside : start + count ≤ bits.length)
    (apart : ∀ bits', (store.setBoolean name bits').bits source = store.bits source) :
    ∃ bits' : Bits, store.writeBits name start count source = store.setBoolean name bits' ∧ bits'.length = bits.length ∧
      (∀ k < count, bits'.getD (start + k) false = (store.bits source).getD k false) ∧
      ∀ i, (∀ k < count, i ≠ start + k) → bits'.getD i false = bits.getD i false := by
  induction count with
  | zero => exact ⟨bits, (setBoolean_self held).symm, rfl, fun k below => absurd below (Nat.not_lt_zero k), fun _ _ => rfl⟩
  | succ count ih =>
    obtain ⟨bits', before, length, written, kept⟩ := ih (by omega)
    have room : start + count < bits'.length := by omega
    refine ⟨bits'.set (start + count) ((store.bits source).getD count false), ?_, ?_, ?_, ?_⟩
    · rw [writeBits_succ, before, apart, setBit, booleans_setBoolean]
      exact setBoolean_setBoolean _
    · rw [List.length_set, length]
    · intro k below
      rw [getD_set _ room]
      by_cases last : k = count
      · rw [if_pos (by omega), last]
      · rw [if_neg (by omega)]
        exact written k (by omega)
    · intro i outside
      rw [getD_set _ room, if_neg (outside count (Nat.lt_succ_self _))]
      exact kept i fun k below => outside k (Nat.lt_succ_of_lt below)

theorem writeBits_own {start count first last : Nat} (held : store.booleans name = some bits)
    (inside : start + count ≤ bits.length) (room : first + count ≤ last) :
    ∃ bits' : Bits, store.writeBits name start count (.view name first last) = store.setBoolean name bits' ∧
      bits'.length = bits.length ∧
      ∀ i, bits'.getD i false = ForwardCopy.copy first start (fun i => bits.getD i false) count i := by
  induction count with
  | zero => exact ⟨bits, (setBoolean_self held).symm, rfl, fun _ => rfl⟩
  | succ count ih =>
    obtain ⟨bits', before, length, copied⟩ := ih (by omega) (by omega)
    refine ⟨bits'.set (start + count) (bits'.getD (first + count) false), ?_, ?_, ?_⟩
    · rw [writeBits_succ, before, Store.bits, booleans_setBoolean, Option.getD_some, getD_slice (by omega), setBit,
        booleans_setBoolean]
      exact setBoolean_setBoolean _
    · rw [List.length_set, length]
    · intro i
      rw [getD_set _ (by omega), ForwardCopy.copy_succ, copied]
      by_cases last : i = start + count
      · rw [if_pos last, last, Function.update_self]
      · rw [if_neg last, Function.update_of_ne last, copied]

end Store

/-! ### Reading the source -/

theorem clamp_inside {value : Int} {length : Nat} (nonneg : 0 ≤ value) (inside : value ≤ length) :
    Heap.clamp (some value) 0 length = value.toNat := by
  unfold Heap.clamp
  dsimp only
  rw [if_neg (by omega)]
  omega

theorem length_slice {bits : Bits} {start stop : Nat} (inside : stop ≤ bits.length) :
    (BitString.slice bits start stop).length = stop - start := by
  rw [BitString.slice, List.length_drop, List.length_take]
  omega

theorem getD_reverse {bits : Bits} {k : Nat} (inside : k < bits.length) :
    bits.reverse.getD k false = bits.getD (bits.length - 1 - k) false := by
  rw [List.getD_eq_getElem?_getD, List.getElem?_reverse inside, List.getD_eq_getElem?_getD]

section
variable {s : State} {source : Name} {held : Bits} {high low : Int}

theorem getSubrange_ascending (within : RangeWithin held high low) (ascending : low ≤ high) :
    getSubrange source held high low = .view source low.toNat (high.toNat + 1) := by
  obtain ⟨high_nonneg, high_lt, low_nonneg, low_lt⟩ := within
  unfold getSubrange sliceBounds
  rw [if_pos ascending, clamp_inside low_nonneg (by omega), clamp_inside (by omega) (by omega)]
  dsimp only
  rw [if_neg (by omega)]
  congr 1
  omega

theorem getSubrange_descending (descending : ¬low ≤ high) :
    getSubrange source held high low = .fresh (sliceBits held high (low + 1)).reverse := by
  rw [getSubrange, if_neg descending]

theorem sliceBits_inside (within : RangeWithin held high low) :
    sliceBits held high (low + 1) = BitString.slice held high.toNat (low.toNat + 1) := by
  obtain ⟨high_nonneg, high_lt, low_nonneg, low_lt⟩ := within
  have next : (low + 1).toNat = low.toNat + 1 := by omega
  unfold sliceBits sliceBounds
  rw [clamp_inside high_nonneg (by omega), clamp_inside (by omega) (by omega), next]

theorem bits_getSubrange (sourceBits : s.store.booleans source = some held) (within : RangeWithin held high low) :
    (s.store.bits (getSubrange source held high low)).length = rangeCount high low ∧
      ∀ k < rangeCount high low, (s.store.bits (getSubrange source held high low)).getD k false =
        held.getD (rangePlace high low k) false := by
  obtain ⟨high_nonneg, high_lt, low_nonneg, low_lt⟩ := within
  by_cases ascending : low ≤ high
  · rw [getSubrange_ascending ⟨high_nonneg, high_lt, low_nonneg, low_lt⟩ ascending, Store.bits, sourceBits,
      Option.getD_some, length_slice (by omega), rangeCount]
    refine ⟨by omega, fun k inside => ?_⟩
    rw [Store.getD_slice (by omega), rangePlace, if_pos ascending]
  · have length : (BitString.slice held high.toNat (low.toNat + 1)).length = low.toNat + 1 - high.toNat :=
      length_slice (by omega)
    rw [getSubrange_descending ascending, Store.bits, sliceBits_inside ⟨high_nonneg, high_lt, low_nonneg, low_lt⟩,
      List.length_reverse, length, rangeCount]
    refine ⟨by omega, fun k inside => ?_⟩
    rw [getD_reverse (by omega), Store.getD_slice (by omega), rangePlace, if_neg ascending, length]
    congr 1
    omega

theorem length_getSubrange (within : RangeWithin held high low) :
    (getSubrange source held high low).length = rangeCount high low := by
  obtain ⟨high_nonneg, high_lt, low_nonneg, low_lt⟩ := within
  by_cases ascending : low ≤ high
  · rw [getSubrange_ascending ⟨high_nonneg, high_lt, low_nonneg, low_lt⟩ ascending, BitsRef.length, rangeCount]
    omega
  · rw [getSubrange_descending ascending, BitsRef.length, sliceBits_inside ⟨high_nonneg, high_lt, low_nonneg, low_lt⟩,
      List.length_reverse, length_slice (by omega), rangeCount]
    omega

end

/-! ### The statement -/

section
variable {s : State} {target source : Name} {bits held : Bits} {h l h' l' : Int}

theorem lift_bind {α β : Type} {get : State → Except Error α} {value : α} (f : α → Exec β) (same : get s = .ok value) :
    (Exec.lift get >>= f) s = f value s := by
  change EStateM.bind (Exec.lift get) f s = _
  rw [EStateM.bind, Exec.lift, same]

theorem booleanVar_bind {β : Type} (f : Bits → Exec β) (targetBits : s.store.booleans target = some bits) :
    (booleanVar target >>= f) s = f bits s := by
  refine lift_bind f ?_
  rw [targetBits]

theorem bitsOf_bind {β : Type} (f : Bits → Exec β) (ref : BitsRef) : (bitsOf ref >>= f) s = f (s.store.bits ref) s :=
  lift_bind f rfl

theorem execAssign_subrange {index : Option Expr} {high low high' low' : Expr}
    (sourceBits : s.store.booleans source = some held)
    (highIs : evalInt s.store high = .ok h) (lowIs : evalInt s.store low = .ok l)
    (highIs' : evalInt s.store high' = .ok h') (lowIs' : evalInt s.store low' = .ok l') :
    execAssign target index (some high) (some low) (.arraySubrange source high' low') s =
      setSubrange target h l (getSubrange source held h' l') s := by
  have evaluated : evalBits s.store (.arraySubrange source high' low') = .ok (getSubrange source held h' l') := by
    rw [evalBits, highIs', lowIs']
    change s.store.subrangeBits source h' l' = _
    rw [Store.subrangeBits, sourceBits]
  rw [execAssign, evalI, lift_bind _ highIs, evalI, lift_bind _ lowIs, evalB, lift_bind _ evaluated]

theorem setSubrange_ascending (targetBits : s.store.booleans target = some bits) (within : RangeWithin bits h l)
    (ascending : l ≤ h) (source : BitsRef) : setSubrange target h l source s =
      .ok () { s with store := s.store.writeBits target l.toNat (min (rangeCount h l) source.length) source } := by
  obtain ⟨high_nonneg, high_lt, low_nonneg, low_lt⟩ := within
  have size : (h + 1).toNat - l.toNat = rangeCount h l := by
    rw [rangeCount]
    omega
  rw [setSubrange, booleanVar_bind _ targetBits]
  dsimp only
  rw [if_pos ascending, sliceBounds, clamp_inside low_nonneg (by omega), clamp_inside (by omega) (by omega)]
  dsimp only
  rw [size]
  rfl

theorem setSubrange_descending {n : Nat} (targetBits : s.store.booleans target = some bits)
    (within : RangeWithin bits h l) (descending : ¬l ≤ h) (source : BitsRef) (some_ : 0 < source.length)
    (size : min (rangeCount h l) source.length = n) :
    setSubrange target h l source s = .ok () { s with
      store := s.store.writeBits target (l.toNat + 1 - n) n (.fresh (s.store.bits source).reverse) } := by
  obtain ⟨high_nonneg, high_lt, low_nonneg, low_lt⟩ := within
  have positive : 0 < n := by
    rw [rangeCount] at size
    omega
  have given : min (l - h + 1) (source.length : Int) = n := by
    rw [rangeCount] at size
    omega
  rw [rangeCount] at size
  have first : (l + 1 - (n : Int)).toNat = l.toNat + 1 - n := by omega
  have last : (l + 1).toNat - (l.toNat + 1 - n) = n := by omega
  rw [setSubrange, booleanVar_bind _ targetBits]
  dsimp only
  rw [if_neg descending, bitsOf_bind]
  rw [given, sliceBounds, clamp_inside (by omega) (by omega), clamp_inside (by omega) (by omega)]
  dsimp only
  rw [first, last, Nat.min_eq_left (by omega)]
  rfl

theorem simultaneous_iff {bits' : Bits} {P : Prop} (length : bits'.length = bits.length)
    (framed : ∀ i, (∀ k < rangeCount h l, k < rangeCount h' l' → i ≠ rangePlace h l k) → bits'.getD i false = bits.getD i false)
    (stored : (∀ k < rangeCount h l, k < rangeCount h' l' →
      bits'.getD (rangePlace h l k) false = held.getD (rangePlace h' l' k) false) ↔ P) :
    Simultaneous s { s with store := s.store.setBoolean target bits' } target bits held h l h' l' ↔ P := by
  rw [← stored]
  constructor
  · rintro ⟨other, same, _, stores, _⟩
    have both : bits' = other := by
      have entry := congrArg (fun state : State => state.store.booleans target) same
      dsimp only at entry
      rw [Store.booleans_setBoolean, Store.booleans_setBoolean] at entry
      exact Option.some.inj entry
    rw [both]
    exact stores
  · intro stores
    exact ⟨bits', rfl, length, stores, framed⟩

/-- Nothing is overwritten before it is read where the source is not an ascending range of the target itself. -/
theorem ascending_apart (targetBits : s.store.booleans target = some bits) (sourceBits : s.store.booleans source = some held)
    (within : RangeWithin bits h l) (within' : RangeWithin held h' l') (ascending : l ≤ h)
    (apart : ¬(target = source ∧ l' ≤ h')) :
    ∃ s', setSubrange target h l (getSubrange source held h' l') s = .ok () s' ∧
      Simultaneous s s' target bits held h l h' l' := by
  obtain ⟨whole, read⟩ := bits_getSubrange sourceBits within'
  have unchanged : ∀ bits', (s.store.setBoolean target bits').bits (getSubrange source held h' l') =
      s.store.bits (getSubrange source held h' l') := by
    intro bits'
    by_cases ascending' : l' ≤ h'
    · have other : source ≠ target := fun same => apart ⟨same.symm, ascending'⟩
      rw [getSubrange_ascending within' ascending', Store.bits, Store.bits, Store.setBoolean]
      dsimp only
      rw [Function.update_of_ne other]
    · rw [getSubrange_descending ascending', Store.bits, Store.bits]
  have room : l.toNat + min (rangeCount h l) (getSubrange source held h' l').length ≤ bits.length := by
    obtain ⟨high_nonneg, high_lt, low_nonneg, low_lt⟩ := within
    rw [rangeCount]
    omega
  obtain ⟨bits', written, length, stored, framed⟩ := Store.writeBits_apart targetBits room unchanged
  rw [length_getSubrange within'] at written stored framed
  refine ⟨_, setSubrange_ascending targetBits within ascending _, bits', ?_, length, ?_, ?_⟩
  · rw [length_getSubrange within', written]
  · intro k inside inside'
    rw [rangePlace, if_pos ascending, stored k (by omega), read k inside']
  · intro i outside
    refine framed i fun k below => ?_
    have away := outside k (by omega) (by omega)
    rwa [rangePlace, if_pos ascending] at away

theorem ascending_own (targetBits : s.store.booleans target = some bits) (within : RangeWithin bits h l)
    (within' : RangeWithin bits h' l') (ascending : l ≤ h) (ascending' : l' ≤ h') :
    ∃ s', setSubrange target h l (getSubrange target bits h' l') s = .ok () s' ∧
      (Simultaneous s s' target bits bits h l h' l' ↔ Undisturbed target target bits h l h' l') := by
  have given : (getSubrange target bits h' l').length = rangeCount h' l' := length_getSubrange within'
  have source : getSubrange target bits h' l' = .view target l'.toNat (h'.toNat + 1) :=
    getSubrange_ascending within' ascending'
  obtain ⟨high_nonneg, high_lt, low_nonneg, low_lt⟩ := within
  obtain ⟨high_nonneg', high_lt', low_nonneg', low_lt'⟩ := within'
  have counted : rangeCount h l = h.toNat + 1 - l.toNat := by
    rw [rangeCount]
    omega
  have counted' : rangeCount h' l' = h'.toNat + 1 - l'.toNat := by
    rw [rangeCount]
    omega
  obtain ⟨bits', written, length, copied⟩ :=
    @Store.writeBits_own s.store target bits l.toNat (min (rangeCount h l) (rangeCount h' l')) l'.toNat (h'.toNat + 1)
      targetBits (by omega) (by omega)
  refine ⟨{ s with store := s.store.setBoolean target bits' }, ?_, ?_⟩
  · rw [setSubrange_ascending targetBits ⟨high_nonneg, high_lt, low_nonneg, low_lt⟩ ascending, given, source, written]
  refine simultaneous_iff length ?_ ?_
  · intro i outside
    rw [copied]
    refine ForwardCopy.copy_outside fun k below => ?_
    have away := outside k (by omega) (by omega)
    rwa [rangePlace, if_pos ascending] at away
  · have exact_ := @ForwardCopy.copy_exact_iff Bool l'.toNat l.toNat (fun i => bits.getD i false)
      (min (rangeCount h l) (rangeCount h' l'))
    unfold Undisturbed rangePlace
    simp only [if_pos ascending, if_pos ascending', copied]
    constructor
    · intro stored _ _ above k below far
      refine (exact_.mp (fun i inside => stored i (by omega) (by omega)) (by omega) k below (by omega)).trans ?_
      congr 3
      omega
    · intro repeats k inside inside'
      refine exact_.mpr (fun above i below far => ?_) k (by omega)
      refine (repeats trivial ascending' (by omega) i below (by omega)).trans ?_
      congr 3
      omega

/-- A descending target takes the last bits of a longer source. -/
theorem descending_iff (targetBits : s.store.booleans target = some bits) (sourceBits : s.store.booleans source = some held)
    (within : RangeWithin bits h l) (within' : RangeWithin held h' l') (descending : ¬l ≤ h) :
    ∃ s', setSubrange target h l (getSubrange source held h' l') s = .ok () s' ∧
      (Simultaneous s s' target bits held h l h' l' ↔ Undisturbed target source held h l h' l') := by
  have given : (getSubrange source held h' l').length = rangeCount h' l' := length_getSubrange within'
  obtain ⟨whole, read⟩ := bits_getSubrange sourceBits within'
  have positive : 0 < rangeCount h' l' := Nat.succ_pos _
  have ran := setSubrange_descending targetBits within descending (getSubrange source held h' l') (by rw [given]; exact positive) rfl
  rw [given] at ran
  obtain ⟨high_nonneg, high_lt, low_nonneg, low_lt⟩ := within
  have counted : rangeCount h l = l.toNat + 1 - h.toNat := by
    rw [rangeCount]
    omega
  generalize size : min (rangeCount h l) (rangeCount h' l') = n at ran
  obtain ⟨bits', written, length, stored, framed⟩ :=
    @Store.writeBits_apart s.store target bits (l.toNat + 1 - n) n
      (.fresh (s.store.bits (getSubrange source held h' l')).reverse) targetBits (by omega) (fun _ => rfl)
  -- the bit `k` of the range is written from the bit `k + more` of the source
  have moved : ∀ k < n, bits'.getD (rangePlace h l k) false =
      held.getD (rangePlace h' l' (k + (rangeCount h' l' - n))) false := by
    intro k below
    have place : rangePlace h l k = l.toNat + 1 - n + (n - 1 - k) := by
      rw [rangePlace, if_neg descending]
      omega
    rw [place, stored _ (by omega), Store.bits, getD_reverse (by omega), whole, ← read _ (by omega)]
    congr 1
    omega
  refine ⟨_, ran, ?_⟩
  rw [written]
  refine simultaneous_iff length ?_ ?_
  · intro i outside
    refine framed i fun k below => ?_
    have away := outside (n - 1 - k) (by omega) (by omega)
    rw [rangePlace, if_neg descending] at away
    omega
  · unfold Undisturbed
    simp only [if_neg descending, size]
    constructor
    · intro same k below
      rw [← moved k below]
      exact same k (by omega) (by omega)
    · intro repeats k inside inside'
      rw [moved k (by omega)]
      exact repeats k (by omega)

theorem subranges_settle {index : Option Expr} {high low high' low' : Expr}
    (targetBits : s.store.booleans target = some bits) (sourceBits : s.store.booleans source = some held)
    (highIs : evalInt s.store high = .ok h) (lowIs : evalInt s.store low = .ok l)
    (highIs' : evalInt s.store high' = .ok h') (lowIs' : evalInt s.store low' = .ok l')
    (within : RangeWithin bits h l) (within' : RangeWithin held h' l') :
    ∃ s', execAssign target index (some high) (some low) (.arraySubrange source high' low') s = .ok () s' ∧
      (Simultaneous s s' target bits held h l h' l' ↔ Undisturbed target source held h l h' l') := by
  rw [execAssign_subrange sourceBits highIs lowIs highIs' lowIs']
  by_cases ascending : l ≤ h
  · by_cases own : target = source ∧ l' ≤ h'
    · obtain ⟨rfl, ascending'⟩ := own
      obtain rfl := Option.some.inj (targetBits.symm.trans sourceBits)
      exact ascending_own targetBits within within' ascending ascending'
    · obtain ⟨s', set, simultaneous⟩ := ascending_apart targetBits sourceBits within within' ascending own
      refine ⟨s', set, iff_of_true simultaneous ?_⟩
      unfold Undisturbed
      rw [if_pos ascending]
      exact fun same ascending' => absurd ⟨same, ascending'⟩ own
  · exact descending_iff targetBits sourceBits within within' ascending

/-- An assignment between sub-ranges is simultaneous where no bit is read after it has been written. -/
theorem simultaneous_subranges_iff {index : Option Expr} {high low high' low' : Expr}
    (targetBits : s.store.booleans target = some bits) (sourceBits : s.store.booleans source = some held)
    (highIs : evalInt s.store high = .ok h) (lowIs : evalInt s.store low = .ok l)
    (highIs' : evalInt s.store high' = .ok h') (lowIs' : evalInt s.store low' = .ok l')
    (within : RangeWithin bits h l) (within' : RangeWithin held h' l') :
    (∃ s', execAssign target index (some high) (some low) (.arraySubrange source high' low') s = .ok () s' ∧
      Simultaneous s s' target bits held h l h' l') ↔ Undisturbed target source held h l h' l' := by
  obtain ⟨s', set, equivalent⟩ := @subranges_settle s target source bits held h l h' l' index high low high' low'
    targetBits sourceBits highIs lowIs highIs' lowIs' within within'
  rw [set]
  constructor
  · rintro ⟨other, same, simultaneous⟩
    cases same
    exact equivalent.mp simultaneous
  · intro undisturbed
    exact ⟨s', rfl, equivalent.mpr undisturbed⟩

end

def threeBits : State := { State.initial with store := Store.empty.setBoolean "A" [true, false, false] }

theorem three_within {high low : Int} (bounds : 0 ≤ high ∧ high < 3 ∧ 0 ≤ low ∧ low < 3) :
    RangeWithin [true, false, false] high low := ⟨bounds.1, bounds.2.1, bounds.2.2.1, bounds.2.2.2⟩

theorem simultaneous_reversed : ∃ s', execAssign "A" none (some (.intLiteral 0)) (some (.intLiteral 2))
    (.arraySubrange "A" (.intLiteral 2) (.intLiteral 0)) threeBits = .ok () s' ∧
      Simultaneous threeBits s' "A" [true, false, false] [true, false, false] 0 2 2 0 := by
  refine (simultaneous_subranges_iff rfl rfl rfl rfl rfl rfl (three_within (by decide)) (three_within (by decide))).mpr ?_
  unfold Undisturbed
  rw [if_neg (by decide)]
  intro k below
  rfl

theorem overlap_smears : ¬∀ (s : State) (target source : Name) (bits held : Bits) (high low high' low' : Expr)
    (h l h' l' : Int), s.store.booleans target = some bits → s.store.booleans source = some held →
      evalInt s.store high = .ok h → evalInt s.store low = .ok l → evalInt s.store high' = .ok h' →
      evalInt s.store low' = .ok l' → RangeWithin bits h l → RangeWithin held h' l' →
      ∃ s', execAssign target none (some high) (some low) (.arraySubrange source high' low') s = .ok () s' ∧
        Simultaneous s s' target bits held h l h' l' := by
  intro law
  obtain ⟨s', set, simultaneous⟩ := law threeBits "A" "A" _ _ (.intLiteral 2) (.intLiteral 1) (.intLiteral 1)
    (.intLiteral 0) 2 1 1 0 rfl rfl rfl rfl rfl rfl (three_within (by decide)) (three_within (by decide))
  obtain ⟨other, again, equivalent⟩ := @subranges_settle threeBits "A" "A" _ _ 2 1 1 0 none (.intLiteral 2)
    (.intLiteral 1) (.intLiteral 1) (.intLiteral 0) rfl rfl rfl rfl rfl rfl (three_within (by decide))
    (three_within (by decide))
  rw [set] at again
  cases again
  have undisturbed := equivalent.mp simultaneous
  unfold Undisturbed at undisturbed
  rw [if_pos (by decide)] at undisturbed
  exact absurd (undisturbed rfl (by decide) (by decide) 1 (by decide) (by decide)) (by decide)

end Acrobe.Stapl
