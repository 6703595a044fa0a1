import Acrobe.BitString.Storage

/-!
# The bits an object holds

Against the storage stands a model in which an object is a list of bits and every operation is
the concatenation of lists. `Holds` ties the chunks, the partial byte, the length and the cache
of an object to its list, and every operation on one object keeps it.
-/

namespace Acrobe.Storage
open LittleEndian

abbrev Bits := Acrobe.BitString

/-! ### The model -/

namespace Bits

def ofInt (value : Int) (length : Nat) : Bits := BitString.ofNat (value % 2 ^ length).toNat length

/-- The low `length` bits of the bytes; all of them when no length is given. -/
def ofBytes (data : Bytes) (length : Option Nat) : Bits :=
  BitString.ofNat (combine data) (length.getD (data.length * 8))

/-- The bytes that hold the bits, the spare bits of the last one clear. -/
def pack (bits : Bits) : Bytes := split (BitString.toNat bits) ((bits.length + 7) / 8)

end Bits

structure Model where
  objects : List Bits
  slices : List BitStringSlice

namespace Model

def empty : Model := { objects := [], slices := [] }

def bits (model : Model) : Ref → Option Bits
  | .object i => model.objects[i]?
  | .slice i => do
    let self ← model.slices[i]?
    let base ← model.objects[self.bs]?
    return BitString.slice base self.start self.stop

def alloc (model : Model) (bits : Bits) : Model := { model with objects := model.objects ++ [bits] }

def extend (model : Model) (i : Nat) (bits : Bits) : Option Model := do
  let base ← model.objects[i]?
  return { model with objects := model.objects.set i (base ++ bits) }

def getSlice (model : Model) (self : Ref) (start stop : Option Int) : Option Model := do
  let bits ← model.bits self
  let b := Heap.clamp start 0 bits.length
  let e := Heap.clamp stop bits.length bits.length
  if e ≤ b then return model.alloc []
  match self with
  | .object i => return { model with slices := model.slices ++ [⟨i, b, e⟩] }
  | .slice i =>
    let base ← model.slices[i]?
    return { model with slices := model.slices ++ [⟨base.bs, base.start + b, base.start + e⟩] }

def step (model : Model) : Cmd → Option Model
  | .new => some (model.alloc [])
  | .newInt value length => some (model.alloc (Bits.ofInt value length))
  | .newBytes data length => some (model.alloc (Bits.ofBytes data length))
  | .newBits other _ => do
    let bits ← model.bits other
    return model.alloc bits
  | .append i other => do
    let bits ← model.bits other
    model.extend i bits
  | .appendInt i value length => model.extend i (Bits.ofInt value length)
  | .appendBytes i data length => model.extend i (Bits.ofBytes data length)
  | .add left right => do
    let front ← model.bits left
    let back ← model.bits right
    return model.alloc (front ++ back)
  | .iadd i other => do
    let bits ← model.bits other
    model.extend i bits
  | .getSlice self start stop => model.getSlice self start stop
  | .data self => do
    let _ ← model.bits self
    return model

def run (program : List Cmd) : Option Model := program.foldlM step .empty

end Model

/-! ### Packed bits -/

open Acrobe.BitString (toNat ofNat toNat_lt toNat_ofNat toNat_append length_ofNat)

theorem two_pow_bytes (n : Nat) : 256 ^ n = 2 ^ (8 * n) := by
  rw [show 256 = 2 ^ 8 from rfl, Nat.pow_mul]

theorem pow_le_bytes {bits n : Nat} (enough : bits ≤ 8 * n) : 2 ^ bits ≤ 256 ^ n := by
  rw [two_pow_bytes]
  exact Nat.pow_le_pow_right (by decide) enough

@[simp] theorem length_pack (bits : Bits) : (Bits.pack bits).length = (bits.length + 7) / 8 := length_split _ _

theorem combine_pack (bits : Bits) : combine (Bits.pack bits) = toNat bits := by
  rw [Bits.pack, combine_split]
  exact Nat.mod_eq_of_lt (Nat.lt_of_lt_of_le (toNat_lt bits) (pow_le_bytes (by omega)))

theorem pack_append (front back : Bits) :
    Bits.pack (front ++ back) = split (toNat front) (front.length / 8) ++
      split (toNat front / 256 ^ (front.length / 8) + 2 ^ (front.length % 8) * toNat back)
        ((back.length + front.length % 8 + 7) / 8) := by
  have power : 2 ^ front.length = 256 ^ (front.length / 8) * 2 ^ (front.length % 8) := by
    rw [two_pow_bytes, ← Nat.pow_add, Nat.div_add_mod]
  have width : ((front ++ back).length + 7) / 8 =
      front.length / 8 + (back.length + front.length % 8 + 7) / 8 := by
    rw [List.length_append]
    omega
  have pos : 0 < 256 ^ (front.length / 8) := Nat.pow_pos (by decide)
  rw [Bits.pack, width, split_add, toNat_append, power, Nat.mul_assoc]
  congr 1
  · exact split_congr (Nat.add_mul_mod_self_left _ _ _)
  · rw [Nat.add_mul_div_left _ _ pos]

theorem whole_bytes {bits : Bits} (aligned : bits.length % 8 = 0) : toNat bits / 256 ^ (bits.length / 8) = 0 := by
  apply Nat.div_eq_of_lt
  exact Nat.lt_of_lt_of_le (toNat_lt bits) (pow_le_bytes (by omega))

theorem pack_aligned {bits : Bits} (aligned : bits.length % 8 = 0) :
    Bits.pack bits = split (toNat bits) (bits.length / 8) := by
  rw [Bits.pack, show (bits.length + 7) / 8 = bits.length / 8 by omega]

theorem pack_append_aligned {front : Bits} (back : Bits) (aligned : front.length % 8 = 0) :
    Bits.pack (front ++ back) = Bits.pack front ++ Bits.pack back := by
  rw [pack_append, whole_bytes aligned, aligned, pack_aligned aligned, Nat.pow_zero, Nat.one_mul,
    Nat.zero_add, Nat.add_zero, ← Bits.pack]

/-! ### One object -/

namespace BitString

/-- The object holds exactly these bits. -/
structure Holds (object : BitString) (bits : Bits) : Prop where
  length : object.length = bits.length
  flat : object.flat = Bits.pack bits
  cache : ∀ cached, object.dataCache = some cached → cached = Bits.pack bits

theorem holds_empty : empty.Holds [] where
  length := rfl
  flat := rfl
  cache := by rintro cached ⟨⟩

theorem place_ok (chunks : List Bytes) {data : Bytes} {length : Nat} (cache : Option Bytes)
    (partialByte : length % 8 ≠ 0 → data ≠ []) :
    ∃ self, place chunks data length cache = .ok self ∧ self.length = length ∧
      self.flat = chunks.flatten ++ data ∧ self.dataCache = cache := by
  by_cases aligned : length % 8 = 0
  · refine ⟨_, by rw [place, if_neg (by omega)], rfl, ?_, rfl⟩
    rw [flat, if_neg (by simpa using aligned), List.flatten_append]
    simp
  · have last := List.getLast?_eq_some_getLast (partialByte aligned)
    refine ⟨_, by rw [place, if_pos aligned, last], rfl, ?_, rfl⟩
    rw [flat, if_pos aligned, List.flatten_append]
    simp [List.dropLast_concat_getLast]

theorem place_holds {chunks : List Bytes} {data : Bytes} {cache : Option Bytes} {bits : Bits} {length : Nat}
    (size : length = bits.length) (joined : chunks.flatten ++ data = Bits.pack bits)
    (partialByte : length % 8 ≠ 0 → data ≠ []) (cached : ∀ bytes, cache = some bytes → bytes = Bits.pack bits) :
    ∃ self, place chunks data length cache = .ok self ∧ self.Holds bits := by
  obtain ⟨self, placed, placedLength, flat, kept⟩ := place_ok chunks cache partialByte
  exact ⟨self, placed, placedLength.trans size, flat.trans joined, kept ▸ cached⟩

variable {self : BitString} {base : Bits}

theorem Holds.chunks (held : self.Holds base) :
    self.bytes.flatten = split (toNat base) (base.length / 8) := by
  have flat := held.flat
  rw [BitString.flat, held.length] at flat
  by_cases aligned : base.length % 8 = 0
  · rw [if_neg (by omega)] at flat
    rw [flat, pack_aligned aligned]
  · rw [if_pos aligned, Bits.pack, show (base.length + 7) / 8 = base.length / 8 + 1 by omega,
      split_add] at flat
    exact (List.append_inj' flat rfl).1

theorem Holds.lastByte (held : self.Holds base) (unaligned : base.length % 8 ≠ 0) :
    self.lastByte.toNat = toNat base / 256 ^ (base.length / 8) := by
  have flat := held.flat
  rw [BitString.flat, held.length, if_pos unaligned, Bits.pack,
    show (base.length + 7) / 8 = base.length / 8 + 1 by omega, split_add] at flat
  have last : self.lastByte = UInt8.ofNat (toNat base / 256 ^ (base.length / 8)) :=
    List.singleton_inj.mp (List.append_inj' flat rfl).2
  have small : toNat base / 256 ^ (base.length / 8) < 256 := by
    apply Nat.div_lt_of_lt_mul
    rw [← Nat.pow_succ]
    exact Nat.lt_of_lt_of_le (toNat_lt base) (pow_le_bytes (by omega))
  rw [last, UInt8.toNat_ofNat']
  exact Nat.mod_eq_of_lt small

theorem lastByte_lt (base : Bits) : toNat base / 256 ^ (base.length / 8) < 2 ^ (base.length % 8) := by
  apply Nat.div_lt_of_lt_mul
  rw [two_pow_bytes, ← Nat.pow_add, Nat.div_add_mod]
  exact toNat_lt base

theorem Holds.merged (held : self.Holds base) (unaligned : base.length % 8 ≠ 0) (value : Nat) :
    value <<< (self.length % 8) ||| self.lastByte.toNat =
      toNat base / 256 ^ (base.length / 8) + 2 ^ (base.length % 8) * value := by
  have small := lastByte_lt base
  rw [held.length, held.lastByte unaligned, ← Nat.shiftLeft_add_eq_or_of_lt small, Nat.shiftLeft_eq,
    Nat.add_comm, Nat.mul_comm]

theorem merge_lt (base : Bits) {value length : Nat} (fits : value < 2 ^ length) :
    toNat base / 256 ^ (base.length / 8) + 2 ^ (base.length % 8) * value <
      256 ^ ((length + base.length % 8 + 7) / 8) := by
  have small := lastByte_lt base
  have bound : 2 ^ (base.length % 8) * (value + 1) ≤ 2 ^ (base.length % 8) * 2 ^ length :=
    Nat.mul_le_mul_left _ fits
  have room : 2 ^ (base.length % 8) * 2 ^ length ≤ 256 ^ ((length + base.length % 8 + 7) / 8) := by
    rw [← Nat.pow_add]
    exact pow_le_bytes (by omega)
  rw [Nat.mul_add, Nat.mul_one] at bound
  omega

theorem merge_holds (held : self.Holds base) (unaligned : base.length % 8 ≠ 0) {value length : Nat}
    (fits : value < 2 ^ length) :
    ∃ next, self.merge value length = .ok next ∧ next.Holds (base ++ ofNat value length) := by
  have stored : toNat (ofNat value length) = value := by rw [toNat_ofNat, Nat.mod_eq_of_lt fits]
  have total : (base ++ ofNat value length).length = self.length / 8 * 8 + (length + self.length % 8) := by
    rw [List.length_append, length_ofNat, held.length]
    omega
  have joined := pack_append base (ofNat value length)
  rw [stored, length_ofNat, ← held.chunks, ← held.merged unaligned] at joined
  unfold merge
  dsimp only
  rw [toBytes, if_pos (by rw [held.merged unaligned, held.length]; exact merge_lt base fits)]
  apply place_holds total.symm
  · rw [joined, held.length]
  · intro _ none
    have empty := congrArg List.length none
    rw [length_split, held.length] at empty
    simp only [List.length_nil] at empty
    omega
  · rintro bytes ⟨⟩

theorem place_aligned (held : self.Holds base) (aligned : base.length % 8 = 0) {value length : Nat}
    (fits : value < 2 ^ length) :
    ∃ next, place self.bytes (split value ((length + 7) / 8)) (self.length + length) none = .ok next ∧
      next.Holds (base ++ ofNat value length) := by
  have stored : toNat (ofNat value length) = value := by rw [toNat_ofNat, Nat.mod_eq_of_lt fits]
  have total : (base ++ ofNat value length).length = self.length + length := by
    rw [List.length_append, length_ofNat, held.length]
  apply place_holds total.symm
  · rw [pack_append_aligned _ aligned, pack_aligned aligned, held.chunks, Bits.pack, stored, length_ofNat]
  · intro partialByte none
    have empty := congrArg List.length none
    rw [length_split] at empty
    rw [held.length] at partialByte
    simp only [List.length_nil] at empty
    omega
  · rintro bytes ⟨⟩

theorem truncate_eq (value : Int) (length : Nat) : truncate value length = (value % 2 ^ length).toNat := by
  rw [truncate, mask]
  split
  · rw [Int.add_emod_right]
  · rfl

theorem truncate_lt (value : Int) (length : Nat) : truncate value length < 2 ^ length := by
  have pos : (0 : Int) < 2 ^ length := Int.pow_pos (by decide)
  have bound := Int.emod_lt_of_pos value pos
  have low := Int.emod_nonneg value (Int.ne_of_gt pos)
  have cast : ((2 ^ length : Nat) : Int) = 2 ^ length := by push_cast; rfl
  rw [truncate_eq]
  omega

theorem toBytes_fits {value length : Nat} (fits : value < 2 ^ length) :
    toBytes value ((length + 7) / 8) = .ok (split value ((length + 7) / 8)) := by
  rw [toBytes, if_pos (Nat.lt_of_lt_of_le fits (pow_le_bytes (by omega)))]

theorem appendInt_holds (held : self.Holds base) (value : Int) (length : Nat) :
    ∃ next, self.appendInt value length = .ok next ∧ next.Holds (base ++ Bits.ofInt value length) := by
  have fits := truncate_lt value length
  rw [Bits.ofInt, ← truncate_eq]
  unfold appendInt
  dsimp only
  by_cases aligned : base.length % 8 = 0
  · rw [if_neg (by rw [held.length]; omega), toBytes_fits fits]
    exact place_aligned held aligned fits
  · rw [if_pos (by rw [held.length]; exact aligned)]
    exact merge_holds held aligned fits

theorem ofInt_holds (value : Int) (length : Nat) :
    ∃ next, ofInt value length = .ok next ∧ next.Holds (Bits.ofInt value length) := by
  have fits := truncate_lt value length
  have stored : toNat (ofNat (truncate value length) length) = truncate value length := by
    rw [toNat_ofNat, Nat.mod_eq_of_lt fits]
  have packed : Bits.pack (ofNat (truncate value length) length) =
      split (truncate value length) ((length + 7) / 8) := by
    rw [Bits.pack, stored, length_ofNat]
  rw [Bits.ofInt, ← truncate_eq, ofInt, toBytes_fits fits]
  apply place_holds (length_ofNat _ _).symm packed.symm
  · intro partialByte none
    have empty := congrArg List.length none
    rw [length_split] at empty
    simp only [List.length_nil] at empty
    omega
  · intro bytes cached
    split at cached
    · rw [packed]
      exact (Option.some.inj cached).symm
    · cases cached

/-! ### Bytes with a declared length -/

/-- The bytes carry nothing beyond the declared length. Behind a partial byte only their value
counts; elsewhere they are stored as they are. -/
def CleanAt (offset : Nat) (data : Bytes) : Option Nat → Prop
  | none => True
  | some bits => combine data < 2 ^ bits ∧ (offset % 8 ≠ 0 ∨ data.length ≤ (bits + 7) / 8)

theorem combine_ljust (data : Bytes) (width : Nat) : combine (ljust data width) = combine data := by
  rw [ljust, combine_append, combine_replicate_zero, Nat.mul_zero, Nat.add_zero]

theorem length_ljust (data : Bytes) (width : Nat) : (ljust data width).length = max data.length width := by
  rw [ljust, List.length_append, List.length_replicate]
  omega

theorem ljust_eq_split {data : Bytes} {width : Nat} (short : data.length ≤ width) :
    ljust data width = split (combine data) width := by
  have roundTrip := split_combine (ljust data width)
  rw [combine_ljust, length_ljust, Nat.max_eq_right short] at roundTrip
  exact roundTrip.symm

theorem combine_lt_bits (data : Bytes) : combine data < 2 ^ (data.length * 8) := by
  have bound := combine_lt data
  rwa [two_pow_bytes, Nat.mul_comm] at bound

theorem CleanAt.fits {offset : Nat} {data : Bytes} {length : Option Nat} (clean : CleanAt offset data length) :
    combine data < 2 ^ length.getD (data.length * 8) := by
  cases length with
  | none => exact combine_lt_bits data
  | some bits => exact clean.1

theorem appendBytes_holds (held : self.Holds base) {data : Bytes} {length : Option Nat}
    (clean : CleanAt base.length data length) :
    ∃ next, self.appendBytes data length = .ok next ∧ next.Holds (base ++ Bits.ofBytes data length) := by
  have fits := clean.fits
  unfold appendBytes
  dsimp only
  by_cases aligned : base.length % 8 = 0
  · rw [if_neg (by rw [held.length]; omega)]
    cases length with
    | none =>
      have raw : data = split (combine data) ((data.length * 8 + 7) / 8) := by
        rw [show (data.length * 8 + 7) / 8 = data.length by omega, split_combine]
      have placed := place_aligned held aligned fits
      rw [Option.getD_none, ← raw] at placed
      exact placed
    | some bits =>
      have short : data.length ≤ (bits + 7) / 8 := clean.2.resolve_left (by omega)
      have placed := place_aligned held aligned fits
      rw [Option.getD_some, ← ljust_eq_split short] at placed
      exact placed
  · rw [if_pos (by rw [held.length]; exact aligned)]
    cases length with
    | none => exact merge_holds held aligned fits
    | some bits =>
      have merged := merge_holds held aligned fits
      rw [Option.getD_some, ← combine_ljust data ((bits + 7) / 8)] at merged
      rw [Bits.ofBytes, ← combine_ljust data ((bits + 7) / 8)]
      exact merged

theorem ofBytes_holds {data : Bytes} {length : Option Nat} (clean : CleanAt 0 data length) :
    ∃ next, ofBytes data length = .ok next ∧ next.Holds (Bits.ofBytes data length) := by
  have appended := appendBytes_holds holds_empty clean
  cases length with
  | none => exact appended
  | some bits =>
    unfold ofBytes
    dsimp only
    split
    · rename_i exact
      have packed : Bits.pack (ofNat (combine data) bits) = data := by
        rw [Bits.pack, toNat_ofNat, Nat.mod_eq_of_lt clean.1, length_ofNat, ← exact]
        exact split_combine data
      apply place_holds (length_ofNat _ _).symm (packed.symm ▸ List.nil_append data)
      · rintro partialByte rfl
        simp only [List.length_nil] at exact
        omega
      · rintro bytes ⟨⟩
        exact packed.symm
    · exact appended

theorem Holds.data (held : self.Holds base) :
    ∃ next, self.data = .ok (Bits.pack base, next) ∧ next.Holds base := by
  cases cached : self.dataCache with
  | some bytes =>
    refine ⟨self, ?_, held⟩
    unfold BitString.data
    rw [cached, held.cache bytes cached]
  | none =>
    have enough : self.length ≤ self.flat.length * 8 := by
      rw [held.flat, length_pack, held.length]
      omega
    refine ⟨{ self with dataCache := some self.flat }, ?_, held.length, held.flat, ?_⟩
    · unfold BitString.data
      rw [cached]
      dsimp only
      rw [if_pos enough, held.flat]
    · rintro bytes ⟨⟩
      exact held.flat

end BitString

/-! ### Slices -/

theorem toNat_drop (bits : Bits) (n : Nat) : toNat (bits.drop n) = toNat bits / 2 ^ n := by
  by_cases inside : n ≤ bits.length
  · have whole := toNat_append (bits.take n) (bits.drop n)
    have low := toNat_lt (bits.take n)
    rw [List.take_append_drop, List.length_take, Nat.min_eq_left inside] at whole
    rw [List.length_take, Nat.min_eq_left inside] at low
    rw [whole, Nat.add_mul_div_left _ _ (Nat.two_pow_pos n), Nat.div_eq_of_lt low, Nat.zero_add]
  · have small : toNat bits < 2 ^ n :=
      Nat.lt_of_lt_of_le (toNat_lt bits) (Nat.pow_le_pow_right (by decide) (by omega))
    rw [List.drop_of_length_le (by omega), Nat.div_eq_of_lt small]
    rfl

theorem toNat_take (bits : Bits) (n : Nat) : toNat (bits.take n) = toNat bits % 2 ^ n := by
  by_cases inside : n ≤ bits.length
  · have whole := toNat_append (bits.take n) (bits.drop n)
    have low := toNat_lt (bits.take n)
    rw [List.take_append_drop, List.length_take, Nat.min_eq_left inside] at whole
    rw [List.length_take, Nat.min_eq_left inside] at low
    rw [whole, Nat.add_mul_mod_self_left, Nat.mod_eq_of_lt low]
  · have small : toNat bits < 2 ^ n :=
      Nat.lt_of_lt_of_le (toNat_lt bits) (Nat.pow_le_pow_right (by decide) (by omega))
    rw [List.take_of_length_le (by omega), Nat.mod_eq_of_lt small]

theorem toNat_slice (bits : Bits) (start stop : Nat) (ordered : start ≤ stop) :
    toNat (BitString.slice bits start stop) = toNat bits / 2 ^ start % 2 ^ (stop - start) := by
  have power : 2 ^ stop = 2 ^ start * 2 ^ (stop - start) := by
    rw [← Nat.pow_add, Nat.add_sub_cancel' ordered]
  rw [Acrobe.BitString.slice, toNat_drop, toNat_take, power, Nat.mod_mul_right_div_self]

theorem length_slice {bits : Bits} {start stop : Nat} (inside : stop ≤ bits.length) :
    (BitString.slice bits start stop).length = stop - start := by
  rw [Acrobe.BitString.slice, List.length_drop, List.length_take, Nat.min_eq_left inside]

theorem mask_natCast (value length : Nat) : mask (value : Int) length = value % 2 ^ length := by
  rw [mask, show (2 : Int) ^ length = ((2 ^ length : Nat) : Int) by push_cast; rfl, ← Int.natCast_emod,
    Int.toNat_natCast]

theorem sliced_value {bits : Bits} {start stop : Nat} (inside : stop ≤ bits.length) (ordered : start ≤ stop) :
    mask (fromBytes (((Bits.pack bits).take ((stop + 7) / 8)).drop (start / 8)) >>> (start % 8) : Nat)
      (stop - start) = toNat (BitString.slice bits start stop) := by
  have below : 256 ^ (start / 8) * 2 ^ (start % 8) = 2 ^ start := by
    rw [two_pow_bytes, ← Nat.pow_add, Nat.div_add_mod]
  have window : 256 ^ ((stop + 7) / 8 - start / 8) =
      2 ^ (start % 8) * 2 ^ (8 * ((stop + 7) / 8 - start / 8) - start % 8) := by
    rw [two_pow_bytes, ← Nat.pow_add]
    congr 1
    omega
  rw [mask_natCast, fromBytes, Bits.pack, combine_drop_take _ _ _ _ (by omega) (by omega),
    Nat.shiftRight_eq_div_pow, toNat_slice _ _ _ ordered, window, Nat.mod_mul_right_div_self,
    Nat.div_div_eq_div_mul, below]
  exact Nat.mod_mod_of_dvd _ (Nat.pow_dvd_pow 2 (by omega))

theorem bytes_ext {left right : Bytes} (length : left.length = right.length) (value : combine left = combine right) :
    left = right := by
  rw [← split_combine left, length, value, split_combine]

theorem sliced_bytes {bits : Bits} {start stop : Nat} (inside : stop ≤ bits.length) (ordered : start ≤ stop)
    (first : start % 8 = 0) (whole : (stop - start) % 8 = 0) :
    ((Bits.pack bits).take (start / 8 + (stop - start) / 8)).drop (start / 8) =
      Bits.pack (BitString.slice bits start stop) := by
  have last : start / 8 + (stop - start) / 8 = (stop + 7) / 8 := by omega
  have value := sliced_value inside ordered
  rw [first, Nat.shiftRight_zero, mask_natCast, fromBytes] at value
  apply bytes_ext
  · rw [List.length_drop, List.length_take, length_pack, length_pack, length_slice inside]
    omega
  · have small := combine_lt (((Bits.pack bits).take ((stop + 7) / 8)).drop (start / 8))
    rw [List.length_drop, List.length_take, length_pack, Nat.min_eq_left (by omega), two_pow_bytes] at small
    rw [last, combine_pack, ← value]
    exact (Nat.mod_eq_of_lt (Nat.lt_of_lt_of_le small (Nat.pow_le_pow_right (by decide) (by omega)))).symm

end Acrobe.Storage
