import Acrobe.Lib.GrayCode
import Acrobe.Lib.IntBits
import Mathlib

/-!
# Bitfields

A register is an integer. A field has a range of its bits and shows them as a value: `represent`
makes the value of the bits, `parse` the bits of a value.
-/

namespace Acrobe.Bitfield

/-! ### Values -/

/-- What fields give and take. `δ` has the values that are no integers and equal none: a float that equals an integer is
not among them. -/
inductive Value (δ : Type) where
  | int (value : Int)
  | bool (value : Bool)
  | member (value : Int)
  | other (value : δ)
  deriving DecidableEq

/-- `int` and `bool` of the values that are no integers. -/
class PyObject (δ : Type) where
  toInt : δ → Option Int
  truthy : δ → Bool

section
variable {δ : Type}

/-- An operand of the operators on integers. -/
def Value.operand : Value δ → Option Int
  | .int value | .member value => some value
  | .bool value => some value.toInt
  | .other _ => none

/-- `int(value)`. -/
def Value.toInt [PyObject δ] : Value δ → Option Int
  | .other value => PyObject.toInt value
  | value => value.operand

/-- `bool(value)`. -/
def Value.truthy [PyObject δ] : Value δ → Bool
  | .int value | .member value => value != 0
  | .bool value => value
  | .other value => PyObject.truthy value

/-- What equality and a dictionary go by: a member of an enumeration equals its number. -/
def Value.key : Value δ → Int ⊕ δ
  | .int value | .member value => .inl value
  | .bool value => .inl value.toInt
  | .other value => .inr value

/-- The values of an enumeration whose members have an `int`, as those of an `IntEnum` do, and its members by name. -/
structure EnumClass (δ : Type) where
  values : List Int
  named : δ → Option Int

/-- The pairs of raw and displayed values of an injective mapping. -/
structure Mapping (δ : Type) where
  items : List (Int × Value δ)
  keys : (items.map Prod.fst).Nodup
  injective : (items.map fun item => item.2.key).Nodup

/-! ### Fields -/

/-- The fields by their arguments. -/
inductive Field (δ : Type) where
  | field (lsb width : Nat) (offset : Int) (signed : Bool)
  | scaledField (lsb width : Nat) (scale : Int) (positive : 1 ≤ scale) (offset : Int) (signed : Bool) (scaleOffset : Int)
  | enumField (lsb width : Nat) (enumClass : EnumClass δ)
  | mappingField (lsb width : Nat) (mapping : Mapping δ)
  | booleanField (bit : Nat) (inverted : Bool)
  | grayField (lsb width : Nat)

namespace Field

def lsb : Field δ → Nat
  | field lsb _ _ _ | scaledField lsb _ _ _ _ _ _ | enumField lsb _ _ | mappingField lsb _ _ | grayField lsb _ => lsb
  | booleanField bit _ => bit

def width : Field δ → Nat
  | field _ width _ _ | scaledField _ width _ _ _ _ _ | enumField _ width _ | mappingField _ width _
  | grayField _ width => width
  | booleanField _ _ => 1

/-- `Field.represent`. The shift by `width - 1` raises for a width of zero. -/
def representInt (width : Nat) (offset : Int) (signed : Bool) (value : Int) : Option Int :=
  let v := value + offset
  if signed ∧ v < 0 then
    match width with
    | 0 => none
    | width + 1 => some (v + 2 ^ width)
  else some v

/-- `Field.parse` of an integer. -/
def parseInt (width : Nat) (offset : Int) (signed : Bool) (v : Int) : Option Int :=
  if signed then
    match width with
    | 0 => none
    | width + 1 => some ((if Int.land v (2 ^ width) ≠ 0 then v - 2 ^ width else v) - offset)
  else some (v - offset)

def represent (field : Field δ) (raw : Nat) : Option (Value δ) :=
  match field with
  | .field _ width offset signed => (representInt width offset signed raw).map .int
  | scaledField _ width scale _ offset signed scaleOffset =>
    (representInt width offset signed (scale * (raw + scaleOffset))).map .int
  | enumField _ _ enumClass => some (if (raw : Int) ∈ enumClass.values then .member raw else .int raw)
  | mappingField _ _ mapping => some ((mapping.items.lookup (raw : Int)).getD (.int raw))
  | booleanField _ inverted => some (.bool (decide (raw ≠ 0) ^^ inverted))
  | grayField _ _ => some (.int (GrayCode.decode raw))

variable [PyObject δ] [DecidableEq δ]

def parse (field : Field δ) (value : Value δ) : Option (Value δ) :=
  match field with
  | .field _ width offset signed => do
    let v ← value.toInt
    (parseInt width offset signed v).map .int
  | scaledField _ width scale _ offset signed scaleOffset => do
    let v ← value.toInt
    (parseInt width offset signed ((v - scaleOffset) / scale)).map .int
  | enumField _ _ enumClass =>
    match value with
    | .other name => ((enumClass.named name).or (PyObject.toInt name)).map .int
    | value => value.toInt.map .int
  | mappingField _ _ mapping =>
    match mapping.items.find? fun item => item.2.key = value.key with
    | some item => some (.int item.1)
    | none => some value
  | booleanField _ inverted => some (.int (value.truthy ^^ inverted).toInt)
  | grayField _ _ => do
    let v ← value.operand
    return .int (Int.xor v (v / 2))

end Field

/-! ### The register -/

/-- `register[lsb:lsb + width]`. -/
def getItem (value : Int) (lsb width : Nat) : Int := Int.land (value / 2 ^ lsb) (2 ^ width - 1)

/-- `register[lsb:lsb + width] = v`. -/
def setItem (value : Int) (lsb width : Nat) (v : Int) : Int :=
  let mask := (2 ^ width - 1) * 2 ^ lsb
  let maskedOut := Int.land value (Int.lnot mask)
  let shifted := v * 2 ^ lsb
  Int.lor maskedOut (Int.land shifted mask)

namespace Field

def getFrom (field : Field δ) (register : Int) : Option (Value δ) :=
  field.represent (getItem register field.lsb field.width).toNat

def setTo [PyObject δ] [DecidableEq δ] (field : Field δ) (register : Int) (value : Value δ) : Option Int := do
  let v ← field.parse value
  let v ← v.toInt
  return setItem register field.lsb field.width v

end Field

end

end Acrobe.Bitfield

/-!
## The laws of a bitfield

What is read from a field can be written back, what is written is read again, and fields of other
bits stay as they are.
-/

namespace Acrobe.Bitfield
open IntBits

/-! ### The register -/

theorem getItem_eq (r : Int) (lsb width : Nat) : getItem r lsb width = r / 2 ^ lsb % 2 ^ width := land_mask _ _

theorem testBit_getItem (r : Int) (lsb width i : Nat) :
    (getItem r lsb width).testBit i = (decide (i < width) && r.testBit (i + lsb)) := by
  rw [getItem_eq, testBit_mod, testBit_div]

theorem testBit_setItem (r v : Int) (lsb width i : Nat) :
    (setItem r lsb width v).testBit i =
      if lsb ≤ i ∧ i < lsb + width then v.testBit (i - lsb) else r.testBit i := by
  unfold setItem
  dsimp only
  rw [Int.testBit_lor, Int.testBit_land, Int.testBit_land, Int.testBit_lnot, testBit_mul, testBit_mul, testBit_mask]
  by_cases above : lsb ≤ i
  · by_cases below : i < lsb + width
    · have inside : i - lsb < width := by omega
      simp [above, below, inside]
    · have outside : ¬i - lsb < width := by omega
      simp [above, below, outside]
  · simp [above]

theorem getItem_setItem (r v : Int) (lsb width : Nat) : getItem (setItem r lsb width v) lsb width = v % 2 ^ width := by
  refine eq_of_testBit_eq fun i => ?_
  rw [testBit_getItem, testBit_setItem, testBit_mod]
  by_cases inside : i < width
  · have there : lsb ≤ i + lsb ∧ i + lsb < lsb + width := by omega
    rw [if_pos there, Nat.add_sub_cancel]
  · simp [inside]

/-- Only the bits of the field can change. -/
theorem setItem_eq_iff (r v : Int) (lsb width : Nat) :
    setItem r lsb width v = r ↔ v % 2 ^ width = getItem r lsb width := by
  constructor
  · intro same
    rw [← getItem_setItem r v lsb width, same]
  · intro same
    refine eq_of_testBit_eq fun i => ?_
    rw [testBit_setItem]
    split_ifs with inside
    · have bits := congrArg (fun n => n.testBit (i - lsb)) same
      have there : i - lsb < width := by omega
      simpa [testBit_mod, testBit_getItem, there, Nat.sub_add_cancel inside.1] using bits
    · rfl

theorem getItem_apart {lsb width lsb' width' : Nat} (apart : lsb + width ≤ lsb' ∨ lsb' + width' ≤ lsb) (r v : Int) :
    getItem (setItem r lsb width v) lsb' width' = getItem r lsb' width' := by
  refine eq_of_testBit_eq fun i => ?_
  rw [testBit_getItem, testBit_getItem, testBit_setItem]
  by_cases inside : i < width'
  · rw [if_neg (by omega)]
  · simp [inside]

theorem getItem_nonneg (r : Int) (lsb width : Nat) : 0 ≤ getItem r lsb width := by
  rw [getItem_eq]
  exact Int.emod_nonneg _ (two_pow_pos width).ne'

theorem getItem_lt (r : Int) (lsb width : Nat) : getItem r lsb width < 2 ^ width := by
  rw [getItem_eq]
  exact Int.emod_lt_of_pos _ (two_pow_pos width)

theorem getItem_shifted {raw width : Nat} (small : raw < 2 ^ width) (lsb : Nat) :
    getItem (raw * 2 ^ lsb) lsb width = raw := by
  rw [getItem_eq, Int.mul_ediv_cancel _ (two_pow_pos lsb).ne',
    Int.emod_eq_of_lt (Int.natCast_nonneg raw) (by exact_mod_cast small)]

section
variable {δ : Type} [PyObject δ] [DecidableEq δ]

/-! ### The laws -/

namespace Field

def Disjoint (field other : Field δ) : Prop :=
  field.lsb + field.width ≤ other.lsb ∨ other.lsb + other.width ≤ field.lsb

/-- The value that a signed field is to show for the number `n`. -/
def signedValue : Field δ → Int → Option Int
  | .field _ _ offset true, n => some (n + offset)
  | scaledField _ _ scale _ offset true scaleOffset, n => some (scale * (n + scaleOffset) + offset)
  | _, _ => none

/-- The laws of one field. -/
structure Lawful (field : Field δ) : Prop where
  writeBack (register : Int) : ∃ value, field.getFrom register = some value ∧ field.setTo register value = some register
  readBack (register : Int) {raw : Nat} (content : raw < 2 ^ field.width) :
    ∃ value next, field.represent raw = some value ∧ field.setTo register value = some next ∧
      field.getFrom next = some value
  covers {n value : Int} (low : -2 ^ (field.width - 1) ≤ n) (high : n < 2 ^ (field.width - 1))
    (shown : field.signedValue n = some value) : ∃ raw < 2 ^ field.width, field.represent raw = some (.int value)

/-- `parse` gives the content back that `represent` showed, up to the width of the field. -/
def Inverts (field : Field δ) : Prop :=
  ∀ raw < 2 ^ field.width, ∃ value v n, field.represent raw = some value ∧ field.parse value = some v ∧
    v.toInt = some n ∧ n % 2 ^ field.width = raw

theorem writeBack_iff (field : Field δ) :
    (∀ register, ∃ value, field.getFrom register = some value ∧ field.setTo register value = some register) ↔
      field.Inverts := by
  constructor
  · intro writeBack raw content
    obtain ⟨value, read, written⟩ := writeBack (raw * 2 ^ field.lsb)
    rw [getFrom, getItem_shifted content, Int.toNat_natCast] at read
    obtain ⟨v, parsed, rest⟩ := Option.bind_eq_some_iff.mp written
    obtain ⟨n, taken, same⟩ := Option.bind_eq_some_iff.mp rest
    have kept := (setItem_eq_iff ..).mp (Option.some.inj same)
    rw [getItem_shifted content] at kept
    exact ⟨value, v, n, read, parsed, taken, kept⟩
  · intro inverts register
    have nonneg := getItem_nonneg register field.lsb field.width
    have below := getItem_lt register field.lsb field.width
    obtain ⟨value, v, n, shown, parsed, taken, same⟩ := inverts (getItem register field.lsb field.width).toNat
      (by zify; rw [Int.toNat_of_nonneg nonneg]; exact_mod_cast below)
    refine ⟨value, shown, ?_⟩
    rw [Int.toNat_of_nonneg nonneg] at same
    unfold setTo
    rw [parsed]
    show (v.toInt >>= fun n => some (setItem register field.lsb field.width n)) = some register
    rw [taken]
    exact congrArg some ((setItem_eq_iff ..).mpr same)

theorem Inverts.readBack {field : Field δ} (inverts : field.Inverts) (register : Int) {raw : Nat}
    (content : raw < 2 ^ field.width) :
    ∃ value next, field.represent raw = some value ∧ field.setTo register value = some next ∧
      field.getFrom next = some value := by
  obtain ⟨value, v, n, shown, parsed, taken, same⟩ := inverts raw content
  refine ⟨value, setItem register field.lsb field.width n, shown, ?_, ?_⟩
  · unfold setTo
    rw [parsed]
    show (v.toInt >>= fun n => some (setItem register field.lsb field.width n)) = _
    rw [taken]
    rfl
  · rw [getFrom, getItem_setItem, same, Int.toNat_natCast, shown]

/-! ### The kinds of fields -/

/-- Where a field keeps the laws. A signed one never does. -/
def Sound : Field δ → Prop
  | .field _ _ _ signed => signed = false
  | scaledField _ width scale _ offset signed scaleOffset =>
    signed = false ∧ (offset - scaleOffset) / scale % 2 ^ width = (offset - scaleOffset) % 2 ^ width
  | mappingField _ width mapping =>
    ∀ item ∈ mapping.items, ∀ raw : Nat, raw < 2 ^ width → (raw : Int) ∉ mapping.items.map Prod.fst →
      item.2.key = .inl (raw : Int) → item.1 % 2 ^ width = raw
  | _ => True

theorem parseInt_signed {width : Nat} {offset v n : Int} (parsed : parseInt width offset true v = some n) :
    ∃ k, width = k + 1 ∧ (n + offset) % 2 ^ width < 2 ^ k := by
  cases width with
  | zero => cases parsed
  | succ k =>
    refine ⟨k, rfl, ?_⟩
    cases parsed
    rw [Int.sub_add_cancel]
    exact clear_top v k

/-- No value is parsed to a content in the upper half. -/
theorem not_inverts_of_signed {field : Field δ} {offset : Int}
    (signed : ∀ value v, field.parse value = some v → ∃ number n, v = .int n ∧
      parseInt field.width offset true number = some n) : ¬field.Inverts := by
  intro inverts
  have positive : ∃ k, field.width = k + 1 := by
    obtain ⟨value, v, n, -, parsed, -⟩ := inverts 0 (Nat.two_pow_pos _)
    obtain ⟨number, m, -, inner⟩ := signed value v parsed
    obtain ⟨k, same, -⟩ := parseInt_signed inner
    exact ⟨k, same⟩
  obtain ⟨k, same⟩ := positive
  have nonneg := Int.emod_nonneg (2 ^ k - offset) (two_pow_pos field.width).ne'
  have below := Int.emod_lt_of_pos (2 ^ k - offset) (two_pow_pos field.width)
  obtain ⟨value, v, n, -, parsed, taken, kept⟩ := inverts ((2 ^ k - offset) % 2 ^ field.width).toNat
    (by zify; rwa [Int.toNat_of_nonneg nonneg])
  obtain ⟨number, m, rfl, inner⟩ := signed value v parsed
  cases taken
  obtain ⟨j, width, half⟩ := parseInt_signed inner
  obtain rfl : j = k := by omega
  rw [Int.toNat_of_nonneg nonneg] at kept
  have whole : (n + offset) % 2 ^ field.width = 2 ^ j % 2 ^ field.width := by
    rw [Int.add_emod, kept, ← Int.add_emod, Int.sub_add_cancel]
  rw [whole, same, Int.emod_eq_of_lt (two_pow_pos j).le (by rw [pow_succ]; have := two_pow_pos j; omega)] at half
  exact absurd half (lt_irrefl _)

theorem mod_content {raw width : Nat} (content : raw < 2 ^ width) : (raw : Int) % 2 ^ width = raw :=
  Int.emod_eq_of_lt (Int.natCast_nonneg raw) (by exact_mod_cast content)

theorem field_inverts_iff (lsb width : Nat) (offset : Int) (signed : Bool) :
    (Field.field (δ := δ) lsb width offset signed).Inverts ↔ signed = false := by
  cases signed with
  | true =>
    refine ⟨fun inverts => absurd inverts (@not_inverts_of_signed _ _ _ _ offset fun value v parsed => ?_), nofun⟩
    obtain ⟨number, -, rest⟩ := Option.bind_eq_some_iff.mp parsed
    obtain ⟨n, inner, rfl⟩ := Option.map_eq_some_iff.mp rest
    exact ⟨number, n, rfl, inner⟩
  | false =>
    refine ⟨fun _ => rfl, fun _ raw content => ⟨.int (raw + offset), .int raw, raw, rfl, ?_, rfl, mod_content content⟩⟩
    show some (Value.int ((raw + offset : Int) - offset)) = _
    rw [Int.add_sub_cancel]

theorem scaledField_inverts_iff (lsb width : Nat) {scale : Int} (positive : 1 ≤ scale) (offset : Int) (signed : Bool)
    (scaleOffset : Int) :
    (Field.scaledField (δ := δ) lsb width scale positive offset signed scaleOffset).Inverts ↔
      signed = false ∧ (offset - scaleOffset) / scale % 2 ^ width = (offset - scaleOffset) % 2 ^ width := by
  cases signed with
  | true =>
    refine ⟨fun inverts => absurd inverts (@not_inverts_of_signed _ _ _ _ offset fun value v parsed => ?_), nofun⟩
    obtain ⟨number, -, rest⟩ := Option.bind_eq_some_iff.mp parsed
    obtain ⟨n, inner, rfl⟩ := Option.map_eq_some_iff.mp rest
    exact ⟨_, n, rfl, inner⟩
  | false =>
    -- what is read back is off by the same distance for every content
    have back (raw : Nat) : (scale * (raw + scaleOffset) + offset - scaleOffset) / scale - offset =
        raw + ((offset - scaleOffset) / scale - (offset - scaleOffset)) := by
      have shape : scale * (raw + scaleOffset) + offset - scaleOffset =
          offset - scaleOffset + scale * (raw + scaleOffset) := by ring
      rw [shape, Int.add_mul_ediv_left _ _ (by omega)]
      ring
    rw [Int.emod_eq_emod_iff_emod_sub_eq_zero]
    simp only [true_and]
    generalize (offset - scaleOffset) / scale - (offset - scaleOffset) = distance at *
    constructor
    · intro inverts
      obtain ⟨value, v, n, shown, parsed, taken, kept⟩ := inverts 0 (Nat.two_pow_pos _)
      cases shown
      have read : v = .int (((0 : Nat) : Int) + distance) := by
        rw [← back 0]
        exact (Option.some.inj parsed).symm
      subst read
      cases taken
      have divides : ((0 : Nat) + distance : Int) % 2 ^ width = (0 : Nat) := kept
      simpa using divides
    · intro none raw content
      refine ⟨.int (scale * (raw + scaleOffset) + offset), .int (raw + distance), _, rfl, ?_, rfl, ?_⟩
      · rw [← back raw]
        rfl
      · show ((raw : Int) + distance) % 2 ^ width = raw
        rw [Int.add_emod, none, Int.add_zero, Int.emod_emod]
        exact mod_content content

theorem enumField_inverts (lsb width : Nat) (enumClass : EnumClass δ) :
    (Field.enumField lsb width enumClass).Inverts := by
  intro raw content
  by_cases member : (raw : Int) ∈ enumClass.values
  · exact ⟨.member raw, .int raw, raw, congrArg some (if_pos member), rfl, rfl, mod_content content⟩
  · exact ⟨.int raw, .int raw, raw, congrArg some (if_neg member), rfl, rfl, mod_content content⟩

theorem booleanField_inverts (bit : Nat) (inverted : Bool) : (Field.booleanField (δ := δ) bit inverted).Inverts := by
  intro raw content
  obtain rfl | rfl : raw = 0 ∨ raw = 1 := by
    have below : raw < 2 := content
    omega
  · cases inverted <;> exact ⟨_, _, _, rfl, rfl, rfl, rfl⟩
  · cases inverted <;> exact ⟨_, _, _, rfl, rfl, rfl, rfl⟩

theorem grayField_inverts (lsb width : Nat) : (Field.grayField (δ := δ) lsb width).Inverts := by
  intro raw content
  refine ⟨.int (GrayCode.decode raw), .int raw, raw, rfl, ?_, rfl, mod_content content⟩
  have encoded : Int.xor (GrayCode.decode raw) (GrayCode.decode raw / 2) = raw := by
    have natural : Int.xor (GrayCode.decode raw) (GrayCode.decode raw / 2) =
        ((GrayCode.decode raw ^^^ GrayCode.decode raw / 2 : Nat) : Int) := rfl
    rw [natural, ← Nat.shiftRight_one, ← GrayCode.encode, GrayCode.encode_decode]
  exact congrArg (fun n => some (Value.int n)) encoded

omit [PyObject δ] [DecidableEq δ] in
theorem lookup_mem {items : List (Int × Value δ)} {k : Int} {shown : Value δ} (found : items.lookup k = some shown) :
    (k, shown) ∈ items := by
  obtain ⟨front, back, rfl, -⟩ := List.lookup_eq_some_iff.mp found
  exact List.mem_append_right _ List.mem_cons_self

omit [PyObject δ] [DecidableEq δ] in
theorem lookup_none {items : List (Int × Value δ)} {k : Int} : items.lookup k = none ↔ k ∉ items.map Prod.fst := by
  rw [List.lookup_eq_none_iff, List.mem_map]
  constructor
  · rintro apart ⟨item, member, rfl⟩
    simpa using apart item member
  · intro absent item member
    exact bne_iff_ne.mpr fun same => absent ⟨item, member, same.symm⟩

omit [PyObject δ] in
/-- A displayed value has one raw value. -/
theorem find_key (mapping : Mapping δ) {item : Int × Value δ} (member : item ∈ mapping.items) {value : Value δ}
    (same : item.2.key = value.key) :
    (mapping.items.find? fun other => other.2.key = value.key) = some item := by
  cases found : mapping.items.find? fun other => other.2.key = value.key with
  | none => exact absurd same (by simpa using List.find?_eq_none.mp found item member)
  | some other =>
    have key : other.2.key = value.key := by
      have here := List.find?_some found
      exact of_decide_eq_true here
    exact congrArg some (List.inj_on_of_nodup_map mapping.injective (List.mem_of_find?_eq_some found) member
      (key.trans same.symm))

theorem mappingField_inverts_iff (lsb width : Nat) (mapping : Mapping δ) :
    (Field.mappingField lsb width mapping).Inverts ↔ (Field.mappingField lsb width mapping).Sound := by
  constructor
  · rintro inverts ⟨k, shown⟩ member raw content unmapped same
    obtain ⟨value, v, n, represented, parsed, taken, kept⟩ := inverts raw content
    have plain : value = .int raw := by
      have absent := lookup_none.mpr unmapped
      rw [represent, absent] at represented
      exact (Option.some.inj represented).symm
    subst plain
    rw [parse, find_key mapping member (show shown.key = (Value.int (raw : Int)).key from same)] at parsed
    cases parsed
    cases taken
    exact kept
  · intro sound raw content
    cases found : mapping.items.lookup (raw : Int) with
    | some shown =>
      refine ⟨shown, .int raw, raw, ?_, ?_, rfl, mod_content content⟩
      · rw [represent, found]
        rfl
      · rw [parse, find_key mapping (lookup_mem found) rfl]
    | none =>
      have represented : (Field.mappingField lsb width mapping).represent raw = some (.int raw) := by
        rw [represent, found]
        rfl
      cases other : mapping.items.find? fun item => item.2.key = (Value.int (raw : Int) : Value δ).key with
      | none =>
        refine ⟨.int raw, .int raw, raw, represented, ?_, rfl, mod_content content⟩
        rw [parse, other]
      | some item =>
        have key : item.2.key = .inl (raw : Int) := by
          have found := List.find?_some other
          exact of_decide_eq_true found
        refine ⟨.int raw, .int item.1, item.1, represented, ?_, rfl,
          sound item (List.mem_of_find?_eq_some other) raw content (lookup_none.mp found) key⟩
        rw [parse, other]

theorem sound_iff_inverts (field : Field δ) : field.Inverts ↔ field.Sound := by
  cases field with
  | field lsb width offset signed => exact field_inverts_iff lsb width offset signed
  | scaledField lsb width scale positive offset signed scaleOffset =>
    exact scaledField_inverts_iff lsb width positive offset signed scaleOffset
  | enumField lsb width enumClass => exact iff_of_true (enumField_inverts lsb width enumClass) trivial
  | mappingField lsb width mapping => exact mappingField_inverts_iff lsb width mapping
  | booleanField bit inverted => exact iff_of_true (booleanField_inverts bit inverted) trivial
  | grayField lsb width => exact iff_of_true (grayField_inverts lsb width) trivial

omit [PyObject δ] [DecidableEq δ] in
theorem Sound.unsigned {field : Field δ} (sound : field.Sound) (n : Int) : field.signedValue n = none := by
  cases field with
  | field lsb width offset signed =>
    obtain rfl : signed = false := sound
    rfl
  | scaledField lsb width scale positive offset signed scaleOffset =>
    obtain rfl : signed = false := sound.1
    rfl
  | _ => rfl

theorem lawful_iff_sound (field : Field δ) : field.Lawful ↔ field.Sound := by
  rw [← sound_iff_inverts]
  constructor
  · intro lawful
    exact (writeBack_iff field).mp lawful.writeBack
  · intro inverts
    refine ⟨(writeBack_iff field).mpr inverts, inverts.readBack, fun low high shown => ?_⟩
    rw [((sound_iff_inverts field).mp inverts).unsigned] at shown
    cases shown

theorem getFrom_apart {field other : Field δ} (apart : field.Disjoint other) {register next : Int} {value : Value δ}
    (written : field.setTo register value = some next) : other.getFrom next = other.getFrom register := by
  obtain ⟨v, -, rest⟩ := Option.bind_eq_some_iff.mp written
  obtain ⟨n, -, same⟩ := Option.bind_eq_some_iff.mp rest
  cases same
  rw [getFrom, getFrom, getItem_apart apart]

end Field

/-! ### The bitfield -/

/-- The laws of a bitfield with these fields. -/
structure Lawful (fields : List (String × Field δ)) : Prop where
  each : ∀ entry ∈ fields, entry.2.Lawful
  frame : ∀ entry ∈ fields, ∀ other ∈ fields, entry.2.Disjoint other.2 → ∀ register value next,
    entry.2.setTo register value = some next → other.2.getFrom next = other.2.getFrom register

/-- A bitfield keeps the laws exactly if none of its fields is signed, the offsets of its scaled
fields shift the raw value alike, and no displayed number is an unmapped raw value. -/
theorem lawful_iff (fields : List (String × Field δ)) : Lawful fields ↔ ∀ entry ∈ fields, entry.2.Sound := by
  constructor
  · intro lawful entry member
    exact (Field.lawful_iff_sound entry.2).mp (lawful.each entry member)
  · intro sound
    refine ⟨fun entry member => (Field.lawful_iff_sound entry.2).mpr (sound entry member), ?_⟩
    intro entry _ other _ apart register value next written
    exact Field.getFrom_apart apart written

end

instance : PyObject Empty := ⟨nofun, nofun⟩

/-- 128 is read from the signed field of eight bits of the register 128, and written back as 0. -/
theorem signed_not_lawful : ¬Lawful [("field", (Field.field 0 8 0 true : Field Empty))] := by
  intro lawful
  obtain ⟨value, read, written⟩ := (lawful.each _ List.mem_cons_self).writeBack 128
  have shown : (Field.field 0 8 0 true : Field Empty).getFrom 128 = some (.int 128) := by decide
  have taken : (Field.field 0 8 0 true : Field Empty).setTo 128 (.int 128) = some (setItem 128 0 8 0) := rfl
  rw [shown] at read
  cases read
  rw [taken, Option.some.injEq, setItem_eq_iff, getItem_eq] at written
  exact absurd written (by decide)

end Acrobe.Bitfield
