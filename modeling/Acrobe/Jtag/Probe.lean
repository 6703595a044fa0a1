import Acrobe.Jtag.ScanPath

/-!
# Blind discovery

`Chain.shift_discover` and `Chain.__probe_chain_in_reset_state`, run against a
scan path. IDCODEs are read off the registers selected by a reset, the number
of TAPs off the bypass registers, and the instruction lengths off the captured
instruction registers, each of which begins with 01.
-/

namespace Acrobe.Jtag
open BitString Lib

/-! ### Texts -/

def hexDigit (n : Nat) : Char := "0123456789abcdef".toList.getD n '0'

def hexBytes (value : Nat) : Nat → String
  | 0 => ""
  | n + 1 => String.ofList [hexDigit (value / 16 % 16), hexDigit (value % 16)] ++ hexBytes (value / 256) n

/-- `repr` of a bit string of at most 1024 bits. -/
def bitsRepr (bits : BitString) : String :=
  "BitString(" ++ hexBytes (toNat bits) ((bits.length + 7) / 8) ++ ", " ++ toString bits.length ++ ")"

def optRepr : Option Nat → String
  | some n => toString n
  | none => "None"

def listRepr {α : Type} (item : α → String) (items : List α) : String :=
  "[" ++ ", ".intercalate (items.map item) ++ "]"

/-! ### `shift_discover` -/

def marker : Nat := 0xc05a5a03

/-- The default of `max_length`. -/
def defaultLength : Nat := 512

/-- The register in front of the marker. In the source `length` is rounded from
a floating-point logarithm, which is off by one above a run of more than 50
ones only; the marker is not found then either way, nor in fewer than 32 bits. -/
def beforeMarker (tdo : BitString) : Except PyErr BitString :=
  if toNat tdo = 0 then .error (.openChain "TDO stuck low")
  else if tdo = ones tdo.length then .error (.openChain "TDO stuck high")
  else
    let length := (toNat tdo).log2 + 1
    if 32 ≤ length ∧ toNat (tdo.slice (length - 32) length) = marker then .ok (tdo.slice 0 (length - 32))
    else .error (.openChain "TDO changed but marker not received back")

def markerTdi (maxLength : Nat) : BitString := ofNat marker 32 ++ zeros (maxLength + 4)

/-- `shiftIn` is what is shifted back for a register of a length. -/
def shiftDiscover (hw : ScanPath) (maxLength : Nat) (shiftIn : Option (Nat → BitString)) :
    ScanPath × Except PyErr BitString :=
  let tdo := (hw.tdo (markerTdi maxLength)).slice 0 (maxLength + 32)
  let hw := hw.exec (.shift { tdi := markerTdi maxLength })
  match beforeMarker tdo with
  | .error e => (hw, .error e)
  | .ok register =>
    match shiftIn with
    | none => (hw, .ok register)
    | some back => (hw.run [.shift { tdi := back register.length, readTdo := false }, .run 1], .ok register)

/-! ### `__probe_chain_in_reset_state` -/

/-- The IDCODEs of so many TAPs; the bits left are those from `pos` on. -/
def idcodesIn : Nat → BitString → List (Option Nat)
  | 0, _ => []
  | count + 1, [] => none :: idcodesIn count []
  | count + 1, true :: bits => some (toNat ((true :: bits).take 32)) :: idcodesIn count ((true :: bits).drop 32)
  | count + 1, false :: bits => none :: idcodesIn count bits

def cutoffs (ir : BitString) : List Nat :=
  (List.range ir.length).filter fun i => toNat (ir.slice i (i + 2)) = 1

def distances (marks : List Nat) : List Nat := List.zipWith (fun a b => b - a) marks marks.tail

/-- The ways to group `parts` in `count` instruction registers. With no register left
and parts over, every recursive call of the source has a negative count. -/
def irMerge (pre : List Nat) (parts : List Nat) : Nat → List (List Nat)
  | 0 => if parts = [] then [pre] else []
  | count + 1 =>
    if parts.length < count + 1 then []
    else if parts.length = count + 1 then [pre ++ parts]
    else (List.range parts.length).flatMap fun i => irMerge (pre ++ [(parts.take (i + 1)).sum]) (parts.drop (i + 1)) count

def possibilities (known : List (Option Nat)) (ir : BitString) (count : Nat) : List (List Nat) :=
  (irMerge [] (distances (cutoffs ir ++ [ir.length])) count).filter fun lengths =>
    (known.zip lengths).all fun (k, l) => k = none ∨ k = some l

/-- What the three registers say of the chain. `irlenFor` is `Chain.__irlen_for`. -/
def identify (irlenFor : Nat → Option Nat) (resetDr ir : BitString) (count : Nat) :
    Except PyErr (List (Option Nat × Nat)) :=
  let idcodes := idcodesIn count resetDr
  if (cutoffs ir).head? ≠ some 0 then
    .error (.valueError ("Captured IR " ++ bitsRepr ir ++
      " does not start with the mandatory 01 pattern: TDO-side TAP is not compliant"))
  else
    let known := idcodes.map fun idcode => idcode.bind irlenFor
    let found := possibilities known ir count
    match found with
    | [lengths] => .ok (idcodes.zip lengths)
    | _ => .error (.valueError ("Ambiguous IR lengths: " ++ toString found.length ++ " possibilities for " ++
        toString count ++ " devices (idcodes=" ++ listRepr optRepr idcodes ++ "): " ++
        listRepr (listRepr toString) found ++ ", known: " ++ listRepr optRepr known))

def probeChainInResetState (irlenFor : Nat → Option Nat) (hw : ScanPath) :
    ScanPath × Except PyErr (List (Option Nat × Nat)) :=
  match shiftDiscover (hw.exec .captureDr) defaultLength none with
  | (hw, .error e) => (hw, .error e)
  | (hw, .ok resetDr) =>
    match shiftDiscover (hw.exec .captureIr) defaultLength (some ones) with
    | (hw, .error e) => (hw, .error e)
    | (hw, .ok capturedIr) =>
      match shiftDiscover (hw.exec .captureDr) (capturedIr.length / 2) none with
      | (hw, .error e) => (hw, .error e)
      | (hw, .ok bypassDr) => (hw, identify irlenFor resetDr capturedIr bypassDr.length)

end Acrobe.Jtag

/-!
## Discovery finds what is there

On a path of compliant TAPs that have just been reset, the three registers are
read back whole, and the instruction lengths that are there are among the
groupings considered.
-/

namespace Acrobe.Jtag
open BitString Lib

/-! ### The marker -/

theorem toNat_marked (register : BitString) (rest : Nat) :
    toNat (register ++ ofNat marker 32 ++ zeros rest) = toNat register + 2 ^ register.length * marker := by
  have value : toNat (ofNat marker 32) = marker := by rw [toNat_ofNat]; rfl
  rw [toNat_append, toNat_append, toNat_zeros, value, Nat.mul_zero, Nat.add_zero]

theorem log2_marked (register : BitString) (rest : Nat) :
    (toNat (register ++ ofNat marker 32 ++ zeros rest)).log2 = register.length + 31 := by
  rw [toNat_marked]
  have small := toNat_lt register
  have positive : 0 < 2 ^ register.length := Nat.two_pow_pos _
  have wide : marker < 2 ^ 32 := by decide
  have top : 2 ^ 31 ≤ marker := by decide
  rw [Nat.log2_eq_iff (by have := Nat.mul_pos positive (Nat.lt_of_lt_of_le (by decide) top); omega)]
  constructor
  · rw [Nat.pow_add]
    exact Nat.le_add_left_of_le (Nat.mul_le_mul_left _ top)
  · have next : 2 ^ register.length * marker + 2 ^ register.length ≤ 2 ^ register.length * 2 ^ 32 := by
      rw [← Nat.mul_succ]
      exact Nat.mul_le_mul_left _ wide
    rw [Nat.add_assoc, Nat.pow_add]
    omega

theorem beforeMarker_marked (register : BitString) (rest : Nat) :
    beforeMarker (register ++ ofNat marker 32 ++ zeros rest) = .ok register := by
  have length := log2_marked register rest
  have window : (register ++ ofNat marker 32 ++ zeros rest).slice register.length (register.length + 32) =
      ofNat marker 32 := by
    rw [BitString.slice, List.take_left' (by simp), List.drop_left]
  have low : toNat (register ++ ofNat marker 32 ++ zeros rest) ≠ 0 := by
    rw [toNat_marked]
    have := Nat.mul_pos (Nat.two_pow_pos register.length) (show 0 < marker by decide)
    omega
  have high : register ++ ofNat marker 32 ++ zeros rest ≠ ones (register ++ ofNat marker 32 ++ zeros rest).length := by
    intro same
    have bit : false ∈ ofNat marker 32 := by decide
    have among : false ∈ register ++ ofNat marker 32 ++ zeros rest :=
      List.mem_append_left _ (List.mem_append_right _ bit)
    rw [same] at among
    exact Bool.false_ne_true (List.eq_of_mem_replicate among)
  have found : toNat ((register ++ ofNat marker 32 ++ zeros rest).slice register.length (register.length + 32)) =
      marker := by
    rw [window, toNat_ofNat]
    rfl
  have ends : register.length + 31 + 1 - 32 = register.length := by omega
  simp only [beforeMarker, low, high, if_false, length, ends]
  rw [if_pos ⟨by omega, found⟩, BitString.slice, List.append_assoc, List.take_left, List.drop_zero]

theorem shiftDiscover_eq {hw : ScanPath} {maxLength : Nat} (fits : hw.register.length ≤ maxLength)
    (shiftIn : Option (Nat → BitString)) :
    shiftDiscover hw maxLength shiftIn =
      (match shiftIn with
        | none => hw.exec (.shift { tdi := markerTdi maxLength })
        | some back => hw.run [.shift { tdi := markerTdi maxLength },
            .shift { tdi := back hw.register.length, readTdo := false }, .run 1],
        .ok hw.register) := by
  have window : (hw.tdo (markerTdi maxLength)).slice 0 (maxLength + 32) =
      hw.register ++ ofNat marker 32 ++ zeros (maxLength - hw.register.length) := by
    have split : zeros (maxLength + 4) = zeros (maxLength - hw.register.length) ++ zeros (hw.register.length + 4) := by
      rw [zeros, zeros, zeros, ← List.replicate_add]
      congr 1
      omega
    have whole : hw.register ++ markerTdi maxLength = hw.register ++ ofNat marker 32 ++
        zeros (maxLength - hw.register.length) ++ zeros (hw.register.length + 4) := by
      rw [markerTdi, split, List.append_assoc, List.append_assoc]
    have length : (markerTdi maxLength).length = maxLength + 36 := by
      simp only [markerTdi, List.length_append, length_ofNat, length_zeros]
      omega
    rw [ScanPath.tdo, ShiftRegister.output, BitString.slice, List.drop_zero, List.take_take, whole, length,
      Nat.min_eq_left (by omega)]
    apply List.take_left'
    simp only [List.length_append, length_ofNat, length_zeros]
    omega
  simp only [shiftDiscover, window, beforeMarker_marked]
  cases shiftIn <;> rfl

/-! ### IDCODEs -/

def idRegister : Option Nat → BitString
  | some idcode => ofNat idcode 32
  | none => [false]

/-- An IDCODE is told from a bypass register by its first bit. -/
def ValidIdcode (idcode : Option Nat) : Prop := ∀ value, idcode = some value → value % 2 = 1 ∧ value < 2 ^ 32

instance : (idcode : Option Nat) → Decidable (ValidIdcode idcode)
  | none => .isTrue nofun
  | some value => decidable_of_iff (value % 2 = 1 ∧ value < 2 ^ 32) ⟨fun valid _ same => Option.some.inj same ▸ valid,
      fun valid => valid value rfl⟩

theorem idcodesIn_flatMap {idcodes : List (Option Nat)} (valid : ∀ idcode ∈ idcodes, ValidIdcode idcode) :
    idcodesIn idcodes.length (idcodes.flatMap idRegister) = idcodes := by
  induction idcodes with
  | nil => rfl
  | cons idcode idcodes ih =>
    have rest := ih fun idcode member => valid idcode (List.mem_cons_of_mem _ member)
    rw [List.flatMap_cons, List.length_cons]
    cases idcode with
    | none => exact congrArg (none :: ·) rest
    | some value =>
      obtain ⟨odd, small⟩ := valid (some value) List.mem_cons_self value rfl
      have first : idRegister (some value) = true :: ofNat (value / 2) 31 := by
        rw [idRegister, ofNat, odd]
        rfl
      have whole : true :: (ofNat (value / 2) 31 ++ idcodes.flatMap idRegister) =
          ofNat value 32 ++ idcodes.flatMap idRegister := by
        rw [← List.cons_append, ← first]
        rfl
      rw [first, List.cons_append, idcodesIn, whole, List.take_left' (length_ofNat _ _),
        List.drop_left' (length_ofNat _ _), rest, toNat_ofNat, Nat.mod_eq_of_lt small]

/-! ### Instruction lengths -/

theorem distances_append (xs : List Nat) (y : Nat) (ys : List Nat) :
    distances (xs ++ y :: ys) = distances (xs ++ [y]) ++ distances (y :: ys) := by
  induction xs with
  | nil => rfl
  | cons x xs ih =>
    cases xs with
    | nil => rfl
    | cons x' xs => exact congrArg ((x' - x) :: ·) ih

theorem distances_map_add (m : Nat) (xs : List Nat) : distances (xs.map (m + ·)) = distances xs := by
  rw [distances, distances, ← List.map_tail, List.zipWith_map]
  simp only [Nat.add_sub_add_left]

theorem sum_distances {a b : Nat} {xs : List Nat} (sorted : (a :: (xs ++ [b])).Pairwise (· ≤ ·)) :
    a + (distances (a :: (xs ++ [b]))).sum = b := by
  induction xs generalizing a with
  | nil =>
    have le := (List.pairwise_cons.mp sorted).1 b List.mem_cons_self
    show a + ((b - a) + 0) = b
    omega
  | cons x xs ih =>
    rw [List.pairwise_cons] at sorted
    have le := sorted.1 x List.mem_cons_self
    have rest := ih sorted.2
    show a + ((x - a) + (distances (x :: (xs ++ [b]))).sum) = b
    omega

theorem length_le_flatten {groups : List (List Nat)} (nonempty : ∀ g ∈ groups, g ≠ []) :
    groups.length ≤ groups.flatten.length ∧
      (groups.flatten.length = groups.length → groups.map List.sum = groups.flatten) := by
  induction groups with
  | nil => exact ⟨Nat.le_refl _, fun _ => rfl⟩
  | cons g groups ih =>
    obtain ⟨le, eq⟩ := ih fun g member => nonempty g (List.mem_cons_of_mem _ member)
    have some := List.length_pos_iff.mpr (nonempty g List.mem_cons_self)
    rw [List.flatten_cons, List.length_append, List.length_cons]
    refine ⟨by omega, fun same => ?_⟩
    obtain ⟨x, rfl⟩ := List.length_eq_one_iff.mp (show g.length = 1 by omega)
    rw [List.map_cons, eq (by omega)]
    rfl

theorem mem_irMerge {groups : List (List Nat)} (nonempty : ∀ g ∈ groups, g ≠ []) (pre : List Nat) :
    pre ++ groups.map List.sum ∈ irMerge pre groups.flatten groups.length := by
  induction groups generalizing pre with
  | nil =>
    rw [List.map_nil, List.append_nil]
    exact List.mem_cons_self
  | cons g groups ih =>
    obtain ⟨le, eq⟩ := length_le_flatten nonempty
    rw [List.length_cons] at le eq ⊢
    rw [irMerge, if_neg (by omega)]
    split
    · rename_i same
      rw [eq same]
      exact List.mem_cons_self
    · have some := List.length_pos_iff.mpr (nonempty g List.mem_cons_self)
      have size : g.length - 1 + 1 = g.length := Nat.sub_add_cancel some
      refine List.mem_flatMap.mpr ⟨g.length - 1, ?_, ?_⟩
      · rw [List.mem_range, List.flatten_cons, List.length_append]
        omega
      · rw [size, List.flatten_cons, List.take_left, List.drop_left, List.map_cons,
          List.append_cons pre g.sum (groups.map List.sum)]
        exact ih (fun g member => nonempty g (List.mem_cons_of_mem _ member)) (pre ++ [g.sum])

def marks (ir : BitString) : List Nat := cutoffs ir ++ [ir.length]

theorem marks_append (c rest : BitString) :
    marks (c ++ rest) = ((List.range c.length).filter fun i => toNat ((c ++ rest).slice i (i + 2)) = 1) ++
      (marks rest).map (c.length + ·) := by
  have shifted : ∀ i, (c ++ rest).slice (c.length + i) (c.length + i + 2) = rest.slice i (i + 2) := by
    intro i
    rw [BitString.slice, Nat.add_assoc, List.take_length_add_append, List.drop_length_add_append]
    rfl
  rw [marks, cutoffs, List.length_append, List.range_add, List.filter_append, List.append_assoc, marks, List.map_append,
    cutoffs, List.filter_map]
  simp only [Function.comp_def, shifted]
  rfl

theorem exists_groups {captures : List BitString} (compliant : ∀ c ∈ captures, ∃ rest, c = true :: false :: rest) :
    ∃ groups : List (List Nat), (∀ g ∈ groups, g ≠ []) ∧ groups.map List.sum = captures.map List.length ∧
      distances (marks captures.flatten) = groups.flatten ∧ (marks captures.flatten).head? = some 0 := by
  induction captures with
  | nil => exact ⟨[], nofun, rfl, rfl, rfl⟩
  | cons c captures ih =>
    obtain ⟨groups, nonempty, sums, parts, head⟩ := ih fun c member => compliant c (List.mem_cons_of_mem _ member)
    obtain ⟨rest, begins⟩ := compliant c List.mem_cons_self
    obtain ⟨more, next⟩ := List.head?_eq_some_iff.mp head
    -- The marks inside `c`, the first of which is its beginning.
    obtain ⟨inner, first⟩ : ∃ inner, (List.range c.length).filter
        (fun i => decide (toNat ((c ++ captures.flatten).slice i (i + 2)) = 1)) = 0 :: inner := by
      rw [begins, List.length_cons, List.range_succ_eq_map, List.filter_cons_of_pos]
      · exact ⟨_, rfl⟩
      · rfl
    have sorted : (0 :: (inner ++ [c.length])).Pairwise (· ≤ ·) := by
      rw [← List.cons_append, ← first, List.pairwise_append]
      refine ⟨(List.pairwise_lt_range.filter _).imp Nat.le_of_lt, List.pairwise_singleton _ _, ?_⟩
      intro i member m last
      rw [List.mem_singleton.mp last]
      exact Nat.le_of_lt (List.mem_range.mp (List.mem_filter.mp member).1)
    refine ⟨distances (0 :: (inner ++ [c.length])) :: groups, ?_, ?_, ?_, ?_⟩
    · intro g member
      rcases List.mem_cons.mp member with rfl | later
      · cases inner <;> exact List.cons_ne_nil _ _
      · exact nonempty g later
    · have total := sum_distances sorted
      rw [Nat.zero_add] at total
      rw [List.map_cons, List.map_cons, total, sums]
    · rw [List.flatten_cons, marks_append, first, next, List.map_cons, List.cons_append, Nat.add_zero,
        ← List.cons_append, distances_append, List.flatten_cons, ← parts, next]
      congr 1
      exact distances_map_add c.length (0 :: more)
    · rw [List.flatten_cons, marks_append, first]
      rfl

/-! ### The probe -/

/-- A TAP as the standard has it, and as the software knows it. -/
structure ScanPath.Compliant (hw : ScanPath) (tap : Tap) : Prop where
  captures : ∃ rest, hw.captured tap = true :: false :: rest
  irlen : (hw.captured tap).length = tap.irlen
  bypass : hw.data tap tap.bypass = [false]
  identity : hw.data tap (hw.resetIr tap) = idRegister tap.idcode
  valid : ValidIdcode tap.idcode

structure ScanPath.Discoverable (hw : ScanPath) : Prop where
  nodup : hw.path.Nodup
  compliant : ∀ tap ∈ hw.path, hw.Compliant tap
  shortIr : irWidth hw.path ≤ defaultLength
  shortDr : (hw.path.flatMap fun tap => idRegister tap.idcode).length ≤ defaultLength

def ScanPath.Recorded (hw : ScanPath) (irlenFor : Nat → Option Nat) : Prop :=
  ∀ tap ∈ hw.path, ∀ idcode, tap.idcode = some idcode → ∀ irlen, irlenFor idcode = some irlen → irlen = tap.irlen

def Tap.identity (tap : Tap) : Option Nat × Nat := (tap.idcode, tap.irlen)

/-- The captured instruction registers leave one grouping. -/
def ScanPath.Unambiguous (hw : ScanPath) (irlenFor : Nat → Option Nat) : Prop :=
  hw.path ≠ [] ∧ (possibilities (hw.path.map fun tap => tap.idcode.bind irlenFor) (hw.path.flatMap hw.captured)
    hw.path.length).length = 1

instance (hw : ScanPath) (irlenFor : Nat → Option Nat) : Decidable (hw.Unambiguous irlenFor) :=
  inferInstanceAs (Decidable (_ ∧ _))

theorem length_path_le {hw : ScanPath} (compliant : ∀ tap ∈ hw.path, hw.Compliant tap) :
    2 * hw.path.length ≤ irWidth hw.path := by
  generalize hw.path = path at compliant
  induction path with
  | nil => exact Nat.le_refl _
  | cons tap path ih =>
    obtain ⟨⟨rest, begins⟩, irlen, _⟩ := compliant tap List.mem_cons_self
    rw [begins, List.length_cons, List.length_cons] at irlen
    have := ih fun tap member => compliant tap (List.mem_cons_of_mem _ member)
    rw [List.length_cons, irWidth_cons]
    omega

theorem mem_possibilities {hw : ScanPath} (compliant : ∀ tap ∈ hw.path, hw.Compliant tap)
    {irlenFor : Nat → Option Nat} (recorded : hw.Recorded irlenFor) :
    hw.path.map Tap.irlen ∈ possibilities (hw.path.map fun tap => tap.idcode.bind irlenFor)
      (hw.path.flatMap hw.captured) hw.path.length := by
  have captures : ∀ c ∈ hw.path.map hw.captured, ∃ rest, c = true :: false :: rest := by
    intro c member
    obtain ⟨tap, listed, rfl⟩ := List.mem_map.mp member
    exact (compliant tap listed).captures
  obtain ⟨groups, nonempty, sums, parts, _⟩ := exists_groups captures
  have lengths : groups.map List.sum = hw.path.map Tap.irlen := by
    rw [sums, List.map_map]
    exact List.map_congr_left fun tap listed => (compliant tap listed).irlen
  have count : groups.length = hw.path.length := by
    rw [← List.length_map List.sum, lengths, List.length_map]
  have member := mem_irMerge nonempty []
  rw [← parts, count, lengths, List.nil_append, ← List.flatMap_def] at member
  refine List.mem_filter.mpr ⟨member, ?_⟩
  rw [List.zip_map', List.all_map, List.all_eq_true]
  intro tap listed
  simp only [Function.comp_apply, decide_eq_true_eq]
  cases idcode : tap.idcode with
  | none => exact .inl rfl
  | some value =>
    rw [Option.bind_some]
    cases known : irlenFor value with
    | none => exact .inl rfl
    | some irlen => exact .inr (congrArg some (recorded tap listed value idcode irlen known))

theorem head?_cutoffs (rest : BitString) : (cutoffs (true :: false :: rest)).head? = some 0 := by
  rw [cutoffs, List.length_cons, List.range_succ_eq_map, List.filter_cons_of_pos]
  · rfl
  · rfl

theorem identify_path {hw : ScanPath} (compliant : ∀ tap ∈ hw.path, hw.Compliant tap)
    {irlenFor : Nat → Option Nat} (recorded : hw.Recorded irlenFor) :
    (hw.Unambiguous irlenFor → identify irlenFor (hw.path.flatMap fun tap => idRegister tap.idcode)
        (hw.path.flatMap hw.captured) hw.path.length = .ok (hw.path.map Tap.identity)) ∧
      (¬ hw.Unambiguous irlenFor → ∃ message, identify irlenFor (hw.path.flatMap fun tap => idRegister tap.idcode)
        (hw.path.flatMap hw.captured) hw.path.length = .error (.valueError message)) := by
  have valid : ∀ idcode ∈ hw.path.map Tap.idcode, ValidIdcode idcode := by
    intro idcode member
    obtain ⟨tap, listed, rfl⟩ := List.mem_map.mp member
    exact (compliant tap listed).valid
  have idcodes := idcodesIn_flatMap valid
  rw [List.length_map, List.flatMap_map] at idcodes
  have known : (hw.path.map Tap.idcode).map (fun idcode => idcode.bind irlenFor) =
      hw.path.map fun tap => tap.idcode.bind irlenFor := by
    rw [List.map_map]
    rfl
  have among := mem_possibilities compliant recorded
  have begins : hw.path ≠ [] → (cutoffs (hw.path.flatMap hw.captured)).head? = some 0 := by
    intro nonempty
    obtain ⟨tap, path, split⟩ := List.exists_cons_of_ne_nil nonempty
    obtain ⟨rest, captured⟩ := (compliant tap (split ▸ List.mem_cons_self)).captures
    rw [split, List.flatMap_cons, captured]
    exact head?_cutoffs _
  simp only [identify, idcodes, known]
  constructor
  · rintro ⟨nonempty, one⟩
    obtain ⟨lengths, only⟩ := List.length_eq_one_iff.mp one
    rw [only] at among
    have there := List.mem_singleton.mp among
    rw [if_neg (not_not_intro (begins nonempty)), only]
    simp only [← there]
    rw [List.zip_map']
    rfl
  · intro several
    by_cases nonempty : hw.path = []
    · rw [nonempty, if_pos (by simp [cutoffs])]
      exact ⟨_, rfl⟩
    · rw [if_neg (not_not_intro (begins nonempty))]
      split
      · rename_i lengths only
        exact (several ⟨nonempty, by rw [only]; rfl⟩).elim
      · exact ⟨_, rfl⟩

theorem load_ones {ir : Tap → Nat} {path : List Tap} (nodup : path.Nodup) {tap : Tap} (member : tap ∈ path) :
    ScanPath.load ir path (ones (irWidth path)) tap = tap.bypass := by
  obtain ⟨pre, post, split⟩ := List.append_of_mem member
  have inside : irWidth pre + tap.irlen ≤ irWidth path := by
    rw [split, irWidth_append, irWidth_cons]
    omega
  have bits := take_drop_ones [] inside
  rw [List.append_nil] at bits
  generalize irWidth path = width at bits
  subst split
  rw [ScanPath.load_split nodup, bits, toNat_ones]
  rfl

theorem ir_after_ones {hw : ScanPath} (nodup : hw.path.Nodup)
    (captures : ∀ tap ∈ hw.path, (hw.captured tap).length = tap.irlen) (tdi : BitString) {tap : Tap}
    (member : tap ∈ hw.path) :
    ((hw.exec .captureIr).run [.shift { tdi }, .shift { tdi := ones (irWidth hw.path), readTdo := false }, .run 1]).ir tap =
      tap.bypass := by
  have whole : ShiftRegister.contents (ShiftRegister.contents (hw.path.flatMap hw.captured) tdi)
      (ones (irWidth hw.path)) = ones (irWidth hw.path) := by
    apply ShiftRegister.contents_of_length_eq
    rw [ShiftRegister.length_contents, ScanPath.length_captured captures, length_ones]
  show ScanPath.load _ hw.path (ShiftRegister.contents
    (ShiftRegister.contents (hw.path.flatMap hw.captured) tdi) (ones (irWidth hw.path))) tap = tap.bypass
  rw [whole]
  exact load_ones nodup member

theorem discover_reset {hw : ScanPath} (discoverable : hw.Discoverable)
    (reset : ∀ tap ∈ hw.path, hw.ir tap = hw.resetIr tap) :
    ∃ hw', shiftDiscover (hw.exec .captureDr) defaultLength none =
      (hw', .ok (hw.path.flatMap fun tap => idRegister tap.idcode)) ∧ ScanPath.Keeps hw hw' := by
  have register : (hw.exec .captureDr).register = hw.path.flatMap fun tap => idRegister tap.idcode := by
    refine List.flatMap_congr fun tap listed => ?_
    rw [reset tap listed, (discoverable.compliant tap listed).identity]
  have found := shiftDiscover_eq (register ▸ discoverable.shortDr) none
  rw [register] at found
  exact ⟨_, found, (ScanPath.keeps_exec ..).trans (ScanPath.keeps_exec ..)⟩

theorem discover_ir {hw : ScanPath} (discoverable : hw.Discoverable) :
    ∃ hw', shiftDiscover (hw.exec .captureIr) defaultLength (some ones) = (hw', .ok (hw.path.flatMap hw.captured)) ∧
      ScanPath.Keeps hw hw' ∧ ∀ tap ∈ hw.path, hw'.ir tap = tap.bypass := by
  have captures : ∀ tap ∈ hw.path, (hw.captured tap).length = tap.irlen := fun tap listed =>
    (discoverable.compliant tap listed).irlen
  have length : (hw.exec .captureIr).register.length = irWidth hw.path := ScanPath.length_captured captures
  have found := shiftDiscover_eq (length ▸ discoverable.shortIr) (some ones)
  rw [length] at found
  exact ⟨_, found, (ScanPath.keeps_exec ..).trans (ScanPath.keeps_run ..),
    fun tap listed => ir_after_ones discoverable.nodup captures _ listed⟩

theorem discover_bypass {hw : ScanPath} (compliant : ∀ tap ∈ hw.path, hw.Compliant tap)
    (bypassed : ∀ tap ∈ hw.path, hw.ir tap = tap.bypass) :
    ∃ hw', shiftDiscover (hw.exec .captureDr) (irWidth hw.path / 2) none = (hw', .ok (hw.path.map fun _ => false)) := by
  have register : (hw.exec .captureDr).register = hw.path.map fun _ => false := by
    rw [List.map_eq_flatMap]
    refine List.flatMap_congr fun tap listed => ?_
    rw [bypassed tap listed, (compliant tap listed).bypass]
  have devices := length_path_le compliant
  have fits : (hw.exec .captureDr).register.length ≤ irWidth hw.path / 2 := by
    rw [register, List.length_map]
    omega
  have found := shiftDiscover_eq fits none
  rw [register] at found
  exact ⟨_, found⟩

theorem ScanPath.Compliant.keeps {hw hw' : ScanPath} (keeps : ScanPath.Keeps hw hw') {tap : Tap}
    (compliant : hw.Compliant tap) : hw'.Compliant tap := by
  obtain ⟨captures, irlen, bypass, identity, valid⟩ := compliant
  constructor
  · rwa [keeps.captured]
  · rwa [keeps.captured]
  · rwa [keeps.data]
  · rwa [keeps.data, keeps.resetIr]
  · exact valid

theorem ScanPath.Discoverable.keeps {hw hw' : ScanPath} (keeps : ScanPath.Keeps hw hw')
    (discoverable : hw.Discoverable) : hw'.Discoverable := by
  obtain ⟨nodup, compliant, shortIr, shortDr⟩ := discoverable
  constructor
  · rwa [keeps.path]
  · rw [keeps.path]
    exact fun tap listed => (compliant tap listed).keeps keeps
  · rwa [keeps.path]
  · rwa [keeps.path]

theorem probe_of_registers {irlenFor : Nat → Option Nat} {hw hw₁ hw₂ hw₃ : ScanPath} {resetDr ir bypassDr : BitString}
    (first : shiftDiscover (hw.exec .captureDr) defaultLength none = (hw₁, .ok resetDr))
    (second : shiftDiscover (hw₁.exec .captureIr) defaultLength (some ones) = (hw₂, .ok ir))
    (third : shiftDiscover (hw₂.exec .captureDr) (ir.length / 2) none = (hw₃, .ok bypassDr)) :
    probeChainInResetState irlenFor hw = (hw₃, identify irlenFor resetDr ir bypassDr.length) := by
  unfold probeChainInResetState
  simp only [first, second, third]

theorem probe_eq {hw : ScanPath} (discoverable : hw.Discoverable) (irlenFor : Nat → Option Nat)
    (reset : ∀ tap ∈ hw.path, hw.ir tap = hw.resetIr tap) :
    (probeChainInResetState irlenFor hw).2 = identify irlenFor (hw.path.flatMap fun tap => idRegister tap.idcode)
      (hw.path.flatMap hw.captured) hw.path.length := by
  obtain ⟨hw₁, first, keeps₁⟩ := discover_reset discoverable reset
  obtain ⟨hw₂, second, keeps₂, bypassed⟩ := discover_ir (discoverable.keeps keeps₁)
  have keeps := keeps₁.trans keeps₂
  rw [← keeps₂.path] at bypassed
  obtain ⟨hw₃, third⟩ := discover_bypass (discoverable.keeps keeps).compliant bypassed
  have length : (hw.path.flatMap hw.captured).length = irWidth hw.path :=
    ScanPath.length_captured fun tap listed => (discoverable.compliant tap listed).irlen
  rw [keeps.path, ← length] at third
  rw [keeps₁.path, keeps₁.captured] at second
  rw [probe_of_registers first second third, List.length_map]

/-- The probe of a discoverable path finds it exactly when the captured
registers leave one grouping of the lengths; otherwise it raises. -/
theorem probe_sound {hw : ScanPath} (discoverable : hw.Discoverable) {irlenFor : Nat → Option Nat}
    (recorded : hw.Recorded irlenFor) (reset : ∀ tap ∈ hw.path, hw.ir tap = hw.resetIr tap) :
    (hw.Unambiguous irlenFor → (probeChainInResetState irlenFor hw).2 = .ok (hw.path.map Tap.identity)) ∧
      (¬ hw.Unambiguous irlenFor → ∃ message, (probeChainInResetState irlenFor hw).2 = .error (.valueError message)) := by
  rw [probe_eq discoverable irlenFor reset]
  exact identify_path discoverable.compliant recorded

end Acrobe.Jtag
