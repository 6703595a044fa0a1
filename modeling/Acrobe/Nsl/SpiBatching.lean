import Acrobe.Nsl.SpiTransactorSound

/-!
# Batches of the SPI transactor

The mode of a select is remembered up to the end of its batch. A deselect that comes first in a later batch is encoded
with mode 0.
-/

namespace Acrobe.Nsl.SpiTransactor
open LittleEndian Acrobe.Storage CommandStream

/-- The streams of consecutive batches, one behind the other. -/
def Codec.stream (self : Codec) : List (List (BatchEntry Op)) → Except PyErr Bytes
  | [] => .ok []
  | batch :: batches =>
    match (self.encode batch).2 with
    | .error error => .error error
    | .ok encoding => (stream (self.encode batch).1 batches).map (encoding.cmd ++ ·)

/-- A shift of broken bytes, or of chunks that a command byte has no room for. -/
def Op.Refused (maxChunk : Int) : Op → Prop
  | .cs _ _ => False
  | .shift mosi _ =>
    mosi.length % 8 ≠ 0 ∨ Bits.pack mosi ≠ [] ∧ (maxChunk = 0 ∨ 256 < min maxChunk (Bits.pack mosi).length)
  | .other _ => True

/-- Whether a deselect comes before every select. -/
def leadingDeselect : List Op → Bool
  | [] => false
  | .cs none _ :: _ => true
  | .cs (some _) _ :: _ => false
  | _ :: ops => leadingDeselect ops

/-- A batch that begins with a deselect comes behind a select of mode 0, 4 and so on. -/
def Kept (mode : Int) : List (List Op) → Prop
  | [] => True
  | ops :: batches => (leadingDeselect ops = true → cpol mode = 0 ∧ cpha mode = 0) ∧ Kept (ops.foldl modeAfter mode) batches

/-! ### The bytes of operations -/

/-- The bytes of one operation. -/
def opBytes (maxChunk mode : Int) (op : Op) : Except PyErr Bytes := (encodeOne maxChunk mode op 0 .start).map Encoding.cmd

def opsBytes (maxChunk mode : Int) : List Op → Except PyErr Bytes
  | [] => .ok []
  | op :: ops =>
    match opBytes maxChunk mode op with
    | .error error => .error error
    | .ok front => (opsBytes maxChunk (modeAfter mode op) ops).map (front ++ ·)

theorem encodeChunks_cmd (readMiso : Bool) (opIdx other size : Nat) (acc between : Encoding) (front : Bytes)
    (behind : acc.cmd = front ++ between.cmd) (mosi : Bytes) :
    (encodeChunks readMiso opIdx size acc mosi).map Encoding.cmd =
      ((encodeChunks readMiso other size between mosi).map Encoding.cmd).map (front ++ ·) := by
  match mosi with
  | [] =>
    unfold encodeChunks
    exact congrArg Except.ok behind
  | byte :: rest =>
    rw [encodeChunks, encodeChunks]
    dsimp only
    split
    · rfl
    · apply encodeChunks_cmd
      dsimp only
      rw [behind, List.append_assoc]
termination_by mosi.length

theorem encodeOne_cmd (maxChunk mode : Int) (op : Op) (opIdx : Nat) (acc : Encoding) :
    (encodeOne maxChunk mode op opIdx acc).map Encoding.cmd = (opBytes maxChunk mode op).map (acc.cmd ++ ·) := by
  unfold opBytes encodeOne
  cases op with
  | cs value next => rfl
  | other typeName => rfl
  | shift mosi readMiso =>
    dsimp only
    split
    · rfl
    · split
      · exact congrArg Except.ok (List.append_nil _).symm
      · split
        · rfl
        · split
          · exact congrArg Except.ok (List.append_nil _).symm
          · exact encodeChunks_cmd readMiso opIdx 0 _ acc .start acc.cmd (List.append_nil _).symm _

theorem encodeOps_cmd (maxChunk mode : Int) (ops : List Op) (start : Nat) (acc : Encoding) :
    (encodeOps maxChunk mode acc (ops.zipIdx start)).map Encoding.cmd = (opsBytes maxChunk mode ops).map (acc.cmd ++ ·) := by
  induction ops generalizing mode start acc with
  | nil => exact congrArg Except.ok (List.append_nil _).symm
  | cons op ops ih =>
    have one := encodeOne_cmd maxChunk mode op start acc
    rw [List.zipIdx_cons, encodeOps, opsBytes]
    cases encoded : encodeOne maxChunk mode op start acc with
    | error error =>
      rw [encoded] at one
      cases bytes : opBytes maxChunk mode op with
      | error other =>
        rw [bytes] at one
        exact one
      | ok front =>
        rw [bytes] at one
        cases one
    | ok after =>
      rw [encoded] at one
      cases bytes : opBytes maxChunk mode op with
      | error other =>
        rw [bytes] at one
        cases one
      | ok front =>
        rw [bytes] at one
        have cmd : after.cmd = acc.cmd ++ front := Except.ok.inj one
        dsimp only
        rw [ih, cmd]
        cases opsBytes maxChunk (modeAfter mode op) ops with
        | error error => rfl
        | ok back => exact congrArg Except.ok (List.append_assoc ..)

/-! ### Refusals -/

theorem code_refused_iff (readMiso : Bool) (length : Nat) : 256 ≤ chunkCode readMiso length ↔ 256 < length := by
  have base : (if readMiso then cmdShiftInout else cmdShiftOut) < 2 ^ 8 := by cases readMiso <;> decide
  unfold chunkCode
  constructor
  · intro large
    by_contra small
    have code := Nat.or_lt_two_pow base (show length - 1 < 2 ^ 8 by omega)
    omega
  · intro large
    have above : length - 1 ≤ (if readMiso then cmdShiftInout else cmdShiftOut) ||| (length - 1) := Nat.right_le_or
    omega

theorem encodeChunks_refused_iff (readMiso : Bool) (opIdx size : Nat) (acc : Encoding) (mosi : Bytes) :
    (∃ error, encodeChunks readMiso opIdx size acc mosi = .error error) ↔ 256 < min (size + 1) mosi.length := by
  match mosi with
  | [] =>
    unfold encodeChunks
    simp
  | byte :: rest =>
    rw [encodeChunks]
    dsimp only
    rw [List.length_take]
    split
    · next large =>
      rw [code_refused_iff] at large
      exact iff_of_true ⟨_, rfl⟩ large
    · next small =>
      rw [code_refused_iff] at small
      rw [encodeChunks_refused_iff, List.length_drop]
      omega
termination_by mosi.length

theorem opBytes_refused_iff (maxChunk mode : Int) (op : Op) :
    (∃ error, opBytes maxChunk mode op = .error error) ↔ op.Refused maxChunk := by
  have map_error (result : Except PyErr Encoding) :
      (∃ error, result.map Encoding.cmd = .error error) ↔ ∃ error, result = .error error := by
    cases result with
    | error error => exact iff_of_true ⟨_, rfl⟩ ⟨_, rfl⟩
    | ok after => exact iff_of_false nofun nofun
  unfold opBytes
  rw [map_error]
  cases op with
  | cs value next => exact iff_of_false nofun id
  | other typeName => exact iff_of_true ⟨_, rfl⟩ trivial
  | shift mosi readMiso =>
    unfold encodeOne Op.Refused
    dsimp only
    by_cases broken : mosi.length % 8 ≠ 0
    · rw [if_pos broken]
      exact iff_of_true ⟨_, rfl⟩ (Or.inl broken)
    · rw [if_neg broken, or_iff_right broken]
      by_cases empty : Bits.pack mosi = []
      · rw [if_pos empty]
        exact iff_of_false nofun fun both => both.1 empty
      · rw [if_neg empty, and_iff_right empty]
        by_cases zero : maxChunk = 0
        · rw [if_pos zero]
          exact iff_of_true ⟨_, rfl⟩ (Or.inl zero)
        · rw [if_neg zero, or_iff_right zero]
          by_cases negative : maxChunk < 0
          · rw [if_pos negative]
            exact iff_of_false nofun (by omega)
          · rw [if_neg negative, encodeChunks_refused_iff]
            omega

theorem opsBytes_refused_iff (maxChunk mode : Int) (ops : List Op) :
    (∃ error, opsBytes maxChunk mode ops = .error error) ↔ ∃ op ∈ ops, op.Refused maxChunk := by
  induction ops generalizing mode with
  | nil => exact iff_of_false nofun (by simp)
  | cons op ops ih =>
    have one := opBytes_refused_iff maxChunk mode op
    rw [opsBytes, List.exists_mem_cons_iff, ← one, ← ih (modeAfter mode op)]
    cases opBytes maxChunk mode op with
    | error error => exact iff_of_true ⟨_, rfl⟩ (Or.inl ⟨_, rfl⟩)
    | ok front =>
      dsimp only
      rw [or_iff_right nofun]
      cases opsBytes maxChunk (modeAfter mode op) ops with
      | error error => exact iff_of_true ⟨_, rfl⟩ ⟨_, rfl⟩
      | ok back => exact iff_of_false nofun nofun

/-! ### Modes -/

/-- Operations in two modes: refused alike, or streams of one length that are the same unless a leading deselect shows
the modes. -/
structure Alike (ops : List Op) (mode : Int) (first second : Except PyErr Bytes) : Prop where
  refused : ∀ error, first = .error error ↔ second = .error error
  length : ∀ front back, first = .ok front → second = .ok back → front.length = back.length ∧
    (front = back ↔ (leadingDeselect ops = true → cpol mode = 0 ∧ cpha mode = 0))

theorem selectByte_zero_iff (mode : Int) :
    selectByte 0 unselectId = selectByte mode unselectId ↔ cpol mode = 0 ∧ cpha mode = 0 := by
  have polarity : cpol mode < 2 := by
    unfold cpol
    omega
  have phase : cpha mode < 2 := by
    unfold cpha
    omega
  have all : ∀ polarity < 2, ∀ phase < 2, UInt8.ofNat (cmdSelect ||| 0 * 16 ||| 0 * 8 ||| unselectId) =
      UInt8.ofNat (cmdSelect ||| polarity * 16 ||| phase * 8 ||| unselectId) ↔ polarity = 0 ∧ phase = 0 := by decide
  exact all _ polarity _ phase

theorem Alike.same {ops : List Op} {mode : Int} (hidden : leadingDeselect ops = false) (result : Except PyErr Bytes) :
    Alike ops mode result result where
  refused := fun _ => Iff.rfl
  length := by
    intro front back first second
    obtain rfl : front = back := Except.ok.inj (first.symm.trans second)
    refine ⟨rfl, iff_of_true rfl ?_⟩
    intro shown
    rw [hidden] at shown
    cases shown

theorem Alike.behind {op : Op} {ops : List Op} {mode : Int} {first second : Except PyErr Bytes}
    (alike : Alike ops mode first second) (same : leadingDeselect (op :: ops) = leadingDeselect ops) (bytes : Bytes) :
    Alike (op :: ops) mode (first.map (bytes ++ ·)) (second.map (bytes ++ ·)) := by
  obtain ⟨refused, length⟩ := alike
  cases first with
  | error error =>
    obtain rfl := (refused error).mp rfl
    exact ⟨fun _ => Iff.rfl, nofun⟩
  | ok front =>
    cases second with
    | error error => exact absurd ((refused error).mpr rfl) nofun
    | ok back =>
      obtain ⟨size, equal⟩ := length front back rfl rfl
      refine ⟨fun _ => iff_of_false nofun nofun, ?_⟩
      intro whole other left right
      obtain rfl : bytes ++ front = whole := Except.ok.inj left
      obtain rfl : bytes ++ back = other := Except.ok.inj right
      rw [List.length_append, List.length_append, size, same, List.append_cancel_left_eq]
      exact ⟨rfl, equal⟩

theorem alike_modes (maxChunk mode : Int) (ops : List Op) :
    Alike ops mode (opsBytes maxChunk 0 ops) (opsBytes maxChunk mode ops) := by
  induction ops with
  | nil => exact .same rfl _
  | cons op ops ih =>
    rw [opsBytes, opsBytes]
    cases op with
    | other typeName => exact ⟨fun _ => Iff.rfl, nofun⟩
    | shift mosi readMiso =>
      have same : opBytes maxChunk 0 (.shift mosi readMiso) = opBytes maxChunk mode (.shift mosi readMiso) := rfl
      rw [same]
      cases opBytes maxChunk mode (.shift mosi readMiso) with
      | error error => exact ⟨fun _ => Iff.rfl, nofun⟩
      | ok bytes => exact ih.behind rfl bytes
    | cs value next =>
      cases value with
      | some value => exact .same rfl _
      | none =>
        show Alike _ mode ((opsBytes maxChunk 0 ops).map ([selectByte 0 unselectId] ++ ·))
          ((opsBytes maxChunk mode ops).map ([selectByte mode unselectId] ++ ·))
        obtain ⟨refused, length⟩ := ih
        cases first : opsBytes maxChunk 0 ops with
        | error error =>
          rw [(refused error).mp first]
          exact ⟨fun _ => Iff.rfl, nofun⟩
        | ok front =>
          cases second : opsBytes maxChunk mode ops with
          | error error =>
            rw [(refused error).mpr second] at first
            cases first
          | ok back =>
            obtain ⟨size, equal⟩ := length front back first second
            refine ⟨fun _ => iff_of_false nofun nofun, ?_⟩
            intro whole other left right
            obtain rfl : [selectByte 0 unselectId] ++ front = whole := Except.ok.inj left
            obtain rfl : [selectByte mode unselectId] ++ back = other := Except.ok.inj right
            refine ⟨congrArg (· + 1) size, ?_⟩
            rw [List.singleton_append, List.singleton_append, List.cons.injEq, selectByte_zero_iff]
            constructor
            · intro same _
              exact same.1
            · intro shown
              have zero := shown rfl
              exact ⟨zero, equal.mpr fun _ => zero⟩

/-! ### Cuts -/

/-- The streams of batches that all begin in mode 0. -/
def cutBytes (maxChunk : Int) : List (List Op) → Except PyErr Bytes
  | [] => .ok []
  | ops :: batches =>
    match opsBytes maxChunk 0 ops with
    | .error error => .error error
    | .ok front => (cutBytes maxChunk batches).map (front ++ ·)

theorem opsBytes_append (maxChunk mode : Int) (front back : List Op) :
    opsBytes maxChunk mode (front ++ back) =
      match opsBytes maxChunk mode front with
      | .error error => .error error
      | .ok bytes => (opsBytes maxChunk (front.foldl modeAfter mode) back).map (bytes ++ ·) := by
  induction front generalizing mode with
  | nil =>
    show opsBytes maxChunk mode back = (opsBytes maxChunk mode back).map ([] ++ ·)
    cases opsBytes maxChunk mode back <;> rfl
  | cons op front ih =>
    rw [List.cons_append, opsBytes, opsBytes, List.foldl_cons]
    cases opBytes maxChunk mode op with
    | error error => rfl
    | ok bytes =>
      dsimp only
      rw [ih]
      cases opsBytes maxChunk (modeAfter mode op) front with
      | error error => rfl
      | ok more =>
        dsimp only [Except.map]
        cases opsBytes maxChunk (front.foldl modeAfter (modeAfter mode op)) back with
        | error error => rfl
        | ok rest => exact congrArg Except.ok (List.append_assoc ..).symm

theorem cutBytes_refused {maxChunk : Int} {batches : List (List Op)} {error : PyErr} {mode : Int}
    (refused : opsBytes maxChunk mode batches.flatten = .error error) : cutBytes maxChunk batches = .error error := by
  induction batches generalizing mode with
  | nil => cases refused
  | cons ops batches ih =>
    rw [List.flatten_cons, opsBytes_append] at refused
    rw [cutBytes]
    cases whole : opsBytes maxChunk mode ops with
    | error other =>
      rw [whole] at refused
      rw [((alike_modes maxChunk mode ops).refused other).mpr whole]
      exact refused
    | ok bytes =>
      rw [whole] at refused
      cases later : opsBytes maxChunk (ops.foldl modeAfter mode) batches.flatten with
      | ok rest =>
        rw [later] at refused
        cases refused
      | error other =>
        rw [later] at refused
        obtain rfl : other = error := Except.error.inj refused
        rw [ih later]
        cases first : opsBytes maxChunk 0 ops with
        | error wrong =>
          rw [((alike_modes maxChunk mode ops).refused wrong).mp first] at whole
          cases whole
        | ok front => rfl

theorem cutBytes_ok {maxChunk : Int} {batches : List (List Op)} {mode : Int} {bytes : Bytes}
    (accepted : opsBytes maxChunk mode batches.flatten = .ok bytes) :
    ∃ cut, cutBytes maxChunk batches = .ok cut ∧ cut.length = bytes.length ∧ (cut = bytes ↔ Kept mode batches) := by
  induction batches generalizing mode bytes with
  | nil =>
    obtain rfl := Except.ok.inj accepted
    exact ⟨[], rfl, rfl, iff_of_true rfl trivial⟩
  | cons ops batches ih =>
    rw [List.flatten_cons, opsBytes_append] at accepted
    cases whole : opsBytes maxChunk mode ops with
    | error error =>
      rw [whole] at accepted
      cases accepted
    | ok here =>
      rw [whole] at accepted
      cases later : opsBytes maxChunk (ops.foldl modeAfter mode) batches.flatten with
      | error error =>
        rw [later] at accepted
        cases accepted
      | ok rest =>
        rw [later] at accepted
        obtain rfl : here ++ rest = bytes := Except.ok.inj accepted
        obtain ⟨cut, pieces, size, same⟩ := ih later
        cases first : opsBytes maxChunk 0 ops with
        | error error =>
          rw [((alike_modes maxChunk mode ops).refused error).mp first] at whole
          cases whole
        | ok front =>
          obtain ⟨equalSize, equal⟩ := (alike_modes maxChunk mode ops).length front here first whole
          refine ⟨front ++ cut, ?_, ?_, ?_⟩
          · rw [cutBytes, first, pieces]
            rfl
          · rw [List.length_append, List.length_append, equalSize, size]
          · rw [Kept, ← equal, ← same]
            constructor
            · intro both
              exact List.append_inj both equalSize
            · intro both
              rw [both.1, both.2]

theorem encode_clean {self : Codec} (clean : self.rateDirty = false) (batch : List (BatchEntry Op)) :
    (self.encode batch).1 = self ∧
      (self.encode batch).2.map Encoding.cmd = opsBytes self.maxChunk 0 (batch.map BatchEntry.op) := by
  have configured : self.configure = (self, .start) := by
    unfold Codec.configure
    rw [if_neg (by rw [clean]; exact Bool.false_ne_true)]
  unfold Codec.encode
  rw [configured]
  dsimp only
  refine ⟨rfl, ?_⟩
  rw [encodeOps_cmd]
  cases opsBytes self.maxChunk 0 (batch.map BatchEntry.op) <;> rfl

theorem stream_eq {self : Codec} (clean : self.rateDirty = false) (batches : List (List (BatchEntry Op))) :
    self.stream batches = cutBytes self.maxChunk (batches.map (List.map BatchEntry.op)) := by
  induction batches with
  | nil => rfl
  | cons batch batches ih =>
    obtain ⟨same, cmd⟩ := encode_clean clean batch
    rw [Codec.stream, same, List.map_cons, cutBytes, ← cmd, ih]
    cases (self.encode batch).2 <;> rfl

/-- Once the divisor is programmed, cutting a sequence into batches leaves its stream the same if and only if an
operation is refused or no batch begins with a deselect behind a select of another mode than 0. -/
theorem stream_cut_iff (self : Codec) (clean : self.rateDirty = false) (batches : List (List (BatchEntry Op))) :
    self.stream batches = self.stream [batches.flatten] ↔
      (∃ entry ∈ batches.flatten, entry.op.Refused self.maxChunk) ∨
        Kept 0 (batches.map (List.map BatchEntry.op)) := by
  have single : self.stream [batches.flatten] =
      opsBytes self.maxChunk 0 (batches.map (List.map BatchEntry.op)).flatten := by
    rw [stream_eq clean, List.map_singleton, cutBytes, List.map_flatten]
    cases opsBytes self.maxChunk 0 (batches.map (List.map BatchEntry.op)).flatten with
    | error error => rfl
    | ok bytes => exact congrArg Except.ok (List.append_nil _)
  have refusals : (∃ entry ∈ batches.flatten, entry.op.Refused self.maxChunk) ↔
      ∃ op ∈ (batches.map (List.map BatchEntry.op)).flatten, op.Refused self.maxChunk := by
    rw [← List.map_flatten]
    constructor
    · intro found
      obtain ⟨entry, member, refused⟩ := found
      exact ⟨entry.op, List.mem_map_of_mem member, refused⟩
    · intro found
      obtain ⟨op, member, refused⟩ := found
      obtain ⟨entry, inside, rfl⟩ := List.mem_map.mp member
      exact ⟨entry, inside, refused⟩
  rw [single, stream_eq clean, refusals, ← opsBytes_refused_iff self.maxChunk 0]
  cases whole : opsBytes self.maxChunk 0 (batches.map (List.map BatchEntry.op)).flatten with
  | error error => exact iff_of_true (cutBytes_refused whole) (Or.inl ⟨error, rfl⟩)
  | ok bytes =>
    obtain ⟨cut, pieces, -, same⟩ := cutBytes_ok whole
    rw [pieces, ← same, or_iff_right nofun, Except.ok.injEq]

/-- A deselect behind a select of mode 0, cut off from it. -/
theorem stream_cut_mode_zero :
    Codec.stream ⟨.div5, 64, 3, false, by decide⟩ [[⟨.cs (some 1) 0, .absent⟩], [⟨.cs none 0, .absent⟩]] =
      Codec.stream ⟨.div5, 64, 3, false, by decide⟩ [[⟨.cs (some 1) 0, .absent⟩, ⟨.cs none 0, .absent⟩]] :=
  (stream_cut_iff ⟨.div5, 64, 3, false, by decide⟩ rfl [[⟨.cs (some 1) 0, .absent⟩], [⟨.cs none 0, .absent⟩]]).mpr
    (Or.inr ⟨nofun, fun _ => ⟨rfl, rfl⟩, trivial⟩)

/-- Behind a select of mode 3 the deselect loses its mode with the cut. -/
theorem stream_cut_mode_three :
    Codec.stream ⟨.div5, 64, 3, false, by decide⟩ [[⟨.cs (some 1) 3, .absent⟩], [⟨.cs none 0, .absent⟩]] =
        .ok [0x19, 0x07] ∧
      Codec.stream ⟨.div5, 64, 3, false, by decide⟩ [[⟨.cs (some 1) 3, .absent⟩, ⟨.cs none 0, .absent⟩]] =
        .ok [0x19, 0x1f] := ⟨rfl, rfl⟩

end Acrobe.Nsl.SpiTransactor
