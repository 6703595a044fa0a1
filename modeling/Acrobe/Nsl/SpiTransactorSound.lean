import Acrobe.Nsl.SpiTransactor

/-!
# Responses of the SPI transactor

A batch is answered in the size that the encoder counts, and a shift gets the bytes that came back for its own bytes,
however it was cut.
-/

namespace Acrobe.Nsl.SpiTransactor
open LittleEndian Acrobe.Storage CommandStream

def Command.size : Command → Nat
  | .shiftIn count => count + 1
  | .shiftInout mosi => mosi.length + 1
  | _ => 1

namespace Device

variable {σ : Type} (device : Device σ)

theorem shift_append (s : σ) (front back : Bytes) :
    device.shift s (front ++ back) = ((device.shift (device.shift s front).1 back).1,
      (device.shift s front).2 ++ (device.shift (device.shift s front).1 back).2) := by
  induction front generalizing s with
  | nil => rfl
  | cons byte front ih => simp only [List.cons_append, shift, ih]

@[simp] theorem length_shift (s : σ) (mosi : Bytes) : (device.shift s mosi).2.length = mosi.length := by
  induction mosi generalizing s with
  | nil => rfl
  | cons byte mosi ih => simp only [shift, List.length_cons, ih]

@[simp] theorem length_receiveAll (s : σ) (count : Nat) : (device.receiveAll s count).2.length = count := by
  induction count generalizing s with
  | zero => rfl
  | succ count ih => simp only [receiveAll, List.length_cons, ih]

end Device

theorem sized {σ : Type} (device : Device σ) : device.machine.Sized Command.size := by
  intro s command
  cases command <;> simp [Device.machine, Device.answer, Command.size]

/-! ### Reading commands back -/

variable {scheme : DivisorScheme}

theorem select_fields : ∀ cpol < 2, ∀ cpha < 2, ∀ slave < 8,
    let n := cmdSelect ||| cpol * 16 ||| cpha * 8 ||| slave
    n < 0x20 ∧ n.testBit 4 = decide (cpol = 1) ∧ n.testBit 3 = decide (cpha = 1) ∧ n % 8 = slave := by
  decide

theorem slaveId_lt (value : Option Int) : slaveId value < 8 := by
  cases value with
  | none => decide
  | some value =>
    show (value % 8).toNat < 8
    omega

theorem interprets_select (mode : Int) (value : Option Int) :
    Interprets (fetch scheme) [selectByte mode (slaveId value)]
      [.select (cpol mode = 1) (cpha mode = 1) (slaveId value)] := by
  have polarity : cpol mode < 2 := by
    unfold cpol
    omega
  have phase : cpha mode < 2 := by
    unfold cpha
    omega
  obtain ⟨small, high, low, slave⟩ := select_fields _ polarity _ phase _ (slaveId_lt value)
  apply Interprets.one
  intro rest
  rw [List.nil_append, selectByte, fetch, toNat_code (by omega)]
  rw [if_pos small, high, low, slave]

def chunkCommand (readMiso : Bool) (chunk : Bytes) : Command :=
  if readMiso then .shiftInout chunk else .shiftOut chunk

theorem withMosi_append (chunk rest : Bytes) (make : Bytes → Command) :
    withMosi chunk.length (chunk ++ rest) make = some (make chunk, rest) := by
  unfold withMosi
  rw [if_neg (by simp), List.take_left' rfl, List.drop_left' rfl]

theorem chunkCode_eq (readMiso : Bool) {length : Nat} (fits : length ≤ 64) :
    chunkCode readMiso length = (if readMiso then 0xc0 else 0x80) + (length - 1) := by
  cases readMiso with
  | true => exact or_low (i := 6) (by omega) rfl
  | false => exact or_low (i := 6) (by omega) rfl

theorem interprets_chunk (readMiso : Bool) {chunk : Bytes} (positive : 0 < chunk.length) (fits : chunk.length ≤ 64) :
    Interprets (fetch scheme) (UInt8.ofNat (chunkCode readMiso chunk.length) :: chunk) [chunkCommand readMiso chunk] := by
  apply Interprets.one
  intro rest
  rw [chunkCode_eq readMiso fits]
  cases readMiso with
  | true =>
    simp only [if_true]
    rw [fetch, toNat_code (by omega), if_neg (by omega), if_neg (by omega), if_neg (by omega), if_neg (by omega),
      show 0xc0 + (chunk.length - 1) - 0xc0 + 1 = chunk.length by omega, withMosi_append]
    rfl
  | false =>
    simp only [Bool.false_eq_true, if_false]
    rw [fetch, toNat_code (by omega), if_neg (by omega), if_neg (by omega), if_neg (by omega), if_pos (by omega),
      show 0x80 + (chunk.length - 1) - 0x80 + 1 = chunk.length by omega, withMosi_append]
    rfl

/-! ### Shifts -/

/-- A chunk, with the note of what comes back behind its status byte. -/
def chunkPart (opIdx : Nat) (readMiso : Bool) (chunk : Bytes) : Part Command Gather where
  commands := [chunkCommand readMiso chunk]
  slots offset := if readMiso then [⟨opIdx, offset + 1, chunk.length⟩] else []

def shiftPart (opIdx : Nat) (readMiso : Bool) (chunks : List Bytes) : Part Command Gather :=
  join Command.size (chunks.map (chunkPart opIdx readMiso))

theorem emits_chunk (readMiso : Bool) (opIdx : Nat) {chunk : Bytes} (positive : 0 < chunk.length)
    (fits : chunk.length ≤ 64) (acc : Encoding) :
    Emits (fetch scheme) Command.size (chunkPart opIdx readMiso chunk) acc
      ⟨acc.cmd ++ UInt8.ofNat (chunkCode readMiso chunk.length) :: chunk,
        if readMiso then acc.rspSize + 1 + chunk.length else acc.rspSize + 1,
        if readMiso then acc.gather ++ [⟨opIdx, acc.rspSize + 1, chunk.length⟩] else acc.gather⟩ := by
  refine ⟨⟨_, rfl, interprets_chunk readMiso positive fits⟩, ?_, ?_⟩
  · cases readMiso with
    | true => simp [chunkPart, chunkCommand, Command.size]; omega
    | false => simp [chunkPart, chunkCommand, Command.size]
  · cases readMiso with
    | true => rfl
    | false => exact (List.append_nil _).symm

theorem emits_chunks (readMiso : Bool) (opIdx : Nat) {size : Nat} (fits : size < 64) (mosi : Bytes) (acc : Encoding) :
    ∃ after chunks, encodeChunks readMiso opIdx size acc mosi = .ok after ∧ chunks.flatten = mosi ∧
      Emits (fetch scheme) Command.size (shiftPart opIdx readMiso chunks) acc after := by
  match mosi with
  | [] =>
    unfold encodeChunks
    exact ⟨acc, [], rfl, rfl, .nil acc⟩
  | byte :: rest =>
    have length : ((byte :: rest).take (size + 1)).length ≤ size + 1 := List.length_take_le _ _
    have positive : 0 < ((byte :: rest).take (size + 1)).length := by simp
    have small : ¬256 ≤ chunkCode readMiso ((byte :: rest).take (size + 1)).length := by
      rw [chunkCode_eq readMiso (by omega)]
      split <;> omega
    obtain ⟨after, chunks, encoded, flat, emits⟩ := emits_chunks readMiso opIdx fits ((byte :: rest).drop (size + 1)) _
    refine ⟨after, (byte :: rest).take (size + 1) :: chunks, ?_, ?_,
      (emits_chunk readMiso opIdx positive (by omega) acc).append emits⟩
    · rw [encodeChunks]
      dsimp only
      rw [if_neg small]
      exact encoded
    · rw [List.flatten_cons, flat, List.take_append_drop]
termination_by mosi.length

theorem notes_chunks {σ : Type} (device : Device σ) (opIdx : Nat) (chunks : List Bytes) (s : σ) (front back : Bytes)
    (found : Option Bytes) :
    (((shiftPart opIdx true chunks).slots front.length).foldl
      (note (front ++ device.machine.answers s (shiftPart opIdx true chunks).commands ++ back)) found).getD [] =
      found.getD [] ++ (device.shift s chunks.flatten).2 := by
  induction chunks generalizing s front found with
  | nil => exact (List.append_nil _).symm
  | cons chunk chunks ih =>
    have answered : front ++ device.machine.answers s (shiftPart opIdx true (chunk :: chunks)).commands ++ back =
        front ++ device.status s :: (device.shift s chunk).2 ++
          device.machine.answers (device.shift s chunk).1 (shiftPart opIdx true chunks).commands ++ back := by
      simp [shiftPart, join, Part.append, chunkPart, chunkCommand, Machine.answers, Device.machine, Device.answer]
    have slots : (shiftPart opIdx true (chunk :: chunks)).slots front.length =
        ⟨opIdx, front.length + 1, chunk.length⟩ ::
          (shiftPart opIdx true chunks).slots (front ++ device.status s :: (device.shift s chunk).2).length := by
      simp [shiftPart, join, Part.append, chunkPart, chunkCommand, Command.size]
    have later := ih (device.shift s chunk).1 (front ++ device.status s :: (device.shift s chunk).2)
      (note (front ++ device.machine.answers s (shiftPart opIdx true (chunk :: chunks)).commands ++ back) found
        ⟨opIdx, front.length + 1, chunk.length⟩)
    have slice : ((front ++ device.status s :: (device.shift s chunk).2 ++
        device.machine.answers (device.shift s chunk).1 (shiftPart opIdx true chunks).commands ++ back).drop
          (front.length + 1)).take chunk.length = (device.shift s chunk).2 := by
      rw [← List.drop_drop]
      simp [List.append_assoc]
    rw [answered] at later ⊢
    rw [slots, List.foldl_cons, later, note, Option.getD_some, slice, List.flatten_cons, device.shift_append,
      List.append_assoc]

theorem after_chunks {σ : Type} (device : Device σ) (opIdx : Nat) (readMiso : Bool) (chunks : List Bytes) (s : σ) :
    device.machine.after s (shiftPart opIdx readMiso chunks).commands = (device.shift s chunks.flatten).1 := by
  induction chunks generalizing s with
  | nil => rfl
  | cons chunk chunks ih =>
    rw [List.flatten_cons, device.shift_append, ← ih]
    cases readMiso <;> rfl

theorem slots_chunks (opIdx : Nat) (readMiso : Bool) (chunks : List Bytes) (offset : Nat) :
    ∀ g ∈ (shiftPart opIdx readMiso chunks).slots offset, g.opIdx = opIdx := by
  induction chunks generalizing offset with
  | nil => exact nofun
  | cons chunk chunks ih =>
    intro g member
    obtain here | behind := List.mem_append.mp member
    · cases readMiso with
      | true =>
        obtain rfl := List.mem_singleton.mp here
        rfl
      | false => cases here
    · exact ih _ g behind

/-! ### Operations -/

/-- The part of an operation in a mode: it makes the operation's moves, and its notes find the outcome. -/
def Belongs (op : Op × Int) (opIdx : Nat) (part : Part Command Gather) : Prop :=
  ∀ (σ : Type) (device : Device σ), Serves device.machine Gather.opIdx note (fun op found => miso op.1 found)
    device.perform op opIdx part

theorem belongs_shift {mosi : BitString} {readMiso : Bool} {mode : Int} {chunks : List Bytes}
    (flat : chunks.flatten = Bits.pack mosi) (opIdx : Nat) :
    Belongs (.shift mosi readMiso, mode) opIdx (shiftPart opIdx readMiso chunks) := by
  intro σ device
  refine ⟨slots_chunks opIdx readMiso chunks, ?_, ?_⟩
  · intro s
    rw [after_chunks, flat]
    rfl
  · intro s front back
    cases readMiso with
    | false => rfl
    | true =>
      have bytes := notes_chunks device opIdx chunks s front back none
      rw [flat, Option.getD_none, List.nil_append] at bytes
      show some (Bits.ofBytes _ _) = some (Bits.ofBytes _ _)
      rw [bytes]

theorem belongs_select (value : Option Int) (mode before : Int) (opIdx : Nat) :
    Belongs (.cs value mode, before) opIdx (silent [.select (cpol (modeAfter before (.cs value mode)) = 1)
      (cpha (modeAfter before (.cs value mode)) = 1) (slaveId value)]) :=
  fun _ _ => ⟨by simp [silent], fun _ => rfl, fun _ _ _ => rfl⟩

theorem emits_one {maxChunk : Int} (positive : 1 ≤ maxChunk) (fits : maxChunk ≤ 64) {op : Op} (supported : op.Supported)
    (mode : Int) (opIdx : Nat) (acc : Encoding) :
    ∃ after part, encodeOne maxChunk mode op opIdx acc = .ok after ∧ Emits (fetch scheme) Command.size part acc after ∧
      Belongs (op, mode) opIdx part := by
  cases op with
  | cs value next =>
    exact ⟨_, _, rfl, .emit (interprets_select _ value) rfl acc, belongs_select value next mode opIdx⟩
  | shift mosi readMiso =>
    have whole : ¬mosi.length % 8 ≠ 0 := fun rest => rest supported
    unfold encodeOne
    dsimp only
    rw [if_neg whole]
    by_cases empty : Bits.pack mosi = []
    · rw [if_pos empty]
      exact ⟨acc, _, rfl, .nil acc, belongs_shift (show [].flatten = Bits.pack mosi by rw [empty]; rfl) opIdx⟩
    · rw [if_neg empty, if_neg (by omega), if_neg (by omega)]
      obtain ⟨after, chunks, encoded, flat, emits⟩ := @emits_chunks scheme readMiso opIdx
        (maxChunk.toNat - 1) (by omega) (Bits.pack mosi) acc
      exact ⟨after, _, encoded, emits, belongs_shift flat opIdx⟩
  | other typeName => exact supported.elim

theorem encodeOps_eq (maxChunk mode : Int) (acc : Encoding) (ops : List Op) (start : Nat) :
    encodeOps maxChunk mode acc (ops.zipIdx start) =
      encodeEach (fun op => encodeOne maxChunk op.2 op.1) acc ((modes mode ops).zipIdx start) := by
  induction ops generalizing mode acc start with
  | nil => rfl
  | cons op ops ih =>
    rw [List.zipIdx_cons, modes, List.zipIdx_cons, encodeOps, encodeEach]
    cases encodeOne maxChunk mode op start acc with
    | error error => rfl
    | ok after => exact ih ..

theorem map_modes (mode : Int) (ops : List Op) : (modes mode ops).map Prod.fst = ops := by
  induction ops generalizing mode with
  | nil => rfl
  | cons op ops ih => rw [modes, List.map_cons, ih]

/-! ### Batches -/

def Codec.programs (self : Codec) : List Command :=
  match self.divisorScheme with
  | .div5 => [.div self.divisor]
  | .divhDivl => [.divh (self.divisor / 8), .divl (self.divisor % 8)]

def Codec.settings (self : Codec) : List Command := if self.rateDirty then self.programs else []

theorem interprets_setting {base k i : Nat} (low : k < 2 ^ i) (multiple : base % 2 ^ i = 0) (above : 0x20 ≤ base + k)
    (below : base + k < 0x40) : Interprets (fetch scheme) [UInt8.ofNat (base ||| k)] [setting (base + k) scheme] := by
  apply Interprets.one
  intro rest
  rw [or_low low multiple, List.nil_append, fetch, toNat_code (by omega), if_neg (by omega), if_pos below]

theorem interprets_divisor (self : Codec) : Interprets (fetch self.divisorScheme) self.divisorCmd self.programs := by
  obtain ⟨scheme, maxChunk, divisor, rateDirty, inRange⟩ := self
  cases scheme with
  | div5 =>
    have small : divisor ≤ 0x1f := inRange
    have div := @interprets_setting .div5 cmdDiv divisor 5 (by omega) rfl
      (Nat.le_add_right ..) (by show 0x20 + divisor < 0x40; omega)
    rw [setting, show cmdDiv + divisor - 0x20 = divisor from Nat.add_sub_cancel_left ..] at div
    exact div
  | divhDivl =>
    have small : divisor ≤ 0x7f := inRange
    have divh := @interprets_setting .divhDivl cmdDivh (divisor / 8) 4 (by omega) rfl
      (Nat.le_add_right ..) (by show 0x20 + divisor / 8 < 0x40; omega)
    have divl := @interprets_setting .divhDivl cmdDivl (divisor % 8) 3 (by omega) rfl
      (by show 0x20 ≤ 0x30 + divisor % 8; omega) (by show 0x30 + divisor % 8 < 0x40; omega)
    rw [setting, if_pos (by show 0x20 + divisor / 8 < 0x30; omega),
      show cmdDivh + divisor / 8 - 0x20 = divisor / 8 from Nat.add_sub_cancel_left ..] at divh
    rw [setting, if_neg (by show ¬0x30 + divisor % 8 < 0x30; omega), if_pos (by show 0x30 + divisor % 8 < 0x38; omega),
      show cmdDivl + divisor % 8 - 0x30 = divisor % 8 from Nat.add_sub_cancel_left ..] at divl
    exact divh.append divl

theorem emits_configure (self : Codec) :
    Emits (fetch self.divisorScheme) Command.size (silent self.settings) .start self.configure.2 := by
  unfold Codec.settings Codec.configure
  split
  · refine ⟨⟨_, (List.nil_append _).symm, interprets_divisor self⟩, ?_, rfl⟩
    obtain ⟨scheme, maxChunk, divisor, rateDirty, inRange⟩ := self
    cases scheme <;> rfl
  · exact .nil _

/-- A batch is answered in the size that is expected, and every operation gets what it comes to. -/
theorem Codec.batch_attributed (self : Codec) (positive : 1 ≤ self.maxChunk) (fits : self.maxChunk ≤ 64)
    (batch : List (BatchEntry Op)) (supported : ∀ entry ∈ batch, entry.op.Supported) :
    ∃ encoding commands, (self.encode batch).2 = .ok encoding ∧
      interpret (fetch self.divisorScheme) encoding.cmd = some (self.settings ++ commands) ∧
      ∀ (σ : Type) (device : Device σ) s,
        (device.machine.answers s (self.settings ++ commands)).length = encoding.rspSize ∧
        decode batch (device.machine.answers s (self.settings ++ commands)) encoding.gather =
          settleEach batch (performEach device.perform (device.machine.after s self.settings)
            (modes 0 (batch.map BatchEntry.op))) := by
  have each : ∀ op ∈ modes 0 (batch.map BatchEntry.op), op.1.Supported := by
    intro op member
    have named : op.1 ∈ (modes 0 (batch.map BatchEntry.op)).map Prod.fst := List.mem_map_of_mem member
    rw [map_modes] at named
    exact List.forall_mem_map.mpr supported op.1 named
  obtain ⟨encoding, parts, encoded, emits, matched⟩ := encodeEach_emits
    (fun op member => @emits_one self.divisorScheme _ positive fits _ (each op member) op.2) 0 self.configure.2
  have same : self.configure.1.maxChunk = self.maxChunk := by
    unfold Codec.configure
    split <;> rfl
  refine ⟨encoding, (join Command.size parts).commands, ?_, (emits_configure self).interpreted emits, ?_⟩
  · unfold Codec.encode
    dsimp only
    rw [encodeOps_eq, same]
    exact encoded
  · intro σ device s
    obtain ⟨length, gather⟩ := (emits_configure self).answered (sized device) emits s
    refine ⟨length, ?_⟩
    unfold decode
    rw [decodeEach_eq]
    intro i op present
    obtain ⟨mode, placed⟩ : ∃ mode, (modes 0 (batch.map BatchEntry.op))[i]? = some (op, mode) := by
      rw [← map_modes 0 (batch.map BatchEntry.op), List.getElem?_map, Option.map_eq_some_iff] at present
      obtain ⟨pair, found, rfl⟩ := present
      exact ⟨pair.2, found⟩
    have served := matched.mono (fun _ _ _ belongs => belongs σ device)
    rw [served.attributed (sized device) (device.machine.answers s self.settings)
      (device.machine.after s self.settings) placed, device.machine.answers_append, gather]

end Acrobe.Nsl.SpiTransactor
