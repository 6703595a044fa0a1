import Acrobe.Nsl.SwdTransactorSound
import Acrobe.Nsl.SpiTransactorSound
import Acrobe.Nsl.I2cTransactorSound
import Acrobe.Lib.PendingSettings

/-!
# Responses of the transactor codecs

Each of the three codecs counts the bytes that its commands are answered with, and gives every operation of a batch what
it comes to on the target.
-/

namespace Acrobe.Nsl
open CommandStream

/-- The stream of a batch is read as commands, every target answers them with as many bytes as were counted, and what
is decoded from them is what the operations come to, one after the other. -/
def SwdTransactor.Codec.Attributes (self : SwdTransactor.Codec) (batch : List (BatchEntry SwdTransactor.Op)) : Prop :=
  ∃ encoding commands, (self.encode batch).2 = .ok encoding ∧
    interpret (SwdTransactor.fetch self.divisorWidth) encoding.cmd = some (self.settings ++ commands) ∧
    ∀ (σ : Type) (device : SwdTransactor.Device σ) s,
      (device.machine.answers s (self.settings ++ commands)).length = encoding.rspSize ∧
      SwdTransactor.decode batch (device.machine.answers s (self.settings ++ commands)) encoding.gather =
        some (settleEach batch (performEach device.perform (device.machine.after s self.settings)
          (batch.map BatchEntry.op)))

def SpiTransactor.Codec.Attributes (self : SpiTransactor.Codec) (batch : List (BatchEntry SpiTransactor.Op)) : Prop :=
  ∃ encoding commands, (self.encode batch).2 = .ok encoding ∧
    interpret (SpiTransactor.fetch self.divisorScheme) encoding.cmd = some (self.settings ++ commands) ∧
    ∀ (σ : Type) (device : SpiTransactor.Device σ) s,
      (device.machine.answers s (self.settings ++ commands)).length = encoding.rspSize ∧
      SpiTransactor.decode batch (device.machine.answers s (self.settings ++ commands)) encoding.gather =
        settleEach batch (performEach device.perform (device.machine.after s self.settings)
          (SpiTransactor.modes 0 (batch.map BatchEntry.op)))

def I2cTransactor.Codec.Attributes (self : I2cTransactor.Codec) (batch : List (BatchEntry I2cTransactor.Op)) : Prop :=
  ∃ encoding commands, (self.encode batch).2 = .ok encoding ∧
    interpret I2cTransactor.fetch encoding.cmd = some (self.settings ++ commands) ∧
    ∀ (σ : Type) (device : I2cTransactor.Device σ) s,
      (device.machine.answers s (self.settings ++ commands)).length = encoding.rspSize ∧
      I2cTransactor.decode batch (device.machine.answers s (self.settings ++ commands)) encoding.gather =
        settleEach batch (performEach device.perform (device.machine.after s self.settings) (batch.map BatchEntry.op))

/-- Batches of operations that the codecs support; the chunks of an SPI shift have up to 64 bytes. -/
theorem responses_attributed :
    (∀ (codec : SwdTransactor.Codec) batch, (∀ entry ∈ batch, entry.op.Supported) → codec.Attributes batch) ∧
    (∀ (codec : SpiTransactor.Codec) batch, 1 ≤ codec.maxChunk → codec.maxChunk ≤ 64 →
      (∀ entry ∈ batch, entry.op.Supported) → codec.Attributes batch) ∧
    (∀ (codec : I2cTransactor.Codec) batch, (∀ entry ∈ batch, entry.op.Supported) → codec.Attributes batch) := by
  refine ⟨?_, ?_, ?_⟩
  · intro codec batch supported
    exact codec.batch_attributed batch supported
  · intro codec batch positive fits supported
    exact codec.batch_attributed positive fits batch supported
  · intro codec batch supported
    exact codec.batch_attributed batch supported

theorem responses_attributed_small :
    (SwdTransactor.Codec.new 2 (.inr rfl) 9).Attributes [⟨.lineReset, .absent⟩, ⟨.read true 0xc, .pending⟩] ∧
      (SpiTransactor.Codec.new .div5 none 3).Attributes
        [⟨.cs (some 1) 3, .absent⟩, ⟨.shift (List.replicate 8 true) true, .pending⟩, ⟨.cs none 0, .absent⟩] ∧
      (I2cTransactor.Codec.new 5).Attributes
        [⟨.transaction [.transfer ⟨0x50, [0, 1], 3⟩, .transfer ⟨0x51, [], 1⟩], .pending⟩] := by
  refine ⟨responses_attributed.1 _ _ ?_, responses_attributed.2.1 _ _ ?_ ?_ ?_, responses_attributed.2.2 _ _ ?_⟩
  · simp [SwdTransactor.Op.Supported]
  · exact show (1 : Int) ≤ 0x40 by decide
  · exact show (0x40 : Int) ≤ 64 by decide
  · simp [SpiTransactor.Op.Supported]
  · simp [I2cTransactor.Op.Supported, I2cTransactor.Item.Supported]

end Acrobe.Nsl

/-!
## Settings of the transactor codecs

A codec sends the settings that have changed in front of the next batch, and forgets that they have changed before it
looks at the batch. A batch that is refused takes them with it.
-/

namespace Acrobe.Nsl
open LittleEndian CommandStream PendingSettings

/-! ### SWD -/

namespace SwdTransactor

inductive Change where
  | freq (d : Int)
  | turnaround (cycles : Int)
  | refresh

def Codec.change (self : Codec) : Change → Codec
  | .freq d => self.freqUpdate d
  | .turnaround cycles =>
    match self.setTurnaroundCycles cycles with
    | .ok changed => changed
    | .error _ => self
  | .refresh => self.contextForceRefresh

/-- The registers of the transactor. -/
structure Settings where
  divisor : Nat
  turnaround : Nat

def Command.isSetting : Command → Bool
  | .turnaround _ | .divisor _ => true
  | _ => false

def Settings.apply (self : Settings) : Command → Settings
  | .turnaround cycles => { self with turnaround := cycles }
  | .divisor value => { self with divisor := value }
  | _ => self

def Codec.sent (self : Codec) (batch : List (BatchEntry Op)) : Option (List Command) :=
  match (self.encode batch).2 with
  | .error _ => none
  | .ok encoding => interpret (fetch self.divisorWidth) encoding.cmd

def encoder : Encoder Codec Change (List (BatchEntry Op)) Command Settings where
  change := Codec.change
  encode self batch := (self.encode batch).1
  sent := Codec.sent
  wants self := ⟨self.divisor, self.turnaroundCycles⟩
  apply := Settings.apply
  setting := Command.isSetting
  clean self := self.rateDirty = false ∧ self.turnaroundDirty = false

/-- A target that counts the settings. -/
def counting : Device Nat where
  idle n := n
  high n := n
  bit n _ := n
  access n _ _ _ := (n, 0, 0)
  turnaround n _ := n + 1
  divisor n _ := n + 1
  sysReset n _ := n
  abort n := n
  status _ := 0

theorem iterate_same (k n : Nat) : (fun n : Nat => n)^[k] n = n := by
  induction k with
  | zero => rfl
  | succ k ih => rw [Function.iterate_succ_apply, ih]

theorem counting_answer (n : Nat) (command : Command) :
    (counting.machine.answer n command).1 = if command.isSetting then n + 1 else n := by
  cases command <;>
    simp [Device.machine, Device.answer, counting, Command.isSetting, iterate_same]

theorem counting_perform (n : Nat) (op : Op) : (counting.perform n op).1 = n := by
  cases op <;> simp [Device.perform, Device.transfer, counting, iterate_same]

theorem sent_body {self : Codec} {batch : List (BatchEntry Op)} {commands : List Command}
    (sent : self.sent batch = some commands) :
    ∃ body, commands = self.settings ++ body ∧ ∀ command ∈ body, command.isSetting = false := by
  unfold Codec.sent at sent
  cases encoded : (self.encode batch).2 with
  | error error =>
    rw [encoded] at sent
    cases sent
  | ok encoding =>
    rw [encoded] at sent
    have each : ∀ op ∈ batch.map BatchEntry.op, op.Supported := by
      intro op member
      obtain ⟨index, acc, after, one⟩ := encodeEach_ok encoded op member
      cases op with
      | other typeName => cases one
      | _ => trivial
    obtain ⟨other, parts, same, emits, matched⟩ := encodeEach_emits
      (fun op member => @emits_one self.divisorWidth op (each op member)) 0 self.configure.2
    obtain rfl : other = encoding := Except.ok.inj (same.symm.trans encoded)
    have read := (emits_configure self).interpreted emits
    refine ⟨(join Command.size parts).commands, Option.some.inj (sent.symm.trans read), ?_⟩
    exact (matched.mono fun _ _ _ belongs => belongs.serves Nat counting).none_counted counting_answer counting_perform

theorem encode_fst (self : Codec) (batch : List (BatchEntry Op)) :
    (self.encode batch).1 = { self with rateDirty := false, turnaroundDirty := false } := rfl

theorem unchanged_iff (self : Codec) (batch : List (BatchEntry Op)) :
    (self.encode batch).1 = self ↔ self.rateDirty = false ∧ self.turnaroundDirty = false := by
  rw [encode_fst]
  constructor
  · intro same
    rw [← same]
    exact ⟨rfl, rfl⟩
  · intro clean
    obtain ⟨divisorWidth, divisor, rateDirty, turnaroundCycles, turnaroundDirty, width, inRange, cycles⟩ := self
    obtain ⟨rate, turnaround⟩ := clean
    dsimp only at rate turnaround
    subst rate turnaround
    rfl

/-- What is not held back is in the registers. -/
structure Agrees (codec : Codec) (registers : Settings) : Prop where
  divisor : codec.rateDirty = false → registers.divisor = codec.divisor
  turnaround : codec.turnaroundDirty = false → registers.turnaround = codec.turnaroundCycles

theorem Agrees.change {self : Codec} {registers : Settings} (agrees : Agrees self registers) (change : Change) :
    Agrees (self.change change) registers := by
  cases change with
  | freq d =>
    unfold Codec.change Codec.freqUpdate
    dsimp only
    split
    · exact agrees
    · exact ⟨nofun, agrees.turnaround⟩
  | turnaround cycles =>
    unfold Codec.change Codec.setTurnaroundCycles
    dsimp only
    by_cases legal : 1 ≤ cycles.toNat ∧ cycles.toNat ≤ 4
    · rw [dif_pos legal]
      dsimp only
      split
      · exact agrees
      · exact ⟨agrees.divisor, nofun⟩
    · rw [dif_neg legal]
      exact agrees
  | refresh => exact ⟨nofun, nofun⟩

theorem keeps : Keeps encoder Agrees where
  change := fun agrees change => agrees.change change
  refused := fun {self batch} _ clean => (unchanged_iff self batch).mpr clean
  sends := by
    intro self registers batch commands agrees sent
    obtain ⟨body, rfl, plain⟩ := sent_body sent
    refine ⟨self.settings, body, rfl, ?_, plain, ?_, fun _ => rfl, fun _ => rfl⟩
    · unfold Codec.settings
      intro command member
      obtain turnaround | divisor := List.mem_append.mp member
      · split at turnaround
        · obtain rfl := List.mem_singleton.mp turnaround
          rfl
        · cases turnaround
      · split at divisor
        · obtain rfl := List.mem_singleton.mp divisor
          rfl
        · cases divisor
    · show self.settings.foldl Settings.apply registers = ⟨self.divisor, self.turnaroundCycles⟩
      have divisor := agrees.divisor
      have turnaround := agrees.turnaround
      obtain ⟨divisorRegister, turnaroundRegister⟩ := registers
      unfold Codec.settings
      cases turnaroundDirty : self.turnaroundDirty <;> cases rateDirty : self.rateDirty <;>
        simp_all [Settings.apply]
  leaves := by
    intro command plain registers
    cases command with
    | turnaround cycles => cases plain
    | divisor value => cases plain
    | _ => rfl

theorem Agrees.new (divisorWidth : Nat) (width : divisorWidth = 1 ∨ divisorWidth = 2) (d : Int) (registers : Settings) :
    Agrees (Codec.new divisorWidth width d) registers := ⟨nofun, nofun⟩

end SwdTransactor

/-! ### SPI -/

namespace SpiTransactor

inductive Change where
  | freq (d : Int)
  | refresh

def Codec.change (self : Codec) : Change → Codec
  | .freq d => self.freqUpdate d
  | .refresh => self.contextForceRefresh

def Command.isSetting : Command → Bool
  | .div _ | .divh _ | .divl _ | .width _ => true
  | _ => false

/-- The divisor register: DIVH clears its low bits, DIVL sets them. -/
def applySetting (register : Nat) : Command → Nat
  | .div value => value
  | .divh value => value * 8
  | .divl value => register / 8 * 8 + value
  | _ => register

def Codec.sent (self : Codec) (batch : List (BatchEntry Op)) : Option (List Command) :=
  match (self.encode batch).2 with
  | .error _ => none
  | .ok encoding => interpret (fetch self.divisorScheme) encoding.cmd

def encoder : Encoder Codec Change (List (BatchEntry Op)) Command Nat where
  change := Codec.change
  encode self batch := (self.encode batch).1
  sent := Codec.sent
  wants := Codec.divisor
  apply := applySetting
  setting := Command.isSetting
  clean self := self.rateDirty = false

/-- A block that counts the settings. -/
def counting : Device Nat where
  select n _ _ _ := n
  exchange n _ := (n, 0)
  receive n := (n, 0)
  div n _ := n + 1
  divh n _ := n + 1
  divl n _ := n + 1
  width n _ := n + 1
  status _ := 0

theorem counting_shift (n : Nat) (mosi : Bytes) : (counting.shift n mosi).1 = n := by
  induction mosi with
  | nil => rfl
  | cons byte mosi ih => exact ih

theorem counting_receiveAll (n count : Nat) : (counting.receiveAll n count).1 = n := by
  induction count with
  | zero => rfl
  | succ count ih => exact ih

theorem counting_answer (n : Nat) (command : Command) :
    (counting.machine.answer n command).1 = if command.isSetting then n + 1 else n := by
  cases command with
  | shiftIn count => exact counting_receiveAll n count
  | shiftOut mosi => exact counting_shift n mosi
  | shiftInout mosi => exact counting_shift n mosi
  | _ => rfl

theorem counting_perform (n : Nat) (op : Op × Int) : (counting.perform n op).1 = n := by
  obtain ⟨op, mode⟩ := op
  cases op with
  | shift mosi readMiso => exact counting_shift n _
  | _ => rfl

theorem supported_of_ok {maxChunk mode : Int} {op : Op} {opIdx : Nat} {acc after : Encoding}
    (encoded : encodeOne maxChunk mode op opIdx acc = .ok after) : op.Supported := by
  cases op with
  | cs value mode => trivial
  | shift mosi readMiso =>
    show mosi.length % 8 = 0
    by_contra rest
    unfold encodeOne at encoded
    dsimp only at encoded
    rw [if_pos rest] at encoded
    cases encoded
  | other typeName => cases encoded

theorem encode_snd (self : Codec) (batch : List (BatchEntry Op)) : (self.encode batch).2 =
    encodeEach (fun op => encodeOne self.maxChunk op.2 op.1) self.configure.2
      (modes 0 (batch.map BatchEntry.op)).zipIdx := by
  have same : self.configure.1.maxChunk = self.maxChunk := by
    unfold Codec.configure
    split <;> rfl
  unfold Codec.encode
  dsimp only
  rw [encodeOps_eq, same]

theorem sent_body {self : Codec} (positive : 1 ≤ self.maxChunk) (fits : self.maxChunk ≤ 64)
    {batch : List (BatchEntry Op)} {commands : List Command} (sent : self.sent batch = some commands) :
    ∃ body, commands = self.settings ++ body ∧ ∀ command ∈ body, command.isSetting = false := by
  unfold Codec.sent at sent
  cases encoded : (self.encode batch).2 with
  | error error =>
    rw [encoded] at sent
    cases sent
  | ok encoding =>
    rw [encoded] at sent
    rw [encode_snd] at encoded
    have each : ∀ op ∈ modes 0 (batch.map BatchEntry.op), op.1.Supported := by
      intro op member
      obtain ⟨index, acc, after, one⟩ := encodeEach_ok encoded op member
      exact supported_of_ok one
    obtain ⟨other, parts, same, emits, matched⟩ := encodeEach_emits
      (fun op member => @emits_one self.divisorScheme _ positive fits _ (each op member) op.2) 0 self.configure.2
    obtain rfl : other = encoding := Except.ok.inj (same.symm.trans encoded)
    have read := (emits_configure self).interpreted emits
    refine ⟨(join Command.size parts).commands, Option.some.inj (sent.symm.trans read), ?_⟩
    exact (matched.mono fun _ _ _ belongs => belongs Nat counting).none_counted counting_answer counting_perform

theorem encode_fst (self : Codec) (batch : List (BatchEntry Op)) :
    (self.encode batch).1 = { self with rateDirty := false } := by
  obtain ⟨scheme, maxChunk, divisor, rateDirty, inRange⟩ := self
  cases rateDirty <;> rfl

theorem unchanged_iff (self : Codec) (batch : List (BatchEntry Op)) :
    (self.encode batch).1 = self ↔ self.rateDirty = false := by
  rw [encode_fst]
  constructor
  · intro same
    rw [← same]
  · intro clean
    obtain ⟨scheme, maxChunk, divisor, rateDirty, inRange⟩ := self
    dsimp only at clean
    subst clean
    rfl

/-- The register has the divisor unless it is held back, and the chunks of a shift fit its commands. -/
structure Agrees (codec : Codec) (register : Nat) : Prop where
  divisor : codec.rateDirty = false → register = codec.divisor
  positive : 1 ≤ codec.maxChunk
  fits : codec.maxChunk ≤ 64

theorem programs_apply (self : Codec) (register : Nat) : self.programs.foldl applySetting register = self.divisor := by
  unfold Codec.programs
  cases self.divisorScheme with
  | div5 => rfl
  | divhDivl =>
    show self.divisor / 8 * 8 / 8 * 8 + self.divisor % 8 = self.divisor
    omega

theorem programs_setting (self : Codec) : ∀ command ∈ self.programs, command.isSetting = true := by
  unfold Codec.programs
  cases self.divisorScheme <;> simp [Command.isSetting]

theorem keeps : Keeps encoder Agrees where
  change := by
    intro self register agrees change
    obtain ⟨divisor, positive, fits⟩ := agrees
    cases change with
    | freq d =>
      show Agrees (self.freqUpdate d) register
      unfold Codec.freqUpdate
      split
      · exact ⟨divisor, positive, fits⟩
      · exact ⟨by rintro ⟨⟩, positive, fits⟩
    | refresh => exact ⟨by rintro ⟨⟩, positive, fits⟩
  refused := fun {self batch} _ clean => (unchanged_iff self batch).mpr clean
  sends := by
    intro self register batch commands agrees sent
    obtain ⟨divisor, positive, fits⟩ := agrees
    obtain ⟨body, rfl, plain⟩ := sent_body positive fits sent
    refine ⟨self.settings, body, rfl, ?_, plain, ?_, ?_⟩
    · unfold Codec.settings
      split
      · exact programs_setting self
      · simp
    · show self.settings.foldl applySetting register = self.divisor
      unfold Codec.settings
      split
      · exact programs_apply self register
      · next clean => exact divisor (Bool.eq_false_iff.mpr clean)
    · show Agrees (self.encode batch).1 self.divisor
      rw [encode_fst]
      exact ⟨fun _ => rfl, positive, fits⟩
  leaves := by
    intro command plain register
    cases command with
    | div value => cases plain
    | divh value => cases plain
    | divl value => cases plain
    | width bits => cases plain
    | _ => rfl

end SpiTransactor

/-! ### I2C -/

namespace I2cTransactor

inductive Change where
  | freq (d : Option Int)
  | refresh

def Codec.change (self : Codec) : Change → Codec
  | .freq d => self.freqUpdate d
  | .refresh => self.contextForceRefresh

def Command.isSetting : Command → Bool
  | .div _ => true
  | _ => false

def applySetting (register : Nat) : Command → Nat
  | .div value => value
  | _ => register

def Codec.sent (self : Codec) (batch : List (BatchEntry Op)) : Option (List Command) :=
  match (self.encode batch).2 with
  | .error _ => none
  | .ok encoding => interpret fetch encoding.cmd

def encoder : Encoder Codec Change (List (BatchEntry Op)) Command Nat where
  change := Codec.change
  encode self batch := (self.encode batch).1
  sent := Codec.sent
  wants := Codec.divisor
  apply := applySetting
  setting := Command.isSetting
  clean self := self.rateDirty = false

/-- A bus that counts the settings. -/
def counting : Device Nat where
  start n := (n, 0)
  stop n := (n, 0)
  write n _ := (n, 0)
  read n _ := (n, 0)
  div n _ := (n + 1, 0)

theorem counting_writeAll (n : Nat) (data : Bytes) : (counting.writeAll n data).1 = n := by
  induction data with
  | nil => rfl
  | cons byte data ih => exact ih

theorem counting_readAll (n : Nat) (ack : Bool) (count : Nat) : (counting.readAll n ack count).1 = n := by
  induction count with
  | zero => rfl
  | succ count ih => exact ih

theorem counting_answer (n : Nat) (command : Command) :
    (counting.machine.answer n command).1 = if command.isSetting then n + 1 else n := by
  cases command with
  | write data => exact counting_writeAll n data
  | read ack count => exact counting_readAll n ack count
  | _ => rfl

theorem counting_transfer (n : Nat) (t : Transfer) : (counting.transfer n t).1 = n := by
  rw [counting.transfer_fst]
  have written : ∀ n, (counting.written n t).1 = n := by
    intro n
    unfold Device.written
    split
    · rfl
    · exact counting_writeAll n t.dataW
  have fetched : ∀ n, (counting.fetched n t).1 = n := by
    intro n
    unfold Device.fetched
    split
    · rfl
    · exact counting_readAll n false t.sizeR
  show (counting.fetched (counting.written n t).1 t).1 = n
  rw [fetched, written]

theorem counting_perform (n : Nat) (op : Op) : (counting.perform n op).1 = n := by
  cases op with
  | other typeName => rfl
  | transaction items =>
    show (counting.transfers n (.ok []) items).1 = n
    generalize (Except.ok [] : Outcome) = results
    induction items generalizing results with
    | nil => rfl
    | cons item items ih =>
      cases item with
      | transfer t =>
        rw [Device.transfers]
        dsimp only
        rw [counting_transfer]
        exact ih _
      | waitAck => exact ih _
      | other typeName => exact ih _

theorem readAddress_none {t : Transfer} (unsupported : ¬(Item.transfer t).Supported) :
    t.sizeR ≠ 0 ∧ readAddress t.addr = none := by
  obtain ⟨some_, outside⟩ := not_or.mp unsupported
  exact ⟨some_, if_neg (by omega)⟩

theorem item_supported {opIdx itemIdx : Nat} {item : Item} {acc after : Encoding}
    (encoded : encodeItem opIdx item itemIdx acc = .ok after) : item.Supported := by
  cases item with
  | waitAck => cases encoded
  | other typeName => cases encoded
  | transfer t =>
    by_contra unsupported
    obtain ⟨some_, none⟩ := readAddress_none unsupported
    unfold encodeItem encodeTransfer encodeRead at encoded
    dsimp only at encoded
    rw [if_neg some_, none] at encoded
    cases encoded

theorem supported_of_ok {op : Op} {opIdx : Nat} {acc after : Encoding} (encoded : encodeOne op opIdx acc = .ok after) :
    op.Supported := by
  cases op with
  | other typeName => cases encoded
  | transaction items =>
    intro item member
    obtain ⟨index, between, next, one⟩ := encodeEach_ok encoded item member
    exact item_supported one

theorem sent_body {self : Codec} {batch : List (BatchEntry Op)} {commands : List Command}
    (sent : self.sent batch = some commands) :
    ∃ body, commands = self.settings ++ body ∧ ∀ command ∈ body, command.isSetting = false := by
  unfold Codec.sent at sent
  cases encoded : (self.encode batch).2 with
  | error error =>
    rw [encoded] at sent
    cases sent
  | ok encoding =>
    rw [encoded] at sent
    have each : ∀ op ∈ batch.map BatchEntry.op, op.Supported := by
      intro op member
      obtain ⟨index, acc, after, one⟩ := encodeEach_ok encoded op member
      exact supported_of_ok one
    obtain ⟨other, parts, same, emits, matched⟩ := encodeEach_emits
      (fun op member => emits_one (each op member)) 0 self.configure.2
    obtain rfl : other = encoding := Except.ok.inj (same.symm.trans encoded)
    have read := (emits_configure self).interpreted emits
    refine ⟨(join Command.size parts).commands, Option.some.inj (sent.symm.trans read), ?_⟩
    exact (matched.mono fun _ _ _ belongs => belongs Nat counting).none_counted counting_answer counting_perform

theorem encode_fst (self : Codec) (batch : List (BatchEntry Op)) :
    (self.encode batch).1 = { self with rateDirty := false } := by
  obtain ⟨divisor, rateDirty, inRange⟩ := self
  cases rateDirty <;> rfl

theorem unchanged_iff (self : Codec) (batch : List (BatchEntry Op)) :
    (self.encode batch).1 = self ↔ self.rateDirty = false := by
  rw [encode_fst]
  constructor
  · intro same
    rw [← same]
  · intro clean
    obtain ⟨divisor, rateDirty, inRange⟩ := self
    dsimp only at clean
    subst clean
    rfl

/-- The register has the divisor unless it is held back. -/
def Agrees (codec : Codec) (register : Nat) : Prop := codec.rateDirty = false → register = codec.divisor

theorem keeps : Keeps encoder Agrees where
  change := by
    intro self register agrees change
    cases change with
    | freq d =>
      show Agrees (self.freqUpdate d) register
      unfold Codec.freqUpdate
      split
      · exact agrees
      · rintro ⟨⟩
    | refresh => rintro ⟨⟩
  refused := fun {self batch} _ clean => (unchanged_iff self batch).mpr clean
  sends := by
    intro self register batch commands agrees sent
    obtain ⟨body, rfl, plain⟩ := sent_body sent
    refine ⟨self.settings, body, rfl, ?_, plain, ?_, ?_⟩
    · unfold Codec.settings
      split
      · simp [encoder, Command.isSetting]
      · simp
    · show self.settings.foldl applySetting register = self.divisor
      unfold Codec.settings
      split
      · rfl
      · next clean => exact agrees (Bool.eq_false_iff.mpr clean)
    · show Agrees (self.encode batch).1 self.divisor
      rw [encode_fst]
      exact fun _ => rfl
  leaves := by
    intro command plain register
    cases command with
    | div value => cases plain
    | _ => rfl

end I2cTransactor

/-- A refused batch leaves a codec as it was if and only if no setting was held back. A run of a new codec in which
batches are refused only then executes every operation under the settings that the codec has. -/
theorem settings_kept (d : Int) :
    (∀ (codec : SwdTransactor.Codec) (batch : List (BatchEntry SwdTransactor.Op)),
      (codec.encode batch).1 = codec ↔ codec.rateDirty = false ∧ codec.turnaroundDirty = false) ∧
    (∀ (codec : SpiTransactor.Codec) (batch : List (BatchEntry SpiTransactor.Op)),
      (codec.encode batch).1 = codec ↔ codec.rateDirty = false) ∧
    (∀ (codec : I2cTransactor.Codec) (batch : List (BatchEntry I2cTransactor.Op)),
      (codec.encode batch).1 = codec ↔ codec.rateDirty = false) ∧
    (∀ (divisorWidth : Nat) (width : divisorWidth = 1 ∨ divisorWidth = 2) (registers : SwdTransactor.Settings)
        (events : List (SwdTransactor.Change ⊕ List (BatchEntry SwdTransactor.Op))),
      SwdTransactor.encoder.RefusedClean (.new divisorWidth width d, registers) events →
        SwdTransactor.encoder.RunInStep (.new divisorWidth width d, registers) events) ∧
    (∀ (scheme : SpiTransactor.DivisorScheme) (register : Nat)
        (events : List (SpiTransactor.Change ⊕ List (BatchEntry SpiTransactor.Op))),
      SpiTransactor.encoder.RefusedClean (.new scheme none d, register) events →
        SpiTransactor.encoder.RunInStep (.new scheme none d, register) events) ∧
    (∀ (register : Nat) (events : List (I2cTransactor.Change ⊕ List (BatchEntry I2cTransactor.Op))),
      I2cTransactor.encoder.RefusedClean (.new d, register) events →
        I2cTransactor.encoder.RunInStep (.new d, register) events) := by
  refine ⟨SwdTransactor.unchanged_iff, SpiTransactor.unchanged_iff, I2cTransactor.unchanged_iff, ?_, ?_, ?_⟩
  · intro divisorWidth width registers events clean
    exact SwdTransactor.keeps.run (.new divisorWidth width d registers) clean
  · intro scheme register events clean
    exact SpiTransactor.keeps.run ⟨nofun, show (1 : Int) ≤ 0x40 by decide, show (0x40 : Int) ≤ 64 by decide⟩ clean
  · intro register events clean
    exact I2cTransactor.keeps.run nofun clean

/-- A run with a change, a batch, and a batch that is refused while nothing is held back. -/
theorem settings_kept_run :
    I2cTransactor.encoder.RunInStep (.new 3, 0)
      [.inl (.freq (some 7)), .inr [⟨.transaction [.transfer ⟨0x50, [1], 0⟩], .pending⟩],
        .inr [⟨.transaction [.waitAck], .pending⟩]] := by
  apply (settings_kept 3).2.2.2.2.2
  refine ⟨?_, fun _ => rfl, trivial⟩
  intro refused
  obtain ⟨encoding, commands, encoded, read, -⟩ := I2cTransactor.Codec.batch_attributed
    ((I2cTransactor.Codec.new 3).freqUpdate (some 7)) [⟨.transaction [.transfer ⟨0x50, [1], 0⟩], .pending⟩]
    (by simp [I2cTransactor.Op.Supported, I2cTransactor.Item.Supported])
  have sent : I2cTransactor.Codec.sent ((I2cTransactor.Codec.new 3).freqUpdate (some 7))
      [⟨.transaction [.transfer ⟨0x50, [1], 0⟩], .pending⟩] = none := refused
  unfold I2cTransactor.Codec.sent at sent
  rw [encoded] at sent
  dsimp only at sent
  rw [read] at sent
  cases sent

/-- The divisor of a new codec is lost with a batch that is refused, and the next operation is executed without it. -/
theorem refused_divisor_lost :
    (I2cTransactor.Codec.encode (.new 5) [⟨.transaction [.waitAck], .pending⟩]).2 =
        .error (.notImplementedError "I2cTransactor: WaitAck not supported") ∧
      (I2cTransactor.Codec.encode (.new 5) [⟨.transaction [.waitAck], .pending⟩]).1 ≠ .new 5 ∧
      ¬SwdTransactor.encoder.RunInStep (.new 1 (.inl rfl) 5, ⟨0, 1⟩)
        [.inr [⟨.other "TargetSelect", .pending⟩], .inr [⟨.read false 0, .pending⟩]] := by
  refine ⟨rfl, ?_, ?_⟩
  · intro same
    exact Bool.noConfusion ((I2cTransactor.unchanged_iff _ _).mp same)
  · intro inStep
    have read : interpret (SwdTransactor.fetch 1) [0x02, 0x90] = some [.run 3, .read false 0] :=
      ((SwdTransactor.interprets_run (show 0 < 3 by decide) (by decide)).append
        (SwdTransactor.interprets_access true false (show 0 < 4 by decide) (show 0 < 256 ^ 4 by decide))).whole
    have executed := (inStep.2.1 [.run 3, .read false 0] read).1 rfl
    cases executed

end Acrobe.Nsl
