import Mathlib
import Acrobe.Nsl.JtagTransactor

/-!
# What the transactor does with a batch

Every operation is answered for by commands that make its moves, and the slots of the response that the codec notes
down hold the TDO bits of its operation.
-/

namespace Acrobe.Nsl.JtagTransactor
open LittleEndian Acrobe.Storage CommandStream

/-! ### Packed bits -/

theorem pack_append_whole {front : Bits} (back : Bits) {k : Nat} (whole : front.length = k * 8) :
    Bits.pack (front ++ back) = Bits.pack front ++ Bits.pack back := by
  have count : (Bits.pack front).length = k := by
    rw [length_pack, whole]
    omega
  apply bytes_ext
  · rw [List.length_append, length_pack, length_pack, length_pack, List.length_append, whole]
    omega
  · rw [combine_append, combine_pack, combine_pack, combine_pack, BitString.toNat_append, count, whole, two_pow_bytes,
      Nat.mul_comm k]

theorem ofBytes_pack (bits : Bits) : Bits.ofBytes (Bits.pack bits) (some bits.length) = bits := by
  rw [Bits.ofBytes, combine_pack, Option.getD_some, BitString.ofNat_toNat]

theorem pack_split {bits : Bits} {k : Nat} (inside : k * 8 ≤ bits.length) :
    (Bits.pack bits).take k = Bits.pack (bits.take (k * 8)) ∧ (Bits.pack bits).drop k = Bits.pack (bits.drop (k * 8)) := by
  have front : (bits.take (k * 8)).length = k * 8 := by
    rw [List.length_take]
    omega
  have whole := pack_append_whole (bits.drop (k * 8)) front
  rw [List.take_append_drop] at whole
  have count : (Bits.pack (bits.take (k * 8))).length = k := by
    rw [length_pack, front]
    omega
  rw [whole]
  exact ⟨List.take_left' count, List.drop_left' count⟩

/-! ### Answers -/

def Command.answerSize (command : Command) : Nat := command.readback + 1

/-- The TDO bits of a command that are read. -/
def Command.picked (tdos : BitString) : Command → BitString
  | .shift _ true => tdos
  | _ => []

def Command.slots (opIdx offset : Nat) : Command → List Gather
  | .shift tdi true => [⟨opIdx, offset, tdi.length⟩]
  | _ => []

namespace Device

variable {σ : Type} (device : Device σ)

theorem run_append (s : σ) (front back : List Move) :
    device.run s (front ++ back) =
      ((device.run (device.run s front).1 back).1, (device.run s front).2 ++ (device.run (device.run s front).1 back).2) := by
  induction front generalizing s with
  | nil => rfl
  | cons move front ih =>
    have later := ih (device.step s move).1
    change ((device.run (device.step s move).1 (front ++ back)).1, (device.step s move).2 ::
      (device.run (device.step s move).1 (front ++ back)).2) = _
    rw [later]
    rfl

theorem length_run (s : σ) (moves : List Move) : (device.run s moves).2.length = moves.length := by
  induction moves generalizing s with
  | nil => rfl
  | cons move moves ih => exact congrArg (· + 1) (ih _)

theorem length_answer (s : σ) (command : Command) : (device.answer s command).2.length = command.answerSize := by
  cases command with
  | shift tdi read =>
    cases read with
    | false => rfl
    | true =>
      change (Bits.pack (device.run s (tdi.map .shift)).2 ++ [_]).length = (tdi.length + 7) / 8 + 1
      rw [List.length_append, length_pack, length_run, List.length_map]
      rfl
  | _ => rfl

theorem sized : device.machine.Sized Command.answerSize := device.length_answer

theorem after_eq (s : σ) (commands : List Command) :
    device.machine.after s commands = (device.run s (commands.flatMap Command.moves)).1 := by
  induction commands generalizing s with
  | nil => rfl
  | cons command commands ih =>
    rw [List.flatMap_cons, run_append]
    exact ih (device.run s command.moves).1

/-- The TDO bits that commands read. -/
def reads (device : Device σ) (s : σ) : List Command → BitString
  | [] => []
  | command :: commands =>
    command.picked (device.run s command.moves).2 ++ reads device (device.run s command.moves).1 commands

theorem reads_append (s : σ) (front back : List Command) :
    device.reads s (front ++ back) =
      device.reads s front ++ device.reads (device.run s (front.flatMap Command.moves)).1 back := by
  induction front generalizing s with
  | nil => rfl
  | cons command front ih =>
    rw [List.cons_append, reads, ih, reads, List.flatMap_cons, run_append, List.append_assoc]

end Device

/-! ### Slots -/

/-- The slots of the commands of one operation. -/
def gathers (opIdx : Nat) : Nat → List Command → List Gather
  | _, [] => []
  | offset, command :: commands =>
    command.slots opIdx offset ++ gathers opIdx (offset + command.answerSize) commands

theorem gathers_append (opIdx offset : Nat) (front back : List Command) :
    gathers opIdx offset (front ++ back) =
      gathers opIdx offset front ++ gathers opIdx (offset + (front.map Command.answerSize).sum) back := by
  induction front generalizing offset with
  | nil => rfl
  | cons command front ih =>
    rw [List.cons_append, gathers, ih, gathers, List.map_cons, List.sum_cons, List.append_assoc, Nat.add_assoc]

theorem opIdx_gathers {opIdx offset : Nat} {commands : List Command} {g : Gather}
    (member : g ∈ gathers opIdx offset commands) : g.opIdx = opIdx := by
  induction commands generalizing offset with
  | nil => cases member
  | cons command commands ih =>
    rcases List.mem_append.mp member with here | later
    · cases command with
      | shift tdi read =>
        cases read with
        | false => cases here
        | true => rw [List.mem_singleton.mp here]
      | _ => cases here
    · exact ih later

theorem chunks_gathers {σ : Type} (device : Device σ) (s : σ) (opIdx : Nat) (before after : Bytes) (commands : List Command) :
    (gathers opIdx before.length commands).flatMap (chunk (before ++ (device.machine.answers s commands ++ after))) =
      device.reads s commands := by
  induction commands generalizing s before with
  | nil => rfl
  | cons command commands ih =>
    have later := ih (device.run s command.moves).1 (before ++ (device.machine.answer s command).2)
    rw [List.length_append, device.sized, List.append_assoc] at later
    rw [gathers, List.flatMap_append, Machine.answers, List.append_assoc]
    change _ ++ List.flatMap (chunk (before ++ ((device.machine.answer s command).2 ++
      (device.machine.answers (device.run s command.moves).1 commands ++ after)))) _ = _
    rw [later, Device.reads]
    congr 1
    cases command with
    | shift tdi read =>
      cases read with
      | false => rfl
      | true =>
        have length : (device.run s (tdi.map .shift)).2.length = tdi.length := by
          rw [Device.length_run, List.length_map]
        change chunk _ ⟨opIdx, before.length, tdi.length⟩ ++ [] = (device.run s (tdi.map .shift)).2
        have slot : (((before ++ ((Bits.pack (device.run s (tdi.map .shift)).2 ++
            [device.status (device.run s (tdi.map .shift)).1]) ++
              (device.machine.answers (device.run s (tdi.map .shift)).1 commands ++ after))).drop before.length).take
                ((tdi.length + 7) / 8)) = Bits.pack (device.run s (tdi.map .shift)).2 := by
          rw [List.drop_left, List.append_assoc]
          exact List.take_left' (by rw [length_pack, length])
        rw [List.append_nil, chunk]
        dsimp only
        change Bits.ofBytes (((before ++ ((Bits.pack (device.run s (tdi.map .shift)).2 ++
            [device.status (device.run s (tdi.map .shift)).1]) ++
              (device.machine.answers (device.run s (tdi.map .shift)).1 commands ++ after))).drop before.length).take
                ((tdi.length + 7) / 8)) _ = _
        rw [slot, ← length, ofBytes_pack]
    | _ => rfl

/-! ### Emitting -/

/-- The part of an operation: its commands, and slots for those that read. -/
def part (opIdx : Nat) (commands : List Command) : Part Command Gather :=
  ⟨commands, fun offset => gathers opIdx offset commands⟩

abbrev EmitsPart (opIdx : Nat) (commands : List Command) (acc after : Encoding) : Prop :=
  Emits fetch Command.answerSize (part opIdx commands) acc after

/-- A command that reads nothing. -/
def Command.Silent : Command → Prop
  | .shift _ read => read = false
  | _ => True

theorem Command.Silent.answerSize {command : Command} (silent : command.Silent) : command.answerSize = 1 := by
  cases command with
  | shift tdi read =>
    cases silent
    rfl
  | _ => rfl

theorem gathers_silent {opIdx offset : Nat} {commands : List Command} (silent : ∀ command ∈ commands, command.Silent) :
    gathers opIdx offset commands = [] := by
  induction commands generalizing offset with
  | nil => rfl
  | cons command commands ih =>
    rw [gathers, ih fun other member => silent other (List.mem_cons_of_mem _ member), List.append_nil]
    have here := silent command List.mem_cons_self
    cases command with
    | shift tdi read =>
      cases here
      rfl
    | _ => rfl

theorem reads_silent {σ : Type} (device : Device σ) (s : σ) {commands : List Command}
    (silent : ∀ command ∈ commands, command.Silent) : device.reads s commands = [] := by
  induction commands generalizing s with
  | nil => rfl
  | cons command commands ih =>
    rw [Device.reads, ih _ fun other member => silent other (List.mem_cons_of_mem _ member), List.append_nil]
    have here := silent command List.mem_cons_self
    cases command with
    | shift tdi read =>
      cases here
      rfl
    | _ => rfl

theorem reads_shifts {σ : Type} (device : Device σ) (s : σ) {commands : List Command}
    (shifts : ∀ command ∈ commands, ∃ tdi, command = .shift tdi true) :
    device.reads s commands = (device.run s (commands.flatMap Command.moves)).2 := by
  induction commands generalizing s with
  | nil => rfl
  | cons command commands ih =>
    obtain ⟨tdi, rfl⟩ := shifts command List.mem_cons_self
    rw [Device.reads, ih _ fun other member => shifts other (List.mem_cons_of_mem _ member), List.flatMap_cons,
      Device.run_append]
    rfl

theorem EmitsPart.nil (opIdx : Nat) (acc : Encoding) : EmitsPart opIdx [] acc acc := Emits.nil acc

theorem EmitsPart.append {opIdx : Nat} {commands others : List Command} {acc between after : Encoding}
    (first : EmitsPart opIdx commands acc between) (second : EmitsPart opIdx others between after) :
    EmitsPart opIdx (commands ++ others) acc after := by
  have both := Emits.append first second
  have slots : Part.append Command.answerSize (part opIdx commands) (part opIdx others) = part opIdx (commands ++ others) := by
    rw [Part.append, part, part, part]
    congr 1
    funext offset
    exact (gathers_append opIdx offset commands others).symm
  rwa [slots] at both

theorem emits_code {code : UInt8} {command : Command} (silent : command.Silent)
    (fetched : ∀ rest, fetch (code :: rest) = some (command, rest)) (opIdx : Nat) (acc : Encoding) :
    EmitsPart opIdx [command] acc (acc.emit [code]) := by
  refine ⟨⟨[code], rfl, .one fetched⟩, ?_, ?_⟩
  · rw [part, List.map_singleton, silent.answerSize]
    rfl
  · rw [part]
    dsimp only
    rw [gathers_silent (by simpa using silent), List.append_nil]
    rfl

/-! ### Cycles -/

/-- The commands for cycles of one kind, sixteen groups of eight at most, or up to eight. -/
structure Cycles (bulk rest : Nat) (make : Nat → Command) (move : Move) : Prop where
  bulk : ∀ n < 16, ∀ bytes, fetch (UInt8.ofNat (bulk ||| n) :: bytes) = some (make ((n + 1) * 8), bytes)
  rest : ∀ n < 8, ∀ bytes, fetch (UInt8.ofNat (rest ||| n) :: bytes) = some (make (n + 1), bytes)
  silent : ∀ n, (make n).Silent
  moves : ∀ n, (make n).moves = List.replicate n move

theorem cycles_reset : Cycles cmdReset8 cmdReset .reset .reset where
  bulk n small bytes := by interval_cases n <;> rfl
  rest n small bytes := by interval_cases n <;> rfl
  silent _ := trivial
  moves _ := rfl

theorem cycles_rti : Cycles cmdRti8 cmdRti .run .idle where
  bulk n small bytes := by interval_cases n <;> rfl
  rest n small bytes := by interval_cases n <;> rfl
  silent _ := trivial
  moves _ := rfl

theorem Cycles.emits {bulk rest : Nat} {make : Nat → Command} {move : Move} (kind : Cycles bulk rest make move)
    (opIdx : Nat) (acc : Encoding) (cycles : Nat) :
    ∃ commands, EmitsPart opIdx commands acc (encodeCycles bulk rest acc cycles) ∧
      commands.flatMap Command.moves = List.replicate cycles move ∧ ∀ command ∈ commands, command.Silent := by
  fun_induction encodeCycles bulk rest acc cycles with
  | case1 acc cycles many n ih =>
    obtain ⟨commands, emits, moves, silent⟩ := ih
    have size : n - 1 < 16 ∧ n - 1 + 1 = n ∧ n * 8 ≤ cycles := by omega
    have first := emits_code (kind.silent ((n - 1 + 1) * 8)) (kind.bulk (n - 1) size.1) opIdx acc
    refine ⟨make ((n - 1 + 1) * 8) :: commands, first.append emits, ?_, ?_⟩
    · rw [List.flatMap_cons, kind.moves, moves, ← List.replicate_add, size.2.1]
      congr 1
      omega
    · intro command member
      rcases List.mem_cons.mp member with rfl | member
      · exact kind.silent _
      · exact silent command member
  | case2 acc cycles few some_ =>
    refine ⟨[make (cycles - 1 + 1)], emits_code (kind.silent _) (kind.rest (cycles - 1) (by omega)) opIdx acc, ?_, ?_⟩
    · rw [List.flatMap_singleton, kind.moves]
      congr 1
      omega
    · simpa using kind.silent _
  | case3 acc cycles few none_ =>
    have zero : cycles = 0 := Decidable.not_not.mp none_
    subst zero
    exact ⟨[], .nil opIdx acc, rfl, nofun⟩

theorem emits_rti (opIdx : Nat) (acc : Encoding) (cycles : Int) :
    ∃ commands, EmitsPart opIdx commands acc (encodeRti cycles acc) ∧
      commands.flatMap Command.moves = List.replicate cycles.toNat .idle ∧ ∀ command ∈ commands, command.Silent := by
  rw [encodeRti]
  split
  · rename_i nothing
    rw [Int.toNat_of_nonpos nothing]
    exact ⟨[], .nil opIdx acc, rfl, nofun⟩
  · exact cycles_rti.emits opIdx acc cycles.toNat

/-! ### Shifts -/

theorem shiftByte_fields : ∀ (n : Fin 32) (hasTdo : Bool),
    UInt8.ofNat (shiftByteCmd hasTdo ||| n) &&& 0x80 = 0 ∧ UInt8.ofNat (shiftByteCmd hasTdo ||| n) &&& 0x40 ≠ 0 ∧
      (UInt8.ofNat (shiftByteCmd hasTdo ||| n) &&& 0x1f).toNat = n ∧
      (UInt8.ofNat (shiftByteCmd hasTdo ||| n) &&& 0x20 != 0) = hasTdo := by
  decide

theorem shiftBit_fields : ∀ (n : Fin 8) (hasTdo : Bool),
    UInt8.ofNat (shiftBitCmd hasTdo ||| n) &&& 0x80 ≠ 0 ∧ UInt8.ofNat (shiftBitCmd hasTdo ||| n) &&& 0xe0 = 0xe0 ∧
      UInt8.ofNat (shiftBitCmd hasTdo ||| n) &&& 0x10 ≠ 0 ∧
      (UInt8.ofNat (shiftBitCmd hasTdo ||| n) &&& 0x07).toNat = n ∧
      (UInt8.ofNat (shiftBitCmd hasTdo ||| n) &&& 0x08 != 0) = hasTdo := by
  decide

theorem fetch_shiftByte (hasTdo : Bool) {bits : Bits} {n : Nat} (small : n < 32) (whole : bits.length = (n + 1) * 8)
    (rest : Bytes) :
    fetch (UInt8.ofNat (shiftByteCmd hasTdo ||| n) :: (Bits.pack bits ++ rest)) = some (.shift bits hasTdo, rest) := by
  obtain ⟨kind, write, count, read⟩ := shiftByte_fields ⟨n, small⟩ hasTdo
  have length : (Bits.pack bits).length = n + 1 := by
    rw [length_pack, whole]
    omega
  dsimp only at kind write count read
  have fits : ¬(UInt8.ofNat (shiftByteCmd hasTdo ||| n) &&& 0x40 = 0 ∨ (Bits.pack bits ++ rest).length < n + 1) := by
    rw [List.length_append, length]
    exact fun short => short.elim write (by omega)
  unfold fetch
  dsimp only
  rw [if_pos kind, count, if_neg fits, read, List.take_left' length, List.drop_left' length, ← whole, ofBytes_pack]

theorem fetch_shiftBit (hasTdo : Bool) {bits : Bits} {n : Nat} (small : n < 7) (few : bits.length = n + 1)
    (rest : Bytes) :
    fetch (UInt8.ofNat (shiftBitCmd hasTdo ||| n) :: (Bits.pack bits).headD 0 :: rest) =
      some (.shift bits hasTdo, rest) := by
  obtain ⟨shift, kind, write, count, read⟩ := shiftBit_fields ⟨n, by omega⟩ hasTdo
  have one : [(Bits.pack bits).headD 0] = Bits.pack bits := by
    have length : (Bits.pack bits).length = 1 := by
      rw [length_pack, few]
      omega
    obtain ⟨byte, same⟩ := List.length_eq_one_iff.mp length
    rw [same]
    rfl
  dsimp only at shift kind write count read
  unfold fetch
  dsimp only
  rw [if_neg shift, if_pos kind, if_neg write, count, read, one, ← few, ofBytes_pack]

theorem emits_shift (opIdx : Nat) (acc : Encoding) (hasTdo : Bool) {code : UInt8} {data : Bytes} {tdi : BitString}
    (fetched : ∀ rest, fetch (code :: (data ++ rest)) = some (.shift tdi hasTdo, rest)) :
    EmitsPart opIdx [.shift tdi hasTdo] acc
      ⟨acc.cmd ++ code :: data, (if hasTdo then acc.rspSize + (tdi.length + 7) / 8 else acc.rspSize) + 1,
        if hasTdo then acc.gather ++ [⟨opIdx, acc.rspSize, tdi.length⟩] else acc.gather⟩ := by
  refine ⟨⟨code :: data, rfl, .one fetched⟩, ?_, ?_⟩
  · cases hasTdo <;> rfl
  · cases hasTdo
    · exact (List.append_nil _).symm
    · rfl

theorem emits_bits (hasTdo : Bool) (opIdx : Nat) (acc : Encoding) (bits : Bits) :
    ∃ commands, EmitsPart opIdx commands acc (encodeBits hasTdo opIdx acc bits.length (Bits.pack bits)) ∧
      commands.flatMap Command.moves = bits.map .shift ∧ ∀ command ∈ commands, ∃ tdi, command = .shift tdi hasTdo := by
  rw [encodeBits]
  split
  · rename_i many
    dsimp only
    generalize size : min (bits.length / 8) 32 = n
    have inside : n * 8 ≤ bits.length := by omega
    obtain ⟨front, back⟩ := pack_split inside
    have length : (bits.take (n * 8)).length = n * 8 := by
      rw [List.length_take]
      omega
    have rest : (bits.drop (n * 8)).length = bits.length - n * 8 := List.length_drop
    have first := emits_shift opIdx acc hasTdo (@fetch_shiftByte hasTdo (bits.take (n * 8)) (n - 1) (by omega)
      (by rw [length]; omega))
    obtain ⟨commands, emits, moves, shifts⟩ := emits_bits hasTdo opIdx _ (bits.drop (n * 8))
    rw [rest] at emits
    rw [front, back]
    rw [length, show (n * 8 + 7) / 8 = n by omega] at first
    refine ⟨.shift (bits.take (n * 8)) hasTdo :: commands, first.append emits, ?_, ?_⟩
    · rw [List.flatMap_cons, moves]
      change (bits.take (n * 8)).map _ ++ _ = _
      rw [← List.map_append, List.take_append_drop]
    · intro command member
      rcases List.mem_cons.mp member with rfl | member
      · exact ⟨_, rfl⟩
      · exact shifts command member
  · rename_i few
    split
    · rename_i some_
      have last := @emits_shift opIdx acc hasTdo _ [(Bits.pack bits).headD 0] bits
        (@fetch_shiftBit hasTdo bits (bits.length - 1) (by omega) (by omega))
      rw [show (bits.length + 7) / 8 = 1 by omega] at last
      refine ⟨[.shift bits hasTdo], last, ?_, ?_⟩
      · rw [List.flatMap_singleton]
        rfl
      · intro command member
        exact ⟨bits, List.mem_singleton.mp member⟩
    · rename_i none_
      have empty : bits = [] := List.length_eq_zero_iff.mp (Decidable.not_not.mp none_)
      subst empty
      exact ⟨[], .nil opIdx acc, rfl, nofun⟩
termination_by bits.length
decreasing_by
  rw [List.length_drop]
  omega

/-! ### Operations -/

/-- The commands make the moves of the operation and read its TDO bits. -/
def Makes (op : Op) (commands : List Command) : Prop :=
  commands.flatMap Command.moves = op.moves ∧
    ∀ (σ : Type) (device : Device σ) s, device.reads s commands = (device.tdo s op).getD []

theorem makes_silent {op : Op} {commands : List Command} (moves : commands.flatMap Command.moves = op.moves)
    (silent : ∀ command ∈ commands, command.Silent) (nothing : ∀ (σ : Type) (device : Device σ) s, device.tdo s op = none) :
    Makes op commands :=
  ⟨moves, fun σ device s => by rw [reads_silent device s silent, nothing]; rfl⟩

theorem emits_one {op : Op} (known : op.Known) (opIdx : Nat) (acc : Encoding) :
    ∃ after commands, encodeOne op opIdx acc = .ok after ∧ EmitsPart opIdx commands acc after ∧ Makes op commands := by
  cases op with
  | captureDr =>
    exact ⟨_, [.captureDr], rfl, @emits_code _ .captureDr trivial (fun _ => rfl) opIdx acc,
      makes_silent rfl (by simp [Command.Silent]) fun _ _ _ => rfl⟩
  | captureIr =>
    exact ⟨_, [.captureIr], rfl, @emits_code _ .captureIr trivial (fun _ => rfl) opIdx acc,
      makes_silent rfl (by simp [Command.Silent]) fun _ _ _ => rfl⟩
  | swdToJtag =>
    exact ⟨_, [.swdToJtag], rfl, @emits_code _ .swdToJtag trivial (fun _ => rfl) opIdx acc,
      makes_silent rfl (by simp [Command.Silent]) fun _ _ _ => rfl⟩
  | reset count =>
    obtain ⟨commands, emits, moves, silent⟩ := cycles_reset.emits opIdx acc (max 5 count).toNat
    exact ⟨_, commands, rfl, emits, makes_silent moves silent fun _ _ _ => rfl⟩
  | run cycles =>
    obtain ⟨commands, emits, moves, silent⟩ := emits_rti opIdx acc cycles
    exact ⟨_, commands, rfl, emits, makes_silent moves silent fun _ _ _ => rfl⟩
  | shift op =>
    obtain ⟨tdi, readTdo, postRun⟩ := op
    obtain ⟨shifts, emits, moves, all⟩ := emits_bits readTdo opIdx acc tdi
    have run : (if postRun ≠ 0 then encodeRti postRun (encodeShift ⟨tdi, readTdo, postRun⟩ opIdx acc)
        else encodeShift ⟨tdi, readTdo, postRun⟩ opIdx acc) =
          encodeRti postRun (encodeShift ⟨tdi, readTdo, postRun⟩ opIdx acc) := by
      split
      · rfl
      · rename_i zero
        rw [Decidable.not_not.mp zero, encodeRti, if_pos (Int.le_refl 0)]
    obtain ⟨idles, more, cycles, silent⟩ := emits_rti opIdx (encodeShift ⟨tdi, readTdo, postRun⟩ opIdx acc) postRun
    refine ⟨_, shifts ++ idles, congrArg Except.ok run, emits.append more, ?_, fun σ device s => ?_⟩
    · rw [List.flatMap_append, moves, cycles]
      rfl
    · rw [Device.reads_append, reads_silent device _ silent, List.append_nil]
      cases readTdo with
      | true =>
        rw [reads_shifts device s all, moves]
        rfl
      | false =>
        refine reads_silent device s fun command member => ?_
        obtain ⟨tdi, rfl⟩ := all command member
        rfl
  | other typeName => exact known.elim

/-! ### Batches -/

theorem foldl_note (response : Bytes) (slots : List Gather) (found : Option BitString) :
    (slots.foldl (note response) found).getD [] = found.getD [] ++ slots.flatMap (chunk response) := by
  induction slots generalizing found with
  | nil => exact (List.append_nil _).symm
  | cons g slots ih =>
    rw [List.foldl_cons, ih, List.flatMap_cons, ← List.append_assoc]
    cases found <;> rfl

def Device.pick {σ : Type} (device : Device σ) (s : σ) (op : Op) : σ × BitString :=
  ((device.perform s op).1, (device.perform s op).2.getD [])

theorem performEach_pick {σ : Type} (device : Device σ) (s : σ) (ops : List Op) :
    performEach device.pick s ops = (device.tdos s ops).map fun tdo => tdo.getD [] := by
  induction ops generalizing s with
  | nil => rfl
  | cons op ops ih => exact congrArg (_ :: ·) (ih _)

/-- The part of an operation makes its moves, and its notes find its TDO bits. -/
def Belongs (op : Op) (opIdx : Nat) (own : Part Command Gather) : Prop :=
  own.commands.flatMap Command.moves = op.moves ∧
    ∀ (σ : Type) (device : Device σ),
      Serves device.machine Gather.opIdx note (fun _ found => found.getD []) device.pick op opIdx own

theorem Makes.belongs {op : Op} {commands : List Command} (makes : Makes op commands) (opIdx : Nat) :
    Belongs op opIdx (part opIdx commands) := by
  refine ⟨makes.1, fun σ device => ⟨fun offset g member => opIdx_gathers member, fun s => ?_, fun s front back => ?_⟩⟩
  · rw [Device.after_eq]
    exact congrArg (fun moves => (device.run s moves).1) makes.1
  · have bits := foldl_note (front ++ device.machine.answers s commands ++ back) (gathers opIdx front.length commands) none
    rw [List.append_assoc, chunks_gathers, makes.2, ← List.append_assoc] at bits
    exact bits

theorem emits_op {op : Op} (known : op.Known) (opIdx : Nat) (acc : Encoding) :
    ∃ after own, encodeOne op opIdx acc = .ok after ∧ Emits fetch Command.answerSize own acc after ∧
      Belongs op opIdx own := by
  obtain ⟨after, commands, encoded, emits, makes⟩ := emits_one known opIdx acc
  exact ⟨after, part opIdx commands, encoded, emits, makes.belongs opIdx⟩

theorem moves_join {batch : List Op} {start : Nat} {parts : List (Part Command Gather)}
    (matched : Matched Belongs start batch parts) :
    (join Command.answerSize parts).commands.flatMap Command.moves = batch.flatMap Op.moves := by
  induction batch generalizing start parts with
  | nil => cases parts with
    | nil => rfl
    | cons own parts => exact matched.elim
  | cons op batch ih => cases parts with
    | nil => exact matched.elim
    | cons own parts =>
      rw [join, Part.append, List.flatMap_append, matched.1.1, ih matched.2, List.flatMap_cons]

theorem emits_settings (self : Codec) :
    ∃ settings, Emits fetch Command.answerSize (silent settings) .start self.configure.2 ∧
      settings.flatMap Command.moves = [] := by
  have setting {code value : UInt8} {command : Command} (one : command.answerSize = 1)
      (fetched : ∀ rest, fetch (code :: value :: rest) = some (command, rest)) (acc : Encoding) :
      Emits fetch Command.answerSize (silent [command]) acc (acc.emit [code, value]) :=
    Emits.emit (@Interprets.one _ _ fetch code [value] command fetched) one acc
  have divisor := @setting cmdDivisor (lowByte self.divisor) (.divisor (lowByte self.divisor)) rfl fun _ => rfl
  have tdoDelay := @setting cmdTdoDelay (lowByte self.tdoDelay) (.tdoDelay (lowByte self.tdoDelay)) rfl fun _ => rfl
  by_cases rate : self.rateDirty = true
  · by_cases delay : self.tdoDelayDirty = true ∧ 1 ≤ self.version
    · have same : self.configure.2 = (Encoding.start.emit [cmdDivisor, lowByte self.divisor]).emit
          [cmdTdoDelay, lowByte self.tdoDelay] := by
        simp [Codec.configure, rate, delay]
      rw [same]
      exact ⟨_, (divisor _).silent_append (tdoDelay _), rfl⟩
    · have same : self.configure.2 = Encoding.start.emit [cmdDivisor, lowByte self.divisor] := by
        simp [Codec.configure, rate, delay]
      rw [same]
      exact ⟨_, divisor _, rfl⟩
  · by_cases delay : self.tdoDelayDirty = true ∧ 1 ≤ self.version
    · have same : self.configure.2 = Encoding.start.emit [cmdTdoDelay, lowByte self.tdoDelay] := by
        simp [Codec.configure, rate, delay]
      rw [same]
      exact ⟨_, tdoDelay _, rfl⟩
    · have same : self.configure.2 = .start := by simp [Codec.configure, rate, delay]
      rw [same]
      exact ⟨[], .nil _, rfl⟩

theorem sum_answerSize (commands : List Command) :
    (commands.map Command.answerSize).sum = (commands.map Command.readback).sum + commands.length := by
  induction commands with
  | nil => rfl
  | cons command commands ih =>
    rw [List.map_cons, List.sum_cons, ih, List.map_cons, List.sum_cons, List.length_cons, Command.answerSize]
    omega

/-! ### Results -/

theorem getElem?_tdos {σ : Type} (device : Device σ) (s : σ) {ops : List Op} {k : Nat} {op : Op}
    (present : ops[k]? = some op) : ∃ next, (device.tdos s ops)[k]? = some (device.tdo next op) := by
  induction ops generalizing s k with
  | nil => cases present
  | cons first ops ih =>
    cases k with
    | zero =>
      cases present
      exact ⟨s, rfl⟩
    | succ k => exact ih _ present

theorem length_tdos {σ : Type} (device : Device σ) (s : σ) (ops : List Op) : (device.tdos s ops).length = ops.length := by
  induction ops generalizing s with
  | nil => rfl
  | cons op ops ih => exact congrArg (· + 1) (ih _)

theorem length_tdo {σ : Type} (device : Device σ) (s : σ) {op : Shift} (reading : op.readTdo = true) :
    ((device.tdo s (.shift op)).getD []).length = op.tdi.length := by
  rw [Device.tdo, if_pos reading, Option.getD_some, Device.length_run, List.length_map]

theorem result_eq {σ : Type} (device : Device σ) (s : σ) {op : Op} {found : Option BitString}
    (bits : found.getD [] = (device.tdo s op).getD []) : device.tdo s op = result op found := by
  cases op with
  | shift op =>
    rw [result, bits, Device.tdo]
    split <;> rfl
  | _ => rfl

/-- What the futures of a batch are set to. -/
def Device.results {σ : Type} (device : Device σ) (s : σ) (batch : List (BatchEntry Op)) :
    List (Option (Option BitString)) := settleEach batch (device.tdos s (batch.map BatchEntry.op))

/-- A batch makes its moves, is answered in the size that is expected, and gets its own TDO bits. -/
theorem batch_performed (self : Codec) (batch : List (BatchEntry Op)) (known : ∀ entry ∈ batch, entry.op.Known) :
    ∃ encoding commands, (self.encode batch).2 = .ok encoding ∧ interpret fetch encoding.cmd = some commands ∧
      commands.flatMap Command.moves = batch.flatMap (fun entry => entry.op.moves) ∧
      encoding.rspSize = (commands.map Command.readback).sum + commands.length ∧
      ∀ (σ : Type) (device : Device σ) s,
        (device.machine.answers s commands).length = encoding.rspSize ∧
        (∀ k tdo, (device.tdos s (batch.map BatchEntry.op))[k]? = some tdo →
          (byOp (device.machine.answers s commands) encoding.gather k).getD [] = tdo.getD []) ∧
        (∀ k op, (batch.map BatchEntry.op)[k]? = some (.shift op) → op.readTdo = true →
          ((byOp (device.machine.answers s commands) encoding.gather k).getD []).length = op.tdi.length) ∧
        (commands ≠ [] → ∃ next, (self.encode batch).1.decode batch (device.machine.answers s commands) encoding.gather =
          some (next, device.results s batch)) := by
  obtain ⟨settings, set, still⟩ := emits_settings self
  obtain ⟨encoding, parts, encoded, emits, matched⟩ := encodeEach_emits
    (fun op member => @emits_op op (List.forall_mem_map.mpr known op member)) 0 self.configure.2
  refine ⟨encoding, settings ++ (join Command.answerSize parts).commands, encoded, set.interpreted emits, ?_, ?_,
    fun σ device s => ?_⟩
  · rw [List.flatMap_append, still, moves_join matched, List.nil_append, List.flatMap_map]
  · rw [← sum_answerSize]
    exact ((set.append emits).rspSize).trans (Nat.zero_add _)
  · obtain ⟨length, gather⟩ := set.answered device.sized emits s
    have served := matched.mono fun _ _ _ belongs => belongs.2 σ device
    have rest : device.machine.after s settings = s := by
      rw [Device.after_eq, still]
      rfl
    have bits : ∀ k tdo, (device.tdos s (batch.map BatchEntry.op))[k]? = some tdo →
        (byOp (device.machine.answers s (settings ++ (join Command.answerSize parts).commands)) encoding.gather k).getD [] =
          tdo.getD [] := by
      intro k tdo asked
      have inside := (List.getElem?_eq_some_iff.mp asked).1
      rw [length_tdos] at inside
      have found := served.attributed device.sized (device.machine.answers s settings) s (List.getElem?_eq_getElem inside)
      rw [performEach_pick, List.getElem?_map, asked, Option.map_some] at found
      rw [byOp, device.machine.answers_append, rest, gather]
      exact (Option.some.inj found).symm
    have own : ∀ k op, (batch.map BatchEntry.op)[k]? = some op →
        (device.tdos s (batch.map BatchEntry.op))[k]? = some (result op
          (byOp (device.machine.answers s (settings ++ (join Command.answerSize parts).commands)) encoding.gather k)) := by
      intro k op present
      obtain ⟨next, tdo⟩ := getElem?_tdos device s present
      rw [tdo, ← result_eq device next (bits k _ tdo)]
    refine ⟨length, bits, ?_, ?_⟩
    · intro k op present reading
      obtain ⟨next, tdo⟩ := getElem?_tdos device s present
      rw [bits k _ tdo, length_tdo device next reading]
    · intro some_
      have long : 0 < (device.machine.answers s (settings ++ (join Command.answerSize parts).commands)).length := by
        rw [device.sized.length_answers, sum_answerSize]
        have count := List.length_pos_iff.mpr some_
        omega
      obtain ⟨vb, last⟩ :
          ∃ vb, (device.machine.answers s (settings ++ (join Command.answerSize parts).commands)).getLast? = some vb :=
        ⟨_, List.getLast?_eq_some_getLast (List.length_pos_iff.mp long)⟩
      rw [Codec.decode, last]
      exact ⟨_, congrArg some (Prod.ext rfl (decodeEach_eq own))⟩

theorem batch_performed_tail :
    ∃ encoding commands, (Codec.encode ⟨4, true, 0, true, 0⟩
        [⟨.shift ⟨[true, false, true, true, false, false, true, false, true, true], true, 3⟩, .pending⟩,
          ⟨.run 20, .done⟩]).2 = .ok encoding ∧ interpret fetch encoding.cmd = some commands ∧
      commands.flatMap Command.moves =
        [⟨.shift ⟨[true, false, true, true, false, false, true, false, true, true], true, 3⟩, .pending⟩,
          ⟨.run 20, .done⟩].flatMap (fun (entry : BatchEntry Op) => entry.op.moves) := by
  obtain ⟨encoding, commands, encoded, interpreted, moves, -⟩ := batch_performed ⟨4, true, 0, true, 0⟩
    [⟨.shift ⟨[true, false, true, true, false, false, true, false, true, true], true, 3⟩, .pending⟩,
      ⟨.run 20, .done⟩] (by simp [Op.Known])
  exact ⟨encoding, commands, encoded, interpreted, moves⟩

/-- Every command is answered with a status byte too. -/
theorem status_bytes_counted : ¬∀ (self : Codec) (batch : List (BatchEntry Op)), (∀ entry ∈ batch, entry.op.Known) →
    ∃ encoding commands, (self.encode batch).2 = .ok encoding ∧ interpret fetch encoding.cmd = some commands ∧
      encoding.rspSize = (commands.map Command.readback).sum := by
  intro all
  obtain ⟨encoding, commands, encoded, interpreted, size⟩ :=
    all ⟨4, false, 0, false, 0⟩ [⟨.captureDr, .pending⟩] (by simp [Op.Known])
  cases encoded
  have one : interpret fetch [cmdDrCapture] = some [.captureDr] :=
    (@Interprets.one _ _ fetch cmdDrCapture [] .captureDr fun _ => rfl).whole
  have same : interpret fetch [cmdDrCapture] = some commands := interpreted
  rw [one] at same
  cases same
  cases size

end Acrobe.Nsl.JtagTransactor
