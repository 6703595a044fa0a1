import Acrobe.Ftdi.Engine
import Acrobe.Lib.Tiling

/-!
# How long the engine leaves the chip without an answer

The cycles counted since the last inserted read bound those clocked since the last answer.
-/

namespace Acrobe.Ftdi
open LittleEndian Lib.Stretches

def Operation.tck : Operation → Nat
  | .clockBits count => count
  | .clockBytes count => count * 8
  | .shiftBits op => op.count
  | .shiftBytes op => op.byteCount * 8
  | .shiftTms op => op.count
  | _ => 0

def Command.tck : Command → Nat
  | .operation op => op.tck
  | .range _ _ count => count * 8
  | _ => 0

def Command.answers : Command → Bool
  | .operation op => op.rspSize ≠ 0
  | .range op _ _ => op.read
  | .getBitsLow => true
  | _ => false

theorem tck_le_cycleCount (op : Operation) : op.tck ≤ op.cycleCount := by
  cases op <;> first | exact Nat.le_refl _ | exact Nat.zero_le _

/-- Only idle clocking by bytes may take longer than 8 cycles without being split. -/
theorem cycleCount_le {op : Operation} (valid : op.Valid) {budget : Nat} (least : 8 ≤ budget)
    (bytes : ∀ count, op = .clockBytes count → count * 8 ≤ budget) (single : ∀ shift, op ≠ .shiftBytes shift) :
    op.cycleCount ≤ budget := by
  cases op with
  | clockBits count => exact Nat.le_trans valid.2 least
  | clockBytes count => exact bytes count rfl
  | shiftBits op => exact Nat.le_trans valid.2 least
  | shiftBytes op => exact (single op rfl).elim
  | shiftTms op => exact Nat.le_trans valid.2 least
  | _ => exact Nat.le_trans (Nat.le_of_ble_eq_true rfl) least

namespace CommandStream

/-- A stream whose stretches are bounded, and what it counts. -/
structure Within (budget : Nat) (st : CommandStream) : Prop where
  bounded : Bounded Command.tck Command.answers budget st.commands
  counted : since Command.tck Command.answers st.commands ≤ st.clocked
  kept : st.clocked ≤ budget

theorem Within.keepalive {budget : Nat} {st : CommandStream} (within : Within budget st) : Within budget st.keepalive := by
  have open_ := Nat.le_trans within.counted within.kept
  have first : Bounded Command.tck Command.answers budget (st.commands ++ [.getBitsLow]) := within.bounded.concat open_
  have second : Bounded Command.tck Command.answers budget (st.commands ++ [.getBitsLow] ++ [.sendImmediate]) :=
    first.concat (by simp [Command.answers, Command.tck])
  refine ⟨by simpa [CommandStream.keepalive] using second, ?_, Nat.zero_le _⟩
  have same : st.keepalive.commands = st.commands ++ [.getBitsLow] ++ [.sendImmediate] := by simp [CommandStream.keepalive]
  rw [same, since_concat, since_concat]
  simp [Command.answers, Command.tck]

theorem Within.emit {budget : Nat} {st : CommandStream} (within : Within budget st) (cmd : Command) {cycles : Nat}
    (counted : cmd.tck ≤ cycles) (room : st.clocked + cycles ≤ budget) :
    Bounded Command.tck Command.answers budget (st.commands ++ [cmd]) ∧
      since Command.tck Command.answers (st.commands ++ [cmd]) ≤ st.clocked + cycles := by
  have before := within.counted
  refine ⟨within.bounded.concat (by omega), ?_⟩
  rw [since_concat]
  split
  · exact Nat.zero_le _
  · omega

theorem emitRange_within {budget step : Nat} (op : ShiftBytes) (short : step * 8 ≤ budget) {st : CommandStream}
    (within : Within budget st) (start : Nat) : Within budget (emitRange op step st start) := by
  have cleared : Within budget (if st.clocked ≠ 0 then st.keepalive else st) ∧
      (if st.clocked ≠ 0 then st.keepalive else st).clocked = 0 := by
    split
    · exact ⟨within.keepalive, rfl⟩
    · rename_i zero
      exact ⟨within, not_not.mp zero⟩
  obtain ⟨within, zero⟩ := cleared
  have few : min step (op.byteCount - start) ≤ step := Nat.min_le_left ..
  unfold emitRange
  generalize (if st.clocked ≠ 0 then st.keepalive else st) = st' at within zero
  obtain ⟨bounded, open_⟩ := within.emit (.range op start (min step (op.byteCount - start)))
    (Nat.le_refl _) (by rw [zero]; simp only [Command.tck]; omega)
  rw [zero] at open_
  refine ⟨bounded, ?_, ?_⟩
  · simpa [Command.tck] using open_
  · show min step (op.byteCount - start) * 8 ≤ budget
    omega

theorem emitRanges_within {budget step : Nat} (op : ShiftBytes) (short : step * 8 ≤ budget) {st : CommandStream}
    (within : Within budget st) (starts : List Nat) : Within budget (starts.foldl (emitRange op step) st) := by
  induction starts generalizing st with
  | nil => exact within
  | cons start starts ih => exact ih (emitRange_within op short within start)

theorem emitOp_within {budget : Nat} {st : CommandStream} (within : Within budget st) {op : Operation}
    (room : st.clocked + op.cycleCount ≤ budget) : Within budget (st.emitOp op) := by
  obtain ⟨bounded, open_⟩ := within.emit (.operation op) (tck_le_cycleCount op) room
  exact ⟨bounded, open_, room⟩

theorem lowerOp_within {budget : Nat} (least : 8 ≤ budget) {st : CommandStream} (within : Within budget st) {op : Operation}
    (valid : op.Valid) (bytes : ∀ count, op = .clockBytes count → count * 8 ≤ budget) :
    Within budget (lowerOp budget st op) := by
  have cleared : Within budget (if st.clocked ≠ 0 ∧ budget < st.clocked + op.cycleCount then st.keepalive else st) ∧
      (op.cycleCount ≤ budget →
        (if st.clocked ≠ 0 ∧ budget < st.clocked + op.cycleCount then st.keepalive else st).clocked + op.cycleCount ≤
          budget) := by
    split
    · refine ⟨within.keepalive, fun fits => ?_⟩
      simpa [CommandStream.keepalive] using fits
    · rename_i none
      refine ⟨within, fun fits => ?_⟩
      by_cases zero : st.clocked = 0
      · rw [zero]
        omega
      · exact Nat.le_of_not_lt fun exceeds => none ⟨zero, exceeds⟩
  obtain ⟨within, room⟩ := cleared
  unfold lowerOp
  generalize (if st.clocked ≠ 0 ∧ budget < st.clocked + op.cycleCount then st.keepalive else st) = st' at within room
  cases op with
  | shiftBytes shift =>
    dsimp only
    split
    · exact emitRanges_within shift (Nat.div_mul_le_self budget 8) within _
    · rename_i fits
      exact emitOp_within within (room (Nat.le_of_not_lt fits))
  | _ => exact emitOp_within within (room (cycleCount_le valid least bytes (by simp)))

theorem finish_bounded {budget : Nat} {st : CommandStream} (within : Within budget st) (bracketPost : Bytes) :
    Bounded Command.tck Command.answers budget (finish bracketPost st).commands := by
  have silent : ∀ {commands : List Command} (cmd : Command), cmd.tck = 0 →
      Bounded Command.tck Command.answers budget commands ∧ since Command.tck Command.answers commands ≤ budget →
      Bounded Command.tck Command.answers budget (commands ++ [cmd]) ∧
        since Command.tck Command.answers (commands ++ [cmd]) ≤ budget := by
    intro commands cmd idle before
    refine ⟨before.1.concat (by omega), ?_⟩
    rw [since_concat]
    split <;> omega
  have start := And.intro within.bounded (Nat.le_trans within.counted within.kept)
  unfold finish
  dsimp only
  split <;> split
  · exact (silent .sendImmediate rfl (silent .getBitsLow rfl (silent (.bracket bracketPost) rfl start))).1
  · exact (silent .sendImmediate rfl (silent (.bracket bracketPost) rfl start)).1
  · exact (silent .sendImmediate rfl (silent .getBitsLow rfl start)).1
  · exact (silent .sendImmediate rfl start).1

/-! ### Commands stay in the stream -/

theorem keepalive_commands (st : CommandStream) : st.commands <+: st.keepalive.commands := List.prefix_append _ _

theorem lowerOp_commands (budget : Nat) (st : CommandStream) (op : Operation) :
    st.commands <+: (lowerOp budget st op).commands := by
  have first : st.commands <+:
      (if st.clocked ≠ 0 ∧ budget < st.clocked + op.cycleCount then st.keepalive else st).commands := by
    split
    · exact keepalive_commands st
    · exact List.prefix_rfl
  have range : ∀ (shift : ShiftBytes) (step : Nat) (starts : List Nat) (st : CommandStream),
      st.commands <+: (starts.foldl (emitRange shift step) st).commands := by
    intro shift step starts
    induction starts with
    | nil => exact fun st => List.prefix_rfl
    | cons start starts ih =>
      intro st
      refine List.IsPrefix.trans ?_ (ih _)
      unfold emitRange
      split
      · exact (keepalive_commands st).trans (List.prefix_append _ _)
      · exact List.prefix_append _ _
  refine first.trans ?_
  unfold lowerOp
  generalize (if st.clocked ≠ 0 ∧ budget < st.clocked + op.cycleCount then st.keepalive else st) = st'
  cases op with
  | shiftBytes shift =>
    dsimp only
    split
    · exact range ..
    · exact List.prefix_append _ _
  | _ => exact List.prefix_append _ _

theorem finish_commands (bracketPost : Bytes) (st : CommandStream) : st.commands <+: (finish bracketPost st).commands := by
  unfold finish
  dsimp only
  split <;> split <;> simp

end CommandStream

namespace Engine
open Acrobe.Ftdi.CommandStream

/-- `ClockDiv5` and `ClockDivisor`. -/
def setsClock : Operation → Bool
  | .clockDiv5 _ | .clockDivisor _ => true
  | _ => false

theorem setClock_of_not {op : Operation} (other : setsClock op = false) (engine : Engine) : engine.setClock op = engine := by
  cases op <;> first | rfl | cases other

variable {cycles : Bool → Nat → Nat}

theorem lower_within {engine : Engine} (least : 8 ≤ cycles engine.div5 engine.divisor) {st : CommandStream}
    (within : Within (cycles engine.div5 engine.divisor) st) {batch : List Operation} (valid : ∀ op ∈ batch, op.Valid)
    (fixed : ∀ op ∈ batch, setsClock op = false)
    (bytes : ∀ count, .clockBytes count ∈ batch → count * 8 ≤ cycles engine.div5 engine.divisor) :
    Within (cycles engine.div5 engine.divisor) (engine.lower cycles st batch).2 := by
  induction batch generalizing st with
  | nil => exact within
  | cons op batch ih =>
    rw [lower]
    simp only [setClock_of_not (fixed op List.mem_cons_self)]
    have next := lowerOp_within least within (valid op List.mem_cons_self) fun count same =>
      bytes count (same ▸ List.mem_cons_self)
    exact ih next (fun op member => valid op (List.mem_cons_of_mem _ member))
      (fun op member => fixed op (List.mem_cons_of_mem _ member))
      fun count member => bytes count (List.mem_cons_of_mem _ member)

theorem lower_commands (engine : Engine) (st : CommandStream) (batch : List Operation) :
    st.commands <+: (engine.lower cycles st batch).2.commands := by
  induction batch generalizing engine st with
  | nil => exact List.prefix_rfl
  | cons op batch ih => exact (lowerOp_commands _ st op).trans (ih _ _)

theorem clockBytes_emitted {engine : Engine} {st : CommandStream} {batch : List Operation} {count : Nat}
    (member : .clockBytes count ∈ batch) :
    .operation (.clockBytes count) ∈ (engine.lower cycles st batch).2.commands := by
  induction batch generalizing engine st with
  | nil => cases member
  | cons op batch ih =>
    rw [lower]
    rcases List.mem_cons.mp member with rfl | later
    · refine (lower_commands _ _ batch).subset ?_
      simp [lowerOp, emitOp]
    · exact ih later

/-- Without clock changes, the clocking between two answers stays within the budget exactly when no idle
clocking by bytes is longer: it is not split. -/
theorem stretches_bounded_iff {engine : Engine} {batch : List Operation} (valid : ∀ op ∈ batch, op.Valid)
    (fixed : ∀ op ∈ batch, setsClock op = false) :
    Bounded Command.tck Command.answers (keepaliveCycles engine.div5 engine.divisor)
        (engine.flushOps keepaliveCycles batch).2.commands ↔
      ∀ count, .clockBytes count ∈ batch → count * 8 ≤ keepaliveCycles engine.div5 engine.divisor := by
  constructor
  · intro bounded count member
    have emitted : .operation (.clockBytes count) ∈ (engine.flushOps keepaliveCycles batch).2.commands :=
      (finish_commands _ _).subset (clockBytes_emitted member)
    exact bounded.weight_le emitted
  · intro bytes
    have opened : Within (keepaliveCycles engine.div5 engine.divisor) { commands := engine.opening } := by
      unfold opening
      split
      · exact ⟨(bounded_nil _).concat (Nat.zero_le _), Nat.zero_le _, Nat.zero_le _⟩
      · exact ⟨bounded_nil _, Nat.zero_le _, Nat.zero_le _⟩
    exact finish_bounded (lower_within (keepaliveCycles_least ..) opened valid fixed bytes) _

/-- At the slowest clock, three bytes and eight idle cycles. -/
theorem stretches_bounded_slow :
    Bounded Command.tck Command.answers 9
      (({} : Engine).flushOps keepaliveCycles [.shiftBytes { data := .bytes [1, 2, 3] }, .clockBits 8]).2.commands :=
  (@stretches_bounded_iff {} [.shiftBytes { data := .bytes [1, 2, 3] }, .clockBits 8] (by decide) (by decide)).mpr
    (by simp)

/-- Sixteen idle cycles in one command, where nine are allowed. -/
theorem clockBytes_not_split :
    ¬ ∀ (engine : Engine) (batch : List Operation), (∀ op ∈ batch, op.Valid) → (∀ op ∈ batch, setsClock op = false) →
      Bounded Command.tck Command.answers (keepaliveCycles engine.div5 engine.divisor)
        (engine.flushOps keepaliveCycles batch).2.commands := by
  intro law
  have emitted : .operation (.clockBytes 2) ∈ (({} : Engine).flushOps keepaliveCycles [.clockBytes 2]).2.commands := by
    decide
  have short := (law {} [.clockBytes 2] (by decide) (by decide)).weight_le emitted
  revert short
  decide

end Engine
end Acrobe.Ftdi
