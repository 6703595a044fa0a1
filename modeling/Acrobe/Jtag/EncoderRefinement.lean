import Mathlib
import Acrobe.Jtag.Encoder
import Acrobe.Jtag.Semantics

/-!
# The encoder refines the controller

The state of the encoder is related to the controller's through the operation
that comes next: `PAUSE` may stand for Capture when that operation leaves it by
the same bits, and the two pseudo-states stand for Shift when it is a Shift.
-/

namespace Acrobe.Jtag.Encoder
open BitString TapState

/-! ### Streams of constant TMS -/

theorem zip_replicate {α β : Type} (a : α) (xs : List β) :
    (List.replicate xs.length a).zip xs = xs.map fun x => (a, x) := by
  induction xs with
  | nil => rfl
  | cons x xs ih => simp [List.replicate_succ, ih]

theorem clocks_zeros (n : Nat) : clocks (zeros n) (zeros n) = hold false (zeros n) := by
  have same := zip_replicate false (zeros n)
  rwa [show (zeros n).length = n from List.length_replicate] at same

theorem clocks_ones (n : Nat) : clocks (ones n) (zeros (ones n).length) = hold true (zeros n) := by
  have same := zip_replicate true (zeros n)
  rw [show (zeros n).length = n from List.length_replicate] at same
  rwa [show (ones n).length = n from List.length_replicate]

theorem clocks_body (tdi : BitString) :
    clocks (zeros (tdi.length - 1)) tdi.dropLast = hold false tdi.dropLast := by
  rw [← List.length_dropLast]
  exact zip_replicate false tdi.dropLast

theorem hold_append (tms : Bool) (xs ys : BitString) : hold tms (xs ++ ys) = hold tms xs ++ hold tms ys :=
  List.map_append

theorem length_hold (tms : Bool) (xs : BitString) : (hold tms xs).length = xs.length := List.length_map ..

/-! ### The simulation -/

/-- The next operation leaves Capture by the bits it would leave Pause by. -/
def continues : Option Op → Bool
  | some .captureDr | some .captureIr | some (.run _) => true
  | _ => false

def Sim (st : EncoderState) (next : Option Op) (tap : TapState) (r : Rest) : Prop :=
  match st with
  | .tlr => tap = .tlr ∧ r.inReset = true
  | .rti => (tap = .rti ∨ ∃ c, tap = .update c) ∧ r.inReset = false
  | .pause =>
    (tap = .pause r.column ∨ tap = .capture r.column ∧ continues next = true) ∧ r.inReset = false
  | .preShift | .inShift => tap = .shift r.column ∧ isShift next = true ∧ r.inReset = false

/-- The controller state a rest state of the encoder stands for between calls. -/
def Agrees (st : EncoderState) (tap : TapState) : Prop :=
  match st with
  | .tlr => tap = .tlr
  | .rti => tap = .rti ∨ ∃ c, tap = .update c
  | .pause => ∃ c, tap = .pause c
  | .preShift | .inShift => False

def restOf (tap : TapState) : Rest where
  inReset := decide (tap = .tlr)
  column := match tap with
    | .capture c | .shift c | .exit1 c | .pause c | .exit2 c | .update c => c
    | _ => .dr

theorem Agrees.sim {st : EncoderState} {tap : TapState} (agrees : Agrees st tap) (next : Option Op) :
    Sim st next tap (restOf tap) := by
  cases st with
  | tlr => exact ⟨agrees, decide_eq_true agrees⟩
  | rti =>
    refine ⟨agrees, ?_⟩
    rcases agrees with rfl | ⟨c, rfl⟩ <;> rfl
  | pause =>
    obtain ⟨c, rfl⟩ := agrees
    exact ⟨Or.inl rfl, rfl⟩
  | preShift => exact agrees.elim
  | inShift => exact agrees.elim

theorem Sim.agrees {st : EncoderState} {tap : TapState} {r : Rest} (sim : Sim st none tap r) :
    Agrees st tap := by
  cases st with
  | tlr => exact sim.1
  | rti => exact sim.1
  | pause =>
    rcases sim.1 with paused | ⟨_, more⟩
    · exact ⟨_, paused⟩
    · cases more
  | preShift => cases sim.2.1
  | inShift => cases sim.2.1

theorem Sim.of_none {st : EncoderState} {tap : TapState} {r : Rest} (sim : Sim st none tap r)
    (next : Option Op) : Sim st next tap r := by
  cases st with
  | tlr => exact sim
  | rti => exact sim
  | pause =>
    rcases sim.1 with paused | ⟨_, more⟩
    · exact ⟨Or.inl paused, sim.2⟩
    · cases more
  | preShift => cases sim.2.1
  | inShift => cases sim.2.1

/-! ### Emitters -/

theorem reset_from {tap : TapState} (quiet : ∀ c, tap ≠ .shift c) (n : Nat) :
    tap.trace (hold true (zeros (n + 5))) = [] ∧ tap.clock (hold true (zeros (n + 5))) = .tlr := by
  have split : hold true (zeros (n + 5)) = hold true (zeros 5) ++ hold true (zeros n) := by
    rw [← hold_append, zeros, zeros, zeros, ← List.replicate_add, Nat.add_comm]
  have five : tap.trace (hold true (zeros 5)) = [] ∧ tap.clock (hold true (zeros 5)) = .tlr := by
    cases tap with
    | shift c => exact (quiet c rfl).elim
    | _ => exact ⟨rfl, rfl⟩
  rw [split, trace_append, clock_append, five.1, five.2]
  exact ⟨trace_tlr_hold _, clock_tlr_hold _⟩

theorem idle_from (tap : TapState) (r : Rest)
    (start : tap = .tlr ∧ r.inReset = true ∨ (tap = .rti ∨ ∃ c, tap = .update c) ∧ r.inReset = false)
    (n : Nat) :
    tap.trace (hold false (zeros n)) = r.idles n ∧
      tap.clock (hold false (zeros n)) = if n = 0 then tap else .rti := by
  cases n with
  | zero => exact ⟨rfl, rfl⟩
  | succ n =>
    have tail : tap.next false = .rti ∧ tap.events (false, false) =
        (if r.inReset then [.leaveReset] else []) ++ [.idle] := by
      rcases start with ⟨rfl, reset⟩ | ⟨rfl | ⟨c, rfl⟩, running⟩
      · rw [reset]; exact ⟨rfl, rfl⟩
      · rw [running]; exact ⟨rfl, rfl⟩
      · rw [running]; exact ⟨rfl, rfl⟩
    have first : hold false (zeros (n + 1)) = (false, false) :: hold false (zeros n) := rfl
    rw [first, trace_cons, clock_cons, tail.1, tail.2, trace_rti_hold, clock_rti_hold]
    refine ⟨?_, rfl⟩
    rw [List.append_assoc, zeros, List.length_replicate]
    rfl

theorem emitRun_sim {st : EncoderState} {tap : TapState} {r : Rest} {n : Nat}
    (sim : Sim st (some (.run n)) tap r) (next : Option Op) :
    tap.trace (emitRun st n).2 = r.idles n ∧
      Sim (emitRun st n).1 next (tap.clock (emitRun st n).2) (r.after (.run n)) := by
  cases st with
  | tlr =>
    obtain ⟨rfl, reset⟩ := sim
    obtain ⟨traced, reached⟩ := idle_from .tlr r (Or.inl ⟨rfl, reset⟩) n
    simp only [emitRun, reduceCtorEq, if_false, List.nil_append, clocks_zeros, traced, reached, true_and]
    cases n with
    | zero => exact ⟨rfl, reset⟩
    | succ n => exact ⟨Or.inl rfl, rfl⟩
  | rti =>
    obtain ⟨traced, reached⟩ := idle_from tap r (Or.inr sim) n
    simp only [emitRun, reduceCtorEq, if_false, false_and, List.nil_append, clocks_zeros, traced, reached, true_and]
    cases n with
    | zero => exact sim
    | succ n => exact ⟨Or.inl rfl, rfl⟩
  | pause =>
    obtain ⟨at', running⟩ := sim
    -- From Pause and from Capture, two clocks of TMS high lead to Update.
    have exit : tap.trace (clocks (ofNat 0b11 2) (zeros 2)) = [] ∧
        tap.clock (clocks (ofNat 0b11 2) (zeros 2)) = .update r.column := by
      rcases at' with rfl | ⟨rfl, _⟩ <;> exact ⟨rfl, rfl⟩
    obtain ⟨traced, reached⟩ :=
      idle_from (.update r.column) r (Or.inr ⟨Or.inr ⟨_, rfl⟩, running⟩) n
    simp only [emitRun, if_true, trace_append, clock_append, exit.1, exit.2, clocks_zeros, traced, reached,
      List.nil_append, true_and]
    cases n with
    | zero => exact ⟨Or.inr ⟨_, rfl⟩, running⟩
    | succ n => exact ⟨Or.inl rfl, rfl⟩
  | preShift => cases sim.2.1
  | inShift => cases sim.2.1

theorem emitCaptureExit_sim (c : Column) (next : Option Op) :
    (TapState.capture c).trace (emitCaptureExit next).2 = [] ∧
      Sim (emitCaptureExit next).1 next ((TapState.capture c).clock (emitCaptureExit next).2) ⟨false, c⟩ := by
  cases next with
  | none => exact ⟨rfl, Or.inl rfl, rfl⟩
  | some op =>
    cases op with
    | shift s => exact ⟨rfl, rfl, rfl, rfl⟩
    | run n => exact ⟨rfl, Or.inr ⟨rfl, rfl⟩, rfl⟩
    | captureDr => exact ⟨rfl, Or.inr ⟨rfl, rfl⟩, rfl⟩
    | captureIr => exact ⟨rfl, Or.inr ⟨rfl, rfl⟩, rfl⟩
    | _ => exact ⟨rfl, Or.inl rfl, rfl⟩

def columnOf (ir : Bool) : Column := if ir then .ir else .dr

theorem emitEnterCapture_sim {st : EncoderState} {tap : TapState} {r : Rest} {op : Op} {ir : Bool}
    {enter : List Tck} (sim : Sim st (some op) tap r) (h : emitEnterCapture st ir = .ok enter) :
    tap.trace enter = r.capture (columnOf ir) ∧ tap.clock enter = .capture (columnOf ir) := by
  cases st with
  | tlr =>
    obtain ⟨rfl, reset⟩ := sim
    cases ir <;> cases h <;> rw [Rest.capture, reset] <;> exact ⟨rfl, rfl⟩
  | rti =>
    obtain ⟨rfl | ⟨c, rfl⟩, running⟩ := sim <;>
      cases ir <;> cases h <;> rw [Rest.capture, running] <;> exact ⟨rfl, rfl⟩
  | pause =>
    obtain ⟨rfl | ⟨rfl, _⟩, running⟩ := sim <;>
      cases ir <;> cases h <;> rw [Rest.capture, running] <;> exact ⟨rfl, rfl⟩
  | preShift => cases ir <;> cases h
  | inShift => cases ir <;> cases h

theorem emitCapture_sim {st st' : EncoderState} {tap : TapState} {r : Rest} {op : Op} {ir : Bool}
    {next : Option Op} {piece : Piece} (sim : Sim st (some op) tap r)
    (h : emitCapture st ir next = (st', .ok piece)) :
    tap.trace piece.bits = r.capture (columnOf ir) ∧ piece.slots = [] ∧
      Sim st' next (tap.clock piece.bits) ⟨false, columnOf ir⟩ := by
  unfold emitCapture at h
  split at h
  · cases h
  · rename_i enter entered
    obtain ⟨traced, reached⟩ := emitEnterCapture_sim sim entered
    obtain ⟨silent, exited⟩ := emitCaptureExit_sim (columnOf ir) next
    simp only [Prod.mk.injEq, Except.ok.injEq] at h
    obtain ⟨rfl, rfl⟩ := h
    rw [trace_append, clock_append, traced, reached, silent, List.append_nil]
    exact ⟨rfl, rfl, exited⟩

/-! ### Shifts -/

/-- The bits a Shift really clocks. An empty Shift is entered all the same, and
its exit edge clocks one bit unless another Shift follows. -/
def clocked (s : Shift) (next : Option Op) : BitString :=
  if s.tdi = [] ∧ isShift next = false then [false] else s.tdi

theorem clocked_of_ne_nil {s : Shift} (payload : s.tdi ≠ []) (next : Option Op) :
    clocked s next = s.tdi := if_neg fun h => payload h.1

def shiftBits (s : Shift) (next : Option Op) : List Tck :=
  if isShift next then hold false s.tdi
  else hold false (clocked s next).dropLast ++ [(true, (clocked s next).getLastD false), (false, false)]

def shiftExit (next : Option Op) : EncoderState := if isShift next then .inShift else .pause

theorem exitShift_body (s : Shift) (next : Option Op) (last : Bool) (payload : s.tdi.getLast? = some last) :
    exitShift next last false =
      (shiftExit next, (shiftBits s next).drop (s.tdi.length - 1)) ∧
    clocks (zeros (s.tdi.length - 1)) s.tdi.dropLast = (shiftBits s next).take (s.tdi.length - 1) := by
  obtain ⟨init, same⟩ := List.getLast?_eq_some_iff.mp payload
  have nonempty : s.tdi ≠ [] := by rw [same]; simp
  have length : s.tdi.length - 1 = (hold false init).length := by rw [same, length_hold]; simp
  rw [clocks_body, length]
  cases following : isShift next with
  | true =>
    simp only [exitShift, shiftExit, shiftBits, following, if_true, same, hold_append, List.drop_left,
      List.take_left, List.dropLast_concat]
    exact ⟨rfl, trivial⟩
  | false =>
    simp only [exitShift, shiftExit, shiftBits, following, Bool.false_eq_true, if_false,
      clocked_of_ne_nil nonempty, same, List.dropLast_concat, List.getLastD_concat, List.drop_left,
      List.take_left]
    exact ⟨rfl, trivial⟩

theorem exitShift_empty (s : Shift) (next : Option Op) (empty : s.tdi = []) :
    exitShift next false true = (shiftExit next, shiftBits s next) := by
  cases following : isShift next <;>
    simp only [exitShift, shiftExit, shiftBits, clocked, following, empty] <;> rfl

theorem emitShift_cases {st st' : EncoderState} {offset : Nat} {s : Shift} {next : Option Op} {piece : Piece}
    (h : emitShift st offset s next = (st', .ok piece)) :
    ∃ entry, emitEnterShift st = .ok entry ∧ (s.postRun ≠ 0 → isShift next = false) ∧
      piece.bits = entry ++ shiftBits s next ++ (emitPostRun (shiftExit next) s.postRun).2 ∧
      piece.slots = (if s.tdi = [] then [] else [(s, offset + entry.length)]) ∧
      st' = (emitPostRun (shiftExit next) s.postRun).1 := by
  unfold emitShift at h
  split at h
  · cases h
  · rename_i entry entered
    split at h
    · cases h
    · rename_i allowed
      refine ⟨entry, entered, fun trailing => ?_, ?_⟩
      · exact Bool.eq_false_iff.mpr fun following => allowed ⟨trailing, following⟩
      · split at h
        · rename_i empty
          have empty : s.tdi = [] := List.getLast?_eq_none_iff.mp empty
          simp only [exitShift_empty s next empty, Prod.mk.injEq, Except.ok.injEq] at h
          obtain ⟨rfl, rfl⟩ := h
          rw [if_pos empty]
          exact ⟨rfl, rfl, rfl⟩
        · rename_i last payload
          obtain ⟨exited, body⟩ := exitShift_body s next last payload
          have nonempty : s.tdi ≠ [] := by rintro same; rw [same] at payload; cases payload
          simp only [exited, body, Prod.mk.injEq, Except.ok.injEq] at h
          obtain ⟨rfl, rfl⟩ := h
          rw [if_neg nonempty]
          exact ⟨by rw [List.append_assoc entry, List.take_append_drop], rfl, rfl⟩

theorem emitEnterShift_sim {st : EncoderState} {tap : TapState} {r : Rest} {s : Shift} {entry : List Tck}
    (sim : Sim st (some (.shift s)) tap r) (h : emitEnterShift st = .ok entry) :
    tap.trace entry = [] ∧ tap.clock entry = .shift r.column ∧ r.inReset = false := by
  cases st with
  | tlr => cases h
  | rti => cases h
  | pause =>
    cases h
    obtain ⟨rfl | ⟨_, more⟩, running⟩ := sim
    · exact ⟨rfl, rfl, running⟩
    · cases more
  | preShift =>
    cases h
    obtain ⟨rfl, _, running⟩ := sim
    exact ⟨rfl, rfl, running⟩
  | inShift =>
    cases h
    obtain ⟨rfl, _, running⟩ := sim
    exact ⟨rfl, rfl, running⟩

theorem shiftBits_sim (c : Column) (s : Shift) (next : Option Op) :
    (TapState.shift c).trace (shiftBits s next) = (clocked s next).map (.shift c) ∧
      (TapState.shift c).clock (shiftBits s next) = if isShift next then .shift c else .pause c := by
  cases following : isShift next with
  | true =>
    have same : clocked s next = s.tdi := if_neg fun h => by rw [h.2] at following; cases following
    simp only [shiftBits, following, if_true, same]
    exact ⟨trace_shift_hold c _, clock_shift_hold c _⟩
  | false =>
    have nonempty : clocked s next ≠ [] := by
      unfold clocked
      split
      · simp
      · rename_i payload
        exact fun empty => payload ⟨empty, following⟩
    obtain ⟨init, last, same⟩ := List.eq_nil_or_concat (clocked s next) |>.resolve_left nonempty
    simp only [shiftBits, following, Bool.false_eq_true, if_false, same, List.concat_eq_append,
      List.dropLast_concat, List.getLastD_concat, trace_append, clock_append, trace_shift_hold,
      clock_shift_hold, List.map_append]
    exact ⟨rfl, rfl⟩

theorem emitPostRun_sim {next : Option Op} {r : Rest} {n : Nat} (running : r.inReset = false)
    (allowed : n ≠ 0 → isShift next = false) :
    let tap := if isShift next then TapState.shift r.column else .pause r.column
    tap.trace (emitPostRun (shiftExit next) n).2 = List.replicate n .idle ∧
      Sim (emitPostRun (shiftExit next) n).1 next (tap.clock (emitPostRun (shiftExit next) n).2) r := by
  cases n with
  | zero =>
    cases following : isShift next with
    | true =>
      simp only [shiftExit, following, if_true]
      exact ⟨rfl, rfl, following, running⟩
    | false =>
      simp only [shiftExit, following, Bool.false_eq_true, if_false]
      exact ⟨rfl, Or.inl rfl, running⟩
  | succ n =>
    have following := allowed (Nat.succ_ne_zero n)
    simp only [shiftExit, following, emitPostRun, Bool.false_eq_true, if_false]
    have sim : Sim .pause (some (.run (n + 1))) (.pause r.column) r := ⟨Or.inl rfl, running⟩
    obtain ⟨traced, reached⟩ := emitRun_sim sim next
    have same : r.after (.run (n + 1)) = r := by
      show Rest.mk false r.column = r
      rw [← running]
    rw [same] at reached
    rw [if_pos (Nat.succ_ne_zero n), traced, Rest.idles, running]
    exact ⟨rfl, reached⟩

theorem emitShift_sim {st st' : EncoderState} {tap : TapState} {r : Rest} {offset : Nat} {s : Shift}
    {next : Option Op} {piece : Piece} (sim : Sim st (some (.shift s)) tap r)
    (h : emitShift st offset s next = (st', .ok piece)) :
    tap.trace piece.bits = (clocked s next).map (.shift r.column) ++ List.replicate s.postRun .idle ∧
      Sim st' next (tap.clock piece.bits) r := by
  obtain ⟨entry, entered, allowed, bits, _, rfl⟩ := emitShift_cases h
  obtain ⟨silent, reached, running⟩ := emitEnterShift_sim sim entered
  obtain ⟨shifted, left⟩ := shiftBits_sim r.column s next
  obtain ⟨idled, sim⟩ := emitPostRun_sim running allowed
  simp only [bits, trace_append, clock_append, silent, reached, shifted, left, idled]
  exact ⟨rfl, sim⟩

def encodedEvents (r : Rest) (op : Op) (next : Option Op) : List TapEvent :=
  match op with
  | .shift s => (clocked s next).map (.shift r.column) ++ List.replicate s.postRun .idle
  | op => r.events op

theorem encodedEvents_scan {op : Op} (scan : op.Scan) (r : Rest) (next : Option Op) :
    encodedEvents r op next = r.events op := by
  cases op with
  | shift s => simp only [encodedEvents, clocked_of_ne_nil scan, Rest.events]
  | _ => rfl

/-- One operation of a batch: its events, and the simulation handed to the next. -/
theorem emitOp_sim {st st' : EncoderState} {tap : TapState} {r : Rest} {offset : Nat} {op : Op}
    {next : Option Op} {piece : Piece} (sim : Sim st (some op) tap r) (known : op ≠ .swdToJtag)
    (h : emitOp st offset op next = (st', .ok piece)) :
    tap.trace piece.bits = encodedEvents r op next ∧ Sim st' next (tap.clock piece.bits) (r.after op) := by
  cases op with
  | reset count =>
    cases h
    have quiet : ∀ c, tap ≠ .shift c := by
      intro c same
      subst same
      cases st <;> simp [Sim, isShift] at sim
    have pattern : clocks (resetTms count) (zeros (resetTms count).length) =
        hold true (zeros (max count 5 - 5 + 5)) := by
      rw [resetTms, clocks_ones, Nat.sub_add_cancel (Nat.le_max_right ..)]
    obtain ⟨traced, reached⟩ := reset_from quiet (max count 5 - 5)
    show tap.trace (clocks _ _) = [] ∧ Sim .tlr next (tap.clock (clocks _ _)) _
    rw [pattern, traced, reached]
    exact ⟨rfl, rfl, rfl⟩
  | swdToJtag => exact (known rfl).elim
  | run n =>
    cases h
    exact emitRun_sim sim next
  | captureDr =>
    obtain ⟨traced, _, sim⟩ := emitCapture_sim sim h
    exact ⟨traced, sim⟩
  | captureIr =>
    obtain ⟨traced, _, sim⟩ := emitCapture_sim sim h
    exact ⟨traced, sim⟩
  | shift s => exact emitShift_sim sim h
  | other name => cases h

/-! ### Batches -/

def encodedOpEvents (r : Rest) : List Op → List (List TapEvent)
  | [] => []
  | op :: ops => encodedEvents r op ops.head? :: encodedOpEvents (r.after op) ops

theorem encodedOpEvents_scan {ops : List Op} (scan : ∀ op ∈ ops, op.Scan) (r : Rest) :
    encodedOpEvents r ops = r.opEvents ops := by
  induction ops generalizing r with
  | nil => rfl
  | cons op ops ih =>
    rw [encodedOpEvents, Rest.opEvents, encodedEvents_scan (scan op List.mem_cons_self),
      ih fun op member => scan op (List.mem_cons_of_mem _ member)]

theorem emitOps_cons {st st' : EncoderState} {offset : Nat} {op : Op} {ops : List Op} {pieces : List Piece}
    (h : emitOps st offset (op :: ops) = (st', .ok pieces)) :
    ∃ st₁ piece rest, emitOp st offset op ops.head? = (st₁, .ok piece) ∧
      emitOps st₁ (offset + piece.bits.length) ops = (st', .ok rest) ∧ pieces = piece :: rest := by
  unfold emitOps at h
  split at h
  · cases h
  · rename_i st₁ piece emitted
    split at h
    · cases h
    · rename_i rest following
      cases h
      exact ⟨_, _, _, emitted, following, rfl⟩

theorem emitOps_sim {st st' : EncoderState} {tap : TapState} {r : Rest} {offset : Nat} {ops : List Op}
    {pieces : List Piece} (sim : Sim st ops.head? tap r) (known : .swdToJtag ∉ ops)
    (h : emitOps st offset ops = (st', .ok pieces)) :
    tap.traces (pieces.map Piece.bits) = encodedOpEvents r ops ∧
      Sim st' none (tap.clock (pieces.map Piece.bits).flatten) (r.afterAll ops) := by
  induction ops generalizing st tap r offset pieces with
  | nil =>
    cases h
    exact ⟨rfl, sim⟩
  | cons op ops ih =>
    obtain ⟨st₁, piece, rest, emitted, following, rfl⟩ := emitOps_cons h
    simp only [List.mem_cons, not_or] at known
    obtain ⟨traced, sim⟩ := emitOp_sim sim (Ne.symm known.1) emitted
    obtain ⟨traces, final⟩ := ih sim known.2 following
    refine ⟨?_, ?_⟩
    · simp only [List.map_cons, TapState.traces, traced, traces, encodedOpEvents]
    · rw [List.map_cons, List.flatten_cons, clock_append]
      exact final

/-! ### Acceptance -/

def Accepts (st : EncoderState) (ops : List Op) : Prop :=
  ∀ offset, ∃ st' pieces, emitOps st offset ops = (st', .ok pieces)

theorem accepts_cons {st st₁ : EncoderState} {op : Op} {ops : List Op}
    (head : ∀ offset, ∃ piece, emitOp st offset op ops.head? = (st₁, .ok piece)) (tail : Accepts st₁ ops) :
    Accepts st (op :: ops) := by
  intro offset
  obtain ⟨piece, emitted⟩ := head offset
  obtain ⟨st', pieces, following⟩ := tail (offset + piece.bits.length)
  exact ⟨st', piece :: pieces, by simp only [emitOps, emitted, following]⟩

theorem emitCapture_accepted {st : EncoderState} (rest : st = .tlr ∨ st = .rti ∨ st = .pause) (ir : Bool)
    (next : Option Op) : ∃ piece, emitCapture st ir next = ((emitCaptureExit next).1, .ok piece) := by
  rcases rest with rfl | rfl | rfl <;> cases ir <;> exact ⟨_, rfl⟩

theorem emitShift_accepted {st : EncoderState} (s : Shift) (next : Option Op)
    (entered : st = .pause ∨ st = .preShift ∨ st = .inShift) (allowed : s.postRun ≠ 0 → isShift next = false)
    (offset : Nat) :
    ∃ piece, emitShift st offset s next = ((emitPostRun (shiftExit next) s.postRun).1, .ok piece) := by
  obtain ⟨entry, enters⟩ : ∃ entry, emitEnterShift st = .ok entry := by
    rcases entered with rfl | rfl | rfl <;> exact ⟨_, rfl⟩
  have quiet : ¬ (s.postRun ≠ 0 ∧ isShift next = true) := by
    rintro ⟨trailing, following⟩
    rw [allowed trailing] at following
    cases following
  simp only [emitShift, enters, if_neg quiet]
  cases payload : s.tdi.getLast? with
  | none =>
    simp only [exitShift_empty s next (List.getLast?_eq_none_iff.mp payload)]
    exact ⟨_, rfl⟩
  | some last =>
    simp only [(exitShift_body s next last payload).1]
    exact ⟨_, rfl⟩

/-! ### Slots -/

/-- At the offset of its slot, the stream holds the bits of a Shift and the
controller shifts them in column `sc.2`. -/
def SlotHolds (tap : TapState) (bits : List Tck) (sc : Shift × Column) (slot : Shift × Nat) : Prop :=
  slot.1 = sc.1 ∧ slice (bits.map Prod.snd) slot.2 (slot.2 + sc.1.tdi.length) = sc.1.tdi ∧
    (tap.clock (bits.take slot.2)).trace ((bits.drop slot.2).take sc.1.tdi.length) =
      sc.1.tdi.map (.shift sc.2)

theorem shiftBits_payload (c : Column) {s : Shift} (payload : s.tdi ≠ []) (next : Option Op) :
    ∃ bits exit, shiftBits s next = bits ++ exit ∧ bits.map Prod.snd = s.tdi ∧
      (TapState.shift c).trace bits = s.tdi.map (.shift c) := by
  cases following : isShift next with
  | true =>
    refine ⟨hold false s.tdi, [], ?_, ?_, trace_shift_hold c _⟩
    · rw [shiftBits, if_pos following, List.append_nil]
    · rw [hold, List.map_map]
      exact List.map_id _
  | false =>
    obtain ⟨init, last, same⟩ := List.eq_nil_or_concat s.tdi |>.resolve_left payload
    rw [List.concat_eq_append] at same
    refine ⟨hold false init ++ [(true, last)], [(false, false)], ?_, ?_, ?_⟩
    · simp only [shiftBits, following, Bool.false_eq_true, if_false, clocked_of_ne_nil payload, same,
        List.dropLast_concat, List.getLastD_concat, List.append_assoc]
      rfl
    · rw [List.map_append, hold, List.map_map, same]
      exact congrArg (· ++ [last]) (List.map_id _)
    · rw [trace_append, trace_shift_hold, clock_shift_hold, same, List.map_append]
      rfl

theorem slotHolds_of_split {tap : TapState} {pre payload post : List Tck} {sc : Shift × Column}
    (bits : payload.map Prod.snd = sc.1.tdi)
    (traced : (tap.clock pre).trace payload = sc.1.tdi.map (.shift sc.2)) :
    SlotHolds tap (pre ++ payload ++ post) sc (sc.1, pre.length) := by
  have length : sc.1.tdi.length = payload.length := by rw [← bits, List.length_map]
  refine ⟨rfl, ?_, ?_⟩
  · rw [slice, ← List.map_take, ← List.map_drop, length, ← List.length_append, List.take_left,
      List.drop_left, bits]
  · rw [List.append_assoc, List.take_left, List.drop_left, length, List.take_left, traced]

theorem emitOp_slots {st st' : EncoderState} (tap : TapState) {r : Rest} (pre post : List Tck) {op : Op}
    {next : Option Op} {piece : Piece} (sim : Sim st (some op) (tap.clock pre) r) (scan : op.Scan)
    (h : emitOp st pre.length op next = (st', .ok piece)) :
    List.Forall₂ (SlotHolds tap (pre ++ piece.bits ++ post)) (r.shifts [op]) piece.slots := by
  cases op with
  | reset count => cases h; exact .nil
  | swdToJtag => exact scan.elim
  | run n => cases h; exact .nil
  | captureDr =>
    obtain ⟨_, empty, _⟩ := emitCapture_sim sim h
    rw [empty]
    exact .nil
  | captureIr =>
    obtain ⟨_, empty, _⟩ := emitCapture_sim sim h
    rw [empty]
    exact .nil
  | shift s =>
    obtain ⟨entry, entered, _, bits, slots, _⟩ := emitShift_cases h
    obtain ⟨_, reached, _⟩ := emitEnterShift_sim sim entered
    obtain ⟨payload, exit, split, carried, traced⟩ := shiftBits_payload r.column scan next
    have stream : pre ++ piece.bits ++ post =
        (pre ++ entry) ++ payload ++ (exit ++ (emitPostRun (shiftExit next) s.postRun).2 ++ post) := by
      simp only [bits, split, List.append_assoc]
    rw [slots, if_neg scan, stream, ← List.length_append]
    refine .cons (slotHolds_of_split carried ?_) .nil
    rw [clock_append, reached, traced]
  | other name => exact scan.elim

theorem shifts_cons (r : Rest) (op : Op) (ops : List Op) :
    r.shifts (op :: ops) = r.shifts [op] ++ (r.after op).shifts ops := by
  cases op <;> rfl

theorem emitOps_slots {st st' : EncoderState} (tap : TapState) {r : Rest} (pre : List Tck)
    {ops : List Op} {pieces : List Piece} (sim : Sim st ops.head? (tap.clock pre) r)
    (scan : ∀ op ∈ ops, op.Scan) (h : emitOps st pre.length ops = (st', .ok pieces)) :
    List.Forall₂ (SlotHolds tap (pre ++ (pieces.map Piece.bits).flatten)) (r.shifts ops)
      (pieces.map Piece.slots).flatten := by
  induction ops generalizing st r pre pieces with
  | nil => cases h; exact .nil
  | cons op ops ih =>
    obtain ⟨st₁, piece, rest, emitted, following, rfl⟩ := emitOps_cons h
    have here := scan op List.mem_cons_self
    have known : op ≠ .swdToJtag := by rintro rfl; exact here
    obtain ⟨_, next⟩ := emitOp_sim sim known emitted
    rw [← List.length_append] at following
    rw [← clock_append] at next
    have tail := ih (pre ++ piece.bits) next (fun op member => scan op (List.mem_cons_of_mem _ member)) following
    have head := emitOp_slots tap pre (rest.map Piece.bits).flatten sim here emitted
    rw [shifts_cons, List.map_cons, List.map_cons, List.flatten_cons, List.flatten_cons, ← List.append_assoc]
    exact List.rel_append head tail

/-! ### Calls -/

theorem stream_ofPieces (pieces : List Piece) :
    (Output.ofPieces pieces).stream = (pieces.map Piece.bits).flatten := by
  simp only [Output.stream, Output.ofPieces]
  exact List.zip_map' .. |>.trans (List.map_id _)

structure CallRefines (tap : TapState) (r : Rest) (ops : List Op) (out : Output) : Prop where
  events : tap.trace out.stream = (r.opEvents ops).flatten
  slots : List.Forall₂ (SlotHolds tap out.stream) (r.shifts ops) out.slots
  lengths : out.tms.length = out.tdi.length

theorem encode_ok {st st' : EncoderState} {ops : List Op} {out : Output}
    (h : encode st ops = (st', .ok out)) :
    ∃ pieces, emitOps st 0 ops = (st', .ok pieces) ∧ out = Output.ofPieces pieces := by
  unfold encode at h
  split at h
  · cases h
  · rename_i pieces emitted
    cases h
    exact ⟨_, emitted, rfl⟩

theorem encode_refines {st st' : EncoderState} {tap : TapState} {r : Rest} {ops : List Op} {out : Output}
    (sim : Sim st none tap r) (scan : ∀ op ∈ ops, op.Scan) (h : encode st ops = (st', .ok out)) :
    CallRefines tap r ops out ∧ Sim st' none (tap.clock out.stream) (r.afterAll ops) := by
  obtain ⟨pieces, emitted, rfl⟩ := encode_ok h
  have known : Op.swdToJtag ∉ ops := fun member => scan _ member
  obtain ⟨traced, final⟩ := emitOps_sim (sim.of_none ops.head?) known emitted
  rw [stream_ofPieces]
  refine ⟨⟨?_, ?_, ?_⟩, final⟩
  · rw [stream_ofPieces, ← flatten_traces, traced, encodedOpEvents_scan scan]
  · rw [stream_ofPieces]
    exact emitOps_slots tap [] (sim.of_none ops.head?) scan emitted
  · simp only [Output.ofPieces, List.length_map]

/-- Every call of a sequence refines its operations and leaves the encoder in
step with the controller. -/
def CallsRefine (st : EncoderState) (tap : TapState) (r : Rest) : List (List Op) → Prop
  | [] => True
  | ops :: calls => ∃ st' out, encode st ops = (st', .ok out) ∧ CallRefines tap r ops out ∧
      Agrees st' (tap.clock out.stream) ∧ CallsRefine st' (tap.clock out.stream) (r.afterAll ops) calls

theorem encodeCalls_cons {st st' : EncoderState} {ops : List Op} {calls : List (List Op)}
    {outs : List Output} (h : encodeCalls st (ops :: calls) = (st', .ok outs)) :
    ∃ st₁ out rest, encode st ops = (st₁, .ok out) ∧ encodeCalls st₁ calls = (st', .ok rest) ∧
      outs = out :: rest := by
  unfold encodeCalls at h
  split at h
  · cases h
  · rename_i st₁ out encoded
    split at h
    · cases h
    · rename_i rest following
      cases h
      exact ⟨_, _, _, encoded, following, rfl⟩

theorem encodeCalls_sim {st st' : EncoderState} {tap : TapState} {r : Rest} {calls : List (List Op)}
    {outs : List Output} (sim : Sim st none tap r) (scan : ∀ ops ∈ calls, ∀ op ∈ ops, op.Scan)
    (h : encodeCalls st calls = (st', .ok outs)) :
    tap.trace (outs.map Output.stream).flatten = (r.opEvents calls.flatten).flatten ∧
      CallsRefine st tap r calls ∧ Agrees st' (tap.clock (outs.map Output.stream).flatten) := by
  induction calls generalizing st tap r outs with
  | nil =>
    cases h
    exact ⟨rfl, trivial, sim.agrees⟩
  | cons ops calls ih =>
    obtain ⟨st₁, out, rest, encoded, following, rfl⟩ := encodeCalls_cons h
    obtain ⟨refined, next⟩ := encode_refines sim (scan ops List.mem_cons_self) encoded
    obtain ⟨traced, refine', agrees⟩ :=
      ih next (fun ops member => scan ops (List.mem_cons_of_mem _ member)) following
    refine ⟨?_, ⟨_, _, encoded, refined, next.agrees, refine'⟩, ?_⟩
    · rw [List.map_cons, List.flatten_cons, List.flatten_cons, trace_append, refined.events, traced,
        Rest.opEvents_append, List.flatten_append]
    · rw [List.map_cons, List.flatten_cons, clock_append]
      exact agrees

/-- Over any sequence of calls that does not raise, the concatenated streams take the
controller through exactly the events the operations ask for, every slot points at its Shift, and
each call ends with the encoder in step with the controller. -/
theorem encodeCalls_refines {st st' : EncoderState} {tap : TapState} {calls : List (List Op)}
    {outs : List Output} (agrees : Agrees st tap) (scan : ∀ ops ∈ calls, ∀ op ∈ ops, op.Scan)
    (accepted : encodeCalls st calls = (st', .ok outs)) :
    tap.trace (outs.map Output.stream).flatten = ((restOf tap).opEvents calls.flatten).flatten ∧
      CallsRefine st tap (restOf tap) calls ∧ Agrees st' (tap.clock (outs.map Output.stream).flatten) :=
  encodeCalls_sim (agrees.sim none) scan accepted

/-- A scan continued by a second call, after a reset. -/
theorem encodeCalls_refines_split :
    let calls := [[Op.reset 5, .captureIr, .shift { tdi := [true, false] }],
      [.shift { tdi := [true], postRun := 2 }, .run 1]]
    ∃ outs, encodeCalls .tlr calls = (.rti, .ok outs) ∧
      TapState.tlr.trace (outs.map Output.stream).flatten = ((restOf .tlr).opEvents calls.flatten).flatten ∧
      CallsRefine .tlr .tlr (restOf .tlr) calls ∧
      Agrees .rti (TapState.tlr.clock (outs.map Output.stream).flatten) :=
  ⟨_, rfl, encodeCalls_refines rfl (by decide) rfl⟩

end Acrobe.Jtag.Encoder
