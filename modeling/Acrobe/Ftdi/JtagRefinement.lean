import Acrobe.Ftdi.Jtag
import Acrobe.Jtag.EncoderRefinement

/-!
# The lowering of `JtagMpsse` against that of `JtagOpEncoder`

Operation by operation, both take the controller through the same events,
except for the idle clocks of some Runs and of every `post_run`.
-/

namespace Acrobe.Ftdi
open Jtag BitString TapState

/-! ### The clocks of the emitters -/

theorem clocks_shiftTms (pins : Tck) (bits : BitString) (short : bits.length ≤ 7) (tdi read : Bool) :
    (Cmd.shiftTms (toNat bits) bits.length tdi read).clocks pins = bits.map fun tms => (tms, tdi) := by
  have fits : toNat bits < 0x80 := calc
    toNat bits < 2 ^ bits.length := toNat_lt bits
    _ ≤ 2 ^ 7 := Nat.pow_le_pow_right (by decide) short
  rw [Cmd.clocks, Nat.mod_eq_of_lt fits, ofNat_toNat]

theorem emitTmsPattern_chunk {tms : BitString} (some : tms ≠ []) :
    emitTmsPattern tms =
      .shiftTms (toNat (tms.take 7)) (tms.take 7).length :: emitTmsPattern (tms.drop 7) := by
  have pos := List.length_pos_iff.mpr some
  have count : (tms.length + 6) / 7 = ((tms.drop 7).length + 6) / 7 + 1 := by
    rw [List.length_drop]
    omega
  rw [emitTmsPattern, count, List.range_succ_eq_map, List.map_cons, List.map_map]
  congr 1
  · have first : slice tms 0 (min 7 tms.length) = tms.take 7 := (List.take_eq_take_min).symm
    simp [first]
  · refine List.map_congr_left fun k _ => ?_
    have shifted : slice tms (7 * (k + 1)) (7 * (k + 1) + min 7 (tms.length - 7 * (k + 1))) =
        slice (tms.drop 7) (7 * k) (7 * k + min 7 ((tms.drop 7).length - 7 * k)) := by
      rw [slice, slice, List.take_drop, List.drop_drop, List.length_drop]
      congr 2 <;> omega
    simp only [Function.comp_apply, Nat.succ_eq_add_one, shifted, List.length_drop]
    congr 1
    omega

theorem stream_emitTmsPattern (pins : Tck) (tms : BitString) :
    stream pins (emitTmsPattern tms) = tms.map fun tms => (tms, false) := by
  induction length : tms.length using Nat.strongRecOn generalizing pins tms with
  | ind n ih =>
    by_cases some : tms = []
    · subst some
      rfl
    · have pos := List.length_pos_iff.mpr some
      rw [emitTmsPattern_chunk some, stream, clocks_shiftTms _ _ (List.length_take_le 7 tms),
        ih _ (by rw [← length, List.length_drop]; omega) _ (tms.drop 7) rfl, ← List.map_append, List.take_append_drop]

theorem getLastD_replicate (pins : Tck) (n : Nat) : (List.replicate n pins).getLastD pins = pins := by
  cases n with
  | zero => rfl
  | succ n => simp [List.getLastD_eq_getLast?, List.replicate_succ']

theorem stream_emitIdleInRti (pins : Tck) (n : Nat) : stream pins (emitIdleInRti n) = List.replicate n pins := by
  induction n using Nat.strongRecOn with
  | ind n ih =>
    rw [emitIdleInRti]
    split
    · rename_i long
      obtain ⟨least, most, whole, _⟩ := byteChunk_bounds long
      rw [stream, Cmd.clocks, getLastD_replicate, ih _ (by omega), ← List.replicate_add]
      congr 1
      omega
    · split
      · simp [stream, Cmd.clocks]
      · rename_i zero
        rw [not_not.mp zero]
        rfl

theorem slice_append {bits : BitString} {i j k : Nat} (h : i ≤ j) (h' : j ≤ k) (inside : k ≤ bits.length) :
    slice bits i j ++ slice bits j k = slice bits i k := by
  have split : bits.take k = bits.take j ++ (bits.take k).drop j := by
    conv_lhs => rw [← List.take_append_drop j (bits.take k), List.take_take, Nat.min_eq_left h']
  have reach : i ≤ (bits.take j).length := by
    rw [List.length_take]
    omega
  rw [slice, slice, slice, ← List.drop_append_of_le_length reach, ← split]

theorem length_slice {bits : BitString} {i j : Nat} (h : j ≤ bits.length) : (slice bits i j).length = j - i := by
  rw [slice, List.length_drop, List.length_take, Nat.min_eq_left h]

theorem fst_getLastD_hold (tms : Bool) (tdi : BitString) (pins : Tck) (same : pins.1 = tms) :
    ((hold tms tdi).getLastD pins).1 = tms := by
  rcases List.eq_nil_or_concat tdi with rfl | ⟨init, last, rfl⟩
  · exact same
  · simp [hold, List.getLastD_eq_getLast?]

theorem stream_emitBody (read : Bool) (tdi : BitString) (pins : Tck) (low : pins.1 = false) (offset left : Nat)
    (inside : offset + left ≤ tdi.length) :
    stream pins (emitBody read tdi offset left) = hold false (slice tdi offset (offset + left)) := by
  induction left using Nat.strongRecOn generalizing pins offset with
  | ind left ih =>
    rw [emitBody]
    split
    · rename_i long
      obtain ⟨least, most, whole, _⟩ := byteChunk_bounds long
      rw [stream, Cmd.clocks, low, ih _ (by omega) _ (fst_getLastD_hold _ _ _ low) _ (by omega), hold, hold, hold,
        ← List.map_append, show offset + byteChunk left + (left - byteChunk left) = offset + left by omega,
        slice_append (by omega) (by omega) inside]
    · split
      · rename_i short some
        have length : (slice tdi offset (offset + left)).length = left := by
          rw [length_slice inside, Nat.add_sub_cancel_left]
        have fits : toNat (slice tdi offset (offset + left)) < 0x100 := calc
          _ < 2 ^ (slice tdi offset (offset + left)).length := toNat_lt _
          _ ≤ 2 ^ 8 := Nat.pow_le_pow_right (by decide) (by omega)
        have carried := ofNat_toNat (slice tdi offset (offset + left))
        rw [length] at carried
        rw [stream, stream, List.append_nil, Cmd.clocks, Nat.mod_eq_of_lt fits, carried, low]
      · rename_i none
        rw [Nat.eq_zero_of_not_pos none, Nat.add_zero, slice, List.drop_of_length_le (List.length_take_le _ _)]
        rfl

/-! ### The constructors' checks -/

theorem emitTmsPattern_valid (tms : BitString) : ∀ cmd ∈ emitTmsPattern tms, cmd.Valid := by
  intro cmd member
  obtain ⟨k, below, rfl⟩ := List.mem_map.mp member
  have := List.mem_range.mp below
  show 1 ≤ min 7 (tms.length - 7 * k) ∧ min 7 (tms.length - 7 * k) ≤ 8
  omega

theorem emitIdleInRti_valid (n : Nat) : ∀ cmd ∈ emitIdleInRti n, cmd.Valid := by
  induction n using Nat.strongRecOn with
  | ind n ih =>
    rw [emitIdleInRti]
    split
    · rename_i long
      obtain ⟨least, most, whole, fits⟩ := byteChunk_bounds long
      exact List.forall_mem_cons.mpr ⟨⟨by omega, fits⟩, ih _ (by omega)⟩
    · split
      · rename_i short some
        exact List.forall_mem_singleton.mpr ⟨by omega, by omega⟩
      · simp

theorem emitBody_valid (read : Bool) (tdi : BitString) (offset left : Nat) (inside : offset + left ≤ tdi.length) :
    ∀ cmd ∈ emitBody read tdi offset left, cmd.Valid := by
  induction left using Nat.strongRecOn generalizing offset with
  | ind left ih =>
    rw [emitBody]
    split
    · rename_i long
      obtain ⟨least, most, whole, fits⟩ := byteChunk_bounds long
      refine List.forall_mem_cons.mpr ⟨?_, ih _ (by omega) _ (by omega)⟩
      have length : (slice tdi offset (offset + byteChunk left)).length = byteChunk left := by
        rw [length_slice (by omega), Nat.add_sub_cancel_left]
      show _ % 8 = 0 ∧ 1 ≤ _ / 8 ∧ _ / 8 ≤ 65536
      rw [length]
      omega
    · split
      · exact List.forall_mem_singleton.mpr ⟨by omega, by omega⟩
      · simp

@[simp] theorem valid_shiftTms (data count : Nat) (tdi read : Bool) :
    (Cmd.shiftTms data count tdi read).Valid ↔ 1 ≤ count ∧ count ≤ 8 := Iff.rfl

theorem lowerOp_valid {st st' : State} {op : Op} {preLen : Nat} {segment : Segment}
    (h : lowerOp st preLen op = (st', .ok segment)) : ∀ cmd ∈ segment.cmds, cmd.Valid := by
  have idle := emitIdleInRti_valid
  cases op with
  | reset count => cases h; exact emitTmsPattern_valid _
  | swdToJtag => cases h; exact emitTmsPattern_valid _
  | run n =>
    have same : segment = { cmds := (emitRun st n).2 } := by cases h; rfl
    rw [same]
    cases st with
    | unknown => simp [emitRun]
    | pause => exact List.forall_mem_cons.mpr ⟨by simp, List.forall_mem_cons.mpr ⟨by simp, idle _⟩⟩
    | _ => exact List.forall_mem_cons.mpr ⟨by simp, idle _⟩
  | captureDr => cases st <;> cases h <;> simp
  | captureIr => cases st <;> cases h <;> simp
  | shift s =>
    have body := emitBody_valid s.readTdo s.tdi 0 (s.tdi.length - 1) (by omega)
    simp only [lowerOp, emitShift] at h
    split at h
    · cases h
    · split at h
      · cases h
        split
        · exact List.forall_mem_cons.mpr ⟨by simp, idle _⟩
        · simp
      · cases h
        refine List.forall_mem_cons.mpr ⟨by simp, List.forall_mem_append.mpr ⟨?_, ?_⟩⟩
        · exact List.forall_mem_append.mpr ⟨body, by simp⟩
        · split
          · exact List.forall_mem_cons.mpr ⟨by simp, idle _⟩
          · simp
  | other name => cases h; simp

theorem run_valid : ∃ segment, lowerOp .pause 0 (.run 9) = (.rti, .ok segment) ∧ ∀ cmd ∈ segment.cmds, cmd.Valid :=
  ⟨_, rfl, @lowerOp_valid .pause _ (.run 9) 0 _ rfl⟩

/-! ### One operation -/

/-- The adapter between two operations, against the controller and the account
of what was asked so far. -/
def Sim (st : State) (tap : TapState) (r : Rest) : Prop :=
  match st with
  | .unknown => (∀ c, tap ≠ .shift c) ∧ r.inReset = true
  | .reset => tap = .tlr ∧ r.inReset = true
  | .rti => (tap = .rti ∨ ∃ c, tap = .update c) ∧ r.inReset = false
  | .pause => tap = .pause r.column ∧ r.inReset = false

/-- The operation the adapter really performs: the clock that enters
Run-Test/Idle is not counted, and a Run in the unknown state is a reset and one clock. -/
def performed (st : State) : Op → Op
  | .run n => .run (if st = .unknown then 1 else max n 1)
  | .shift s => .shift { s with postRun := if s.postRun = 0 then 0 else s.postRun + 1 }
  | op => op

theorem stream_enterRti (pins : Tck) (n : Nat) :
    stream pins (.shiftTms 0b0 1 :: emitIdleInRti n) = hold false (zeros (n + 1)) := by
  rw [stream, stream_emitIdleInRti, hold, zeros, List.map_replicate, List.replicate_succ]
  rfl

theorem emitRun_sim {st : State} {tap : TapState} {r : Rest} (pins : Tck) (n : Nat) (sim : Sim st tap r) :
    tap.trace (stream pins (emitRun st n).2) = r.events (performed st (.run n)) ∧
      Sim (emitRun st n).1 (tap.clock (stream pins (emitRun st n).2)) (r.after (performed st (.run n))) := by
  have count : max n 1 = n - 1 + 1 := by omega
  cases st with
  | unknown =>
    obtain ⟨outside, reset⟩ := sim
    obtain ⟨traced, reached⟩ := Encoder.reset_from outside 0
    have split : stream pins (emitRun .unknown n).2 = hold true (zeros 5) ++ [(false, false)] := rfl
    rw [split, trace_append, clock_append, traced, reached]
    refine ⟨?_, Or.inl rfl, rfl⟩
    simp only [performed, Rest.events, Rest.idles, reset]
    rfl
  | reset =>
    obtain ⟨traced, reached⟩ := Encoder.idle_from tap r (Or.inl sim) (n - 1 + 1)
    have lowered : stream pins (emitRun .reset n).2 = hold false (zeros (n - 1 + 1)) := stream_enterRti pins _
    simp only [performed, reduceCtorEq, if_false, count, lowered]
    rw [reached]
    exact ⟨traced, Or.inl rfl, rfl⟩
  | rti =>
    obtain ⟨traced, reached⟩ := Encoder.idle_from tap r (Or.inr sim) (n - 1 + 1)
    have lowered : stream pins (emitRun .rti n).2 = hold false (zeros (n - 1 + 1)) := stream_enterRti pins _
    simp only [performed, reduceCtorEq, if_false, count, lowered]
    rw [reached]
    exact ⟨traced, Or.inl rfl, rfl⟩
  | pause =>
    obtain ⟨rfl, running⟩ := sim
    obtain ⟨traced, reached⟩ :=
      Encoder.idle_from (.update r.column) r (Or.inr ⟨Or.inr ⟨_, rfl⟩, running⟩) (n - 1 + 1)
    have lowered : stream pins (emitRun .pause n).2 =
        [(true, false), (true, false)] ++ hold false (zeros (n - 1 + 1)) :=
      congrArg ([(true, false), (true, false)] ++ ·) (stream_enterRti _ _)
    have left : (TapState.pause r.column).clock [(true, false), (true, false)] = .update r.column := rfl
    simp only [performed, reduceCtorEq, if_false, count, lowered]
    rw [trace_append, clock_append, left, reached]
    exact ⟨traced, Or.inl rfl, rfl⟩

theorem emitCapture_sim {st st' : State} {tap : TapState} {r : Rest} {segment : Segment} (pins : Tck) {name : String}
    {path : Cmd} {c : Column} (sim : Sim st tap r) (h : emitCapture name path st = (st', .ok segment))
    (walks : ∀ (pins : Tck) (tap : TapState), (tap = .rti ∨ ∃ c, tap = .update c) →
      tap.trace (path.clocks pins) = [.capture c] ∧ tap.clock (path.clocks pins) = .pause c) :
    tap.trace (stream pins segment.cmds) = r.capture c ∧
      Sim st' (tap.clock (stream pins segment.cmds)) ⟨false, c⟩ := by
  cases st with
  | unknown => cases h
  | reset => cases h
  | rti =>
    cases h
    obtain ⟨traced, reached⟩ := walks pins tap sim.1
    simp only [stream, List.append_nil, traced, reached, Rest.capture, sim.2]
    exact ⟨rfl, rfl, rfl⟩
  | pause =>
    cases h
    obtain ⟨rfl, running⟩ := sim
    obtain ⟨traced, reached⟩ := walks (true, false) (.update r.column) (.inr ⟨_, rfl⟩)
    have split : stream pins [.shiftTms 0b11 2, path] =
        [(true, false), (true, false)] ++ path.clocks (true, false) :=
      congrArg ([(true, false), (true, false)] ++ ·) (List.append_nil _)
    have left : (TapState.pause r.column).clock [(true, false), (true, false)] = .update r.column := rfl
    rw [split, trace_append, clock_append, left, traced, reached, Rest.capture, running]
    exact ⟨rfl, rfl, rfl⟩

def shiftExit (postRun : Nat) : List Tck :=
  if postRun = 0 then [(false, false)] else (true, false) :: hold false (zeros (postRun + 1))

theorem stream_shiftExit (pins : Tck) (postRun : Nat) :
    stream pins (if postRun ≠ 0 then .shiftTms 0b01 2 :: emitIdleInRti postRun else [.shiftTms 0b0 1]) =
      shiftExit postRun := by
  rw [shiftExit]
  by_cases none : postRun = 0
  · rw [if_neg (not_not.mpr none), if_pos none]
    rfl
  · rw [if_pos none, if_neg none, stream, stream_emitIdleInRti, hold, zeros, List.map_replicate, List.replicate_succ]
    rfl

theorem stream_emitShift {st' : State} {op : Shift} {preLen : Nat} {segment : Segment} (pins : Tck)
    {init : BitString} {last : Bool} (payload : op.tdi = init ++ [last])
    (h : emitShift .pause preLen op = (st', .ok segment)) :
    stream pins segment.cmds =
        [(true, false), (false, false)] ++ (hold false init ++ ([(true, last)] ++ shiftExit op.postRun)) ∧
      st' = if op.postRun ≠ 0 then .rti else .pause := by
  have final : op.tdi.getLast? = some last := by rw [payload, List.getLast?_concat]
  simp only [emitShift, ne_eq, not_true_eq_false, if_false, final, Prod.mk.injEq, Except.ok.injEq] at h
  obtain ⟨rfl, rfl⟩ := h
  have init' : slice op.tdi 0 (0 + (op.tdi.length - 1)) = init := by
    rw [payload, slice, List.length_append, List.length_singleton, Nat.zero_add, Nat.add_sub_cancel, List.take_left]
    rfl
  have entry : ∀ cmds, stream pins (.shiftTms 0b01 2 :: cmds) =
      [(true, false), (false, false)] ++ stream (false, false) cmds := fun _ => rfl
  have exit : ∀ pins cmds, stream pins (.shiftTms 0b1 1 last op.readTdo :: cmds) =
      [(true, last)] ++ stream (true, last) cmds := fun _ _ => rfl
  rw [entry, List.append_assoc, stream_append, stream_emitBody _ _ _ rfl _ _ (by omega), init', List.singleton_append,
    exit, stream_shiftExit]
  exact ⟨rfl, rfl⟩

theorem shiftExit_sim (r : Rest) (running : r.inReset = false) (postRun : Nat) :
    (TapState.exit1 r.column).trace (shiftExit postRun) =
        List.replicate (if postRun = 0 then 0 else postRun + 1) .idle ∧
      Sim (if postRun ≠ 0 then .rti else .pause) ((TapState.exit1 r.column).clock (shiftExit postRun)) r := by
  rw [shiftExit]
  by_cases none : postRun = 0
  · simp only [none, if_true, ne_eq, not_true_eq_false, if_false]
    exact ⟨rfl, rfl, running⟩
  · simp only [none, if_false, ne_eq, not_false_eq_true, if_true]
    rw [trace_cons, clock_cons]
    obtain ⟨traced, reached⟩ :=
      Encoder.idle_from (.update r.column) r (Or.inr ⟨Or.inr ⟨_, rfl⟩, running⟩) (postRun + 1)
    rw [show (TapState.exit1 r.column).next true = .update r.column from rfl, traced, reached]
    refine ⟨?_, Or.inl rfl, running⟩
    rw [Rest.idles, running]
    rfl

theorem emitShift_sim {st st' : State} {tap : TapState} {r : Rest} {op : Shift} {preLen : Nat} {segment : Segment}
    (pins : Tck) (sim : Sim st tap r) (payload : op.tdi ≠ []) (h : emitShift st preLen op = (st', .ok segment)) :
    tap.trace (stream pins segment.cmds) = r.events (performed st (.shift op)) ∧
      Sim st' (tap.clock (stream pins segment.cmds)) r := by
  have paused : st = .pause := by
    by_contra other
    rw [emitShift, if_pos other] at h
    cases h
  subst paused
  obtain ⟨rfl, running⟩ := sim
  obtain ⟨init, last, same⟩ := List.eq_nil_or_concat op.tdi |>.resolve_left payload
  rw [List.concat_eq_append] at same
  obtain ⟨clocked, rfl⟩ := stream_emitShift pins same h
  obtain ⟨traced, sim'⟩ := shiftExit_sim r running op.postRun
  have entered : (TapState.pause r.column).clock [(true, false), (false, false)] = .shift r.column := rfl
  have left : (TapState.shift r.column).clock [(true, last)] = .exit1 r.column := rfl
  simp only [clocked, trace_append, clock_append, entered, trace_shift_hold, clock_shift_hold, left, traced]
  refine ⟨?_, sim'⟩
  simp only [performed, Rest.events, same, List.map_append, List.append_assoc]
  rfl

theorem lowerOp_sim {st st' : State} {tap : TapState} {r : Rest} {op : Op} {preLen : Nat} {segment : Segment}
    (pins : Tck) (sim : Sim st tap r) (scan : op.Scan) (h : lowerOp st preLen op = (st', .ok segment)) :
    tap.trace (stream pins segment.cmds) = r.events (performed st op) ∧
      Sim st' (tap.clock (stream pins segment.cmds)) (r.after (performed st op)) := by
  cases op with
  | reset count =>
    cases h
    have outside : ∀ c, tap ≠ .shift c := by
      rintro c rfl
      cases st <;> simp [Sim] at sim
    obtain ⟨traced, reached⟩ := Encoder.reset_from outside (max count 5 - 5)
    have lowered : stream pins (emitTmsPattern (resetTms count)) = hold true (zeros (max count 5 - 5 + 5)) := by
      rw [stream_emitTmsPattern, resetTms, ones, hold, zeros, List.map_replicate, List.map_replicate,
        Nat.sub_add_cancel (Nat.le_max_right ..)]
    simp only [lowered, traced, reached]
    exact ⟨rfl, rfl, rfl⟩
  | swdToJtag => exact scan.elim
  | run n =>
    cases h
    exact emitRun_sim pins n sim
  | captureDr =>
    refine emitCapture_sim pins sim h fun pins tap start => ?_
    rcases start with rfl | ⟨c, rfl⟩ <;> exact ⟨rfl, rfl⟩
  | captureIr =>
    refine emitCapture_sim pins sim h fun pins tap start => ?_
    rcases start with rfl | ⟨c, rfl⟩ <;> exact ⟨rfl, rfl⟩
  | shift s => exact emitShift_sim pins sim scan h
  | other name => exact scan.elim

/-! ### Where the lowering is exact -/

theorem idles_inj {r : Rest} {m n : Nat} (same : r.idles m = r.idles n) : m = n := by
  have lengths := congrArg List.length same
  cases m <;> cases n <;> simp [Rest.idles] at lengths <;> omega

theorem events_performed_iff (st : State) (r : Rest) (op : Op) :
    r.events (performed st op) = r.events op ↔ performed st op = op := by
  refine ⟨fun same => ?_, fun same => by rw [same]⟩
  cases op with
  | run n => exact congrArg Op.run (idles_inj same)
  | shift s =>
    have count := congrArg List.length (List.append_cancel_left same)
    rw [List.length_replicate, List.length_replicate] at count
    obtain ⟨tdi, readTdo, postRun⟩ := s
    exact congrArg (fun n => Op.shift ⟨tdi, readTdo, n⟩) count
  | _ => rfl

/-- No run of no clock, no trailing idle on a Shift. -/
def Exact : Op → Prop
  | .run n => n ≠ 0
  | .shift s => s.postRun = 0
  | _ => True

/-- A Run that finds the adapter in its initial state asks for one clock. -/
def ExactFrom (st : State) (ops : List Op) : Prop :=
  (∀ op ∈ ops, Exact op) ∧ (st = .unknown → ∀ n, ops.head? = some (.run n) → n = 1)

theorem performed_eq_iff (st : State) (op : Op) :
    performed st op = op ↔ Exact op ∧ (st = .unknown → ∀ n, op = .run n → n = 1) := by
  cases op with
  | run n =>
    simp only [performed, Exact, Op.run.injEq]
    by_cases fresh : st = .unknown
    · simp only [fresh, if_true, true_implies, forall_eq']
      omega
    · simp only [fresh, if_false, false_implies, and_true]
      omega
  | shift s =>
    obtain ⟨tdi, readTdo, postRun⟩ := s
    simp only [performed, Exact, Op.shift.injEq, Shift.mk.injEq, true_and, reduceCtorEq, false_implies, implies_true,
      and_true]
    by_cases none : postRun = 0
    · simp [none]
    · simp [none]
  | _ => simp [performed, Exact]

theorem exactFrom_cons {st st' : State} (known : st' ≠ .unknown) (op : Op) (ops : List Op) :
    ExactFrom st (op :: ops) ↔ performed st op = op ∧ ExactFrom st' ops := by
  simp only [performed_eq_iff, ExactFrom, List.forall_mem_cons, List.head?_cons, Option.some.injEq, known,
    false_implies, and_true]
  tauto

theorem lowerOp_known {st st' : State} {op : Op} {preLen : Nat} {segment : Segment} (scan : op.Scan)
    (h : lowerOp st preLen op = (st', .ok segment)) : st' ≠ .unknown := by
  rintro rfl
  cases op with
  | reset count => cases h
  | swdToJtag => exact scan
  | run n => cases st <;> cases h
  | captureDr => cases st <;> cases h
  | captureIr => cases st <;> cases h
  | shift s =>
    simp only [lowerOp, emitShift] at h
    split at h
    · cases h
    · split at h <;> split at h <;> cases h
  | other name => exact scan

/-! ### Batches -/

inductive Lowers : State → List Op → State → List Segment → Prop
  | nil (st : State) : Lowers st [] st []
  | cons {st st₁ st' : State} {preLen : Nat} {op : Op} {ops : List Op} {segment : Segment} {segments : List Segment} :
      lowerOp st preLen op = (st₁, .ok segment) → Lowers st₁ ops st' segments →
      Lowers st (op :: ops) st' (segment :: segments)

theorem Lowers.append {st st₁ st' : State} {xs ys : List Op} {first rest : List Segment}
    (head : Lowers st xs st₁ first) (tail : Lowers st₁ ys st' rest) : Lowers st (xs ++ ys) st' (first ++ rest) := by
  induction head with
  | nil => exact tail
  | cons lowered _ ih => exact .cons lowered (ih tail)

theorem lowers_of_lower {st st' : State} {preLen : Nat} {ops : List Op} {segments : List Segment}
    (h : lower st preLen ops = (st', .ok segments)) : Lowers st ops st' segments := by
  induction ops generalizing st preLen segments with
  | nil =>
    cases h
    exact .nil _
  | cons op ops ih =>
    unfold lower at h
    split at h
    · cases h
    · rename_i lowered
      split at h
      · cases h
      · rename_i following
        cases h
        exact .cons lowered (ih following)

theorem lowers_of_lowerCalls {st st' : State} {calls : List (List Op)} {segments : List Segment}
    (h : lowerCalls st calls = (st', .ok segments)) : Lowers st calls.flatten st' segments := by
  induction calls generalizing st segments with
  | nil =>
    cases h
    exact .nil _
  | cons ops calls ih =>
    unfold lowerCalls at h
    split at h
    · cases h
    · rename_i lowered
      split at h
      · cases h
      · rename_i following
        cases h
        exact (lowers_of_lower lowered).append (ih following)

/-- Operation by operation, the events are those asked for exactly when every
operation is lowered exactly. -/
theorem lowers_traces_iff {st st' : State} {tap : TapState} {r : Rest} {ops : List Op} {segments : List Segment}
    (pins : Tck) (sim : Sim st tap r) (scan : ∀ op ∈ ops, op.Scan) (lowers : Lowers st ops st' segments) :
    tap.traces (streams pins (segments.map Segment.cmds)) = r.opEvents ops ↔ ExactFrom st ops := by
  induction lowers generalizing tap r pins with
  | nil st => simp [TapState.traces, streams, Rest.opEvents, ExactFrom]
  | @cons st st₁ st' preLen op ops segment segments lowered rest ih =>
    have here := scan op List.mem_cons_self
    obtain ⟨traced, next⟩ := lowerOp_sim pins sim here lowered
    rw [exactFrom_cons (lowerOp_known here lowered), List.map_cons, streams, TapState.traces, Rest.opEvents,
      List.cons.injEq, traced, events_performed_iff]
    refine and_congr_right fun exact => ?_
    rw [exact] at next
    exact ih _ next fun op member => scan op (List.mem_cons_of_mem _ member)

/-! ### Against the encoder -/

def pieceCalls (st : EncoderState) : List (List Op) → EncoderState × Except PyErr (List Encoder.Piece)
  | [] => (st, .ok [])
  | ops :: calls =>
    match Encoder.emitOps st 0 ops with
    | (st, .error e) => (st, .error e)
    | (st, .ok pieces) =>
      match pieceCalls st calls with
      | (st, .error e) => (st, .error e)
      | (st, .ok rest) => (st, .ok (pieces ++ rest))

theorem pieceCalls_of_encodeCalls {st st' : EncoderState} {calls : List (List Op)} {outs : List Encoder.Output}
    (h : Encoder.encodeCalls st calls = (st', .ok outs)) :
    ∃ pieces, pieceCalls st calls = (st', .ok pieces) ∧
      (outs.map Encoder.Output.stream).flatten = (pieces.map Encoder.Piece.bits).flatten := by
  induction calls generalizing st outs with
  | nil =>
    cases h
    exact ⟨[], rfl, rfl⟩
  | cons ops calls ih =>
    obtain ⟨st₁, out, rest, encoded, following, rfl⟩ := Encoder.encodeCalls_cons h
    obtain ⟨first, emitted, rfl⟩ := Encoder.encode_ok encoded
    obtain ⟨others, pieced, same⟩ := ih following
    refine ⟨first ++ others, by simp only [pieceCalls, emitted, pieced], ?_⟩
    rw [List.map_cons, List.flatten_cons, same, Encoder.stream_ofPieces, List.map_append, List.flatten_append]

theorem traces_append (tap : TapState) (xs ys : List (List Tck)) :
    tap.traces (xs ++ ys) = tap.traces xs ++ (tap.clock xs.flatten).traces ys := by
  induction xs generalizing tap with
  | nil => rfl
  | cons bits xs ih => rw [List.cons_append, TapState.traces, TapState.traces, ih, List.flatten_cons, clock_append,
      List.cons_append]

theorem pieceCalls_traces {st st' : EncoderState} {tap : TapState} {r : Rest} {calls : List (List Op)}
    {pieces : List Encoder.Piece} (sim : Encoder.Sim st none tap r) (scan : ∀ op ∈ calls.flatten, op.Scan)
    (h : pieceCalls st calls = (st', .ok pieces)) :
    tap.traces (pieces.map Encoder.Piece.bits) = r.opEvents calls.flatten := by
  induction calls generalizing st tap r pieces with
  | nil =>
    cases h
    rfl
  | cons ops calls ih =>
    unfold pieceCalls at h
    split at h
    · cases h
    · rename_i first emitted
      split at h
      · cases h
      · rename_i rest following
        cases h
        rw [List.flatten_cons] at scan
        have here : ∀ op ∈ ops, op.Scan := fun op member => scan op (List.mem_append_left _ member)
        have known : Op.swdToJtag ∉ ops := fun member => here _ member
        obtain ⟨traced, next⟩ := Encoder.emitOps_sim (sim.of_none ops.head?) known emitted
        have later := ih next (fun op member => scan op (List.mem_append_right _ member)) following
        rw [List.map_append, traces_append, traced, later, Encoder.encodedOpEvents_scan here, List.flatten_cons,
          Rest.opEvents_append]

/-- Both lowerings at rest on the same controller. In its initial state the
adapter may find the controller anywhere outside Shift, and the encoder in Test-Logic-Reset. -/
def Paired (st : State) (tap : TapState) (est : EncoderState) (etap : TapState) : Prop :=
  match st with
  | .unknown => (∀ c, tap ≠ .shift c) ∧ est = .tlr ∧ etap = .tlr
  | .reset => tap = .tlr ∧ est = .tlr ∧ etap = tap
  | .rti => (tap = .rti ∨ ∃ c, tap = .update c) ∧ est = .rti ∧ etap = tap
  | .pause => (∃ c, tap = .pause c) ∧ est = .pause ∧ etap = tap

theorem Paired.sims {st : State} {tap etap : TapState} {est : EncoderState} (paired : Paired st tap est etap) :
    Sim st tap (Encoder.restOf etap) ∧ Encoder.Sim est none etap (Encoder.restOf etap) := by
  have agrees : Encoder.Agrees est etap := by
    cases st with
    | unknown => obtain ⟨_, rfl, rfl⟩ := paired; rfl
    | reset => obtain ⟨rfl, rfl, rfl⟩ := paired; rfl
    | rti => obtain ⟨start, rfl, rfl⟩ := paired; exact start
    | pause => obtain ⟨start, rfl, rfl⟩ := paired; exact start
  refine ⟨?_, agrees.sim none⟩
  cases st with
  | unknown => obtain ⟨outside, rfl, rfl⟩ := paired; exact ⟨outside, rfl⟩
  | reset => obtain ⟨rfl, rfl, rfl⟩ := paired; exact ⟨rfl, rfl⟩
  | rti => obtain ⟨rfl | ⟨c, rfl⟩, rfl, rfl⟩ := paired <;> exact ⟨by simp, rfl⟩
  | pause => obtain ⟨⟨c, rfl⟩, rfl, rfl⟩ := paired; exact ⟨rfl, rfl⟩

/-- Over batches both accept, every operation takes the controller through the
events it goes through behind the encoder exactly when the operations are lowered exactly. -/
theorem lowerCalls_agrees_iff {st st' : State} {tap etap : TapState} {est est' : EncoderState}
    {calls : List (List Op)} {segments : List Segment} {outs : List Encoder.Output} (pins : Tck)
    (paired : Paired st tap est etap) (scan : ∀ ops ∈ calls, ∀ op ∈ ops, op.Scan)
    (lowered : lowerCalls st calls = (st', .ok segments))
    (encoded : Encoder.encodeCalls est calls = (est', .ok outs)) :
    ∃ pieces, pieceCalls est calls = (est', .ok pieces) ∧
      (outs.map Encoder.Output.stream).flatten = (pieces.map Encoder.Piece.bits).flatten ∧
      (tap.traces (streams pins (segments.map Segment.cmds)) = etap.traces (pieces.map Encoder.Piece.bits) ↔
        ExactFrom st calls.flatten) := by
  obtain ⟨pieces, pieced, streamed⟩ := pieceCalls_of_encodeCalls encoded
  obtain ⟨sim, esim⟩ := paired.sims
  have scan' : ∀ op ∈ calls.flatten, op.Scan := by
    intro op member
    obtain ⟨ops, among, member⟩ := List.mem_flatten.mp member
    exact scan ops among op member
  refine ⟨pieces, pieced, streamed, ?_⟩
  rw [pieceCalls_traces esim scan' pieced]
  exact lowers_traces_iff pins sim scan' (lowers_of_lowerCalls lowered)

/-- A reset, three idle clocks and a scan over two batches. -/
theorem lowerCalls_agrees_scan :
    let calls := [[Op.reset 5, .run 3, .captureDr], [.shift { tdi := [true, false] }]]
    ∃ segments pieces, lowerCalls .unknown calls = (.pause, .ok segments) ∧
      pieceCalls .tlr calls = (.pause, .ok pieces) ∧
      TapState.rti.traces (streams (true, true) (segments.map Segment.cmds)) =
        TapState.tlr.traces (pieces.map Encoder.Piece.bits) := by
  intro calls
  have paired : Paired .unknown .rti .tlr .tlr := ⟨by simp, rfl, rfl⟩
  have lowered : lowerCalls .unknown calls = (.pause, .ok
      [{ cmds := [.shiftTms 0b11111 5] }, { cmds := [.shiftTms 0b0 1, .clockBits 2] }, { cmds := [.shiftTms 0b0101 4] },
       { cmds := [.shiftTms 0b01 2, .shiftBits 1 1 true, .shiftTms 0b1 1 false true, .shiftTms 0b0 1],
         tdo := some (1, 3) }]) := by
    simp [calls, lowerCalls, lower, lowerOp, emitRun, emitIdleInRti, emitCaptureDr, emitCapture, emitShift, emitBody]
    decide
  have encoded : Encoder.encodeCalls .tlr calls = (.pause, .ok _) := rfl
  obtain ⟨pieces, pieced, _, agrees⟩ :=
    lowerCalls_agrees_iff (true, true) paired (by decide) lowered encoded
  refine ⟨_, pieces, lowered, pieced, agrees.mpr ⟨?_, ?_⟩⟩
  · simp [calls, Exact]
  · simp [calls]

/-- Two trailing idle clocks are lowered as three. -/
theorem lowerCalls_extra_idle :
    let calls := [[Op.reset 5, .run 1, .captureDr, .shift { tdi := [true], postRun := 2 }]]
    ∃ segments pieces, lowerCalls .unknown calls = (.rti, .ok segments) ∧
      pieceCalls .tlr calls = (.rti, .ok pieces) ∧
      TapState.tlr.traces (streams (false, false) (segments.map Segment.cmds)) =
        [[], [.leaveReset, .idle], [.capture .dr], [.shift .dr true, .idle, .idle, .idle]] ∧
      TapState.tlr.traces (pieces.map Encoder.Piece.bits) =
        [[], [.leaveReset, .idle], [.capture .dr], [.shift .dr true, .idle, .idle]] := by
  intro calls
  have lowered : lowerCalls .unknown calls = (.rti, .ok
      [{ cmds := [.shiftTms 0b11111 5] }, { cmds := [.shiftTms 0b0 1] }, { cmds := [.shiftTms 0b0101 4] },
       { cmds := [.shiftTms 0b01 2, .shiftTms 0b1 1 true true, .shiftTms 0b01 2, .clockBits 2],
         tdo := some (4, 5) }]) := by
    simp [calls, lowerCalls, lower, lowerOp, emitRun, emitIdleInRti, emitCaptureDr, emitCapture, emitShift, emitBody]
    decide
  exact ⟨_, _, lowered, rfl, by decide, by decide⟩

end Acrobe.Ftdi

/-!
## Batches that `JtagMpsse` refuses

Nothing of a refused batch is posted, so the hardware stays where it was. The
adapter tracks what the commands already built would have led to.
-/

namespace Acrobe.Ftdi
open Jtag BitString

def restAfter (st : State) : Op → State
  | .reset _ | .swdToJtag => .reset
  | .run _ => .rti
  | .captureDr | .captureIr => .pause
  | .shift s => if s.postRun ≠ 0 then .rti else .pause
  | .other _ => st

/-- Captures start from Run-Test/Idle or Pause, Shifts from Pause. -/
def unlowerable (st : State) : Op → Bool
  | .captureDr | .captureIr => st = .unknown || st = .reset
  | .shift _ => st ≠ .pause
  | _ => false

/-- The first operation that cannot be lowered finds the TAP controller in `home`. -/
def FoundIn (home st : State) : List Op → Prop
  | [] => True
  | op :: ops => if unlowerable st op then st = home else FoundIn home (restAfter st op) ops

instance decidableFoundIn (home st : State) : (ops : List Op) → Decidable (FoundIn home st ops)
  | [] => .isTrue trivial
  | op :: ops =>
    have := decidableFoundIn home (restAfter st op) ops
    inferInstanceAs (Decidable (if unlowerable st op then _ else _))

theorem emitRun_state (st : State) (cycles : Nat) : (emitRun st cycles).1 = .rti := by
  by_cases unknown : st = .unknown <;> simp [emitRun, unknown]

theorem emitCapture_cases (name : String) (path : Cmd) (st : State) :
    ((st = .unknown ∨ st = .reset) ∧ ∃ e, emitCapture name path st = (st, .error e)) ∨
      (¬ (st = .unknown ∨ st = .reset) ∧ ∃ segment, emitCapture name path st = (.pause, .ok segment)) := by
  cases st with
  | unknown => exact .inl ⟨.inl rfl, _, rfl⟩
  | reset => exact .inl ⟨.inr rfl, _, rfl⟩
  | rti => exact .inr ⟨by simp, _, rfl⟩
  | pause => exact .inr ⟨by simp, _, rfl⟩

theorem emitShift_cases (st : State) (preLen : Nat) (op : Shift) :
    (st ≠ .pause ∧ ∃ e, emitShift st preLen op = (st, .error e)) ∨
      (st = .pause ∧ ∃ segment, emitShift st preLen op = (restAfter st (.shift op), .ok segment)) := by
  by_cases parked : st = .pause
  · refine .inr ⟨parked, ?_⟩
    unfold emitShift restAfter
    rw [if_neg (not_not.mpr parked)]
    split <;> exact ⟨_, rfl⟩
  · exact .inl ⟨parked, .assertionError, if_pos parked⟩

theorem lowerOp_cases (st : State) (preLen : Nat) (op : Op) :
    (unlowerable st op = true ∧ ∃ e, lowerOp st preLen op = (st, .error e)) ∨
      (unlowerable st op = false ∧ ∃ segment, lowerOp st preLen op = (restAfter st op, .ok segment)) := by
  cases op with
  | reset count => exact .inr ⟨rfl, _, rfl⟩
  | swdToJtag => exact .inr ⟨rfl, _, rfl⟩
  | run cycles =>
    have same : lowerOp st preLen (.run cycles) = ((emitRun st cycles).1, .ok { cmds := (emitRun st cycles).2 }) := rfl
    rw [emitRun_state] at same
    exact .inr ⟨rfl, _, same⟩
  | captureDr =>
    rcases emitCapture_cases "CaptureDr" (.shiftTms 0b0101 4) st with ⟨refused, failed⟩ | ⟨accepted, lowered⟩
    · exact .inl ⟨by simpa [unlowerable] using refused, failed⟩
    · exact .inr ⟨by simpa [unlowerable] using accepted, lowered⟩
  | captureIr =>
    rcases emitCapture_cases "CaptureIr" (.shiftTms 0b01011 5) st with ⟨refused, failed⟩ | ⟨accepted, lowered⟩
    · exact .inl ⟨by simpa [unlowerable] using refused, failed⟩
    · exact .inr ⟨by simpa [unlowerable] using accepted, lowered⟩
  | shift s =>
    rcases emitShift_cases st preLen s with ⟨refused, failed⟩ | ⟨accepted, lowered⟩
    · exact .inl ⟨by simpa [unlowerable] using refused, failed⟩
    · exact .inr ⟨by simpa [unlowerable] using accepted, lowered⟩
  | other typeName => exact .inr ⟨rfl, _, rfl⟩

theorem lower_error {st st' : State} (home : State) (preLen : Nat) {ops : List Op} {e : PyErr}
    (raised : lower st preLen ops = (st', .error e)) : st' = home ↔ FoundIn home st ops := by
  induction ops generalizing st preLen with
  | nil => cases raised
  | cons op ops ih =>
    unfold FoundIn
    rcases lowerOp_cases st preLen op with ⟨refused, e', failed⟩ | ⟨accepted, segment, lowered⟩
    · simp only [lower, failed, Prod.mk.injEq] at raised
      obtain ⟨rfl, _⟩ := raised
      rw [if_pos refused]
    · rw [if_neg (by simp [accepted])]
      simp only [lower, lowered] at raised
      split at raised
      · rename_i failed
        obtain ⟨rfl, rfl⟩ : _ ∧ _ := by simpa using raised
        exact ih _ failed
      · cases raised

/-- The adapter that raised tracks the state that the hardware is still in exactly when the operation
refused would have found the TAP controller there. -/
theorem lower_error_state_iff {st st' : State} {ops : List Op} {e : PyErr} (raised : lower st 0 ops = (st', .error e)) :
    st' = st ↔ FoundIn st st ops :=
  lower_error st 0 raised

theorem lower_error_state_after_reset : (lower .reset 0 [.reset 5, .captureDr]).1 = .reset :=
  (lower_error_state_iff (show lower .reset 0 [.reset 5, .captureDr] =
    (.reset, .error (.valueError "CaptureDr from unexpected state: reset")) by decide)).mpr (by decide)

/-- A Reset that was never sent is tracked. -/
theorem lower_error_tracks_reset :
    ¬ ∀ st ops st' e, lower st 0 ops = (st', .error e) → st' = st := by
  intro restored
  have failed := restored .rti [.reset 5, .captureDr] .reset (.valueError "CaptureDr from unexpected state: reset")
    (by decide)
  cases failed

end Acrobe.Ftdi
