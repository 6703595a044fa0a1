import Acrobe.Jtag.EncoderRefinement
import Acrobe.Jtag.WalkerTrace

/-!
# The walker behind the encoder

What a walker posts when it is fed the stream of an encoder. Test-Logic-Reset
is only noticed when it is left, so a Reset is posted there, once, whatever
brought the controller into that state.
-/

namespace Acrobe.Jtag
open BitString Lib

/-! ### The operations a walker posts -/

namespace Rest

def posted (r : Rest) : Op → List Op
  | .run n => (if r.inReset then [.resetDefault] else []) ++ [.run n]
  | .captureDr => (if r.inReset then [.resetDefault, .run 1] else []) ++ [.captureDr]
  | .captureIr => (if r.inReset then [.resetDefault, .run 1] else []) ++ [.captureIr]
  | .shift s => .shift { tdi := s.tdi } :: (if s.postRun = 0 then [] else [.run s.postRun])
  | _ => []

def postedOps (r : Rest) : List Op → List Op
  | [] => []
  | op :: ops => r.posted op ++ postedOps (r.after op) ops

def Walkable (op : Op) : Prop := op.Scan ∧ op ≠ .run 0

instance : DecidablePred Walkable := fun op => inferInstanceAs (Decidable (op.Scan ∧ op ≠ .run 0))

theorem posted_atoms (r : Rest) {op : Op} (walkable : Walkable op) :
    atomsOf (r.posted op) = (r.events op).map TapEvent.atom := by
  obtain ⟨inReset, column⟩ := r
  cases op with
  | reset count => rfl
  | swdToJtag => exact walkable.1.elim
  | run n =>
    obtain ⟨n, rfl⟩ := Nat.exists_eq_succ_of_ne_zero fun zero => walkable.2 (congrArg Op.run zero)
    cases inReset <;> simp [posted, atomsOf, events, idles, Op.atoms, Op.resetDefault, TapEvent.atom]
  | captureDr => cases inReset <;> rfl
  | captureIr => cases inReset <;> rfl
  | shift s =>
    by_cases none : s.postRun = 0 <;>
      simp [posted, none, atomsOf, events, Op.atoms, TapEvent.atom, Function.comp_def]
  | other name => exact walkable.1.elim

theorem posted_posted (r : Rest) {op : Op} (walkable : Walkable op) : ∀ op' ∈ r.posted op, op'.Posted := by
  obtain ⟨inReset, column⟩ := r
  cases op with
  | run n =>
    have some : n ≠ 0 := fun zero => walkable.2 (congrArg Op.run zero)
    cases inReset <;> simp [posted, Op.Posted, Op.resetDefault, some]
  | captureDr => cases inReset <;> simp [posted, Op.Posted, Op.resetDefault]
  | captureIr => cases inReset <;> simp [posted, Op.Posted, Op.resetDefault]
  | shift s =>
    have payload : s.tdi ≠ [] := walkable.1
    by_cases none : s.postRun = 0 <;> simp [posted, none, Op.Posted, payload]
  | _ => simp [posted]

theorem postedOps_atoms (r : Rest) {ops : List Op} (walkable : ∀ op ∈ ops, Walkable op) :
    atomsOf (r.postedOps ops) = (r.opEvents ops).flatten.map TapEvent.atom := by
  induction ops generalizing r with
  | nil => rfl
  | cons op ops ih =>
    have tail := ih (r.after op) fun op member => walkable op (List.mem_cons_of_mem _ member)
    rw [postedOps, opEvents, List.flatten_cons, List.map_append, ← tail,
      ← posted_atoms r (walkable op List.mem_cons_self)]
    exact List.flatMap_append

theorem postedOps_posted (r : Rest) {ops : List Op} (walkable : ∀ op ∈ ops, Walkable op) :
    ∀ op ∈ r.postedOps ops, op.Posted := by
  induction ops generalizing r with
  | nil => intro op member; cases member
  | cons op ops ih =>
    intro op' member
    rcases List.mem_append.mp member with here | later
    · exact posted_posted r (walkable op List.mem_cons_self) op' here
    · exact ih (r.after op) (fun op member => walkable op (List.mem_cons_of_mem _ member)) op' later

end Rest

def Device.result {σ : Type} (dev : Device σ) (s : σ) : Op → List BitString
  | .shift sh => [(dev.exec s (.shift sh)).2]
  | _ => []

def Device.results {σ : Type} (dev : Device σ) (s : σ) : List Op → List BitString
  | [] => []
  | op :: ops => dev.result s op ++ results dev (dev.exec s op).1 ops

namespace Encoder

section
variable {σ : Type} (dev : Device σ)

theorem results_append (s : σ) (xs ys : List Op) :
    dev.results s (xs ++ ys) = dev.results s xs ++ dev.results (dev.finish s (atomsOf xs)) ys := by
  induction xs generalizing s with
  | nil => rfl
  | cons op xs ih =>
    have device : dev.finish (dev.exec s op).1 (atomsOf xs) = dev.finish s (atomsOf (op :: xs)) :=
      (Machine.finish_append dev s op.atoms (atomsOf xs)).symm
    rw [List.cons_append, Device.results, Device.results, ih, List.append_assoc, device]

theorem results_posted (s : σ) (r : Rest) (op : Op) :
    dev.results s (r.posted op) = (r.shifts [op]).map fun sc => dev.outputs s (sc.1.tdi.map .shift) := by
  obtain ⟨inReset, column⟩ := r
  cases op with
  | shift sh =>
    by_cases none : sh.postRun = 0 <;> simp [Rest.posted, none, Device.results, Device.result, Device.exec, Rest.shifts]
  | run n => cases inReset <;> rfl
  | captureDr => cases inReset <;> rfl
  | captureIr => cases inReset <;> rfl
  | _ => rfl

/-! ### TDO at the slots -/

theorem events_outside {tap : TapState} (outside : ∀ c, tap ≠ .shift c) (t : Tck) :
    tap.events t = [] ∨ ∃ e es, tap.events t = e :: es ∧ ∀ c b, e ≠ .shift c b := by
  obtain ⟨tms, b⟩ := t
  cases tap with
  | shift c => exact (outside c rfl).elim
  | _ => cases tms <;> simp [TapState.events, TapState.next]

theorem shifts_le_clocks {tap : TapState} {bits : List Tck} {tdi : BitString} {c : Column}
    (traced : tap.trace bits = tdi.map (.shift c)) : tdi.length ≤ bits.length := by
  induction bits generalizing tap tdi with
  | nil =>
    rw [List.map_eq_nil_iff.mp traced.symm]
    exact Nat.le_refl 0
  | cons t bits ih =>
    rw [TapState.trace_cons] at traced
    by_cases inside : ∃ c', tap = .shift c'
    · obtain ⟨c', rfl⟩ := inside
      cases tdi with
      | nil => cases traced
      | cons b tdi => exact Nat.succ_le_succ (ih (List.cons.inj traced).2)
    · rcases events_outside (fun c same => inside ⟨c, same⟩) t with silent | ⟨e, es, event, other⟩
      · rw [silent, List.nil_append] at traced
        exact Nat.le_succ_of_le (ih traced)
      · rw [event] at traced
        cases tdi with
        | nil => cases traced
        | cons b tdi => exact (other c b (List.cons.inj traced).1).elim

theorem outputs_of_shifts {tap : TapState} {bits : List Tck} {tdi : BitString} {c : Column} (s : σ)
    (traced : tap.trace bits = tdi.map (.shift c)) (length : bits.length = tdi.length) :
    (clockedDevice dev).outputs (tap, s) bits = dev.outputs s (tdi.map .shift) := by
  induction bits generalizing tap s tdi with
  | nil =>
    rw [List.map_eq_nil_iff.mp traced.symm]
    rfl
  | cons t bits ih =>
    rw [TapState.trace_cons] at traced
    cases tdi with
    | nil => cases length
    | cons b tdi =>
      have lengths : bits.length = tdi.length := Nat.succ.inj length
      by_cases inside : ∃ c', tap = .shift c'
      · obtain ⟨c', rfl⟩ := inside
        obtain ⟨head, tail⟩ := List.cons.inj traced
        have same : t.2 = b := (TapEvent.shift.inj head).2
        subst same
        rw [Machine.outputs_cons, List.map_cons, Machine.outputs_cons, ← ih _ tail lengths]
        rfl
      · rcases events_outside (fun c same => inside ⟨c, same⟩) t with silent | ⟨e, es, event, other⟩
        · rw [silent, List.nil_append] at traced
          have := shifts_le_clocks traced
          rw [List.length_cons] at this
          omega
        · rw [event] at traced
          exact (other c b (List.cons.inj traced).1).elim

theorem slice_outputs {τ : Type} (M : Machine τ Tck Bool) (s : τ) (xs ys zs : List Tck) :
    slice (M.outputs s (xs ++ ys ++ zs)) xs.length (xs.length + ys.length) = M.outputs (M.finish s xs) ys := by
  rw [M.outputs_append, M.outputs_append, slice, List.take_left' (by simp), List.drop_left' (by simp)]

def SlotReads (tdo result : BitString) (slot : Shift × Nat) : Prop :=
  slice tdo slot.2 (slot.2 + slot.1.tdi.length) = result

theorem emitOp_reads {st st' : EncoderState} (tap : TapState) (s : σ) {r : Rest} (pre post : List Tck) {op : Op}
    {next : Option Op} {piece : Piece} (sim : Sim st (some op) (tap.clock pre) r) (scan : op.Scan)
    (h : emitOp st pre.length op next = (st', .ok piece)) :
    List.Forall₂ (SlotReads ((clockedDevice dev).outputs (tap, s) (pre ++ piece.bits ++ post)))
      (dev.results (dev.finish s ((tap.trace pre).map TapEvent.atom)) (r.posted op)) piece.slots := by
  rw [results_posted]
  cases op with
  | reset count => cases h; exact .nil
  | swdToJtag => exact scan.elim
  | run n => cases h; exact .nil
  | captureDr =>
    obtain ⟨_, empty, _⟩ := emitCapture_sim sim h
    rw [empty]
    exact .nil
  | captureIr =>
    obtain ⟨_, empty, _⟩ := emitCapture_sim sim h
    rw [empty]
    exact .nil
  | shift sh =>
    obtain ⟨entry, entered, _, bits, slots, _⟩ := emitShift_cases h
    obtain ⟨silent, reached, _⟩ := emitEnterShift_sim sim entered
    obtain ⟨payload, exit, split, carried, traced⟩ := shiftBits_payload r.column scan next
    have stream : pre ++ piece.bits ++ post =
        (pre ++ entry) ++ payload ++ (exit ++ (emitPostRun (shiftExit next) sh.postRun).2 ++ post) := by
      simp only [bits, split, List.append_assoc]
    have length : sh.tdi.length = payload.length := by rw [← carried, List.length_map]
    rw [slots, if_neg scan, stream, ← List.length_append]
    refine .cons ?_ .nil
    rw [SlotReads, length, slice_outputs, finish_clockedDevice, TapState.clock_append, reached,
      TapState.trace_append, silent, List.append_nil]
    exact outputs_of_shifts dev _ traced length.symm
  | other name => exact scan.elim

theorem emitOps_reads {st st' : EncoderState} (tap : TapState) (s : σ) {r : Rest} (pre : List Tck) {ops : List Op}
    {pieces : List Piece} (sim : Sim st ops.head? (tap.clock pre) r) (walkable : ∀ op ∈ ops, Rest.Walkable op)
    (h : emitOps st pre.length ops = (st', .ok pieces)) :
    List.Forall₂ (SlotReads ((clockedDevice dev).outputs (tap, s) (pre ++ (pieces.map Piece.bits).flatten)))
      (dev.results (dev.finish s ((tap.trace pre).map TapEvent.atom)) (r.postedOps ops))
      (pieces.map Piece.slots).flatten := by
  induction ops generalizing st r pre pieces with
  | nil => cases h; exact .nil
  | cons op ops ih =>
    obtain ⟨st₁, piece, rest, emitted, following, rfl⟩ := emitOps_cons h
    have here := walkable op List.mem_cons_self
    have known : op ≠ .swdToJtag := by rintro rfl; exact here.1
    obtain ⟨traced, next⟩ := emitOp_sim sim known emitted
    rw [encodedEvents_scan here.1] at traced
    rw [← List.length_append] at following
    rw [← TapState.clock_append] at next
    have tail := ih (pre ++ piece.bits) next (fun op member => walkable op (List.mem_cons_of_mem _ member)) following
    have head := emitOp_reads dev tap s pre (rest.map Piece.bits).flatten sim here.1 emitted
    rw [TapState.trace_append, traced, List.map_append, ← Rest.posted_atoms r here, Machine.finish_append] at tail
    rw [Rest.postedOps, results_append, List.map_cons, List.map_cons, List.flatten_cons, List.flatten_cons,
      ← List.append_assoc]
    exact List.rel_append head tail

/-- A walker fed by an encoder, in the matching state, posts the operations that were
encoded, up to merging and up to what it cannot see of a Reset, and returns at each slot the TDO of its Shift. -/
theorem process_encode {st st' : EncoderState} {tap : TapState} {ops : List Op} {out : Output} {w : Walker}
    (s : σ) (agrees : Agrees st tap) (matching : w.state = Walker.collapse tap)
    (walkable : ∀ op ∈ ops, Rest.Walkable op) (accepted : encode st ops = (st', .ok out)) :
    ∃ walked, Walker.process dev w s out.tms out.tdi = .ok walked ∧
      mergeOps walked.ops = mergeOps ((restOf tap).postedOps ops) ∧
      List.Forall₂ (SlotReads walked.tdo) (dev.results s ((restOf tap).postedOps ops)) out.slots := by
  obtain ⟨pieces, emitted, rfl⟩ := encode_ok accepted
  have scan : ∀ op ∈ ops, op.Scan := fun op member => (walkable op member).1
  obtain ⟨refined, _⟩ := encode_refines (agrees.sim none) scan accepted
  have events := refined.events
  rw [stream_ofPieces] at events
  obtain ⟨walked, processed, follows⟩ := Walker.process_follows dev tap s w matching (pieces.map Piece.bits).flatten
  refine ⟨walked, processed, ?_, ?_⟩
  · refine mergeOps_eq_of_atoms follows.posted (Rest.postedOps_posted _ walkable) ?_
    rw [follows.atoms, events, Rest.postedOps_atoms _ walkable]
  · rw [follows.tdo]
    exact emitOps_reads dev tap s [] ((agrees.sim none).of_none ops.head?) walkable emitted

end

def oneBit : Device Bool where
  step s
    | .shift b => (b, s)
    | _ => (s, false)

/-- A reset longer than the walker's own, an idle clock it stands for, and a Shift with its trailing idle. -/
theorem process_encode_scan :
    let ops := [Op.reset 7, .captureDr, .shift { tdi := [true, false], readTdo := false, postRun := 2 }, .run 1]
    ∃ out walked, encode .rti ops = (.rti, .ok out) ∧
      Walker.process oneBit { state := .rti } true out.tms out.tdi = .ok walked ∧
      mergeOps walked.ops = [.resetDefault, .run 1, .captureDr, .shift { tdi := [true, false] }, .run 3] ∧
      List.Forall₂ (SlotReads walked.tdo) [[true, true]] out.slots := by
  intro ops
  have accepted : encode .rti ops = (.rti, .ok _) := rfl
  have agrees : Agrees .rti .rti := .inl rfl
  have matching : ({ state := .rti } : Walker).state = Walker.collapse .rti := rfl
  have walkable : ∀ op ∈ ops, Rest.Walkable op := by decide
  obtain ⟨walked, processed, merged, reads⟩ := process_encode oneBit true agrees matching walkable accepted
  exact ⟨_, walked, accepted, processed, merged, reads⟩

/-- The operations themselves, with `post_run` as a Run, the idle clock of a
Capture issued from Test-Logic-Reset, and without trailing Resets. -/
def spelledOut (r : Rest) : List Op → List Op
  | [] => []
  | .reset count :: ops => match spelledOut (r.after (.reset count)) ops with
    | [] => []
    | rest => .reset count :: rest
  | .captureDr :: ops => (if r.inReset then [.run 1] else []) ++ .captureDr :: spelledOut (r.after .captureDr) ops
  | .captureIr :: ops => (if r.inReset then [.run 1] else []) ++ .captureIr :: spelledOut (r.after .captureIr) ops
  | .shift s :: ops => .shift { s with postRun := 0 } :: (if s.postRun = 0 then [] else [.run s.postRun]) ++
      spelledOut (r.after (.shift s)) ops
  | op :: ops => op :: spelledOut (r.after op) ops

/-- Leaving Test-Logic-Reset is posted as a Reset even when none was encoded. -/
theorem process_encode_unasked_reset :
    ∃ out walked, encode .tlr [.run 1] = (.rti, .ok out) ∧
      Walker.process oneBit { state := .tlr } false out.tms out.tdi = .ok walked ∧
      walked.ops = [.resetDefault, .run 1] ∧
      mergeOps walked.ops ≠ mergeOps (spelledOut (restOf .tlr) [.run 1]) :=
  ⟨_, _, rfl, rfl, rfl, by decide⟩

end Encoder
end Acrobe.Jtag
