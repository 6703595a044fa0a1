import Acrobe.Jtag.Walker

/-!
# What a walker posts

A call posts operations whose atoms are those of the controller clocked by the
stream, and returns the TDO of a device behind that controller. Both are
homomorphisms of the stream, so the way it is cut into calls does not matter.
-/

namespace Acrobe.Jtag.Walker
open BitString Lib

def collapse : TapState → WalkerState
  | .tlr => .tlr
  | .rti => .rti
  | .selDr => .selDr
  | .selIr => .selIr
  | .capture _ => .capture
  | .shift _ => .shift
  | .exit1 _ => .exit1
  | .pause _ => .pause
  | .exit2 _ => .exit2
  | .update _ => .update

theorem collapse_next (tap : TapState) (tms : Bool) :
    collapse (tap.next tms) = (collapse tap).next tms := by
  cases tap <;> cases tms <;> rfl

section
variable {σ : Type} (dev : Device σ)

/-- Everything seen so far has been posted: the atoms of the operations, and
the TDO the slots lay out. -/
structure Closed (s : σ) (atoms : List Atom) (tdo : BitString) (lp : Loop σ) : Prop where
  device : lp.device = dev.finish s atoms
  posted : ∀ op ∈ lp.ops, op.Posted
  atoms : atomsOf lp.ops = atoms
  reach : (gather [] 0 lp.slots).2 ≤ tdo.length
  tdo : (gather [] 0 lp.slots).1 ++ zeros (tdo.length - (gather [] 0 lp.slots).2) = tdo

theorem atomsOf_snoc (ops : List Op) (op : Op) : atomsOf (ops ++ [op]) = atomsOf ops ++ op.atoms := by
  rw [atomsOf, List.flatMap_append, List.flatMap_singleton]
  rfl

theorem Closed.post {s : σ} {atoms : List Atom} {tdo : BitString} {lp : Loop σ}
    (closed : Closed dev s atoms tdo lp) (op : Op) (posted : op.Posted) :
    Closed dev s (atoms ++ op.atoms) tdo (lp.post dev op) where
  device := by
    show dev.finish lp.device op.atoms = _
    rw [closed.device, Machine.finish_append]
  posted := by
    intro op' member
    rcases List.mem_append.mp member with old | new
    · exact closed.posted op' old
    · exact List.mem_singleton.mp new ▸ posted
  atoms := (atomsOf_snoc lp.ops op).trans (congrArg (· ++ op.atoms) closed.atoms)
  reach := closed.reach
  tdo := closed.tdo

theorem zeros_succ_sub {cursor n : Nat} (h : cursor ≤ n) :
    zeros (n + 1 - cursor) = zeros (n - cursor) ++ [false] := by
  rw [zeros, show n + 1 - cursor = (n - cursor) + 1 by omega, List.replicate_succ']
  rfl

theorem Closed.low {s : σ} {atoms : List Atom} {tdo : BitString} {lp : Loop σ}
    (closed : Closed dev s atoms tdo lp) : Closed dev s atoms (tdo ++ [false]) lp where
  device := closed.device
  posted := closed.posted
  atoms := closed.atoms
  reach := by
    have := closed.reach
    rw [List.length_append]
    omega
  tdo := by
    rw [List.length_append, List.length_singleton, zeros_succ_sub closed.reach, ← List.append_assoc, closed.tdo]

theorem gather_append (tdo : BitString) (cursor : Nat) (xs ys : List (BitString × Nat × Nat)) :
    gather tdo cursor (xs ++ ys) = gather (gather tdo cursor xs).1 (gather tdo cursor xs).2 ys := by
  induction xs generalizing tdo cursor with
  | nil => rfl
  | cons x xs ih => exact ih _ _

theorem Closed.postShift {s : σ} {atoms : List Atom} {tdo : BitString} {lp : Loop σ}
    (closed : Closed dev s atoms tdo lp) {tdi bits : BitString} {stop : Nat} (payload : bits ≠ [])
    (carried : slice tdi tdo.length stop = bits) (length : stop = tdo.length + bits.length) :
    Closed dev s (atoms ++ bits.map .shift) (tdo ++ dev.outputs lp.device (bits.map .shift))
      (lp.postShift dev tdi tdo.length stop) := by
  have posted : (Op.shift { tdi := bits }).Posted := ⟨payload, rfl, rfl⟩
  have shifted : (Op.shift { tdi := bits }).atoms = bits.map .shift := List.append_nil _
  have inner := closed.post dev _ posted
  rw [shifted] at inner
  rw [Loop.postShift, carried]
  have gathered : gather [] 0 (lp.slots ++ [((dev.exec lp.device (.shift { tdi := bits })).2, tdo.length, stop)]) =
      (tdo ++ dev.outputs lp.device (bits.map .shift), stop) := by
    rw [gather_append, gather, gather, closed.tdo]
    rfl
  have total : (tdo ++ dev.outputs lp.device (bits.map .shift)).length = stop := by
    rw [List.length_append, Machine.length_outputs, List.length_map, length]
  refine ⟨inner.device, inner.posted, inner.atoms, ?_, ?_⟩
  · apply Nat.le_of_eq
    show (gather [] 0 (_ ++ _)).2 = _
    rw [gathered, total]
  · show (gather [] 0 (_ ++ _)).1 ++ zeros (_ - (gather [] 0 (_ ++ _)).2) = _
    rw [gathered, total, Nat.sub_self]
    exact List.append_nil _

/-- The loop after the clocks `done` of a call that started with the controller
in `tap` and the device in `s`. -/
inductive Inv (tap : TapState) (s : σ) (done : List Tck) (lp : Loop σ) : Prop where
  | closed (state : lp.walker.state = collapse (tap.clock done))
      (notShift : lp.walker.state ≠ .shift) (notRti : lp.walker.state ≠ .rti)
      (closed : Closed dev s ((tap.trace done).map TapEvent.atom)
        ((clockedDevice dev).outputs (tap, s) done) lp)
  | shifting (c : Column) (state : tap.clock done = .shift c) (walker : lp.walker.state = .shift)
      (atoms : List Atom) (tdo bits : BitString) (start : lp.shiftStart = some tdo.length)
      (carried : (done.map Prod.snd).drop tdo.length = bits) (reached : tdo.length ≤ done.length)
      (closed : Closed dev s atoms tdo lp)
      (traced : (tap.trace done).map TapEvent.atom = atoms ++ bits.map .shift)
      (output : (clockedDevice dev).outputs (tap, s) done = tdo ++ dev.outputs lp.device (bits.map .shift))
  | idling (state : tap.clock done = .rti) (walker : lp.walker.state = .rti)
      (atoms : List Atom) (start : Nat) (began : lp.runStart = some start) (reached : start ≤ done.length)
      (closed : Closed dev s atoms ((clockedDevice dev).outputs (tap, s) done) lp)
      (traced : (tap.trace done).map TapEvent.atom =
        atoms ++ List.replicate (done.length - start) .idle)

theorem closed_start (s : σ) (w : Walker) : Closed dev s [] [] (start w s) :=
  ⟨rfl, by simp [start], rfl, Nat.le_refl 0, rfl⟩

theorem start_inv (tap : TapState) (s : σ) (w : Walker) (same : w.state = collapse tap) :
    Inv dev tap s [] (start w s) := by
  cases tap with
  | shift c =>
    exact .shifting c rfl same [] [] [] (if_pos same) rfl (Nat.le_refl 0) (closed_start dev s w) rfl rfl
  | rti => exact .idling rfl same [] 0 (if_pos same) (Nat.le_refl 0) (closed_start dev s w) rfl
  | _ =>
    refine .closed same ?_ ?_ (closed_start dev s w) <;> show w.state ≠ _ <;> rw [same] <;> simp [collapse]

theorem trace_snoc (tap : TapState) (done : List Tck) (t : Tck) :
    (tap.trace (done ++ [t])).map TapEvent.atom =
      (tap.trace done).map TapEvent.atom ++ ((tap.clock done).events t).map TapEvent.atom := by
  rw [TapState.trace_append, TapState.trace_cons, TapState.trace_nil, List.append_nil, List.map_append]

theorem clock_snoc (tap : TapState) (done : List Tck) (t : Tck) :
    tap.clock (done ++ [t]) = (tap.clock done).next t.1 := TapState.clock_append ..

theorem outputs_snoc (tap : TapState) (s : σ) (done : List Tck) (t : Tck) :
    (clockedDevice dev).outputs (tap, s) (done ++ [t]) =
      (clockedDevice dev).outputs (tap, s) done ++
        [((clockedDevice dev).step (tap.clock done, dev.finish s ((tap.trace done).map TapEvent.atom)) t).2] := by
  rw [Machine.outputs_append, finish_clockedDevice]
  rfl

theorem outputs_snoc_low (tap : TapState) (s : σ) (done : List Tck) (t : Tck)
    (outside : ∀ c, tap.clock done ≠ .shift c) :
    (clockedDevice dev).outputs (tap, s) (done ++ [t]) =
      (clockedDevice dev).outputs (tap, s) done ++ [false] := by
  rw [outputs_snoc]
  congr 2
  cases here : tap.clock done with
  | shift c => exact (outside c here).elim
  | _ => rfl

/-! ### One clock -/

theorem Closed.relabel {s : σ} {atoms : List Atom} {tdo : BitString} {lp : Loop σ}
    (closed : Closed dev s atoms tdo lp) (walker : Walker) (shiftStart runStart : Option Nat) :
    Closed dev s atoms tdo { lp with walker, shiftStart, runStart } :=
  ⟨closed.device, closed.posted, closed.atoms, closed.reach, closed.tdo⟩

def Loop.goto (lp : Loop σ) (next : WalkerState) : Loop σ :=
  { lp with walker := { lp.walker with state := next } }

section
variable (tdi : BitString) (i : Nat) {tms : Bool} {next : WalkerState} {lp : Loop σ}

theorem step_eq (edge : lp.walker.state.next tms = next) :
    lp.step dev tdi i tms = (enterRti i next (enterShift i next (enterCapture dev next (leaveTlr dev next
      (leaveRti dev i next (leaveShift dev tdi i next lp)))))).goto next := by
  subst edge
  rfl

theorem leaveShift_skip (h : lp.walker.state ≠ .shift ∨ next = .shift) : leaveShift dev tdi i next lp = lp :=
  if_neg fun leaves => h.elim (· leaves.1) leaves.2

theorem leaveRti_skip (h : lp.walker.state ≠ .rti ∨ next = .rti) : leaveRti dev i next lp = lp := by
  unfold leaveRti
  cases lp.runStart with
  | none => rfl
  | some start => exact if_neg fun leaves => h.elim (· leaves.1) leaves.2

theorem leaveTlr_skip (h : lp.walker.state ≠ .tlr ∨ next = .tlr) : leaveTlr dev next lp = lp :=
  if_neg fun leaves => h.elim (· leaves.1) leaves.2

theorem enterCapture_skip (h : next ≠ .capture) : enterCapture dev next lp = lp := if_neg h

theorem enterShift_skip (h : next ≠ .shift ∨ lp.walker.state = .shift) : enterShift i next lp = lp :=
  if_neg fun enters => h.elim (· enters.1) enters.2

theorem enterRti_skip (h : next ≠ .rti ∨ lp.walker.state = .rti) : enterRti i next lp = lp :=
  if_neg fun enters => h.elim (· enters.1) enters.2

theorem step_quiet (edge : lp.walker.state.next tms = next) (shift : lp.walker.state = .shift ↔ next = .shift)
    (rti : lp.walker.state = .rti ↔ next = .rti) (tlr : lp.walker.state = .tlr → next = .tlr)
    (capture : next ≠ .capture) : lp.step dev tdi i tms = lp.goto next := by
  rw [step_eq dev tdi i edge, leaveShift_skip dev tdi i (by tauto), leaveRti_skip dev i (by tauto),
    leaveTlr_skip dev (by tauto), enterCapture_skip dev capture, enterShift_skip i (by tauto),
    enterRti_skip i (by tauto)]

theorem step_leaveTlr (here : lp.walker.state = .tlr) :
    lp.step dev tdi i false = { (lp.post dev .resetDefault).goto .rti with runStart := some i } := by
  have edge : lp.walker.state.next false = .rti := by rw [here]; rfl
  rw [step_eq dev tdi i edge, leaveShift_skip dev tdi i (by simp [here]), leaveRti_skip dev i (by simp),
    leaveTlr, if_pos (by simp [here]), enterCapture_skip dev (by simp), enterShift_skip i (by simp), enterRti,
    if_pos (by simp [Loop.post, here])]
  rfl

theorem step_capture (inIr : Bool) (here : lp.walker.state = if inIr then .selIr else .selDr) :
    lp.step dev tdi i false =
      { lp.post dev (if inIr then .captureIr else .captureDr) with walker := ⟨.capture, inIr⟩ } := by
  have edge : lp.walker.state.next false = .capture := by rw [here]; cases inIr <;> rfl
  have selected : decide (lp.walker.state = .selIr) = inIr := by rw [here]; cases inIr <;> rfl
  rw [step_eq dev tdi i edge, leaveShift_skip dev tdi i (by cases inIr <;> simp [here]),
    leaveRti_skip dev i (by cases inIr <;> simp [here]), leaveTlr_skip dev (by cases inIr <;> simp [here]),
    enterCapture, if_pos rfl, selected, enterShift_skip i (by simp), enterRti_skip i (by simp)]
  rfl

theorem step_enterShift (edge : lp.walker.state.next false = .shift) (outside : lp.walker.state ≠ .shift)
    (rti : lp.walker.state ≠ .rti) (tlr : lp.walker.state ≠ .tlr) :
    lp.step dev tdi i false = { lp.goto .shift with shiftStart := some (i + 1) } := by
  rw [step_eq dev tdi i edge, leaveShift_skip dev tdi i (.inl outside), leaveRti_skip dev i (.inl rti),
    leaveTlr_skip dev (.inl tlr), enterCapture_skip dev (by simp), enterShift, if_pos ⟨rfl, outside⟩,
    enterRti_skip i (by simp)]
  rfl

theorem step_enterRti (here : lp.walker.state = .update) :
    lp.step dev tdi i false = { lp.goto .rti with runStart := some i } := by
  have edge : lp.walker.state.next false = .rti := by rw [here]; rfl
  rw [step_eq dev tdi i edge, leaveShift_skip dev tdi i (by simp [here]), leaveRti_skip dev i (by simp),
    leaveTlr_skip dev (by simp [here]), enterCapture_skip dev (by simp), enterShift_skip i (by simp), enterRti,
    if_pos (by simp [here])]
  rfl

theorem step_leaveShift {start : Nat} (here : lp.walker.state = .shift) (began : lp.shiftStart = some start) :
    lp.step dev tdi i true = { (lp.postShift dev tdi start (i + 1)).goto .exit1 with shiftStart := none } := by
  have edge : lp.walker.state.next true = .exit1 := by rw [here]; rfl
  rw [step_eq dev tdi i edge, leaveShift, if_pos (by simp [here]), began, leaveRti_skip dev i (by
    simp [Loop.postShift, Loop.post, here]), leaveTlr_skip dev (by simp [Loop.postShift, Loop.post, here]),
    enterCapture_skip dev (by simp), enterShift_skip i (by simp), enterRti_skip i (by simp)]
  rfl

theorem step_leaveRti {start : Nat} (here : lp.walker.state = .rti) (began : lp.runStart = some start) :
    lp.step dev tdi i true =
      { (if i - start > 0 then lp.post dev (.run (i - start)) else lp).goto .selDr with runStart := none } := by
  have edge : lp.walker.state.next true = .selDr := by rw [here]; rfl
  have left : leaveRti dev i .selDr lp =
      { (if i - start > 0 then lp.post dev (.run (i - start)) else lp) with runStart := none } := by
    rw [leaveRti, began]
    exact if_pos (by simp [here])
  have walker : (leaveRti dev i .selDr lp).walker = lp.walker := by
    rw [left]
    split <;> rfl
  rw [step_eq dev tdi i edge, leaveShift_skip dev tdi i (by simp [here]), leaveTlr_skip dev (by
    simp [walker, here]), enterCapture_skip dev (by simp), enterShift_skip i (by simp), enterRti_skip i (by simp),
    left]
  rfl

end

section
variable {tap : TapState} {s : σ} {done : List Tck} {lp : Loop σ} {tdi : BitString}

theorem Inv.settle {t : Tck} {tap' : TapState} (reached : (tap.clock done).next t.1 = tap')
    (outside : ∀ c, tap.clock done ≠ .shift c) (state : lp.walker.state = collapse tap')
    (notShift : lp.walker.state ≠ .shift) (notRti : lp.walker.state ≠ .rti)
    (closed : Closed dev s ((tap.trace done).map TapEvent.atom ++ ((tap.clock done).events t).map TapEvent.atom)
      ((clockedDevice dev).outputs (tap, s) done) lp) :
    Inv dev tap s (done ++ [t]) lp := by
  refine .closed (by rw [clock_snoc, reached, state]) notShift notRti ?_
  rw [trace_snoc, outputs_snoc_low dev tap s done t outside]
  exact closed.low dev

theorem Inv.openShift {t : Tck} {c : Column} (reached : (tap.clock done).next t.1 = .shift c)
    (silent : (tap.clock done).events t = []) (outside : ∀ c, tap.clock done ≠ .shift c)
    (closed : Closed dev s ((tap.trace done).map TapEvent.atom) ((clockedDevice dev).outputs (tap, s) done) lp) :
    Inv dev tap s (done ++ [t]) { lp.goto .shift with shiftStart := some (done.length + 1) } := by
  have length : (done ++ [t]).length = done.length + 1 := List.length_append
  refine .shifting c (by rw [clock_snoc, reached]) rfl ((tap.trace (done ++ [t])).map TapEvent.atom)
    ((clockedDevice dev).outputs (tap, s) (done ++ [t])) [] ?_ ?_ ?_ ?_ (List.append_nil _).symm (List.append_nil _).symm
  · rw [Machine.length_outputs, length]
  · exact List.drop_of_length_le (by simp)
  · simp
  · rw [trace_snoc, silent, List.map_nil, List.append_nil, outputs_snoc_low dev tap s done t outside]
    exact (closed.low dev).relabel dev _ _ _

theorem Inv.openRun {t : Tck} {atoms : List Atom} (reached : (tap.clock done).next t.1 = .rti)
    (outside : ∀ c, tap.clock done ≠ .shift c)
    (events : (tap.trace done).map TapEvent.atom ++ ((tap.clock done).events t).map TapEvent.atom = atoms ++ [.idle])
    (closed : Closed dev s atoms ((clockedDevice dev).outputs (tap, s) done) lp) :
    Inv dev tap s (done ++ [t]) { lp.goto .rti with runStart := some done.length } := by
  have length : (done ++ [t]).length = done.length + 1 := List.length_append
  refine .idling (by rw [clock_snoc, reached]) rfl atoms done.length rfl (by omega) ?_ ?_
  · rw [outputs_snoc_low dev tap s done t outside]
    exact (closed.low dev).relabel dev _ _ _
  · rw [trace_snoc, events, length, Nat.add_sub_cancel_left]
    rfl

def Quiet (here next : WalkerState) : Prop :=
  (here ≠ .shift ∧ next ≠ .shift) ∧ (here ≠ .rti ∧ next ≠ .rti) ∧ (here = .tlr → next = .tlr) ∧ next ≠ .capture

instance (here next : WalkerState) : Decidable (Quiet here next) := by
  unfold Quiet
  infer_instance

theorem quiet_step {here : TapState} {t : Tck} (reached : tap.clock done = here)
    (state : lp.walker.state = collapse here) (silent : here.events t = [])
    (quiet : Quiet (collapse here) (collapse (here.next t.1)))
    (closed : Closed dev s ((tap.trace done).map TapEvent.atom) ((clockedDevice dev).outputs (tap, s) done) lp) :
    Inv dev tap s (done ++ [t]) (lp.step dev tdi done.length t.1) := by
  obtain ⟨noShift, noRti, noTlr, noCapture⟩ := quiet
  have edge : lp.walker.state.next t.1 = collapse (here.next t.1) := by rw [state, ← collapse_next]
  rw [← state] at noShift noRti noTlr
  rw [step_quiet dev tdi _ edge (by tauto) (by tauto) noTlr noCapture]
  refine Inv.settle dev (by rw [reached]) ?_ rfl noShift.2 noRti.2 ?_
  · intro c inShift
    rw [reached] at inShift
    exact noShift.1 (by rw [state, inShift]; rfl)
  · rw [reached, silent, List.map_nil, List.append_nil]
    exact closed.relabel dev _ _ _

theorem closed_step (state : lp.walker.state = collapse (tap.clock done))
    (notShift : lp.walker.state ≠ .shift) (notRti : lp.walker.state ≠ .rti)
    (closed : Closed dev s ((tap.trace done).map TapEvent.atom) ((clockedDevice dev).outputs (tap, s) done) lp)
    (t : Tck) : Inv dev tap s (done ++ [t]) (lp.step dev tdi done.length t.1) := by
  obtain ⟨tms, b⟩ := t
  have captured : ∀ {c : Column} {op : Op} {inIr : Bool}, op.atoms = [.capture c] → op.Posted →
      (tap.clock done).next false = .capture c → (tap.clock done).events (false, b) = [.capture c] →
      Inv dev tap s (done ++ [(false, b)]) { lp.post dev op with walker := ⟨.capture, inIr⟩ } := by
    intro c op inIr atoms posted reached event
    refine Inv.settle dev reached ?_ rfl (by simp) (by simp) ?_
    · intro c inShift
      rw [inShift] at event
      cases event
    · rw [event, List.map_singleton, TapEvent.atom, ← atoms]
      exact (closed.post dev op posted).relabel dev _ _ _
  cases here : tap.clock done with
  | rti => exact (notRti (by rw [state, here]; rfl)).elim
  | shift c => exact (notShift (by rw [state, here]; rfl)).elim
  | tlr =>
    rw [here] at state
    cases tms with
    | true => exact quiet_step dev here state rfl (of_decide_eq_true rfl) closed
    | false =>
      rw [step_leaveTlr dev tdi _ state]
      refine Inv.openRun dev (by rw [here]; rfl) (by simp [here]) ?_ (closed.post dev .resetDefault rfl)
      rw [here, List.append_assoc]
      rfl
  | selDr =>
    rw [here] at state
    cases tms with
    | true => exact quiet_step dev here state rfl (of_decide_eq_true rfl) closed
    | false =>
      rw [step_capture dev tdi _ false state]
      exact captured rfl trivial (by rw [here]; rfl) (by rw [here]; rfl)
  | selIr =>
    rw [here] at state
    cases tms with
    | true => exact quiet_step dev here state rfl (of_decide_eq_true rfl) closed
    | false =>
      rw [step_capture dev tdi _ true state]
      exact captured rfl trivial (by rw [here]; rfl) (by rw [here]; rfl)
  | capture c =>
    rw [here] at state
    cases tms with
    | true => exact quiet_step dev here state rfl (of_decide_eq_true rfl) closed
    | false =>
      rw [step_enterShift dev tdi _ (by rw [state]; rfl) notShift notRti (by simp [state, collapse])]
      exact Inv.openShift dev (c := c) (by rw [here]; rfl) (by rw [here]; rfl) (by simp [here]) closed
  | exit1 c =>
    rw [here] at state
    cases tms <;> exact quiet_step dev here state rfl (of_decide_eq_true rfl) closed
  | pause c =>
    rw [here] at state
    cases tms <;> exact quiet_step dev here state rfl (of_decide_eq_true rfl) closed
  | exit2 c =>
    rw [here] at state
    cases tms with
    | true => exact quiet_step dev here state rfl (of_decide_eq_true rfl) closed
    | false =>
      rw [step_enterShift dev tdi _ (by rw [state]; rfl) notShift notRti (by simp [state, collapse])]
      exact Inv.openShift dev (c := c) (by rw [here]; rfl) (by rw [here]; rfl) (by simp [here]) closed
  | update c =>
    rw [here] at state
    cases tms with
    | true => exact quiet_step dev here state rfl (of_decide_eq_true rfl) closed
    | false =>
      rw [step_enterRti dev tdi _ state]
      exact Inv.openRun dev (by rw [here]; rfl) (by simp [here]) (by rw [here]; rfl) closed

section
variable {c : Column} {atoms : List Atom} {tdo bits : BitString} (state : tap.clock done = .shift c)
  (traced : (tap.trace done).map TapEvent.atom = atoms ++ bits.map .shift)
include state traced

theorem trace_shift_snoc (t : Tck) :
    (tap.trace (done ++ [t])).map TapEvent.atom = atoms ++ (bits ++ [t.2]).map .shift := by
  rw [trace_snoc, traced, state, List.map_append, List.append_assoc]
  rfl

theorem outputs_shift_snoc (closed : Closed dev s atoms tdo lp)
    (output : (clockedDevice dev).outputs (tap, s) done = tdo ++ dev.outputs lp.device (bits.map .shift))
    (t : Tck) : (clockedDevice dev).outputs (tap, s) (done ++ [t]) =
      tdo ++ dev.outputs lp.device ((bits ++ [t.2]).map .shift) := by
  rw [outputs_snoc, output, state, traced, Machine.finish_append, ← closed.device, List.map_append,
    Machine.outputs_append, List.append_assoc]
  rfl

end

theorem shifting_step {c : Column} {atoms : List Atom} {tdo bits : BitString} (state : tap.clock done = .shift c)
    (walker : lp.walker.state = .shift) (start : lp.shiftStart = some tdo.length)
    (carried : (done.map Prod.snd).drop tdo.length = bits) (reached : tdo.length ≤ done.length)
    (closed : Closed dev s atoms tdo lp)
    (traced : (tap.trace done).map TapEvent.atom = atoms ++ bits.map .shift)
    (output : (clockedDevice dev).outputs (tap, s) done = tdo ++ dev.outputs lp.device (bits.map .shift))
    (t : Tck) (known : tdi.take (done.length + 1) = (done ++ [t]).map Prod.snd) :
    Inv dev tap s (done ++ [t]) (lp.step dev tdi done.length t.1) := by
  have extended : ((done ++ [t]).map Prod.snd).drop tdo.length = bits ++ [t.2] := by
    rw [List.map_append, List.drop_append_of_le_length (by rwa [List.length_map]), carried]
    rfl
  have trace' := trace_shift_snoc state traced t
  have output' := outputs_shift_snoc dev state traced closed output t
  obtain ⟨tms, b⟩ := t
  cases tms with
  | false =>
    have edge : lp.walker.state.next false = .shift := by rw [walker]; rfl
    rw [step_quiet dev tdi _ edge (by simp [walker]) (by simp [walker]) (by simp [walker]) (by simp)]
    refine .shifting c (by rw [clock_snoc, state]; rfl) rfl atoms tdo (bits ++ [b]) start extended ?_
      (closed.relabel dev _ _ _) trace' output'
    rw [List.length_append]
    omega
  | true =>
    rw [step_leaveShift dev tdi _ walker start]
    have length : done.length + 1 = tdo.length + (bits ++ [b]).length := by
      rw [← extended, List.length_drop, List.length_map, List.length_append, List.length_singleton]
      omega
    have last : slice tdi tdo.length (done.length + 1) = bits ++ [b] := by rw [slice, known, extended]
    have posted := closed.postShift dev (by simp) last length
    refine .closed (by rw [clock_snoc, state]; rfl) (by simp [Loop.goto]) (by simp [Loop.goto]) ?_
    rw [trace', output']
    exact posted.relabel dev _ _ _

theorem idling_step {atoms : List Atom} {start : Nat} (state : tap.clock done = .rti)
    (walker : lp.walker.state = .rti) (began : lp.runStart = some start) (reached : start ≤ done.length)
    (closed : Closed dev s atoms ((clockedDevice dev).outputs (tap, s) done) lp)
    (traced : (tap.trace done).map TapEvent.atom = atoms ++ List.replicate (done.length - start) .idle)
    (t : Tck) : Inv dev tap s (done ++ [t]) (lp.step dev tdi done.length t.1) := by
  have outside : ∀ c, tap.clock done ≠ .shift c := by simp [state]
  have length : (done ++ [t]).length = done.length + 1 := List.length_append
  obtain ⟨tms, b⟩ := t
  cases tms with
  | false =>
    have edge : lp.walker.state.next false = .rti := by rw [walker]; rfl
    rw [step_quiet dev tdi _ edge (by simp [walker]) (by simp [walker]) (by simp [walker]) (by simp)]
    refine .idling (by rw [clock_snoc, state]; rfl) rfl atoms start began (by omega) ?_ ?_
    · rw [outputs_snoc_low dev tap s done _ outside]
      exact (closed.low dev).relabel dev _ _ _
    · rw [trace_snoc, traced, state, length, show done.length + 1 - start = done.length - start + 1 by omega,
        List.replicate_succ', List.append_assoc]
      rfl
  | true =>
    rw [step_leaveRti dev tdi _ walker began]
    have silent : (tap.clock done).events (true, b) = [] := by rw [state]; rfl
    have reached : (tap.clock done).next true = .selDr := by rw [state]; rfl
    refine Inv.settle dev reached outside rfl (by simp [Loop.goto]) (by simp [Loop.goto]) ?_
    rw [traced, silent, List.map_nil, List.append_nil]
    split
    · rename_i idled
      exact (closed.post dev (.run _) (Nat.ne_of_gt idled)).relabel dev _ _ _
    · rename_i still
      rw [show done.length - start = 0 by omega, List.replicate_zero, List.append_nil]
      exact closed.relabel dev _ _ _

theorem step_inv (inv : Inv dev tap s done lp) (t : Tck)
    (known : tdi.take (done.length + 1) = (done ++ [t]).map Prod.snd) :
    Inv dev tap s (done ++ [t]) (lp.step dev tdi done.length t.1) := by
  cases inv with
  | closed state notShift notRti closed => exact closed_step dev state notShift notRti closed t
  | shifting c state walker atoms tdo bits start carried reached closed traced output =>
    exact shifting_step dev state walker start carried reached closed traced output t known
  | idling state walker atoms start began reached closed traced =>
    exact idling_step dev state walker began reached closed traced t

/-! ### A call -/

theorem run_inv (rest : List Tck) (inv : Inv dev tap s done lp) (whole : tdi = (done ++ rest).map Prod.snd) :
    Inv dev tap s (done ++ rest) (lp.run dev tdi done.length (rest.map Prod.fst)) := by
  induction rest generalizing done lp with
  | nil =>
    rw [List.append_nil]
    exact inv
  | cons t rest ih =>
    have known : tdi.take (done.length + 1) = (done ++ [t]).map Prod.snd := by
      rw [whole, show done ++ t :: rest = (done ++ [t]) ++ rest by simp, List.map_append]
      exact List.take_left' (by simp)
    have next := ih (step_inv dev inv t known) (by rw [whole]; simp)
    rw [List.append_assoc, List.length_append] at next
    exact next

theorem flush_rest {n : Nat} (notShift : lp.walker.state ≠ .shift) (notRti : lp.walker.state ≠ .rti) :
    lp.flush dev tdi n = lp := by
  unfold Loop.flush
  cases here : lp.walker.state <;> first | exact (notShift here).elim | exact (notRti here).elim | simp [here]

theorem flush_shift {n start : Nat} (here : lp.walker.state = .shift) (began : lp.shiftStart = some start) :
    lp.flush dev tdi n = if start < n then lp.postShift dev tdi start n else lp := by
  unfold Loop.flush
  simp only [here, began]
  by_cases some : start < n
  · have still : (lp.postShift dev tdi start n).walker.state = .shift := here
    simp only [if_pos some, still]
  · simp only [if_neg some, here]

theorem flush_rti {n start : Nat} (here : lp.walker.state = .rti) (began : lp.runStart = some start) :
    lp.flush dev tdi n = if start < n then lp.post dev (.run (n - start)) else lp := by
  unfold Loop.flush
  simp only [here, began]

theorem flush_closed (inv : Inv dev tap s done lp) (whole : tdi = done.map Prod.snd) :
    Closed dev s ((tap.trace done).map TapEvent.atom) ((clockedDevice dev).outputs (tap, s) done)
      (lp.flush dev tdi done.length) ∧
    (lp.flush dev tdi done.length).walker.state = collapse (tap.clock done) := by
  cases inv with
  | closed state notShift notRti closed =>
    rw [flush_rest dev notShift notRti]
    exact ⟨closed, state⟩
  | shifting c state walker atoms tdo bits start carried reached closed traced output =>
    rw [flush_shift dev walker start, traced, output, state]
    have length : done.length = tdo.length + bits.length := by
      rw [← carried, List.length_drop, List.length_map]
      omega
    split
    · rename_i some
      refine ⟨closed.postShift dev ?_ ?_ length, walker⟩
      · rintro rfl
        rw [List.length_nil] at length
        omega
      · rw [slice, whole, List.take_of_length_le (by simp), carried]
    · have none : bits = [] := List.eq_nil_of_length_eq_zero (by omega)
      subst none
      rw [List.map_nil, Machine.outputs_nil, List.append_nil, List.append_nil]
      exact ⟨closed, walker⟩
  | idling state walker atoms start began reached closed traced =>
    rw [flush_rti dev walker began, traced, state]
    split
    · rename_i some
      exact ⟨closed.post dev (.run _) (show done.length - start ≠ 0 by omega), walker⟩
    · rw [show done.length - start = 0 by omega, List.replicate_zero, List.append_nil]
      exact ⟨closed, walker⟩

theorem assemble_closed {atoms : List Atom} {tdo : BitString} (closed : Closed dev s atoms tdo lp) :
    assemble tdo.length lp.slots = tdo := closed.tdo

end

structure Follows (tap : TapState) (s : σ) (bits : List Tck) (out : Processed σ) : Prop where
  walker : out.walker.state = collapse (tap.clock bits)
  device : out.device = dev.finish s ((tap.trace bits).map TapEvent.atom)
  posted : ∀ op ∈ out.ops, op.Posted
  atoms : atomsOf out.ops = (tap.trace bits).map TapEvent.atom
  tdo : out.tdo = (clockedDevice dev).outputs (tap, s) bits

/-- A call posts the atoms of the clocked stream and returns the TDO of the device behind it. -/
theorem process_follows (tap : TapState) (s : σ) (w : Walker) (same : w.state = collapse tap) (bits : List Tck) :
    ∃ out, process dev w s (bits.map Prod.fst) (bits.map Prod.snd) = .ok out ∧ Follows dev tap s bits out := by
  cases bits with
  | nil => exact ⟨_, rfl, same, rfl, by simp, rfl, rfl⟩
  | cons t rest =>
    have inv := run_inv dev (t :: rest) (start_inv dev tap s w same) rfl
    obtain ⟨closed, state⟩ := flush_closed dev inv rfl
    refine ⟨_, by rw [process, if_neg (by simp), if_neg (by simp)], ?_⟩
    rw [List.nil_append, List.length_nil] at closed state
    refine ⟨?_, ?_, ?_, ?_, ?_⟩
    · simpa using state
    · simpa using closed.device
    · simpa using closed.posted
    · simpa using closed.atoms
    · have whole := assemble_closed dev closed
      rw [Machine.length_outputs] at whole
      simpa using whole

/-! ### Consecutive calls -/

theorem Follows.append {tap : TapState} {s : σ} {xs ys : List Tck} {first rest : Processed σ}
    (here : Follows dev tap s xs first) (later : Follows dev (tap.clock xs) first.device ys rest) :
    Follows dev tap s (xs ++ ys) { rest with ops := first.ops ++ rest.ops, tdo := first.tdo ++ rest.tdo } where
  walker := by
    rw [TapState.clock_append]
    exact later.walker
  device := by
    rw [TapState.trace_append, List.map_append, Machine.finish_append, ← here.device]
    exact later.device
  posted := fun op member => (List.mem_append.mp member).elim (here.posted op) (later.posted op)
  atoms := by
    rw [TapState.trace_append, List.map_append, ← here.atoms, ← later.atoms]
    exact List.flatMap_append
  tdo := by
    rw [Machine.outputs_append, finish_clockedDevice, ← here.device, ← here.tdo, ← later.tdo]

theorem processCalls_follows (tap : TapState) (s : σ) (w : Walker) (same : w.state = collapse tap)
    (pieces : List (List Tck)) :
    ∃ out, processCalls dev w s (pieces.map fun bits => (bits.map Prod.fst, bits.map Prod.snd)) = .ok out ∧
      Follows dev tap s pieces.flatten out := by
  induction pieces generalizing tap s w with
  | nil => exact ⟨_, rfl, same, rfl, by simp, rfl, rfl⟩
  | cons bits pieces ih =>
    obtain ⟨first, called, here⟩ := process_follows dev tap s w same bits
    obtain ⟨rest, calls, later⟩ := ih (tap.clock bits) first.device first.walker here.walker
    refine ⟨_, ?_, here.append dev later⟩
    simp only [List.map_cons, processCalls, called, calls]

theorem exists_collapse (state : WalkerState) : ∃ tap, collapse tap = state := by
  cases state with
  | tlr => exact ⟨.tlr, rfl⟩
  | rti => exact ⟨.rti, rfl⟩
  | selDr => exact ⟨.selDr, rfl⟩
  | selIr => exact ⟨.selIr, rfl⟩
  | capture => exact ⟨.capture .dr, rfl⟩
  | shift => exact ⟨.shift .dr, rfl⟩
  | exit1 => exact ⟨.exit1 .dr, rfl⟩
  | pause => exact ⟨.pause .dr, rfl⟩
  | exit2 => exact ⟨.exit2 .dr, rfl⟩
  | update => exact ⟨.update .dr, rfl⟩

/-- The way a stream is cut into calls changes neither the operations, up to
merging, nor the TDO, nor the state left behind. -/
theorem processCalls_homomorphism (w : Walker) (s : σ) (pieces : List (List Tck)) :
    ∃ whole parts,
      process dev w s (pieces.flatten.map Prod.fst) (pieces.flatten.map Prod.snd) = .ok whole ∧
      processCalls dev w s (pieces.map fun bits => (bits.map Prod.fst, bits.map Prod.snd)) = .ok parts ∧
      mergeOps parts.ops = mergeOps whole.ops ∧
      parts.tdo = whole.tdo ∧ whole.tdo.length = pieces.flatten.length ∧
      parts.walker.state = whole.walker.state ∧ parts.device = whole.device := by
  obtain ⟨tap, same⟩ := exists_collapse w.state
  obtain ⟨whole, called, one⟩ := process_follows dev tap s w same.symm pieces.flatten
  obtain ⟨parts, calls, many⟩ := processCalls_follows dev tap s w same.symm pieces
  refine ⟨whole, parts, called, calls, ?_, ?_, ?_, ?_, ?_⟩
  · exact mergeOps_eq_of_atoms many.posted one.posted (many.atoms.trans one.atoms.symm)
  · exact many.tdo.trans one.tdo.symm
  · rw [one.tdo, Machine.length_outputs]
  · exact many.walker.trans one.walker.symm
  · exact many.device.trans one.device.symm

end
end Acrobe.Jtag.Walker
