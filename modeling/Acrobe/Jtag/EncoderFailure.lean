import Acrobe.Jtag.EncoderRefinement

/-!
# Batches that `JtagOpEncoder` refuses

The encoder keeps the state that it has reached when an operation raises. What
it is left in is read off the operations in front of the one that is refused.
-/

namespace Acrobe.Jtag
open BitString

namespace Encoder

/-- `REST_STATES`. -/
def restStates : List EncoderState := [.tlr, .rti, .pause]

/-- The rest state the TAP controller is taken to by an operation that nothing goes on with. -/
def restAfter (st : EncoderState) : Op → EncoderState
  | .reset _ | .swdToJtag => .tlr
  | .run cycles => if st = .tlr ∧ cycles = 0 then .tlr else .rti
  | .captureDr | .captureIr => .pause
  | .shift s => if s.postRun ≠ 0 then .rti else .pause
  | .other _ => st

def unlowerable (st : EncoderState) (op : Op) (next : Option Op) : Bool :=
  match op with
  | .shift s => st ≠ .pause || (s.postRun ≠ 0 && isShift next)
  | .other _ => true
  | _ => false

/-- A Shift right after a Capture or another Shift. -/
def goesOn (prev : Option Op) (op : Op) : Bool :=
  match prev, op with
  | some .captureDr, .shift _ | some .captureIr, .shift _ | some (.shift _), .shift _ => true
  | _, _ => false

/-- The first operation that cannot be lowered finds the TAP controller at rest in `home`. -/
def FoundIn (home now : EncoderState) (prev : Option Op) : List Op → Prop
  | [] => True
  | op :: ops =>
    if unlowerable now op ops.head? then now = home ∧ goesOn prev op = false
    else FoundIn home (restAfter now op) (some op) ops

instance decidableFoundIn (home now : EncoderState) (prev : Option Op) :
    (ops : List Op) → Decidable (FoundIn home now prev ops)
  | [] => .isTrue trivial
  | op :: ops =>
    have := decidableFoundIn home (restAfter now op) (some op) ops
    inferInstanceAs (Decidable (if unlowerable now op ops.head? then _ else _))

/-- How the state kept by the encoder stands to the rest state, before an operation. -/
def Keeps (st now : EncoderState) (prev : Option Op) : Option Op → Prop
  | some op => if goesOn prev op then now = .pause ∧ (st = .preShift ∨ st = .inShift) else st = now
  | none => st = now

theorem Keeps.cases {st now : EncoderState} {prev : Option Op} {op : Op} (keeps : Keeps st now prev (some op)) :
    (goesOn prev op = true ∧ now = .pause ∧ (st = .preShift ∨ st = .inShift)) ∨ (goesOn prev op = false ∧ st = now) := by
  cases scanning : goesOn prev op with
  | true => exact .inl ⟨rfl, by simpa [Keeps, scanning] using keeps⟩
  | false => exact .inr ⟨rfl, by simpa [Keeps, scanning] using keeps⟩

theorem Keeps.of_not_shift {st : EncoderState} {prev : Option Op} {next : Option Op}
    (quiet : ∀ op, next = some op → goesOn prev op = false) : Keeps st st prev next := by
  cases next with
  | none => rfl
  | some op =>
    have free := quiet op rfl
    simp [Keeps, free]

theorem keeps_captureExit {op : Op} (capture : op = .captureDr ∨ op = .captureIr) (next : Option Op) :
    Keeps (emitCaptureExit next).1 .pause (some op) next := by
  rcases capture with rfl | rfl <;> cases next with
  | none => rfl
  | some next => cases next <;> simp [Keeps, emitCaptureExit, goesOn]

theorem keeps_postRun (s : Shift) {next : Option Op} (allowed : s.postRun ≠ 0 → isShift next = false) :
    Keeps (emitPostRun (shiftExit next) s.postRun).1 (restAfter .pause (.shift s)) (some (.shift s)) next := by
  by_cases trailing : s.postRun = 0
  · cases next with
    | none => simp [Keeps, emitPostRun, shiftExit, restAfter, trailing, isShift]
    | some next => cases next <;> simp [Keeps, emitPostRun, shiftExit, restAfter, trailing, isShift, goesOn]
  · have last := allowed trailing
    have quiet : ∀ op, next = some op → goesOn (some (.shift s)) op = false := by
      rintro op rfl
      cases op <;> simp_all [goesOn, isShift]
    have exits : (emitPostRun (shiftExit next) s.postRun).1 = restAfter .pause (.shift s) := by
      simp [emitPostRun, shiftExit, last, emitRun, restAfter, trailing]
    rw [exits]
    exact .of_not_shift quiet

theorem emitShift_refused_or {st now : EncoderState} {prev : Option Op} (offset : Nat) (s : Shift) (next : Option Op)
    (resting : now ∈ restStates) (keeps : Keeps st now prev (some (.shift s))) :
    (unlowerable now (.shift s) next = true ∧ ∃ e, emitShift st offset s next = (st, .error e)) ∨
      (unlowerable now (.shift s) next = false ∧ now = .pause ∧
        ∃ piece, emitShift st offset s next = ((emitPostRun (shiftExit next) s.postRun).1, .ok piece)) := by
  by_cases parked : now = .pause
  · have entered : st = .pause ∨ st = .preShift ∨ st = .inShift := by
      rcases keeps.cases with ⟨_, _, within⟩ | ⟨_, same⟩
      · exact .inr within
      · exact .inl (same.trans parked)
    by_cases trailing : s.postRun ≠ 0 ∧ isShift next = true
    · refine .inl ⟨by simp [unlowerable, trailing], ?_⟩
      rcases entered with rfl | rfl | rfl <;> simp only [emitShift, emitEnterShift, if_pos trailing] <;> exact ⟨_, rfl⟩
    · have allowed : s.postRun ≠ 0 → isShift next = false := fun some =>
        Bool.eq_false_iff.mpr fun following => trailing ⟨some, following⟩
      refine .inr ⟨?_, parked, emitShift_accepted s next entered allowed offset⟩
      simpa [unlowerable, parked] using allowed
  · have same : st = now := by
      rcases keeps.cases with ⟨_, pause, _⟩ | ⟨_, same⟩
      · exact absurd pause parked
      · exact same
    subst same
    refine .inl ⟨by simp [unlowerable, parked], ?_⟩
    have cases : st = .tlr ∨ st = .rti := by
      simpa [restStates, parked] using resting
    rcases cases with rfl | rfl <;> exact ⟨_, rfl⟩

theorem emitOp_cases {st now : EncoderState} {prev : Option Op} (offset : Nat) (op : Op) (next : Option Op)
    (resting : now ∈ restStates) (keeps : Keeps st now prev (some op)) :
    (unlowerable now op next = true ∧ ∃ e, emitOp st offset op next = (st, .error e)) ∨
      (unlowerable now op next = false ∧ restAfter now op ∈ restStates ∧
        ∃ st' piece, emitOp st offset op next = (st', .ok piece) ∧ Keeps st' (restAfter now op) (some op) next) := by
  cases op with
  | reset count => exact .inr ⟨rfl, List.mem_cons_self, _, _, rfl, .of_not_shift fun _ _ => rfl⟩
  | swdToJtag => exact .inr ⟨rfl, List.mem_cons_self, _, _, rfl, .of_not_shift fun _ _ => rfl⟩
  | run cycles =>
    have same : st = now := by simpa [Keeps, goesOn] using keeps
    subst same
    have rests : st = .tlr ∨ st = .rti ∨ st = .pause := by simpa [restStates] using resting
    have reached : (emitRun st cycles).1 = restAfter st (.run cycles) := by
      rcases rests with rfl | rfl | rfl <;> by_cases none : cycles = 0 <;> simp [emitRun, restAfter, none]
    refine .inr ⟨rfl, ?_, _, _, rfl, ?_⟩
    · by_cases idle : st = .tlr ∧ cycles = 0 <;> simp [restAfter, restStates, idle]
    · rw [← reached]
      exact .of_not_shift fun _ _ => rfl
  | captureDr =>
    have same : st = now := by simpa [Keeps, goesOn] using keeps
    subst same
    obtain ⟨piece, emitted⟩ := emitCapture_accepted (by simpa [restStates] using resting) false next
    exact .inr ⟨rfl, by simp [restAfter, restStates], _, piece, emitted, keeps_captureExit (.inl rfl) next⟩
  | captureIr =>
    have same : st = now := by simpa [Keeps, goesOn] using keeps
    subst same
    obtain ⟨piece, emitted⟩ := emitCapture_accepted (by simpa [restStates] using resting) true next
    exact .inr ⟨rfl, by simp [restAfter, restStates], _, piece, emitted, keeps_captureExit (.inr rfl) next⟩
  | shift s =>
    rcases emitShift_refused_or offset s next resting keeps with refused | ⟨lowerable, rfl, piece, emitted⟩
    · exact .inl refused
    · have allowed : s.postRun ≠ 0 → isShift next = false := by simpa [unlowerable] using lowerable
      refine .inr ⟨lowerable, ?_, _, piece, emitted, keeps_postRun s allowed⟩
      by_cases trailing : s.postRun = 0 <;> simp [restAfter, restStates, trailing]
  | other typeName => exact .inl ⟨rfl, _, rfl⟩

/-! ### The whole batch -/

theorem emitOps_error {st now : EncoderState} {prev : Option Op} (home : EncoderState) (offset : Nat) {ops : List Op}
    (settled : home ∈ restStates) (resting : now ∈ restStates) (keeps : Keeps st now prev ops.head?)
    {st' : EncoderState} {e : PyErr} (raised : emitOps st offset ops = (st', .error e)) :
    st' = home ↔ FoundIn home now prev ops := by
  induction ops generalizing st now prev offset with
  | nil => cases raised
  | cons op ops ih =>
    unfold FoundIn
    rcases emitOp_cases offset op ops.head? resting keeps with
      ⟨refused, e', failed⟩ | ⟨lowered, resting', st₁, piece, emitted, keeps'⟩
    · simp only [emitOps, failed, Prod.mk.injEq] at raised
      obtain ⟨rfl, _⟩ := raised
      rw [if_pos refused]
      rcases keeps.cases with ⟨scanning, _, within⟩ | ⟨quiet, same⟩
      · have off : st ≠ home := by
          rintro rfl
          rcases within with rfl | rfl <;> simp [restStates] at settled
        simp [off, scanning]
      · rw [same]
        exact ⟨fun same => ⟨same, quiet⟩, fun found => found.1⟩
    · rw [if_neg (by simp [lowered])]
      simp only [emitOps, emitted] at raised
      split at raised
      · rename_i failed
        obtain ⟨rfl, rfl⟩ : _ ∧ _ := by simpa using raised
        exact ih _ resting' keeps' failed
      · cases raised

/-- An encoder that raised is in the state it was in before exactly when the operation refused finds
the TAP controller there. -/
theorem encode_error_state_iff {st st' : EncoderState} {ops : List Op} {e : PyErr} (resting : st ∈ restStates)
    (raised : encode st ops = (st', .error e)) : st' = st ↔ FoundIn st st none ops := by
  unfold encode at raised
  split at raised
  · rename_i failed
    obtain ⟨rfl, _⟩ := Prod.mk.inj raised
    exact emitOps_error st 0 resting resting (.of_not_shift fun op _ => rfl) failed
  · cases raised

/-- A Reset in front of the operation that is refused leads back. -/
theorem encode_error_state_after_reset :
    (encode .tlr [.captureDr, .reset 5, .other "TdoPoll"]).1 = .tlr :=
  (encode_error_state_iff (by decide) (show encode .tlr [.captureDr, .reset 5, .other "TdoPoll"] =
    (.tlr, .error (.valueError ("JtagOpEncoder cannot lower TdoPoll" ++
      "; supported: Reset, SwdToJtag, Run, CaptureDr, CaptureIr, Shift"))) by decide)).mpr (by decide)

/-- What is left of the scan makes the encoder refuse every Capture from then on. -/
theorem encode_error_leaves_scan_open :
    ¬ ∀ st ∈ restStates, ∀ ops st' e, encode st ops = (st', .error e) → st' = st := by
  intro restored
  have failed := restored .tlr (by decide)
    [.captureDr, .shift { tdi := zeros 4, postRun := 1 }, .shift { tdi := zeros 4 }] .preShift
    (.valueError "post_run on a Shift continued by another Shift") (by decide)
  cases failed

end Encoder
end Acrobe.Jtag
