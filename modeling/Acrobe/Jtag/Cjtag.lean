import Acrobe.Jtag.EncoderRefinement

/-!
# Command scans

`Chain.cjtag_set` spells an IEEE 1149.7 command by the number of bits of each
DR scan. The encoder enters Shift before it looks at the length, so a scan of
zero bits is clocked as a scan of one.
-/

namespace Acrobe.Jtag
open BitString TapState Encoder

def cjtagScan (val : Nat) : List Op := [.captureDr, .shift { tdi := ones val, readTdo := false }]

/-- The operations `cjtag_set(lens)` posts. -/
def cjtagSet (lens : List Nat) : List Op := .run 1 :: (lens.flatMap cjtagScan ++ [.run 1])

def isCapture : TapEvent → Bool
  | .capture _ => true
  | _ => false

def isDrShift : TapEvent → Bool
  | .shift .dr _ => true
  | _ => false

def drScanLengths : List TapEvent → List Nat
  | [] => []
  | .capture .dr :: events => (events.takeWhile (!isCapture ·)).countP isDrShift :: drScanLengths events
  | _ :: events => drScanLengths events

/-! ### Acceptance -/

theorem cjtagScan_accepted {st : EncoderState} {val : Nat} {ops : List Op} (rest : st = .rti ∨ st = .pause)
    (next : isShift ops.head? = false) (tail : Accepts .pause ops) : Accepts st (cjtagScan val ++ ops) := by
  have exit : (emitPostRun (shiftExit ops.head?) 0).1 = .pause := by
    rw [shiftExit, next]
    rfl
  have shifted : Accepts .preShift (.shift { tdi := ones val, readTdo := false } :: ops) := by
    refine accepts_cons (fun offset => ?_) tail
    have accepted := emitShift_accepted { tdi := ones val, readTdo := false } ops.head?
      (Or.inr (Or.inl rfl)) (fun trailing => (trailing rfl).elim) offset
    rwa [exit] at accepted
  have captured (offset : Nat) : ∃ piece, emitOp st offset .captureDr
      (some (.shift { tdi := ones val, readTdo := false })) = (.preShift, .ok piece) :=
    emitCapture_accepted (Or.inr rest) false (some (.shift { tdi := ones val, readTdo := false }))
  exact accepts_cons captured shifted

theorem cjtagScans_accepted {st : EncoderState} (rest : st = .rti ∨ st = .pause) (lens : List Nat) :
    Accepts st (lens.flatMap cjtagScan ++ [.run 1]) := by
  induction lens generalizing st with
  | nil => exact accepts_cons (fun _ => ⟨_, rfl⟩) fun _ => ⟨_, _, rfl⟩
  | cons val lens ih =>
    rw [List.flatMap_cons, List.append_assoc]
    refine cjtagScan_accepted rest ?_ (ih (Or.inr rfl))
    cases lens <;> rfl

theorem cjtagSet_accepted {st : EncoderState} (rest : st = .tlr ∨ st = .rti ∨ st = .pause) (lens : List Nat) :
    ∃ st' out, encode st (cjtagSet lens) = (st', .ok out) := by
  have running : (emitRun st 1).1 = .rti := by rcases rest with rfl | rfl | rfl <;> rfl
  have accepted : Accepts st (cjtagSet lens) :=
    accepts_cons (fun _ => ⟨⟨(emitRun st 1).2, []⟩, by rw [← running]; rfl⟩)
      (cjtagScans_accepted (Or.inl rfl) lens)
  obtain ⟨st', pieces, emitted⟩ := accepted 0
  exact ⟨st', _, by rw [encode, emitted]⟩

/-! ### The scans of the trace -/

def scanBits (val : Nat) : BitString := if val = 0 then [false] else ones val

theorem length_scanBits (val : Nat) : (scanBits val).length = max val 1 := by
  unfold scanBits
  split
  · subst val; rfl
  · rw [ones, List.length_replicate]; omega

def scanEvents (lens : List Nat) : List TapEvent :=
  lens.flatMap fun val => .capture .dr :: (scanBits val).map (.shift .dr)

theorem cjtagScans_events (r : Rest) (running : r.inReset = false) (lens : List Nat) :
    (encodedOpEvents r (lens.flatMap cjtagScan ++ [.run 1])).flatten = scanEvents lens ++ [.idle] := by
  induction lens generalizing r with
  | nil => simp [encodedOpEvents, encodedEvents, Rest.events, Rest.idles, running, scanEvents]
  | cons val lens ih =>
    have following : isShift (lens.flatMap cjtagScan ++ [Op.run 1]).head? = false := by cases lens <;> rfl
    have bits : clocked { tdi := ones val, readTdo := false } (lens.flatMap cjtagScan ++ [Op.run 1]).head? =
        scanBits val := by
      simp only [clocked, following, and_true, scanBits, ones, List.replicate_eq_nil_iff]
    have tail := ih ⟨false, .dr⟩ rfl
    simp only [List.flatMap_cons, cjtagScan, List.cons_append, List.nil_append, encodedOpEvents,
      encodedEvents, Rest.events, Rest.capture, running, Rest.after, bits, List.flatten_cons, tail,
      scanEvents, List.append_assoc, Bool.false_eq_true, if_false, List.replicate_zero]

theorem takeWhile_shifts (bits : BitString) (events : List TapEvent) :
    (bits.map (TapEvent.shift .dr) ++ events).takeWhile (!isCapture ·) =
      bits.map (.shift .dr) ++ events.takeWhile (!isCapture ·) := by
  induction bits with
  | nil => rfl
  | cons b bits ih => exact congrArg (TapEvent.shift .dr b :: ·) ih

theorem drScanLengths_shifts (bits : BitString) (events : List TapEvent) :
    drScanLengths (bits.map (.shift .dr) ++ events) = drScanLengths events := by
  induction bits with
  | nil => rfl
  | cons b bits ih => exact ih

theorem countP_shifts (bits : BitString) : (bits.map (.shift .dr)).countP isDrShift = bits.length := by
  induction bits with
  | nil => rfl
  | cons b bits ih => rw [List.map_cons, List.countP_cons, ih]; rfl

theorem drScanLengths_scanEvents (lens : List Nat) :
    drScanLengths (scanEvents lens ++ [.idle]) = lens.map (max · 1) := by
  induction lens with
  | nil => rfl
  | cons val lens ih =>
    have last : ((scanEvents lens ++ [TapEvent.idle]).takeWhile (!isCapture ·)).countP isDrShift = 0 := by
      cases lens <;> rfl
    rw [scanEvents, List.flatMap_cons, List.append_assoc, List.cons_append, ← scanEvents, drScanLengths,
      takeWhile_shifts, List.countP_append, countP_shifts, last, drScanLengths_shifts, ih,
      length_scanBits, List.map_cons, Nat.add_zero]

theorem drScanLengths_idles (r : Rest) (n : Nat) (events : List TapEvent) :
    drScanLengths (r.idles n ++ events) = drScanLengths events := by
  have plain : ∀ n, drScanLengths (List.replicate n .idle ++ events) = drScanLengths events := by
    intro n
    induction n with
    | zero => rfl
    | succ n ih => exact ih
  cases n with
  | zero => rfl
  | succ n => cases reset : r.inReset <;> simp only [Rest.idles, reset] <;> exact plain (n + 1)

/-- The scans the controller really performs: every length rounded up to one bit. -/
theorem cjtagSet_scans {st st' : EncoderState} {tap : TapState} {lens : List Nat} {out : Output}
    (agrees : Agrees st tap) (h : encode st (cjtagSet lens) = (st', .ok out)) :
    drScanLengths (tap.trace out.stream) = lens.map (max · 1) := by
  obtain ⟨pieces, emitted, rfl⟩ := encode_ok h
  have known : Op.swdToJtag ∉ cjtagSet lens := by
    simp [cjtagSet, cjtagScan]
  obtain ⟨traced, _⟩ := emitOps_sim (agrees.sim (cjtagSet lens).head?) known emitted
  have events : (encodedOpEvents (restOf tap) (cjtagSet lens)).flatten =
      (restOf tap).idles 1 ++ (scanEvents lens ++ [.idle]) := by
    rw [cjtagSet, encodedOpEvents, List.flatten_cons, cjtagScans_events _ rfl]
    rfl
  rw [stream_ofPieces, ← flatten_traces, traced, events, drScanLengths_idles, drScanLengths_scanEvents]

/-- Lowered from any rest state, `cjtag_set` performs one DR scan of exactly `lens[k]` bits
per element if and only if no element is zero. -/
theorem cjtagSet_exact_iff (st : EncoderState) (tap : TapState) (agrees : Agrees st tap) (lens : List Nat) :
    ∃ st' out, encode st (cjtagSet lens) = (st', .ok out) ∧
      (drScanLengths (tap.trace out.stream) = lens ↔ ∀ len ∈ lens, len ≠ 0) := by
  have rest : st = .tlr ∨ st = .rti ∨ st = .pause := by
    cases st <;> simp_all [Agrees]
  obtain ⟨st', out, encoded⟩ := cjtagSet_accepted rest lens
  refine ⟨st', out, encoded, ?_⟩
  rw [cjtagSet_scans agrees encoded]
  constructor
  · intro same len member zero
    subst zero
    rw [← same] at member
    simp at member
  · intro positive
    refine (List.map_congr_left fun len member => ?_).trans (List.map_id lens)
    have := positive len member
    show max len 1 = len
    omega

theorem cjtagSet_exact_paused :
    ∃ st' out, encode .pause (cjtagSet [1, 0]) = (st', .ok out) ∧
      (drScanLengths ((TapState.pause .ir).trace out.stream) = [1, 0] ↔ ∀ len ∈ [1, 0], len ≠ 0) :=
  cjtagSet_exact_iff .pause (.pause .ir) ⟨.ir, rfl⟩ [1, 0]

/-- The unlock sequence of the enumeration asks for scans of zero bits. -/
theorem cjtagSet_zero_scan :
    ∃ out, encode .tlr (cjtagSet [0, 0, 1, 2, 9, 0, 1]) = (.rti, .ok out) ∧
      drScanLengths (TapState.tlr.trace out.stream) = [1, 1, 1, 2, 9, 1, 1] ∧
      drScanLengths (TapState.tlr.trace out.stream) ≠ [0, 0, 1, 2, 9, 0, 1] := by
  refine ⟨_, rfl, ?_, ?_⟩ <;> decide

end Acrobe.Jtag
