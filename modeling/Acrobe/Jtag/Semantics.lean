import Acrobe.Jtag.TapFsm

/-!
# What an operation sequence asks of the controller

The lowerings of `JtagOpEncoder` and `JtagMpsse` are compared with this
account, which knows neither bits nor adapters: `Run(n)` is `n` idle clocks, a
Capture is one visit to its column, a Shift is its bits in the column of the
last Capture followed by `post_run` idle clocks.
-/

namespace Acrobe.Jtag

/-- What later operations depend on: whether the controller is still in
Test-Logic-Reset, and the column of the last Capture. -/
structure Rest where
  inReset : Bool
  column : Column

namespace Rest

/-- The events of `n` clocks in Run-Test/Idle. The first one leaves
Test-Logic-Reset if the controller is still there. -/
def idles (r : Rest) : Nat → List TapEvent
  | 0 => []
  | n + 1 => (if r.inReset then [.leaveReset] else []) ++ List.replicate (n + 1) .idle

/-- A Capture issued from Test-Logic-Reset passes through one idle clock. -/
def capture (r : Rest) (c : Column) : List TapEvent :=
  (if r.inReset then [.leaveReset, .idle] else []) ++ [.capture c]

def events (r : Rest) : Op → List TapEvent
  | .run n => r.idles n
  | .captureDr => r.capture .dr
  | .captureIr => r.capture .ir
  | .shift s => s.tdi.map (.shift r.column) ++ List.replicate s.postRun .idle
  | _ => []

def after (r : Rest) : Op → Rest
  | .reset _ | .swdToJtag => { r with inReset := true }
  | .run 0 => r
  | .run _ => { r with inReset := false }
  | .captureDr => ⟨false, .dr⟩
  | .captureIr => ⟨false, .ir⟩
  | _ => r

def opEvents (r : Rest) : List Op → List (List TapEvent)
  | [] => []
  | op :: ops => r.events op :: opEvents (r.after op) ops

def afterAll (r : Rest) : List Op → Rest
  | [] => r
  | op :: ops => afterAll (r.after op) ops

theorem opEvents_append (r : Rest) (xs ys : List Op) :
    r.opEvents (xs ++ ys) = r.opEvents xs ++ (r.afterAll xs).opEvents ys := by
  induction xs generalizing r with
  | nil => rfl
  | cons op xs ih => simp only [List.cons_append, opEvents, afterAll, ih]

def shifts (r : Rest) : List Op → List (Shift × Column)
  | [] => []
  | .shift s :: ops => (s, r.column) :: shifts (r.after (.shift s)) ops
  | op :: ops => shifts (r.after op) ops

end Rest

/-- The operations of a scan: no mode switch, no empty Shift. -/
def Op.Scan : Op → Prop
  | .shift s => s.tdi ≠ []
  | .swdToJtag | .other _ => False
  | _ => True

instance : DecidablePred Op.Scan
  | .shift s => inferInstanceAs (Decidable (s.tdi ≠ []))
  | .swdToJtag | .other _ => .isFalse id
  | .reset _ | .run _ | .captureDr | .captureIr => .isTrue trivial

end Acrobe.Jtag
