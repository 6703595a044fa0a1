import Acrobe.Jtag.TapFsm

/-!
# Devices behind an interface

A device reacts to single idle clocks and single shifted bits, so it cannot
tell a Run or a Shift from the same one cut in two. Operations are compared
through `mergeOps`, which joins adjacent Runs and adjacent Shifts, and
`mergeOps_eq_of_atoms` reduces that to the atoms a device sees.
-/

namespace Acrobe.Jtag
open Lib

inductive Atom where
  | reset
  | swdToJtag
  | idle
  | capture (c : Column)
  | shift (tdi : Bool)

def Op.atoms : Op → List Atom
  | .reset _ => [.reset]
  | .swdToJtag => [.swdToJtag]
  | .run n => List.replicate n .idle
  | .captureDr => [.capture .dr]
  | .captureIr => [.capture .ir]
  | .shift s => s.tdi.map .shift ++ List.replicate s.postRun .idle
  | .other _ => []

/-- A device: its reaction to an atom, with the level of TDO. -/
abbrev Device (σ : Type) := Machine σ Atom Bool

def Device.exec {σ : Type} (dev : Device σ) (s : σ) (op : Op) : σ × BitString :=
  (dev.finish s op.atoms, match op with
    | .shift sh => dev.outputs s (sh.tdi.map .shift)
    | _ => [])

def TapEvent.atom : TapEvent → Atom
  | .leaveReset => .reset
  | .idle => .idle
  | .capture c => .capture c
  | .shift _ b => .shift b

/-- A device behind its controller, clocked by a stream. TDO is low outside Shift. -/
def clockedDevice {σ : Type} (dev : Device σ) : Machine (TapState × σ) Tck Bool where
  step s t := ((s.1.next t.1, dev.finish s.2 ((s.1.events t).map TapEvent.atom)),
    match s.1 with
    | .shift _ => (dev.step s.2 (.shift t.2)).2
    | _ => false)

theorem finish_clockedDevice {σ : Type} (dev : Device σ) (tap : TapState) (s : σ) (bits : List Tck) :
    (clockedDevice dev).finish (tap, s) bits =
      (tap.clock bits, dev.finish s ((tap.trace bits).map TapEvent.atom)) := by
  induction bits generalizing tap s with
  | nil => rfl
  | cons t bits ih =>
    rw [Machine.finish_cons, TapState.trace_cons, List.map_append, Machine.finish_append]
    exact ih _ _

/-! ### Merging -/

def Op.join : Op → Op → Option Op
  | .run m, .run n => some (.run (m + n))
  | .shift a, .shift b =>
    if a.postRun = 0 ∧ a.readTdo = b.readTdo then some (.shift { b with tdi := a.tdi ++ b.tdi }) else none
  | _, _ => none

def Op.joinHead (op : Op) : List Op → List Op
  | [] => [op]
  | next :: ops => match op.join next with
    | some joined => joined :: ops
    | none => op :: next :: ops

/-- Adjacent Runs and adjacent Shifts merged. -/
def mergeOps : List Op → List Op
  | [] => []
  | op :: ops => op.joinHead (mergeOps ops)

def Op.Posted : Op → Prop
  | .reset count => count = 5
  | .run n => n ≠ 0
  | .captureDr | .captureIr => True
  | .shift s => s.tdi ≠ [] ∧ s.readTdo = true ∧ s.postRun = 0
  | _ => False

def Atom.op : Atom → Op
  | .reset => .resetDefault
  | .swdToJtag => .swdToJtag
  | .idle => .run 1
  | .capture .dr => .captureDr
  | .capture .ir => .captureIr
  | .shift b => .shift { tdi := [b] }

theorem joinHead_idles (n : Nat) (ops : List Op) :
    mergeOps ((List.replicate (n + 1) Atom.idle).map Atom.op ++ ops) = (Op.run (n + 1)).joinHead (mergeOps ops) := by
  induction n with
  | zero => rfl
  | succ n ih =>
    rw [List.replicate_succ, List.map_cons, List.cons_append, mergeOps, ih]
    cases mergeOps ops with
    | nil => simp [Op.joinHead, Atom.op, Op.join, Nat.add_comm]
    | cons next rest =>
      cases next <;> simp [Op.joinHead, Atom.op, Op.join] <;> omega

theorem joinHead_shifts (b : Bool) (bits : BitString) (ops : List Op) :
    mergeOps (((b :: bits).map Atom.shift).map Atom.op ++ ops) =
      (Op.shift { tdi := b :: bits }).joinHead (mergeOps ops) := by
  induction bits generalizing b with
  | nil => rfl
  | cons c bits ih =>
    rw [List.map_cons, List.map_cons, List.cons_append, mergeOps, ih]
    cases mergeOps ops with
    | nil => simp [Op.joinHead, Atom.op, Op.join]
    | cons next rest =>
      cases next with
      | shift s =>
        by_cases reads : true = s.readTdo <;> simp [Op.joinHead, Atom.op, Op.join, reads]
      | _ => simp [Op.joinHead, Atom.op, Op.join]

theorem mergeOps_atoms {op : Op} (posted : op.Posted) (ops : List Op) :
    mergeOps (op.atoms.map Atom.op ++ ops) = op.joinHead (mergeOps ops) := by
  cases op with
  | reset count =>
    have five : count = 5 := posted
    subst five
    rfl
  | run n =>
    obtain ⟨n, rfl⟩ := Nat.exists_eq_succ_of_ne_zero posted
    exact joinHead_idles n ops
  | captureDr => rfl
  | captureIr => rfl
  | shift s =>
    obtain ⟨tdi, readTdo, postRun⟩ := s
    obtain ⟨payload, rfl, rfl⟩ := posted
    obtain ⟨b, bits, rfl⟩ := List.exists_cons_of_ne_nil payload
    rw [Op.atoms, List.replicate_zero, List.append_nil]
    exact joinHead_shifts b bits ops
  | swdToJtag => exact posted.elim
  | other name => exact posted.elim

def atomsOf (ops : List Op) : List Atom := ops.flatMap Op.atoms

theorem mergeOps_eq_atoms {ops : List Op} (posted : ∀ op ∈ ops, op.Posted) :
    mergeOps ops = mergeOps ((atomsOf ops).map Atom.op) := by
  induction ops with
  | nil => rfl
  | cons op ops ih =>
    have tail := ih fun op member => posted op (List.mem_cons_of_mem _ member)
    rw [atomsOf, List.flatMap_cons, List.map_append, mergeOps_atoms (posted op List.mem_cons_self),
      mergeOps, tail]
    rfl

theorem mergeOps_eq_of_atoms {xs ys : List Op} (postedX : ∀ op ∈ xs, op.Posted)
    (postedY : ∀ op ∈ ys, op.Posted) (same : atomsOf xs = atomsOf ys) : mergeOps xs = mergeOps ys := by
  rw [mergeOps_eq_atoms postedX, mergeOps_eq_atoms postedY, same]

end Acrobe.Jtag
