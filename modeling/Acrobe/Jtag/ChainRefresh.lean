import Acrobe.Jtag.ChainLinks
import Acrobe.Jtag.Cjtag
import Acrobe.Jtag.Probe
import Mathlib

/-!
# `Chain.tlr_and_refresh`

After a Test-Logic-Reset the chain is probed again, the TAPs found are matched
with the ones known by IDCODE and instruction length, and the geometry is
rebuilt from nothing. Refreshing hardware that has not changed leaves the model
as it was.
-/

namespace Acrobe.Jtag
open Lib Tiling

namespace Chain

/-- `self.contexts[t]` fails for some `t`. -/
def lacks (ch : Chain) (existing : List Tap) : Bool := existing.any fun tap => (ch.context? tap).isNone

def isEnabled (ch : Chain) (tap : Tap) : Bool := (ch.context? tap).any Context.enabled

def irPreOf (ch : Chain) (tap : Tap) : Int := ((ch.context? tap).map Context.irPre).getD 0

def enabledFirst (ch : Chain) (existing : List Tap) : List Tap :=
  (existing.filter ch.isEnabled).insertionSort fun a b => ch.irPreOf a ≤ ch.irPreOf b

/-- The loop of `__match_identities`. The result is the dictionary of the claimed slots. -/
def claim (slots : List (Option Nat × Nat)) : List Tap → List Nat → Except PyErr (List (Nat × Tap))
  | [], _ => .ok []
  | tap :: taps, available =>
    match available.filter fun i => slots[i]? = some tap.identity with
    | [] => claim slots taps available
    | [i] => (claim slots taps (available.erase i)).map ((i, tap) :: ·)
    | found => .error (.refreshAmbiguity ("Tap " ++ quoted tap.name ++ " (idcode=" ++ optRepr tap.idcode ++ ", irlen=" ++
        toString tap.irlen ++ ") matches multiple unclaimed slots " ++ listRepr toString found ++
        " in refreshed chain — refusing to guess. Refine the matcher (e.g. anchor via controller relationship)" ++
        " before retrying."))

def matchIdentities (ch : Chain) (existing : List Tap) (slots : List (Option Nat × Nat)) :
    Except PyErr (List (Nat × Tap)) :=
  if ch.lacks existing then .error .keyError
  else claim slots (ch.enabledFirst existing ++ existing.filter fun tap => !ch.isEnabled tap) (List.range slots.length)

def detachAll (ch : Chain) (taps : List Tap) : Chain := taps.foldl (fun ch tap => (ch.tapDetach tap).1) ch

/-- The slots from `slot` on, each at the end of what is placed already. The class
database gives a fresh TAP its name. -/
def place (naming : Option Nat → Nat → String) (claimed : List (Nat × Tap)) :
    List (Option Nat × Nat) → Nat → Int → Int → Chain → Chain × Except PyErr Unit
  | [], _, _, _, ch => (ch, .ok ())
  | (idcode, irlen) :: slots, slot, irPre, drPre, ch =>
    match claimed.lookup slot with
    | some tap =>
      match ch.tapReattach tap irPre drPre (ch.controllerOf tap) with
      | (ch, .error e) => (ch, .error e)
      | (ch, .ok _) => place naming claimed slots (slot + 1) (irPre + irlen) (drPre + 1) ch
    | none =>
      match ch.tapInsert (naming idcode irlen) idcode irlen irPre drPre none with
      | (ch, .error e) => (ch, .error e)
      | (ch, .ok _) => place naming claimed slots (slot + 1) (irPre + irlen) (drPre + 1) ch

def applyRefresh (naming : Option Nat → Nat → String) (ch : Chain) (existing : List Tap)
    (slots : List (Option Nat × Nat)) (claimed : List (Nat × Tap)) : Chain × Except PyErr Unit :=
  place naming claimed slots 0 0 0 (ch.detachAll (existing.filter ch.isEnabled))

def refresh (naming : Option Nat → Nat → String) (ch : Chain) (existing : List Tap) (slots : List (Option Nat × Nat)) :
    Chain × Except PyErr Unit :=
  match ch.matchIdentities existing slots with
  | .error e => (ch, .error e)
  | .ok claimed => ch.applyRefresh naming existing slots claimed

def resetAndUnlock : List Op := [.reset 50, .run 500] ++ cjtagSet [0, 0, 1, 2, 9, 0, 1]

/-- What a TAP class may do before and after the reset. -/
structure Hooks where
  preTlr : Tap → Chain → ScanPath → Chain × ScanPath × Except PyErr Unit
  postTlr : Tap → Chain → ScanPath → Chain × ScanPath × Except PyErr Unit

def Hooks.default : Hooks := ⟨fun _ ch hw => (ch, hw, .ok ()), fun _ ch hw => (ch, hw, .ok ())⟩

def eachTap (hook : Tap → Chain → ScanPath → Chain × ScanPath × Except PyErr Unit) :
    List Tap → Chain → ScanPath → Chain × ScanPath × Except PyErr Unit
  | [], ch, hw => (ch, hw, .ok ())
  | tap :: taps, ch, hw =>
    match hook tap ch hw with
    | (ch, hw, .error e) => (ch, hw, .error e)
    | (ch, hw, .ok ()) => eachTap hook taps ch hw

/-- `tlr_and_refresh` from the outcome of the probe on. -/
def finishRefresh (ch : Chain) (hooks : Hooks) (naming : Option Nat → Nat → String) (existing : List Tap) :
    ScanPath × Except PyErr (List (Option Nat × Nat)) → Chain × ScanPath × Except PyErr Unit
  | (hw, .error e) => (ch, hw, .error e)
  | (hw, .ok slots) =>
    match ch.refresh naming existing slots with
    | (ch, .error e) => (ch, hw, .error e)
    | (ch, .ok ()) =>
      eachTap (fun tap ch hw => if ch.isEnabled tap then hooks.postTlr tap ch hw else (ch, hw, .ok ())) ch.children ch hw

def tlrAndRefresh (hooks : Hooks) (irlenFor : Nat → Option Nat) (naming : Option Nat → Nat → String) (ch : Chain)
    (hw : ScanPath) : Chain × ScanPath × Except PyErr Unit :=
  let existing := ch.children
  if ch.lacks existing then (ch, hw, .error .keyError)
  else
    match eachTap hooks.preTlr existing ch hw with
    | (ch, hw, .error e) => (ch, hw, .error e)
    | (ch, hw, .ok ()) =>
      ch.finishRefresh hooks naming existing (probeChainInResetState irlenFor (hw.run resetAndUnlock))

end Chain
end Acrobe.Jtag
