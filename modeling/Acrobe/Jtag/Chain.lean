import Acrobe.Jtag.TapFsm

/-!
# `Chain`: contexts, geometry and controllers

The software model of a scan chain. An operation that raises keeps what it had
already changed, so operations return the chain beside their result.
-/

namespace Acrobe.Jtag
open BitString

/-- A Tap object. `id` is its identity. -/
structure Tap where
  id : Nat
  name : String
  idcode : Option Nat
  irlen : Nat
  deriving DecidableEq

def Tap.bypass (tap : Tap) : Nat := 2 ^ tap.irlen - 1

/-- `ChainContext`. -/
structure Context where
  tap : Tap
  irPre : Int := 0
  irPost : Int := 0
  drPre : Int := 0
  drPost : Int := 0
  currentIr : Option Nat := none
  enabled : Bool := true
  controller : Option Tap := none
  gated : List Tap := []
  deriving DecidableEq

/-- `contexts` in the order of the dictionary, and the children of the node. -/
structure Chain where
  name : String
  contexts : List Context := []
  children : List Tap := []
  totalIrlen : Int := 0
  totalDrlen : Int := 0
  /-- The identity the next Tap object gets. -/
  fresh : Nat := 0

namespace Chain

def context? (ch : Chain) (tap : Tap) : Option Context := ch.contexts.find? fun ctx => ctx.tap = tap

def modify (ch : Chain) (tap : Tap) (f : Context → Context) : Chain :=
  { ch with contexts := ch.contexts.map fun ctx => if ctx.tap = tap then f ctx else ctx }

def quoted (name : String) : String := "'" ++ name ++ "'"

/-! ### Geometry -/

/-- What an insertion of `irlen` bits at `irPre` does to another enabled context. -/
def shiftIn (irPre irlen : Int) (other : Context) : Context :=
  if other.irPre < irPre then { other with irPost := other.irPost + irlen, drPost := other.drPost + 1 }
  else { other with irPre := other.irPre + irlen, drPre := other.drPre + 1 }

def shiftOut (irPre irlen : Int) (other : Context) : Context :=
  if other.irPre > irPre then { other with irPre := other.irPre - irlen, drPre := other.drPre - 1 }
  else { other with irPost := other.irPost - irlen, drPost := other.drPost - 1 }

/-- `ctx` is in `contexts` already, with its `irPre` and `drPre`. -/
def applyInsertionGeometry (ch : Chain) (ctx : Context) (irlen : Int) : Chain :=
  let totalIrlen := ch.totalIrlen + irlen
  let totalDrlen := ch.totalDrlen + 1
  { ch with
    totalIrlen, totalDrlen
    contexts := ch.contexts.map fun other =>
      if other.tap = ctx.tap then
        { other with irPost := totalIrlen - ctx.irPre - irlen, drPost := totalDrlen - ctx.drPre - 1 }
      else if other.enabled then shiftIn ctx.irPre irlen other
      else other }

def applyRemovalGeometry (ch : Chain) (ctx : Context) (irlen : Int) : Chain :=
  { ch with
    totalIrlen := ch.totalIrlen - irlen
    totalDrlen := ch.totalDrlen - 1
    contexts := ch.contexts.map fun other =>
      if other.tap ≠ ctx.tap ∧ other.enabled then shiftOut ctx.irPre irlen other else other }

def clearController (ch : Chain) (tap : Tap) : Chain :=
  match ch.context? tap with
  | none => ch
  | some ctx =>
    match ctx.controller with
    | none => ch
    | some controller =>
      (ch.modify controller fun c => { c with gated := c.gated.erase tap }).modify tap
        fun ctx => { ctx with controller := none }

def setController (ch : Chain) (tap : Tap) (controller : Option Tap) : Chain × Except PyErr Unit :=
  let ch := ch.clearController tap
  match controller with
  | none => (ch, .ok ())
  | some controller =>
    let ch := ch.modify tap fun ctx => { ctx with controller := some controller }
    match ch.context? controller with
    | none => (ch, .error (.runtimeError
        ("Controller " ++ quoted controller.name ++ " has no context in chain " ++ quoted ch.name)))
    | some _ =>
      (ch.modify controller fun c => if tap ∈ c.gated then c else { c with gated := c.gated ++ [tap] }, .ok ())

/-! ### Registration -/

def newContext (ch : Chain) (name : String) (idcode : Option Nat) (irlen : Nat) (irPre drPre : Int)
    (controller : Option Tap) : Context :=
  { tap := { id := ch.fresh, name, idcode, irlen }, irPre, drPre, controller }

/-- `tap_insert` as far as the geometry goes. -/
def register (ch : Chain) (ctx : Context) : Chain :=
  { ch with contexts := ch.contexts ++ [ctx], fresh := ch.fresh + 1 }.applyInsertionGeometry ctx ctx.tap.irlen

/-- `tap_insert`. The class database decides the class of the object, and so its `name`. -/
def tapInsert (ch : Chain) (name : String) (idcode : Option Nat) (irlen : Nat) (irPre drPre : Int)
    (controller : Option Tap) : Chain × Except PyErr Tap :=
  let ctx := ch.newContext name idcode irlen irPre drPre controller
  match (ch.register ctx).setController ctx.tap controller with
  | (ch, .error e) => (ch, .error e)
  | (ch, .ok ()) => ({ ch with children := ch.children ++ [ctx.tap] }, .ok ctx.tap)

def tapAdd (ch : Chain) (name : String) (idcode : Option Nat) (irlen : Nat) (irPre drPre : Option Int := none) :
    Chain × Except PyErr Tap :=
  ch.tapInsert name idcode irlen (irPre.getD ch.totalIrlen) (drPre.getD ch.totalDrlen) none

/-- `tap_reattach` as far as the geometry goes. -/
def putBack (ch : Chain) (ctx : Context) : Chain :=
  (ch.modify ctx.tap fun _ => ctx).applyInsertionGeometry ctx ctx.tap.irlen

def tapReattach (ch : Chain) (tap : Tap) (irPre drPre : Int) (controller : Option Tap) :
    Chain × Except PyErr Tap :=
  match ch.context? tap with
  | none => (ch, .error (.runtimeError ("Tap " ++ quoted tap.name ++ " has no context — was never inserted")))
  | some ctx =>
    if ctx.enabled then
      (ch, .error (.runtimeError
        ("Tap " ++ quoted tap.name ++ " is already attached at ir_pre=" ++ toString ctx.irPre)))
    else
      let ch := ch.putBack { ctx with irPre, drPre, irPost := 0, drPost := 0, enabled := true }
      match ch.setController tap controller with
      | (ch, .error e) => (ch, .error e)
      | (ch, .ok ()) => (ch, .ok tap)

def tapDetach (ch : Chain) (tap : Tap) : Chain × Except PyErr Unit :=
  match ch.context? tap with
  | none => (ch, .error (.runtimeError ("Tap " ++ quoted tap.name ++ " is not in chain " ++ quoted ch.name)))
  | some ctx =>
    if ctx.enabled then
      ((ch.applyRemovalGeometry ctx tap.irlen).modify tap fun ctx => { ctx with enabled := false, currentIr := none },
        .ok ())
    else (ch, .ok ())

/-- `tap_remove` as far as the geometry goes. -/
def withdraw (ch : Chain) (ctx : Context) : Chain :=
  let ch := { ch with contexts := ch.contexts.filter fun other => other.tap ≠ ctx.tap }
  if ctx.enabled then ch.applyRemovalGeometry ctx ctx.tap.irlen else ch

/-- `__clear_controller` on a context that has left the dictionary. -/
def unlink (ch : Chain) (ctx : Context) : Chain :=
  match ctx.controller with
  | some controller => ch.modify controller fun c => { c with gated := c.gated.erase ctx.tap }
  | none => ch

def releaseGated (ch : Chain) (gated : List Tap) : Chain :=
  { ch with contexts := ch.contexts.map fun ctx =>
      if ctx.tap ∈ gated then { ctx with controller := none } else ctx }

def tapRemove (ch : Chain) (tap : Tap) : Chain × Except PyErr Unit :=
  match ch.context? tap with
  | none => (ch, .error .keyError)
  | some ctx =>
    let ch := ((ch.withdraw ctx).unlink ctx).releaseGated ctx.gated
    if tap ∈ ch.children then ({ ch with children := ch.children.erase tap }, .ok ())
    else (ch, .error .assertionError)

def tapSetController (ch : Chain) (tap : Tap) (controller : Option Tap) : Chain × Except PyErr Unit :=
  match ch.context? tap with
  | none => (ch, .error (.runtimeError ("Tap " ++ quoted tap.name ++ " is not in chain " ++ quoted ch.name)))
  | some _ => ch.setController tap controller

/-! ### Calls -/

inductive Call where
  | add (name : String) (idcode : Option Nat) (irlen : Nat)
  | insert (name : String) (idcode : Option Nat) (irlen : Nat) (irPre drPre : Int) (controller : Option Tap)
  | reattach (tap : Tap) (irPre drPre : Int) (controller : Option Tap)
  | detach (tap : Tap)
  | remove (tap : Tap)
  | setController (tap : Tap) (controller : Option Tap)

def after (ch : Chain) : Call → Chain
  | .add name idcode irlen => (ch.tapAdd name idcode irlen).1
  | .insert name idcode irlen irPre drPre controller => (ch.tapInsert name idcode irlen irPre drPre controller).1
  | .reattach tap irPre drPre controller => (ch.tapReattach tap irPre drPre controller).1
  | .detach tap => (ch.tapDetach tap).1
  | .remove tap => (ch.tapRemove tap).1
  | .setController tap controller => (ch.tapSetController tap controller).1

end Chain
end Acrobe.Jtag
