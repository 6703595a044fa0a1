import Acrobe.Jtag.ChainLinks

/-!
# Controllers over any sequence of calls

Wherever TAPs are inserted, links stay symmetric and calls that raise change
nothing, as long as a controller that is named has a context.
-/

namespace Acrobe.Jtag
namespace Chain

def Symmetric (ch : Chain) : Prop := ∀ tap k, ch.controllerOf tap = some k ↔ tap ∈ ch.gatedOf k

def exceptionOf {α : Type} : Except PyErr α → Option PyErr
  | .error e => some e
  | .ok _ => none

def raised (ch : Chain) : Call → Option PyErr
  | .add name idcode irlen => exceptionOf (ch.tapAdd name idcode irlen).2
  | .insert name idcode irlen irPre drPre controller => exceptionOf (ch.tapInsert name idcode irlen irPre drPre controller).2
  | .reattach tap irPre drPre controller => exceptionOf (ch.tapReattach tap irPre drPre controller).2
  | .detach tap => exceptionOf (ch.tapDetach tap).2
  | .remove tap => exceptionOf (ch.tapRemove tap).2
  | .setController tap controller => exceptionOf (ch.tapSetController tap controller).2

def linkable (ch : Chain) : Call → Bool
  | .insert _ _ _ _ _ controller => controller.all fun k => (ch.context? k).isSome
  | .reattach tap _ _ controller =>
    match ch.context? tap with
    | some ctx => ctx.enabled || controller.all fun k => (ch.context? k).isSome
    | none => true
  | .setController tap controller => (ch.context? tap).isNone || controller.all fun k => (ch.context? k).isSome
  | _ => true

theorem setController_ok {ch : Chain} {tap : Tap} {controller : Option Tap}
    (known : ∀ k, controller = some k → ch.Knows k) : (ch.setController tap controller).2 = .ok () := by
  cases controller with
  | none => rfl
  | some k => exact (setController_ok_iff ch tap k).mpr (known k rfl)

theorem knows_named {ch : Chain} {controller : Option Tap}
    (known : (controller.all fun k => (ch.context? k).isSome) = true) (k : Tap) (named : controller = some k) :
    ch.Knows k := by
  subst named
  exact known

/-! ### A call succeeds or changes nothing -/

theorem tapInsert_succeeds {ch : Chain} (name : String) (idcode : Option Nat) (irlen : Nat) (irPre drPre : Int)
    {controller : Option Tap} (known : ∀ k, controller = some k → ch.Knows k) :
    (ch.tapInsert name idcode irlen irPre drPre controller).2.toBool = true := by
  have set : ((ch.register (ch.newContext name idcode irlen irPre drPre controller)).setController
      (ch.newContext name idcode irlen irPre drPre controller).tap controller).2 = .ok () := by
    refine setController_ok fun k named => ?_
    rw [knows_iff, keys_register]
    exact List.mem_append_left _ (knows_iff.mp (known k named))
  simp only [tapInsert]
  split
  · rename_i failed
    rw [failed] at set
    cases set
  · rfl

theorem tapReattach_cases {ch : Chain} (tap : Tap) (irPre drPre : Int) {controller : Option Tap}
    (linkable : ch.linkable (.reattach tap irPre drPre controller) = true) :
    (ch.tapReattach tap irPre drPre controller).1 = ch ∨ (ch.tapReattach tap irPre drPre controller).2.toBool = true := by
  cases found : ch.context? tap with
  | none =>
    left
    simp only [tapReattach, found]
  | some ctx =>
    cases enabled : ctx.enabled with
    | true =>
      left
      simp only [tapReattach, found, enabled, if_true]
    | false =>
      right
      simp only [Chain.linkable, found, enabled, Bool.false_or] at linkable
      refine (tapReattach_eq found enabled irPre drPre controller).2.mpr (setController_ok fun k named => ?_)
      rw [knows_iff, keys_putBack]
      exact knows_iff.mp (knows_named linkable k named)

theorem tapRemove_cases {ch : Chain} (tracked : Tracked ch) (tap : Tap) :
    (ch.tapRemove tap).1 = ch ∨ (ch.tapRemove tap).2.toBool = true := by
  cases found : ch.context? tap with
  | none =>
    left
    simp only [tapRemove, found]
  | some ctx =>
    right
    obtain ⟨_, rfl⟩ := context?_some found
    rw [(tapRemove_ok tracked found).1]
    rfl

theorem tapSetController_cases {ch : Chain} (tap : Tap) {controller : Option Tap}
    (linkable : ch.linkable (.setController tap controller) = true) :
    (ch.tapSetController tap controller).1 = ch ∨ (ch.tapSetController tap controller).2.toBool = true := by
  cases found : ch.context? tap with
  | none =>
    left
    simp only [tapSetController, found]
  | some ctx =>
    right
    simp only [Chain.linkable, found, Option.isNone_some, Bool.false_or] at linkable
    simp only [tapSetController, found, setController_ok (knows_named linkable)]
    rfl

theorem tapDetach_cases (ch : Chain) (tap : Tap) :
    (ch.tapDetach tap).1 = ch ∨ (ch.tapDetach tap).2.toBool = true := by
  cases found : ch.context? tap with
  | none =>
    left
    simp only [tapDetach, found]
  | some ctx =>
    right
    simp only [tapDetach, found]
    split <;> rfl

theorem after_cases {ch : Chain} (tracked : Tracked ch) {call : Call} (linkable : ch.linkable call = true) :
    ch.after call = ch ∨ ch.succeeds call = true := by
  cases call with
  | add name idcode irlen => exact .inr rfl
  | insert name idcode irlen irPre drPre controller =>
    exact .inr (tapInsert_succeeds name idcode irlen irPre drPre (knows_named linkable))
  | reattach tap irPre drPre controller => exact tapReattach_cases tap irPre drPre linkable
  | detach tap => exact tapDetach_cases ch tap
  | remove tap => exact tapRemove_cases tracked tap
  | setController tap controller => exact tapSetController_cases tap linkable

/-! ### Runs -/

theorem after_tracked {ch : Chain} (tracked : Tracked ch) {call : Call} (ok : ch.succeeds call = true) :
    Tracked (ch.after call) := by
  cases call with
  | add name idcode irlen => exact tapInsert_tracked tracked name idcode irlen ch.totalIrlen ch.totalDrlen ok
  | insert name idcode irlen irPre drPre controller => exact tapInsert_tracked tracked name idcode irlen irPre drPre ok
  | reattach tap irPre drPre controller => exact tapReattach_tracked tracked tap irPre drPre ok
  | detach tap => exact tapDetach_tracked tracked tap
  | remove tap => exact tapRemove_tracked tracked tap
  | setController tap controller => exact tapSetController_tracked tracked tap ok

theorem exceptionOf_toBool {α : Type} {result : Except PyErr α} (ok : result.toBool = true) :
    exceptionOf result = none := by
  cases result with
  | error e => cases ok
  | ok value => rfl

theorem raised_of_succeeds {ch : Chain} {call : Call} (ok : ch.succeeds call = true) : ch.raised call = none := by
  cases call with
  | add name idcode irlen =>
    show exceptionOf (ch.tapAdd name idcode irlen).2 = none
    exact exceptionOf_toBool ok
  | insert name idcode irlen irPre drPre controller => exact exceptionOf_toBool ok
  | reattach tap irPre drPre controller => exact exceptionOf_toBool ok
  | detach tap => exact exceptionOf_toBool ok
  | remove tap => exact exceptionOf_toBool ok
  | setController tap controller => exact exceptionOf_toBool ok

def LinkableRun (ch : Chain) : List Call → Prop
  | [] => True
  | call :: calls => ch.linkable call = true ∧ LinkableRun (ch.after call) calls

instance decidableLinkableRun : (ch : Chain) → (calls : List Call) → Decidable (ch.LinkableRun calls)
  | _, [] => .isTrue trivial
  | ch, call :: calls =>
    have := decidableLinkableRun (ch.after call) calls
    inferInstanceAs (Decidable (ch.linkable call = true ∧ (ch.after call).LinkableRun calls))

/-- What holds of a chain and of all that the calls make of it, and of every call that raises. -/
def LinksKept (ch : Chain) : List Call → Prop
  | [] => Symmetric ch
  | call :: calls => Symmetric ch ∧ (∀ e, ch.raised call = some e → ch.after call = ch) ∧ LinksKept (ch.after call) calls

theorem run_links {ch : Chain} (tracked : Tracked ch) {calls : List Call} (linkable : LinkableRun ch calls) :
    LinksKept ch calls := by
  induction calls generalizing ch with
  | nil => exact tracked.linked.back
  | cons call calls ih =>
    obtain ⟨first, rest⟩ := linkable
    rcases after_cases tracked first with same | ok
    · rw [same] at rest
      refine ⟨tracked.linked.back, fun _ _ => same, ?_⟩
      rw [same]
      exact ih tracked rest
    · refine ⟨tracked.linked.back, fun e raised => ?_, ih (after_tracked tracked ok) rest⟩
      rw [raised_of_succeeds ok] at raised
      cases raised

/-- In every run of calls the links are symmetric and calls that raise leave the chain as it was. -/
theorem run_links_kept {name : String} {calls : List Call} (linkable : LinkableRun { name } calls) :
    LinksKept { name } calls :=
  run_links (tracked_empty name) linkable

/-- A TAP changes hands, is refused a second place, and loses its controller. -/
theorem run_links_kept_handover :
    let calls : List Call := [.add "a" none 4, .add "b" none 5, .insert "c" none 2 0 0 (some ⟨0, "a", none, 4⟩),
      .setController ⟨2, "c", none, 2⟩ (some ⟨1, "b", none, 5⟩), .reattach ⟨2, "c", none, 2⟩ 0 0 none,
      .remove ⟨1, "b", none, 5⟩]
    LinksKept { name := "chain" } calls :=
  run_links_kept (by decide)

/-- The controller is recorded before it is looked up. -/
theorem unknown_controller_recorded : ¬ ∀ calls : List Call, LinksKept { name := "chain" } calls := by
  intro kept
  obtain ⟨_, _, _, _, back⟩ := kept [.add "a" none 4, .setController ⟨0, "a", none, 4⟩ (some ⟨7, "x", none, 4⟩)]
  have linked := (back ⟨0, "a", none, 4⟩ ⟨7, "x", none, 4⟩).mp (by decide)
  exact absurd linked (by decide)

end Chain
end Acrobe.Jtag
