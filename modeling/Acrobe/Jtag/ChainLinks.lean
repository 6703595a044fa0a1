import Acrobe.Jtag.ChainFlush
import Acrobe.Jtag.ChainGeometry

/-!
# Controllers and the TAPs they gate

A context names the controller of its TAP, and the context of the controller
lists the TAPs it gates. After calls that succeed the two agree.
-/

namespace Acrobe.Jtag
namespace Chain

def controllerOf (ch : Chain) (tap : Tap) : Option Tap := (ch.context? tap).bind Context.controller

def gatedOf (ch : Chain) (tap : Tap) : List Tap := ((ch.context? tap).map Context.gated).getD []

structure Linked (ch : Chain) : Prop where
  back : ∀ tap k, ch.controllerOf tap = some k ↔ tap ∈ ch.gatedOf k
  once : ∀ k, (ch.gatedOf k).Nodup

/-- The same links, up to the order of the gated TAPs. -/
structure SameLinks (ch ch' : Chain) : Prop where
  controller : ∀ tap, ch'.controllerOf tap = ch.controllerOf tap
  gated : ∀ tap, (ch'.gatedOf tap).Perm (ch.gatedOf tap)

theorem SameLinks.refl (ch : Chain) : SameLinks ch ch := ⟨fun _ => rfl, fun _ => .rfl⟩

theorem SameLinks.trans {a b c : Chain} (h : SameLinks a b) (h' : SameLinks b c) : SameLinks a c :=
  ⟨fun tap => (h'.controller tap).trans (h.controller tap), fun tap => (h'.gated tap).trans (h.gated tap)⟩

theorem Linked.transport {ch ch' : Chain} (linked : Linked ch) (same : SameLinks ch ch') : Linked ch' := by
  constructor
  · intro tap k
    rw [same.controller, (same.gated k).mem_iff]
    exact linked.back tap k
  · intro k
    exact (same.gated k).nodup_iff.mpr (linked.once k)

/-! ### Looking contexts up -/

theorem context?_map (ch : Chain) {f : Context → Context} (keeps : ∀ c, (f c).tap = c.tap) (tap : Tap) :
    ({ ch with contexts := ch.contexts.map f } : Chain).context? tap = (ch.context? tap).map f := by
  have same : (fun ctx : Context => decide (ctx.tap = tap)) ∘ f = fun ctx => decide (ctx.tap = tap) := by
    funext c
    simp only [Function.comp_apply, keeps]
  rw [context?, List.find?_map, same]
  rfl

theorem context?_modify (ch : Chain) {tap : Tap} {f : Context → Context} (keeps : ∀ c, (f c).tap = c.tap) (t : Tap) :
    (ch.modify tap f).context? t = if t = tap then (ch.context? t).map f else ch.context? t := by
  rw [modify, context?_map]
  · cases known : ch.context? t with
    | none => simp
    | some c =>
      obtain ⟨_, rfl⟩ := context?_some known
      by_cases itself : c.tap = tap <;> simp [itself]
  · intro c
    split
    · exact keeps c
    · rfl

theorem sameLinks_map (ch : Chain) {f : Context → Context} (keeps : ∀ c, (f c).tap = c.tap)
    (links : ∀ c, ch.context? c.tap = some c → (f c).controller = c.controller ∧ (f c).gated = c.gated) :
    SameLinks ch { ch with contexts := ch.contexts.map f } := by
  constructor
  · intro tap
    rw [controllerOf, controllerOf, context?_map ch keeps]
    cases known : ch.context? tap with
    | none => rfl
    | some c =>
      obtain ⟨_, rfl⟩ := context?_some known
      exact (links c known).1
  · intro tap
    rw [gatedOf, gatedOf, context?_map ch keeps]
    cases known : ch.context? tap with
    | none => exact .rfl
    | some c =>
      obtain ⟨_, rfl⟩ := context?_some known
      exact .of_eq (links c known).2

/-! ### `__clear_controller` and `__set_controller` -/

theorem gatedOf_modify_erase (ch : Chain) (controller tap k : Tap) :
    (ch.modify controller fun c => { c with gated := c.gated.erase tap }).gatedOf k =
      if k = controller then (ch.gatedOf k).erase tap else ch.gatedOf k := by
  rw [gatedOf, gatedOf, context?_modify]
  · split <;> cases ch.context? k <;> rfl
  · exact fun _ => rfl

theorem controllerOf_modify_gated (ch : Chain) (controller : Tap) (f : Context → List Tap) (t : Tap) :
    (ch.modify controller fun c => { c with gated := f c }).controllerOf t = ch.controllerOf t := by
  rw [controllerOf, controllerOf, context?_modify]
  · split <;> cases ch.context? t <;> rfl
  · exact fun _ => rfl

theorem gatedOf_modify_controller (ch : Chain) (tap : Tap) (controller : Option Tap) (k : Tap) :
    (ch.modify tap fun c => { c with controller }).gatedOf k = ch.gatedOf k := by
  rw [gatedOf, gatedOf, context?_modify]
  · split <;> cases ch.context? k <;> rfl
  · exact fun _ => rfl

theorem controllerOf_modify_none (ch : Chain) (tap t : Tap) :
    (ch.modify tap fun c => { c with controller := none }).controllerOf t =
      if t = tap then none else ch.controllerOf t := by
  rw [controllerOf, controllerOf, context?_modify]
  · split <;> cases ch.context? t <;> rfl
  · exact fun _ => rfl

theorem controllerOf_modify_some {ch : Chain} {tap : Tap} {ctx : Context} (known : ch.context? tap = some ctx)
    (controller t : Tap) :
    (ch.modify tap fun c => { c with controller := some controller }).controllerOf t =
      if t = tap then some controller else ch.controllerOf t := by
  rw [controllerOf, controllerOf, context?_modify]
  · split
    · rename_i itself
      rw [itself, known]
      rfl
    · rfl
  · exact fun _ => rfl

theorem clearController_of_none {ch : Chain} {tap : Tap} (free : ch.controllerOf tap = none) :
    ch.clearController tap = ch := by
  unfold clearController
  rw [controllerOf] at free
  cases known : ch.context? tap with
  | none => rfl
  | some ctx =>
    rw [known, Option.bind_some] at free
    simp only [free]

theorem clearController_of_some {ch : Chain} {tap k : Tap} (gated : ch.controllerOf tap = some k) :
    ch.clearController tap =
      (ch.modify k fun c => { c with gated := c.gated.erase tap }).modify tap fun ctx => { ctx with controller := none } := by
  unfold clearController
  rw [controllerOf] at gated
  obtain ⟨ctx, known, controller⟩ := Option.bind_eq_some_iff.mp gated
  simp only [known, controller]

theorem controllerOf_clearController (ch : Chain) (tap t : Tap) :
    (ch.clearController tap).controllerOf t = if t = tap then none else ch.controllerOf t := by
  cases gated : ch.controllerOf tap with
  | none =>
    rw [clearController_of_none gated]
    split
    · rename_i itself
      rw [itself, gated]
    · rfl
  | some k => rw [clearController_of_some gated, controllerOf_modify_none, controllerOf_modify_gated]

theorem gatedOf_clearController (ch : Chain) (tap k : Tap) :
    (ch.clearController tap).gatedOf k =
      if ch.controllerOf tap = some k then (ch.gatedOf k).erase tap else ch.gatedOf k := by
  cases gated : ch.controllerOf tap with
  | none =>
    rw [clearController_of_none gated, if_neg (by simp)]
  | some other =>
    rw [clearController_of_some gated, gatedOf_modify_controller, gatedOf_modify_erase]
    simp only [Option.some.injEq, eq_comm]

/-- Linked, except that the controller of `tap` may not know of it. -/
structure LinkedBut (ch : Chain) (tap : Tap) : Prop where
  controlled : ∀ t k, t ∈ ch.gatedOf k → ch.controllerOf t = some k
  gates : ∀ t k, t ≠ tap → ch.controllerOf t = some k → t ∈ ch.gatedOf k
  once : ∀ k, (ch.gatedOf k).Nodup

theorem Linked.but {ch : Chain} (linked : Linked ch) (tap : Tap) : LinkedBut ch tap :=
  ⟨fun t k => (linked.back t k).mpr, fun t k _ => (linked.back t k).mp, linked.once⟩

theorem clearController_linked {ch : Chain} {tap : Tap} (linked : LinkedBut ch tap) :
    Linked (ch.clearController tap) := by
  constructor
  · intro t k
    rw [controllerOf_clearController, gatedOf_clearController]
    by_cases itself : t = tap
    · subst itself
      rw [if_pos rfl]
      refine ⟨nofun, fun member => ?_⟩
      split at member
      · exact ((linked.once k).not_mem_erase member).elim
      · rename_i other
        exact (other (linked.controlled t k member)).elim
    · have same : t ∈ (if ch.controllerOf tap = some k then (ch.gatedOf k).erase tap else ch.gatedOf k) ↔
          t ∈ ch.gatedOf k := by
        split
        · exact List.mem_erase_of_ne itself
        · exact Iff.rfl
      rw [if_neg itself, same]
      exact ⟨linked.gates t k itself, linked.controlled t k⟩
  · intro k
    rw [gatedOf_clearController]
    split
    · exact (linked.once k).erase _
    · exact linked.once k

def Knows (ch : Chain) (tap : Tap) : Prop := (ch.context? tap).isSome

theorem knows_modify (ch : Chain) {tap : Tap} {f : Context → Context} (keeps : ∀ c, (f c).tap = c.tap) (t : Tap) :
    (ch.modify tap f).Knows t ↔ ch.Knows t := by
  unfold Knows
  rw [context?_modify ch keeps]
  split <;> simp

theorem knows_clearController (ch : Chain) (tap t : Tap) : (ch.clearController tap).Knows t ↔ ch.Knows t := by
  cases gated : ch.controllerOf tap with
  | none => rw [clearController_of_none gated]
  | some k =>
    rw [clearController_of_some gated, knows_modify, knows_modify]
    · exact fun _ => rfl
    · exact fun _ => rfl

theorem gatedOf_modify_append {ch : Chain} {controller : Tap} (known : ch.Knows controller) {tap : Tap}
    (fresh : tap ∉ ch.gatedOf controller) (k : Tap) :
    (ch.modify controller fun c => if tap ∈ c.gated then c else { c with gated := c.gated ++ [tap] }).gatedOf k =
      if k = controller then ch.gatedOf k ++ [tap] else ch.gatedOf k := by
  obtain ⟨ctx, here⟩ := Option.isSome_iff_exists.mp known
  rw [gatedOf, context?_modify]
  · split
    · rename_i itself
      rw [itself] at *
      rw [gatedOf, here] at fresh ⊢
      simp only [Option.map_some, Option.getD_some] at fresh ⊢
      rw [if_neg fresh]
    · rfl
  · intro c
    split <;> rfl

theorem controllerOf_modify_append (ch : Chain) (controller tap t : Tap) :
    (ch.modify controller fun c => if tap ∈ c.gated then c else { c with gated := c.gated ++ [tap] }).controllerOf t =
      ch.controllerOf t := by
  rw [controllerOf, controllerOf, context?_modify]
  · split
    · cases ch.context? t with
      | none => rfl
      | some c =>
        simp only [Option.map_some, Option.bind_some]
        split <;> rfl
    · rfl
  · intro c
    split <;> rfl

theorem setController_eq {ch : Chain} {tap k : Tap} (known : ch.Knows k) :
    ch.setController tap (some k) =
      (((ch.clearController tap).modify tap fun ctx => { ctx with controller := some k }).modify k fun c =>
        if tap ∈ c.gated then c else { c with gated := c.gated ++ [tap] }, .ok ()) := by
  have still : ((ch.clearController tap).modify tap fun ctx => { ctx with controller := some k }).Knows k := by
    rw [knows_modify, knows_clearController]
    · exact known
    · exact fun _ => rfl
  obtain ⟨ctx, here⟩ := Option.isSome_iff_exists.mp still
  simp only [setController, here]

theorem setController_ok_iff (ch : Chain) (tap k : Tap) : (ch.setController tap (some k)).2 = .ok () ↔ ch.Knows k := by
  constructor
  · intro ok
    have still : ((ch.clearController tap).modify tap fun ctx => { ctx with controller := some k }).Knows k := by
      unfold Knows
      cases here : ((ch.clearController tap).modify tap fun ctx => { ctx with controller := some k }).context? k with
      | none =>
        simp only [setController, here] at ok
        cases ok
      | some ctx => rfl
    rwa [knows_modify, knows_clearController] at still
    exact fun _ => rfl
  · intro known
    rw [setController_eq known]

theorem setController_links {ch : Chain} {tap k : Tap} (linked : LinkedBut ch tap) (here : ch.Knows tap)
    (known : ch.Knows k) :
    (∀ t, (ch.setController tap (some k)).1.controllerOf t = if t = tap then some k else ch.controllerOf t) ∧
      ∀ j, (ch.setController tap (some k)).1.gatedOf j =
        if j = k then (ch.clearController tap).gatedOf j ++ [tap] else (ch.clearController tap).gatedOf j := by
  have cleared := clearController_linked linked
  have fresh : tap ∉ (ch.clearController tap).gatedOf k := by
    rw [← cleared.back, controllerOf_clearController, if_pos rfl]
    exact nofun
  rw [setController_eq known]
  constructor
  · intro t
    obtain ⟨ctx, found⟩ := Option.isSome_iff_exists.mp ((knows_clearController ch tap tap).mpr here)
    rw [controllerOf_modify_append, controllerOf_modify_some found, controllerOf_clearController]
    split <;> rfl
  · intro j
    rw [gatedOf_modify_append, gatedOf_modify_controller]
    · rw [knows_modify, knows_clearController]
      · exact known
      · exact fun _ => rfl
    · rwa [gatedOf_modify_controller]

theorem setController_linked {ch : Chain} {tap : Tap} (linked : LinkedBut ch tap) (here : ch.Knows tap)
    {controller : Option Tap} (ok : (ch.setController tap controller).2 = .ok ()) :
    Linked (ch.setController tap controller).1 := by
  have cleared := clearController_linked linked
  cases controller with
  | none => exact cleared
  | some k =>
    obtain ⟨controllers, gated⟩ := setController_links linked here ((setController_ok_iff ch tap k).mp ok)
    have free : ∀ j, tap ∉ (ch.clearController tap).gatedOf j := by
      intro j
      rw [← cleared.back, controllerOf_clearController, if_pos rfl]
      exact nofun
    constructor
    · intro t j
      rw [controllers, gated]
      by_cases itself : t = tap
      · subst itself
        rw [if_pos rfl]
        by_cases same : j = k
        · simp [same]
        · simp [same, Ne.symm same, free j]
      · have kept := cleared.back t j
        rw [controllerOf_clearController, if_neg itself] at kept
        rw [if_neg itself, kept]
        split
        · simp [itself]
        · exact Iff.rfl
    · intro j
      rw [gated]
      split
      · exact (cleared.once j).append (List.nodup_singleton _) (by simpa using free j)
      · exact cleared.once j

theorem sameLinks_setController {ch : Chain} (linked : Linked ch) {tap : Tap} (here : ch.Knows tap) :
    (ch.setController tap (ch.controllerOf tap)).2 = .ok () ∧
      SameLinks ch (ch.setController tap (ch.controllerOf tap)).1 := by
  cases gated : ch.controllerOf tap with
  | none =>
    have same : ch.setController tap none = (ch, .ok ()) := by
      simp only [setController, clearController_of_none gated]
    rw [same]
    exact ⟨rfl, .refl ch⟩
  | some k =>
    have member := (linked.back tap k).mp gated
    have known : ch.Knows k := by
      unfold Knows
      cases found : ch.context? k with
      | none =>
        rw [gatedOf, found] at member
        cases member
      | some ctx => rfl
    obtain ⟨controllers, lists⟩ := setController_links (linked.but tap) here known
    refine ⟨(setController_ok_iff ch tap k).mpr known, fun t => ?_, fun j => ?_⟩
    · rw [controllers]
      split
      · rename_i itself
        rw [itself, gated]
      · rfl
    · rw [lists, gatedOf_clearController, gated]
      by_cases same : j = k
      · subst same
        rw [if_pos rfl, if_pos rfl]
        exact (List.perm_append_singleton _ _).trans (List.perm_cons_erase member).symm
      · rw [if_neg same, if_neg fun other => same (Option.some.inj other).symm]

/-! ### Calls -/

theorem inserted_links (ch : Chain) (ctx other : Context) :
    (inserted ch ctx other).controller = other.controller ∧ (inserted ch ctx other).gated = other.gated := by
  unfold inserted
  split
  · exact ⟨rfl, rfl⟩
  · split
    · unfold shiftIn
      split <;> exact ⟨rfl, rfl⟩
    · exact ⟨rfl, rfl⟩

theorem shiftOut_links (irPre irlen : Int) (ctx : Context) :
    (shiftOut irPre irlen ctx).controller = ctx.controller ∧ (shiftOut irPre irlen ctx).gated = ctx.gated := by
  unfold shiftOut
  split <;> exact ⟨rfl, rfl⟩

theorem sameLinks_insertion (ch : Chain) (ctx : Context) :
    SameLinks ch (ch.applyInsertionGeometry ctx ctx.tap.irlen) := by
  have same := sameLinks_map ch (inserted_tap ch ctx) fun c _ => inserted_links ch ctx c
  exact ⟨same.controller, same.gated⟩

theorem register_links {ch : Chain} {ctx : Context} (fresh : ch.context? ctx.tap = none) (alone : ctx.gated = []) :
    (∀ t, (ch.register ctx).controllerOf t = if t = ctx.tap then ctx.controller else ch.controllerOf t) ∧
      ∀ k, ((ch.register ctx).gatedOf k).Perm (ch.gatedOf k) := by
  have lookup : ∀ t, ({ ch with contexts := ch.contexts ++ [ctx], fresh := ch.fresh + 1 } : Chain).context? t =
      if t = ctx.tap then some ctx else ch.context? t := by
    intro t
    rw [context?, List.find?_append, ← context?]
    by_cases itself : t = ctx.tap
    · rw [itself, fresh, if_pos rfl]
      simp
    · rw [if_neg itself]
      simp [Ne.symm itself]
  have geometry := sameLinks_insertion { ch with contexts := ch.contexts ++ [ctx], fresh := ch.fresh + 1 } ctx
  constructor
  · intro t
    refine (geometry.controller t).trans ?_
    rw [controllerOf, lookup]
    split <;> rfl
  · intro k
    refine (geometry.gated k).trans (.of_eq ?_)
    rw [gatedOf, lookup]
    split
    · rename_i itself
      rw [gatedOf, itself, fresh]
      exact alone
    · rfl

theorem register_linkedBut {ch : Chain} (linked : Linked ch) {ctx : Context} (fresh : ch.context? ctx.tap = none)
    (alone : ctx.gated = []) : LinkedBut (ch.register ctx) ctx.tap := by
  obtain ⟨controllers, gated⟩ := register_links fresh alone
  have nobody : ch.controllerOf ctx.tap = none := by rw [controllerOf, fresh]; rfl
  constructor
  · intro t k member
    have was := (linked.back t k).mpr ((gated k).mem_iff.mp member)
    rw [controllers]
    by_cases itself : t = ctx.tap
    · rw [itself, nobody] at was
      cases was
    · rw [if_neg itself, was]
  · intro t k other has
    rw [controllers, if_neg other] at has
    exact (gated k).mem_iff.mpr ((linked.back t k).mp has)
  · intro k
    exact (gated k).nodup_iff.mpr (linked.once k)

theorem keys_setController (ch : Chain) (tap : Tap) (controller : Option Tap) :
    (ch.setController tap controller).1.contexts.map Context.tap = ch.contexts.map Context.tap :=
  (sameButLinks_setController ch tap controller).map_eq Context.tap

theorem children_setController (ch : Chain) (tap : Tap) (controller : Option Tap) :
    (ch.setController tap controller).1.children = ch.children := by
  have cleared : (ch.clearController tap).children = ch.children := by
    unfold clearController
    split
    · rfl
    · split <;> rfl
  cases controller with
  | none => exact cleared
  | some k =>
    simp only [setController]
    split <;> exact cleared

theorem knows_iff {ch : Chain} {tap : Tap} : ch.Knows tap ↔ tap ∈ ch.contexts.map Context.tap := by
  unfold Knows context?
  rw [List.find?_isSome]
  simp

/-- What links need of the rest: contexts of different TAPs, none of them of an object yet to come. -/
structure Tracked (ch : Chain) : Prop where
  linked : Linked ch
  keys : (ch.contexts.map Context.tap).Nodup
  older : ∀ tap ∈ ch.contexts.map Context.tap, tap.id < ch.fresh
  children : ch.children = ch.contexts.map Context.tap

theorem tracked_empty (name : String) : Tracked { name } :=
  ⟨⟨fun _ _ => ⟨nofun, nofun⟩, fun _ => List.nodup_nil⟩, List.nodup_nil, nofun, rfl⟩

theorem Tracked.unknown {ch : Chain} (tracked : Tracked ch) {tap : Tap} (newer : ch.fresh ≤ tap.id) :
    ch.context? tap = none := by
  cases known : ch.context? tap with
  | none => rfl
  | some ctx =>
    obtain ⟨member, rfl⟩ := context?_some known
    exact (Nat.not_lt_of_le newer (tracked.older ctx.tap (List.mem_map_of_mem member))).elim

structure Sane (ch : Chain) : Prop where
  tiles : ∃ order, Tiles ch order
  linked : Linked ch
  children : ch.children = ch.contexts.map Context.tap

theorem Sane.tracked {ch : Chain} (sane : Sane ch) : Tracked ch := by
  obtain ⟨order, tiles⟩ := sane.tiles
  refine ⟨sane.linked, tiles.keys, fun tap member => ?_, sane.children⟩
  obtain ⟨ctx, here, rfl⟩ := List.mem_map.mp member
  exact tiles.older ctx here

theorem Sane.unknown {ch : Chain} (sane : Sane ch) {tap : Tap} (newer : ch.fresh ≤ tap.id) : ch.context? tap = none :=
  sane.tracked.unknown newer

theorem sane_empty (name : String) : Sane { name } :=
  ⟨⟨[], empty_tiles name⟩, ⟨fun _ _ => ⟨nofun, nofun⟩, fun _ => List.nodup_nil⟩, rfl⟩

theorem keys_register (ch : Chain) (ctx : Context) :
    (ch.register ctx).contexts.map Context.tap = ch.contexts.map Context.tap ++ [ctx.tap] := by
  have taps : (ch.contexts ++ [ctx]).map (Context.tap ∘ inserted { ch with
      contexts := ch.contexts ++ [ctx], fresh := ch.fresh + 1 } ctx) = (ch.contexts ++ [ctx]).map Context.tap :=
    List.map_congr_left fun c _ => inserted_tap _ ctx c
  rw [register, applyInsertionGeometry_contexts, List.map_map, taps, List.map_append]
  rfl

def withChild (ch : Chain) (tap : Tap) : Chain := { ch with children := ch.children ++ [tap] }

theorem tapInsert_ok {ch : Chain} {name : String} {idcode : Option Nat} {irlen : Nat} {irPre drPre : Int}
    {controller : Option Tap} (ok : (ch.tapInsert name idcode irlen irPre drPre controller).2.toBool = true) :
    let ctx := ch.newContext name idcode irlen irPre drPre controller
    ((ch.register ctx).setController ctx.tap controller).2 = .ok () ∧
      (ch.tapInsert name idcode irlen irPre drPre controller).1 =
        ((ch.register ctx).setController ctx.tap controller).1.withChild ctx.tap := by
  intro ctx
  simp only [tapInsert] at ok ⊢
  split at ok
  · cases ok
  · rename_i set
    simp only [ctx, set]
    exact ⟨trivial, rfl⟩

theorem tapInsert_tracked {ch : Chain} (tracked : Tracked ch) (name : String) (idcode : Option Nat) (irlen : Nat)
    (irPre drPre : Int) {controller : Option Tap}
    (ok : (ch.tapInsert name idcode irlen irPre drPre controller).2.toBool = true) :
    Tracked (ch.tapInsert name idcode irlen irPre drPre controller).1 := by
  obtain ⟨set, shape⟩ := tapInsert_ok ok
  rw [shape]
  generalize entry : ch.newContext name idcode irlen irPre drPre controller = ctx at *
  have fresh : ch.context? ctx.tap = none := by
    refine tracked.unknown (Nat.le_of_eq ?_)
    rw [← entry]
    rfl
  have alone : ctx.gated = [] := by rw [← entry]; rfl
  have here : (ch.register ctx).Knows ctx.tap := by
    rw [knows_iff, keys_register]
    exact List.mem_append_right _ List.mem_cons_self
  have linked := setController_linked (register_linkedBut tracked.linked fresh alone) here set
  have keys : (((ch.register ctx).setController ctx.tap controller).1.withChild ctx.tap).contexts.map Context.tap =
      ch.contexts.map Context.tap ++ [ctx.tap] := by
    rw [withChild, keys_setController, keys_register]
  have counted : (((ch.register ctx).setController ctx.tap controller).1.withChild ctx.tap).fresh = ch.fresh + 1 := by
    rw [withChild, (sameButLinks_setController ..).fresh]
    rfl
  have missing : ctx.tap ∉ ch.contexts.map Context.tap := by
    rw [← knows_iff, Knows, fresh]
    exact Bool.false_ne_true
  refine ⟨⟨linked.back, linked.once⟩, ?_, fun tap member => ?_, ?_⟩
  · rw [keys]
    exact tracked.keys.append (List.nodup_singleton _) (by simpa using missing)
  · rw [counted]
    rw [keys] at member
    rcases List.mem_append.mp member with old | new
    · exact Nat.lt_succ_of_lt (tracked.older tap old)
    · rw [List.mem_singleton.mp new, ← entry]
      exact Nat.lt_succ_self _
  · rw [keys]
    show ((ch.register ctx).setController ctx.tap controller).1.children ++ [ctx.tap] = _
    rw [children_setController, ← tracked.children]
    rfl

theorem tapInsert_sane {ch : Chain} (sane : Sane ch) (name : String) (idcode : Option Nat) {irlen : Nat}
    (some : 1 ≤ irlen) {irPre drPre : Int} (boundary : ch.Boundary irPre drPre) {controller : Option Tap}
    (ok : (ch.tapInsert name idcode irlen irPre drPre controller).2.toBool = true) :
    Sane (ch.tapInsert name idcode irlen irPre drPre controller).1 := by
  obtain ⟨order, tiles⟩ := sane.tiles
  obtain ⟨order', tiles', _⟩ := tapInsert_edit tiles name idcode some boundary controller
  have tracked := tapInsert_tracked sane.tracked name idcode irlen irPre drPre ok
  exact ⟨⟨order', tiles'⟩, tracked.linked, tracked.children⟩

theorem sameLinks_putBack {ch : Chain} {ctx ctx' : Context} (known : ch.context? ctx.tap = some ctx)
    (tap : ctx'.tap = ctx.tap) (controller : ctx'.controller = ctx.controller) (gated : ctx'.gated = ctx.gated) :
    SameLinks ch (ch.putBack ctx') := by
  refine .trans ?_ (sameLinks_insertion _ ctx')
  refine sameLinks_map ch (fun c => ?_) fun c here => ?_
  · split
    · rename_i itself
      exact itself.symm
    · rfl
  · split
    · rename_i itself
      rw [itself, tap, known] at here
      cases Option.some.inj here
      exact ⟨controller, gated⟩
    · exact ⟨rfl, rfl⟩

theorem keys_putBack (ch : Chain) (ctx : Context) :
    (ch.putBack ctx).contexts.map Context.tap = ch.contexts.map Context.tap := by
  rw [putBack, applyInsertionGeometry_contexts, List.map_map, modify, List.map_map]
  refine List.map_congr_left fun c _ => ?_
  simp only [Function.comp_apply, inserted_tap]
  split
  · rename_i itself
    exact itself.symm
  · rfl

theorem tapReattach_eq {ch : Chain} {tap : Tap} {ctx : Context} (known : ch.context? tap = some ctx)
    (detached : ctx.enabled = false) (irPre drPre : Int) (controller : Option Tap) :
    let back := ch.putBack { ctx with irPre, drPre, irPost := 0, drPost := 0, enabled := true }
    (ch.tapReattach tap irPre drPre controller).1 = (back.setController tap controller).1 ∧
      ((ch.tapReattach tap irPre drPre controller).2.toBool = true ↔ (back.setController tap controller).2 = .ok ()) := by
  intro back
  simp only [tapReattach, known, detached, Bool.false_eq_true, if_false]
  split
  · rename_i set
    rw [set]
    exact ⟨rfl, by rintro ⟨⟩, by rintro ⟨⟩⟩
  · rename_i set
    rw [set]
    exact ⟨rfl, fun _ => rfl, fun _ => rfl⟩

theorem tapReattach_tracked {ch : Chain} (tracked : Tracked ch) (tap : Tap) (irPre drPre : Int) {controller : Option Tap}
    (ok : (ch.tapReattach tap irPre drPre controller).2.toBool = true) :
    Tracked (ch.tapReattach tap irPre drPre controller).1 := by
  cases known : ch.context? tap with
  | none =>
    simp only [tapReattach, known] at ok
    cases ok
  | some ctx =>
    cases enabled : ctx.enabled with
    | true =>
      simp only [tapReattach, known, enabled, if_true] at ok
      cases ok
    | false =>
      obtain ⟨_, rfl⟩ := context?_some known
      obtain ⟨shape, succeeds⟩ := tapReattach_eq known enabled irPre drPre controller
      rw [shape]
      have links := sameLinks_putBack known
        (rfl : Context.tap { ctx with irPre, drPre, irPost := 0, drPost := 0, enabled := true } = _) rfl rfl
      have here : (ch.putBack { ctx with irPre, drPre, irPost := 0, drPost := 0, enabled := true }).Knows ctx.tap := by
        rw [knows_iff, keys_putBack, ← knows_iff, Knows, known]
        rfl
      have linked := setController_linked ((tracked.linked.transport links).but ctx.tap) here (succeeds.mp ok)
      have keys := (keys_setController _ ctx.tap controller).trans
        (keys_putBack ch { ctx with irPre, drPre, irPost := 0, drPost := 0, enabled := true })
      refine ⟨linked, ?_, ?_, ?_⟩
      · rw [keys]
        exact tracked.keys
      · rw [keys, (sameButLinks_setController ..).fresh]
        exact tracked.older
      · rw [keys, children_setController]
        exact tracked.children

theorem tapReattach_sane {ch : Chain} (sane : Sane ch) (tap : Tap) {irPre drPre : Int}
    (boundary : ch.Boundary irPre drPre) {controller : Option Tap}
    (ok : (ch.tapReattach tap irPre drPre controller).2.toBool = true) :
    Sane (ch.tapReattach tap irPre drPre controller).1 := by
  obtain ⟨order, tiles⟩ := sane.tiles
  obtain ⟨order', tiles', _⟩ := tapReattach_edit tiles tap boundary controller
  have tracked := tapReattach_tracked sane.tracked tap irPre drPre ok
  exact ⟨⟨order', tiles'⟩, tracked.linked, tracked.children⟩

theorem sameLinks_tapDetach (ch : Chain) (tap : Tap) : SameLinks ch (ch.tapDetach tap).1 := by
  cases known : ch.context? tap with
  | none => simp only [tapDetach, known]; exact .refl ch
  | some ctx =>
    obtain ⟨_, rfl⟩ := context?_some known
    cases enabled : ctx.enabled with
    | false => simp only [tapDetach, known, enabled, Bool.false_eq_true, if_false]; exact .refl ch
    | true =>
      rw [tapDetach_eq known enabled]
      have same := sameLinks_map ch (detached_tap ctx) fun c _ => by
        unfold detached
        split
        · exact ⟨rfl, rfl⟩
        · split
          · exact shiftOut_links ..
          · exact ⟨rfl, rfl⟩
      exact ⟨same.controller, same.gated⟩

theorem keys_tapDetach (ch : Chain) (tap : Tap) :
    (ch.tapDetach tap).1.contexts.map Context.tap = ch.contexts.map Context.tap ∧
      (ch.tapDetach tap).1.children = ch.children ∧ (ch.tapDetach tap).1.fresh = ch.fresh := by
  cases known : ch.context? tap with
  | none => simp only [tapDetach, known, and_self]
  | some ctx =>
    obtain ⟨_, rfl⟩ := context?_some known
    cases enabled : ctx.enabled with
    | false => simp only [tapDetach, known, enabled, Bool.false_eq_true, if_false, and_self]
    | true =>
      rw [tapDetach_eq known enabled, List.map_map]
      exact ⟨List.map_congr_left fun c _ => detached_tap ctx c, rfl, rfl⟩

theorem tapDetach_tracked {ch : Chain} (tracked : Tracked ch) (tap : Tap) : Tracked (ch.tapDetach tap).1 := by
  obtain ⟨keys, children, fresh⟩ := keys_tapDetach ch tap
  refine ⟨tracked.linked.transport (sameLinks_tapDetach ch tap), ?_, ?_, ?_⟩
  · rw [keys]
    exact tracked.keys
  · rw [keys, fresh]
    exact tracked.older
  · rw [keys, children, tracked.children]

theorem tapDetach_sane {ch : Chain} (sane : Sane ch) (tap : Tap) : Sane (ch.tapDetach tap).1 := by
  obtain ⟨order, tiles⟩ := sane.tiles
  obtain ⟨order', tiles', _⟩ := tapDetach_edit tiles tap
  have tracked := tapDetach_tracked sane.tracked tap
  exact ⟨⟨order', tiles'⟩, tracked.linked, tracked.children⟩

/-! ### `tap_remove` -/

theorem withdraw_links {ch : Chain} {ctx : Context} :
    (∀ t, (ch.withdraw ctx).controllerOf t = if t = ctx.tap then none else ch.controllerOf t) ∧
      ∀ k, ((ch.withdraw ctx).gatedOf k).Perm (if k = ctx.tap then [] else ch.gatedOf k) := by
  have lookup : ∀ t, ({ ch with contexts := ch.contexts.filter fun other => other.tap ≠ ctx.tap } : Chain).context? t =
      if t = ctx.tap then none else ch.context? t := by
    intro t
    rw [context?, List.find?_filter]
    split
    · rename_i itself
      rw [List.find?_eq_none]
      intro c _
      simp [itself]
    · rename_i other
      refine congrArg (List.find? · ch.contexts) (funext fun c => ?_)
      by_cases same : c.tap = t
      · simp [same, other]
      · simp [same]
  have geometry : SameLinks ({ ch with contexts := ch.contexts.filter fun other => other.tap ≠ ctx.tap } : Chain)
      (ch.withdraw ctx) := by
    unfold withdraw
    split
    · have same := sameLinks_map { ch with contexts := ch.contexts.filter fun other => other.tap ≠ ctx.tap }
        (f := fun other => if other.tap ≠ ctx.tap ∧ other.enabled then shiftOut ctx.irPre ctx.tap.irlen other else other)
        (fun c => by split <;> simp [shiftOut_tap]) fun c _ => by
          split
          · exact shiftOut_links ..
          · exact ⟨rfl, rfl⟩
      exact ⟨same.controller, same.gated⟩
    · exact .refl _
  constructor
  · intro t
    rw [geometry.controller, controllerOf, lookup]
    split <;> rfl
  · intro k
    refine (geometry.gated k).trans (.of_eq ?_)
    rw [gatedOf, lookup]
    split <;> rfl

theorem unlink_links (ch : Chain) (ctx : Context) :
    (∀ t, (ch.unlink ctx).controllerOf t = ch.controllerOf t) ∧
      ∀ k, (ch.unlink ctx).gatedOf k = if ctx.controller = some k then (ch.gatedOf k).erase ctx.tap else ch.gatedOf k := by
  unfold unlink
  cases ctx.controller with
  | none => exact ⟨fun _ => rfl, fun _ => (if_neg nofun).symm⟩
  | some controller =>
    refine ⟨controllerOf_modify_gated ch controller _, fun k => ?_⟩
    rw [gatedOf_modify_erase]
    simp only [Option.some.injEq, eq_comm]

theorem releaseGated_links (ch : Chain) (gated : List Tap) :
    (∀ t, (ch.releaseGated gated).controllerOf t = if t ∈ gated then none else ch.controllerOf t) ∧
      ∀ k, (ch.releaseGated gated).gatedOf k = ch.gatedOf k := by
  have lookup := context?_map ch
    (f := fun ctx => if ctx.tap ∈ gated then { ctx with controller := none } else ctx) (fun c => by split <;> rfl)
  constructor
  · intro t
    rw [controllerOf, controllerOf, releaseGated, lookup]
    cases known : ch.context? t with
    | none => simp
    | some c =>
      obtain ⟨_, rfl⟩ := context?_some known
      simp only [Option.map_some, Option.bind_some]
      split <;> rfl
  · intro k
    rw [gatedOf, gatedOf, releaseGated, lookup]
    cases ch.context? k with
    | none => rfl
    | some c =>
      simp only [Option.map_some, Option.getD_some]
      split <;> rfl

theorem remove_links {ch : Chain} (ctx : Context) :
    (∀ t, (((ch.withdraw ctx).unlink ctx).releaseGated ctx.gated).controllerOf t =
      if t ∈ ctx.gated then none else if t = ctx.tap then none else ch.controllerOf t) ∧
      ∀ k, ((((ch.withdraw ctx).unlink ctx).releaseGated ctx.gated).gatedOf k).Perm
        (if k = ctx.tap then [] else if ctx.controller = some k then (ch.gatedOf k).erase ctx.tap else ch.gatedOf k) := by
  obtain ⟨withdrawn, withdrawnGated⟩ := @withdraw_links ch ctx
  obtain ⟨unlinked, unlinkedGated⟩ := unlink_links (ch.withdraw ctx) ctx
  obtain ⟨released, releasedGated⟩ := releaseGated_links ((ch.withdraw ctx).unlink ctx) ctx.gated
  constructor
  · intro t
    rw [released, unlinked, withdrawn]
  · intro k
    have perm := withdrawnGated k
    rw [releasedGated, unlinkedGated]
    by_cases gone : k = ctx.tap
    · rw [if_pos gone] at perm ⊢
      rw [perm.eq_nil]
      split <;> exact .rfl
    · rw [if_neg gone] at perm ⊢
      split
      · exact perm.erase _
      · exact perm

theorem remove_linked {ch : Chain} (linked : Linked ch) {ctx : Context} (known : ch.context? ctx.tap = some ctx) :
    Linked (((ch.withdraw ctx).unlink ctx).releaseGated ctx.gated) := by
  obtain ⟨controllers, gated⟩ := @remove_links ch ctx
  have controller : ch.controllerOf ctx.tap = ctx.controller := by rw [controllerOf, known]; rfl
  have gates : ∀ t, t ∈ ctx.gated ↔ ch.controllerOf t = some ctx.tap := by
    intro t
    rw [linked.back, gatedOf, known]
    rfl
  constructor
  · intro t k
    rw [controllers, (gated k).mem_iff]
    by_cases gone : k = ctx.tap
    · subst gone
      rw [if_pos rfl]
      refine ⟨fun has => ?_, nofun⟩
      split at has
      · cases has
      · rename_i kept
        split at has
        · cases has
        · exact (kept ((gates t).mpr has)).elim
    · rw [if_neg gone]
      by_cases itself : t = ctx.tap
      · subst itself
        rw [if_pos rfl]
        refine ⟨fun has => ?_, fun member => ?_⟩
        · split at has <;> cases has
        · split at member
          · exact ((linked.once k).not_mem_erase member).elim
          · rename_i free
            rw [← linked.back, controller] at member
            exact (free member).elim
      · have same : t ∈ (if ctx.controller = some k then (ch.gatedOf k).erase ctx.tap else ch.gatedOf k) ↔
            t ∈ ch.gatedOf k := by
          split
          · exact List.mem_erase_of_ne itself
          · exact Iff.rfl
        rw [if_neg itself, same, ← linked.back]
        split
        · rename_i freed
          rw [(gates t).mp freed]
          exact ⟨nofun, fun wrong => (gone (Option.some.inj wrong).symm).elim⟩
        · exact Iff.rfl
  · intro k
    rw [(gated k).nodup_iff]
    split
    · exact List.nodup_nil
    · split
      · exact (linked.once k).erase _
      · exact linked.once k

theorem keys_withdraw {ch : Chain} (keys : (ch.contexts.map Context.tap).Nodup) (ctx : Context) :
    (ch.withdraw ctx).contexts.map Context.tap = (ch.contexts.map Context.tap).erase ctx.tap := by
  rw [keys.erase_eq_filter, List.filter_map, withdraw]
  have same : (fun other : Context => decide (other.tap ≠ ctx.tap)) = (fun tap => tap != ctx.tap) ∘ Context.tap := by
    funext c
    by_cases itself : c.tap = ctx.tap <;> simp [itself]
  split
  · rw [← same, applyRemovalGeometry, List.map_map]
    refine List.map_congr_left fun c _ => ?_
    simp only [Function.comp_apply]
    split
    · exact shiftOut_tap ..
    · rfl
  · rw [← same]

theorem tapRemove_ok {ch : Chain} (tracked : Tracked ch) {ctx : Context} (known : ch.context? ctx.tap = some ctx) :
    (ch.tapRemove ctx.tap).2 = .ok () ∧
      (ch.tapRemove ctx.tap).1.contexts = (((ch.withdraw ctx).unlink ctx).releaseGated ctx.gated).contexts ∧
      (ch.tapRemove ctx.tap).1.children = ch.children.erase ctx.tap ∧ (ch.tapRemove ctx.tap).1.fresh = ch.fresh := by
  have children : (((ch.withdraw ctx).unlink ctx).releaseGated ctx.gated).children = ch.children := by
    simp only [releaseGated, unlink, withdraw]
    split <;> split <;> rfl
  have fresh : (((ch.withdraw ctx).unlink ctx).releaseGated ctx.gated).fresh = ch.fresh := by
    simp only [releaseGated, unlink, withdraw]
    split <;> split <;> rfl
  have child : ctx.tap ∈ ch.children := by
    rw [tracked.children]
    exact List.mem_map_of_mem (context?_some known).1
  simp only [tapRemove, known, children, if_pos child, fresh, and_self]

theorem tapRemove_tracked {ch : Chain} (tracked : Tracked ch) (tap : Tap) : Tracked (ch.tapRemove tap).1 := by
  cases known : ch.context? tap with
  | none =>
    simp only [tapRemove, known]
    exact tracked
  | some ctx =>
    obtain ⟨_, rfl⟩ := context?_some known
    obtain ⟨_, contexts, children, fresh⟩ := tapRemove_ok tracked known
    have keys := ((sameButLinks_tapRemove known).map_eq Context.tap).trans (keys_withdraw tracked.keys ctx)
    have linked := remove_linked tracked.linked known
    have lookup : ∀ t, (ch.tapRemove ctx.tap).1.context? t =
        (((ch.withdraw ctx).unlink ctx).releaseGated ctx.gated).context? t := fun t => by
      rw [context?, contexts]
      rfl
    refine ⟨⟨fun t k => ?_, fun k => ?_⟩, ?_, fun t member => ?_, ?_⟩
    · rw [controllerOf, gatedOf, lookup, lookup]
      exact linked.back t k
    · rw [gatedOf, lookup]
      exact linked.once k
    · exact keys ▸ tracked.keys.erase ctx.tap
    · rw [fresh]
      have old : t ∈ (ch.contexts.map Context.tap).erase ctx.tap := keys ▸ member
      exact tracked.older t (List.mem_of_mem_erase old)
    · rw [children, tracked.children]
      exact keys.symm

theorem tapRemove_sane {ch : Chain} (sane : Sane ch) (tap : Tap) : Sane (ch.tapRemove tap).1 := by
  obtain ⟨order, tiles⟩ := sane.tiles
  obtain ⟨order', tiles', _⟩ := tapRemove_edit tiles tap
  have tracked := tapRemove_tracked sane.tracked tap
  exact ⟨⟨order', tiles'⟩, tracked.linked, tracked.children⟩

theorem tapSetController_tracked {ch : Chain} (tracked : Tracked ch) (tap : Tap) {controller : Option Tap}
    (ok : (ch.tapSetController tap controller).2.toBool = true) : Tracked (ch.tapSetController tap controller).1 := by
  cases known : ch.context? tap with
  | none =>
    simp only [tapSetController, known] at ok
    cases ok
  | some ctx =>
    have here : ch.Knows tap := by rw [Knows, known]; rfl
    simp only [tapSetController, known] at ok ⊢
    have set : (ch.setController tap controller).2 = .ok () := by
      cases result : (ch.setController tap controller).2 with
      | error e =>
        rw [result] at ok
        cases ok
      | ok value => rfl
    refine ⟨setController_linked (tracked.linked.but tap) here set, ?_, ?_, ?_⟩
    · rw [keys_setController]
      exact tracked.keys
    · rw [keys_setController, (sameButLinks_setController ..).fresh]
      exact tracked.older
    · rw [keys_setController, children_setController, tracked.children]

theorem tapSetController_sane {ch : Chain} (sane : Sane ch) (tap : Tap) {controller : Option Tap}
    (ok : (ch.tapSetController tap controller).2.toBool = true) : Sane (ch.tapSetController tap controller).1 := by
  obtain ⟨order, tiles⟩ := sane.tiles
  have tracked := tapSetController_tracked sane.tracked tap ok
  refine ⟨⟨order, ?_⟩, tracked.linked, tracked.children⟩
  unfold tapSetController
  split
  · exact tiles
  · exact tiles.transport (sameButLinks_setController ..).geometry

def succeeds (ch : Chain) : Call → Bool
  | .add name idcode irlen => (ch.tapAdd name idcode irlen).2.toBool
  | .insert name idcode irlen irPre drPre controller => (ch.tapInsert name idcode irlen irPre drPre controller).2.toBool
  | .reattach tap irPre drPre controller => (ch.tapReattach tap irPre drPre controller).2.toBool
  | .detach tap => (ch.tapDetach tap).2.toBool
  | .remove tap => (ch.tapRemove tap).2.toBool
  | .setController tap controller => (ch.tapSetController tap controller).2.toBool

theorem after_sane {ch : Chain} (sane : Sane ch) {call : Call} (allowed : ch.Allowed call)
    (ok : ch.succeeds call = true) : Sane (ch.after call) := by
  cases call with
  | add name idcode irlen => exact tapInsert_sane sane name idcode allowed (.inr ⟨rfl, rfl⟩) ok
  | insert name idcode irlen irPre drPre controller => exact tapInsert_sane sane name idcode allowed.1 allowed.2 ok
  | reattach tap irPre drPre controller => exact tapReattach_sane sane tap allowed ok
  | detach tap => exact tapDetach_sane sane tap
  | remove tap => exact tapRemove_sane sane tap
  | setController tap controller => exact tapSetController_sane sane tap ok

/-! ### Operations -/

theorem flushOp_chain (ch : Chain) (posted : Nat) (envelope : Envelope) :
    (ch.flushOp posted envelope).1 = ch ∨
      ∃ tap value, (ch.flushOp posted envelope).1 = ch.invalidateIrCacheForShift tap value := by
  cases envelope with
  | other typeName => exact .inl rfl
  | tapOp tap op =>
    simp only [flushOp]
    split
    · exact .inl rfl
    · split
      · split
        · exact .inr ⟨_, _, rfl⟩
        · simp only [flushShift, flushIr]
          split
          · exact .inr ⟨_, _, rfl⟩
          · exact .inl rfl
        · exact .inl rfl
        · exact .inl rfl
      · exact .inl rfl

theorem invalidate_sane {ch : Chain} (sane : Sane ch) (tap : Tap) (value : Nat) :
    Sane (ch.invalidateIrCacheForShift tap value) := by
  obtain ⟨order, tiles⟩ := sane.tiles
  refine ⟨⟨order, tiles.transport (sameGeometry_map fun _ => rfl)⟩, ?_, ?_⟩
  · exact sane.linked.transport (sameLinks_map ch (fun _ => rfl) fun _ _ => ⟨rfl, rfl⟩)
  · rw [invalidateIrCacheForShift, List.map_map]
    exact sane.children

theorem flushOps_sane {ch : Chain} (sane : Sane ch) (posted : Nat) (batch : List Envelope) :
    Sane (ch.flushOps posted batch).1 := by
  induction batch generalizing ch posted with
  | nil => exact sane
  | cons envelope batch ih =>
    have next : Sane (ch.flushOp posted envelope).1 := by
      rcases flushOp_chain ch posted envelope with same | ⟨tap, value, cached⟩
      · rw [same]
        exact sane
      · rw [cached]
        exact invalidate_sane sane tap value
    exact ih next _

end Chain
end Acrobe.Jtag
