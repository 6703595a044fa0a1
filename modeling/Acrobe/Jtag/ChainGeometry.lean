import Acrobe.Jtag.Chain
import Acrobe.Lib.Tiling

/-!
# The geometry of a chain

The abstract chain is the list of its enabled TAPs, TDO end first. The offsets
kept in the contexts are those of the tiling by instruction lengths, and each
call edits that list at one place.
-/

namespace Acrobe.Jtag
open Lib Tiling

/-- The part of a context the geometry is about. -/
structure Slot where
  tap : Tap
  enabled : Bool
  irPre : Int
  irPost : Int
  drPre : Int
  drPost : Int

def Context.slot (ctx : Context) : Slot := ⟨ctx.tap, ctx.enabled, ctx.irPre, ctx.irPost, ctx.drPre, ctx.drPost⟩

def Context.unlinked (ctx : Context) : Context := { ctx with controller := none, gated := [] }

def irWidth (taps : List Tap) : Nat := width Tap.irlen taps

@[simp] theorem irWidth_nil : irWidth [] = 0 := rfl

@[simp] theorem irWidth_cons (tap : Tap) (taps : List Tap) : irWidth (tap :: taps) = tap.irlen + irWidth taps :=
  width_cons Tap.irlen tap taps

@[simp] theorem irWidth_append (xs ys : List Tap) : irWidth (xs ++ ys) = irWidth xs + irWidth ys :=
  width_append Tap.irlen xs ys

namespace Chain

def slots (ch : Chain) : List Slot := ch.contexts.map Context.slot

def Placed (order : List Tap) (slot : Slot) : Prop :=
  ∃ pre post, order = pre ++ slot.tap :: post ∧ slot.irPre = irWidth pre ∧ slot.irPost = irWidth post ∧
    slot.drPre = pre.length ∧ slot.drPost = post.length

/-- The contexts describe the chain `order`, TDO end first. -/
structure Tiles (ch : Chain) (order : List Tap) : Prop where
  keys : (ch.contexts.map Context.tap).Nodup
  older : ∀ c ∈ ch.contexts, c.tap.id < ch.fresh
  irlens : ∀ c ∈ ch.contexts, 1 ≤ c.tap.irlen
  nodup : order.Nodup
  listed : ∀ tap ∈ order, ∃ c ∈ ch.contexts, c.tap = tap ∧ c.enabled = true
  placed : ∀ c ∈ ch.contexts, c.enabled = true → Placed order c.slot
  totalIr : ch.totalIrlen = irWidth order
  totalDr : ch.totalDrlen = order.length

/-! ### The geometry alone -/

def SameGeometry (ch ch' : Chain) : Prop :=
  ch'.slots = ch.slots ∧ ch'.totalIrlen = ch.totalIrlen ∧ ch'.totalDrlen = ch.totalDrlen ∧ ch'.fresh = ch.fresh

theorem SameGeometry.refl (ch : Chain) : SameGeometry ch ch := ⟨rfl, rfl, rfl, rfl⟩

theorem SameGeometry.trans {a b c : Chain} (h : SameGeometry a b) (h' : SameGeometry b c) : SameGeometry a c :=
  ⟨h'.1.trans h.1, h'.2.1.trans h.2.1, h'.2.2.1.trans h.2.2.1, h'.2.2.2.trans h.2.2.2⟩

theorem SameGeometry.exists_slot {ch ch' : Chain} (same : SameGeometry ch ch') {c : Context}
    (member : c ∈ ch'.contexts) : ∃ d ∈ ch.contexts, d.slot = c.slot := by
  have among : c.slot ∈ ch'.slots := List.mem_map_of_mem member
  rw [same.1] at among
  exact List.mem_map.mp among

theorem SameGeometry.symm {ch ch' : Chain} (same : SameGeometry ch ch') : SameGeometry ch' ch :=
  ⟨same.1.symm, same.2.1.symm, same.2.2.1.symm, same.2.2.2.symm⟩

theorem Tiles.transport {ch ch' : Chain} {order : List Tap} (tiles : Tiles ch order) (same : SameGeometry ch ch') :
    Tiles ch' order := by
  have taps : ∀ ch : Chain, ch.contexts.map Context.tap = ch.slots.map Slot.tap := by
    intro ch
    rw [slots, List.map_map]
    rfl
  constructor
  · rw [taps, same.1, ← taps]
    exact tiles.keys
  · intro c member
    obtain ⟨d, among, slot⟩ := same.exists_slot member
    have named : d.tap = c.tap := congrArg Slot.tap slot
    rw [same.2.2.2, ← named]
    exact tiles.older d among
  · intro c member
    obtain ⟨d, among, slot⟩ := same.exists_slot member
    have named : d.tap = c.tap := congrArg Slot.tap slot
    rw [← named]
    exact tiles.irlens d among
  · exact tiles.nodup
  · intro tap member
    obtain ⟨c, among, named, enabled⟩ := tiles.listed tap member
    obtain ⟨d, among, slot⟩ := same.symm.exists_slot among
    exact ⟨d, among, (congrArg Slot.tap slot).trans named, (congrArg Slot.enabled slot).trans enabled⟩
  · intro c member enabled
    obtain ⟨d, among, slot⟩ := same.exists_slot member
    rw [← slot]
    exact tiles.placed d among ((congrArg Slot.enabled slot).trans enabled)
  · rw [same.2.1]
    exact tiles.totalIr
  · rw [same.2.2.1]
    exact tiles.totalDr

theorem sameGeometry_map {ch : Chain} {f : Context → Context} (keeps : ∀ ctx, (f ctx).slot = ctx.slot) :
    SameGeometry ch { ch with contexts := ch.contexts.map f } := by
  refine ⟨?_, rfl, rfl, rfl⟩
  rw [slots, slots, List.map_map]
  exact List.map_congr_left fun ctx _ => keeps ctx

/-! ### What controllers leave alone -/

structure SameButLinks (ch ch' : Chain) : Prop where
  contexts : ch'.contexts.map Context.unlinked = ch.contexts.map Context.unlinked
  totalIrlen : ch'.totalIrlen = ch.totalIrlen
  totalDrlen : ch'.totalDrlen = ch.totalDrlen
  fresh : ch'.fresh = ch.fresh

theorem SameButLinks.refl (ch : Chain) : SameButLinks ch ch := ⟨rfl, rfl, rfl, rfl⟩

theorem SameButLinks.trans {a b c : Chain} (h : SameButLinks a b) (h' : SameButLinks b c) : SameButLinks a c :=
  ⟨h'.1.trans h.1, h'.2.trans h.2, h'.3.trans h.3, h'.4.trans h.4⟩

theorem SameButLinks.symm {ch ch' : Chain} (same : SameButLinks ch ch') : SameButLinks ch' ch :=
  ⟨same.1.symm, same.2.symm, same.3.symm, same.4.symm⟩

theorem SameButLinks.map_eq {ch ch' : Chain} (same : SameButLinks ch ch') {β : Type} (f : Context → β) :
    ch'.contexts.map (f ∘ Context.unlinked) = ch.contexts.map (f ∘ Context.unlinked) := by
  rw [← List.map_map, same.contexts, List.map_map]

theorem SameButLinks.geometry {ch ch' : Chain} (same : SameButLinks ch ch') : SameGeometry ch ch' :=
  ⟨same.map_eq Context.slot, same.totalIrlen, same.totalDrlen, same.fresh⟩

theorem sameButLinks_map {ch : Chain} {f : Context → Context} (keeps : ∀ ctx, (f ctx).unlinked = ctx.unlinked) :
    SameButLinks ch { ch with contexts := ch.contexts.map f } := by
  refine ⟨?_, rfl, rfl, rfl⟩
  rw [List.map_map]
  exact List.map_congr_left fun ctx _ => keeps ctx

theorem sameButLinks_modify (ch : Chain) (tap : Tap) {f : Context → Context}
    (keeps : ∀ ctx, (f ctx).unlinked = ctx.unlinked) : SameButLinks ch (ch.modify tap f) := by
  refine sameButLinks_map fun ctx => ?_
  split
  · exact keeps ctx
  · rfl

theorem sameButLinks_clearController (ch : Chain) (tap : Tap) : SameButLinks ch (ch.clearController tap) := by
  unfold clearController
  split
  · exact .refl ch
  · split
    · exact .refl ch
    · refine .trans ?_ (sameButLinks_modify _ tap fun ctx => rfl)
      exact sameButLinks_modify ch _ fun ctx => rfl

theorem sameButLinks_setController (ch : Chain) (tap : Tap) (controller : Option Tap) :
    SameButLinks ch (ch.setController tap controller).1 := by
  have cleared := sameButLinks_clearController ch tap
  cases controller with
  | none => exact cleared
  | some controller =>
    simp only [setController]
    have link := cleared.trans (sameButLinks_modify (f := fun ctx => { ctx with controller := some controller })
      (ch.clearController tap) tap fun ctx => rfl)
    split
    · exact link
    · refine link.trans (sameButLinks_modify _ _ fun ctx => ?_)
      split <;> rfl

theorem sameButLinks_tapInsert (ch : Chain) (name : String) (idcode : Option Nat) (irlen : Nat) (irPre drPre : Int)
    (controller : Option Tap) :
    SameButLinks (ch.register (ch.newContext name idcode irlen irPre drPre controller))
      (ch.tapInsert name idcode irlen irPre drPre controller).1 := by
  have linking := sameButLinks_setController (ch.register (ch.newContext name idcode irlen irPre drPre controller))
    (ch.newContext name idcode irlen irPre drPre controller).tap controller
  simp only [tapInsert]
  split
  · rename_i linked
    rw [linked] at linking
    exact linking
  · rename_i linked
    rw [linked] at linking
    exact linking.trans ⟨rfl, rfl, rfl, rfl⟩

theorem sameButLinks_tapReattach {ch : Chain} {tap : Tap} {ctx : Context} (known : ch.context? tap = some ctx)
    (detached : ctx.enabled = false) (irPre drPre : Int) (controller : Option Tap) :
    SameButLinks (ch.putBack { ctx with irPre, drPre, irPost := 0, drPost := 0, enabled := true })
      (ch.tapReattach tap irPre drPre controller).1 := by
  have linking := sameButLinks_setController
    (ch.putBack { ctx with irPre, drPre, irPost := 0, drPost := 0, enabled := true }) tap controller
  simp only [tapReattach, known, detached, Bool.false_eq_true, if_false]
  split
  · rename_i linked
    rw [linked] at linking
    exact linking
  · rename_i linked
    rw [linked] at linking
    exact linking

theorem sameButLinks_unlink (ch : Chain) (ctx : Context) : SameButLinks ch (ch.unlink ctx) := by
  unfold unlink
  split
  · exact sameButLinks_modify _ _ fun c => rfl
  · exact .refl ch

theorem sameButLinks_releaseGated (ch : Chain) (gated : List Tap) : SameButLinks ch (ch.releaseGated gated) := by
  refine sameButLinks_map fun ctx => ?_
  split <;> rfl

theorem sameButLinks_tapRemove {ch : Chain} {tap : Tap} {ctx : Context} (known : ch.context? tap = some ctx) :
    SameButLinks (ch.withdraw ctx) (ch.tapRemove tap).1 := by
  have released := (sameButLinks_unlink (ch.withdraw ctx) ctx).trans (sameButLinks_releaseGated _ ctx.gated)
  simp only [tapRemove, known]
  split
  · exact released.trans ⟨rfl, rfl, rfl, rfl⟩
  · exact released

/-! ### Insertion -/

theorem placed_shiftIn {pre post : List Tap} {tap : Tap} {ctx : Context} (placed : Placed (pre ++ post) ctx.slot)
    (some : 1 ≤ ctx.tap.irlen) : Placed (pre ++ tap :: post) (shiftIn (irWidth pre) tap.irlen ctx).slot := by
  obtain ⟨before, after, split, irPre, irPost, drPre, drPost⟩ := placed
  simp only [Context.slot] at split irPre irPost drPre drPost
  rcases split_append_cases split with ⟨mid, rfl, rfl⟩ | ⟨mid, rfl, rfl⟩
  · have below : ctx.irPre < irWidth (before ++ ctx.tap :: mid) := by
      rw [irPre, irWidth_append, irWidth_cons]
      omega
    rw [shiftIn, if_pos below]
    refine ⟨before, mid ++ tap :: post, by simp [Context.slot], irPre, ?_, drPre, ?_⟩
    · simp only [Context.slot, irPost, irWidth_append, irWidth_cons]
      omega
    · simp only [Context.slot, drPost, List.length_append, List.length_cons]
      omega
  · have above : ¬ ctx.irPre < irWidth pre := by
      rw [irPre, irWidth_append]
      omega
    rw [shiftIn, if_neg above]
    refine ⟨pre ++ tap :: mid, after, by simp [Context.slot], ?_, irPost, ?_, drPost⟩
    · simp only [Context.slot, irPre, irWidth_append, irWidth_cons]
      omega
    · simp only [Context.slot, drPre, List.length_append, List.length_cons]
      omega

/-- A chain whose contexts describe `pre ++ post`, apart from `ctx`, which is to go in between. -/
structure Opening (ch : Chain) (ctx : Context) (pre post : List Tap) : Prop where
  keys : (ch.contexts.map Context.tap).Nodup
  older : ∀ c ∈ ch.contexts, c.tap.id < ch.fresh
  irlens : ∀ c ∈ ch.contexts, 1 ≤ c.tap.irlen
  nodup : (pre ++ post).Nodup
  mem : ctx ∈ ch.contexts
  enabled : ctx.enabled = true
  new : ctx.tap ∉ pre ++ post
  irPre : ctx.irPre = irWidth pre
  drPre : ctx.drPre = pre.length
  listed : ∀ tap ∈ pre ++ post, ∃ c ∈ ch.contexts, c.tap = tap ∧ c.enabled = true
  placed : ∀ c ∈ ch.contexts, c.tap ≠ ctx.tap → c.enabled = true → Placed (pre ++ post) c.slot
  totalIr : ch.totalIrlen = irWidth (pre ++ post)
  totalDr : ch.totalDrlen = (pre ++ post).length

def inserted (ch : Chain) (ctx other : Context) : Context :=
  if other.tap = ctx.tap then
    { other with irPost := ch.totalIrlen + ctx.tap.irlen - ctx.irPre - ctx.tap.irlen
                 drPost := ch.totalDrlen + 1 - ctx.drPre - 1 }
  else if other.enabled then shiftIn ctx.irPre ctx.tap.irlen other
  else other

theorem applyInsertionGeometry_contexts (ch : Chain) (ctx : Context) :
    (ch.applyInsertionGeometry ctx ctx.tap.irlen).contexts = ch.contexts.map (inserted ch ctx) := rfl

theorem shiftIn_tap (irPre irlen : Int) (ctx : Context) : (shiftIn irPre irlen ctx).tap = ctx.tap := by
  unfold shiftIn
  split <;> rfl

theorem shiftIn_enabled (irPre irlen : Int) (ctx : Context) : (shiftIn irPre irlen ctx).enabled = ctx.enabled := by
  unfold shiftIn
  split <;> rfl

theorem inserted_tap (ch : Chain) (ctx other : Context) : (inserted ch ctx other).tap = other.tap := by
  unfold inserted
  split
  · rfl
  · split
    · exact shiftIn_tap _ _ _
    · rfl

theorem inserted_enabled (ch : Chain) (ctx other : Context) : (inserted ch ctx other).enabled = other.enabled := by
  unfold inserted
  split
  · rfl
  · split
    · exact shiftIn_enabled _ _ _
    · rfl

theorem eq_of_tap {ch : Chain} (keys : (ch.contexts.map Context.tap).Nodup) {c d : Context}
    (hc : c ∈ ch.contexts) (hd : d ∈ ch.contexts) (same : c.tap = d.tap) : c = d :=
  List.inj_on_of_nodup_map keys hc hd same

theorem Opening.placed_inserted {ch : Chain} {ctx : Context} {pre post : List Tap} (opening : Opening ch ctx pre post)
    {c : Context} (member : c ∈ ch.contexts) (enabled : c.enabled = true) :
    Placed (pre ++ ctx.tap :: post) (inserted ch ctx c).slot := by
  by_cases itself : c.tap = ctx.tap
  · have same := eq_of_tap opening.keys member opening.mem itself
    subst same
    rw [inserted, if_pos rfl]
    refine ⟨pre, post, rfl, opening.irPre, ?_, opening.drPre, ?_⟩
    · simp only [Context.slot, opening.irPre, opening.totalIr, irWidth_append]
      omega
    · simp only [Context.slot, opening.drPre, opening.totalDr, List.length_append]
      omega
  · rw [inserted, if_neg itself, if_pos enabled, opening.irPre]
    exact placed_shiftIn (opening.placed c member itself enabled) (opening.irlens c member)

theorem Opening.tiles {ch : Chain} {ctx : Context} {pre post : List Tap} (opening : Opening ch ctx pre post) :
    Tiles (ch.applyInsertionGeometry ctx ctx.tap.irlen) (pre ++ ctx.tap :: post) := by
  constructor
  · rw [applyInsertionGeometry_contexts, List.map_map]
    have taps : ch.contexts.map (Context.tap ∘ inserted ch ctx) = ch.contexts.map Context.tap :=
      List.map_congr_left fun c _ => inserted_tap ch ctx c
    rw [taps]
    exact opening.keys
  · rw [applyInsertionGeometry_contexts, List.forall_mem_map]
    intro c member
    rw [inserted_tap]
    exact opening.older c member
  · rw [applyInsertionGeometry_contexts, List.forall_mem_map]
    intro c member
    rw [inserted_tap]
    exact opening.irlens c member
  · exact List.nodup_middle.mpr (List.nodup_cons.mpr ⟨opening.new, opening.nodup⟩)
  · intro tap member
    obtain ⟨c, among, same, enabled⟩ : ∃ c ∈ ch.contexts, c.tap = tap ∧ c.enabled = true := by
      rcases List.mem_append.mp member with before | later
      · exact opening.listed tap (List.mem_append_left _ before)
      · rcases List.mem_cons.mp later with here | after
        · exact ⟨ctx, opening.mem, here.symm, opening.enabled⟩
        · exact opening.listed tap (List.mem_append_right _ after)
    refine ⟨inserted ch ctx c, List.mem_map_of_mem among, ?_, ?_⟩
    · rw [inserted_tap, same]
    · rw [inserted_enabled, enabled]
  · rw [applyInsertionGeometry_contexts, List.forall_mem_map]
    intro c member enabled
    rw [inserted_enabled] at enabled
    exact opening.placed_inserted member enabled
  · show ch.totalIrlen + _ = _
    rw [opening.totalIr, irWidth_append, irWidth_append, irWidth_cons]
    omega
  · show ch.totalDrlen + 1 = _
    rw [opening.totalDr, List.length_append, List.length_append, List.length_cons]
    omega

theorem context?_some {ch : Chain} {tap : Tap} {ctx : Context} (known : ch.context? tap = some ctx) :
    ctx ∈ ch.contexts ∧ ctx.tap = tap :=
  ⟨List.mem_of_find?_eq_some known, by simpa using List.find?_some known⟩

theorem Tiles.mem_iff {ch : Chain} {order : List Tap} (tiles : Tiles ch order) {c : Context}
    (member : c ∈ ch.contexts) : c.tap ∈ order ↔ c.enabled = true := by
  constructor
  · intro listed
    obtain ⟨d, among, same, enabled⟩ := tiles.listed _ listed
    rw [← eq_of_tap tiles.keys among member same]
    exact enabled
  · intro enabled
    obtain ⟨pre, post, split, _⟩ := tiles.placed c member enabled
    rw [split]
    exact List.mem_append_right _ List.mem_cons_self

theorem opening_insert {ch : Chain} {pre post : List Tap} (tiles : Tiles ch (pre ++ post)) (name : String)
    (idcode : Option Nat) {irlen : Nat} (some : 1 ≤ irlen) (controller : Option Tap) :
    let ctx := ch.newContext name idcode irlen (irWidth pre) pre.length controller
    Opening { ch with contexts := ch.contexts ++ [ctx], fresh := ch.fresh + 1 } ctx pre post := by
  intro ctx
  have unknown : ∀ c ∈ ch.contexts, c.tap ≠ ctx.tap := by
    intro c member same
    have older := tiles.older c member
    rw [same] at older
    exact Nat.lt_irrefl _ older
  have new : ctx.tap ∉ pre ++ post := by
    intro listed
    obtain ⟨c, member, same, _⟩ := tiles.listed _ listed
    exact unknown c member same
  constructor
  · rw [List.map_append, List.map_singleton]
    refine List.nodup_append.mpr ⟨tiles.keys, List.nodup_singleton _, ?_⟩
    simp only [List.mem_map, List.mem_singleton]
    rintro _ ⟨c, member, rfl⟩ _ rfl
    exact unknown c member
  · intro c member
    rcases List.mem_append.mp member with old | here
    · exact Nat.lt_succ_of_lt (tiles.older c old)
    · rw [List.mem_singleton.mp here]
      exact Nat.lt_succ_self _
  · intro c member
    rcases List.mem_append.mp member with old | here
    · exact tiles.irlens c old
    · rw [List.mem_singleton.mp here]
      exact some
  · exact tiles.nodup
  · exact List.mem_append_right _ List.mem_cons_self
  · rfl
  · exact new
  · rfl
  · rfl
  · intro tap listed
    obtain ⟨c, member, found⟩ := tiles.listed tap listed
    exact ⟨c, List.mem_append_left _ member, found⟩
  · intro c member other enabled
    rcases List.mem_append.mp member with old | here
    · exact tiles.placed c old enabled
    · exact (other (by rw [List.mem_singleton.mp here])).elim
  · exact tiles.totalIr
  · exact tiles.totalDr

theorem tapInsert_tiles {ch : Chain} {pre post : List Tap} (tiles : Tiles ch (pre ++ post)) (name : String)
    (idcode : Option Nat) {irlen : Nat} (some : 1 ≤ irlen) (controller : Option Tap) :
    Tiles (ch.tapInsert name idcode irlen (irWidth pre) pre.length controller).1
      (pre ++ { id := ch.fresh, name, idcode, irlen } :: post) :=
  (opening_insert tiles name idcode some controller).tiles.transport (sameButLinks_tapInsert ..).geometry

theorem opening_putBack {ch : Chain} {pre post : List Tap} (tiles : Tiles ch (pre ++ post)) {ctx : Context}
    (back : Context) (member : ctx ∈ ch.contexts) (detached : ctx.enabled = false) (tap : back.tap = ctx.tap)
    (enabled : back.enabled = true) (irPre : back.irPre = irWidth pre) (drPre : back.drPre = pre.length) :
    Opening (ch.modify back.tap fun _ => back) back pre post := by
  have taps : ((ch.modify back.tap fun _ => back).contexts).map Context.tap = ch.contexts.map Context.tap := by
    simp only [modify, List.map_map]
    refine List.map_congr_left fun c _ => ?_
    simp only [Function.comp_apply]
    split
    · rename_i same
      exact same.symm
    · rfl
  have new : back.tap ∉ pre ++ post := by
    rw [tap, tiles.mem_iff member, detached]
    exact Bool.false_ne_true
  have old : ∀ c ∈ (ch.modify back.tap fun _ => back).contexts, c = back ∨ c ∈ ch.contexts ∧ c.tap ≠ back.tap := by
    intro c among
    obtain ⟨d, known, rfl⟩ := List.mem_map.mp among
    split
    · exact .inl rfl
    · rename_i other
      exact .inr ⟨known, other⟩
  constructor
  · rw [taps]
    exact tiles.keys
  · intro c among
    rcases old c among with rfl | ⟨known, _⟩
    · exact tap ▸ tiles.older ctx member
    · exact tiles.older c known
  · intro c among
    rcases old c among with rfl | ⟨known, _⟩
    · exact tap ▸ tiles.irlens ctx member
    · exact tiles.irlens c known
  · exact tiles.nodup
  · exact List.mem_map.mpr ⟨ctx, member, if_pos tap.symm⟩
  · exact enabled
  · exact new
  · exact irPre
  · exact drPre
  · intro other listed
    obtain ⟨c, among, rfl, enabled⟩ := tiles.listed other listed
    refine ⟨c, List.mem_map.mpr ⟨c, among, if_neg ?_⟩, rfl, enabled⟩
    rintro same
    exact new (same ▸ listed)
  · intro c among other enabled
    rcases old c among with rfl | ⟨known, _⟩
    · exact (other rfl).elim
    · exact tiles.placed c known enabled
  · exact tiles.totalIr
  · exact tiles.totalDr

theorem tapReattach_tiles {ch : Chain} {pre post : List Tap} (tiles : Tiles ch (pre ++ post)) {tap : Tap}
    {ctx : Context} (known : ch.context? tap = some ctx) (detached : ctx.enabled = false) (controller : Option Tap) :
    Tiles (ch.tapReattach tap (irWidth pre) pre.length controller).1 (pre ++ tap :: post) := by
  obtain ⟨member, rfl⟩ := context?_some known
  have opening := opening_putBack tiles
    { ctx with irPre := irWidth pre, drPre := pre.length, irPost := 0, drPost := 0, enabled := true }
    member detached rfl rfl rfl rfl
  exact opening.tiles.transport (sameButLinks_tapReattach known detached _ _ controller).geometry

/-! ### Removal -/

theorem placed_shiftOut {pre post : List Tap} {tap : Tap} {ctx : Context}
    (placed : Placed (pre ++ tap :: post) ctx.slot) (other : ctx.tap ≠ tap) (some : 1 ≤ tap.irlen) :
    Placed (pre ++ post) (shiftOut (irWidth pre) tap.irlen ctx).slot := by
  obtain ⟨before, after, split, irPre, irPost, drPre, drPost⟩ := placed
  simp only [Context.slot] at split irPre irPost drPre drPost
  rcases split_cases split with ⟨_, same, _⟩ | ⟨mid, rfl, rfl⟩ | ⟨mid, rfl, rfl⟩
  · exact (other same.symm).elim
  · have above : ctx.irPre > irWidth pre := by
      rw [irPre, irWidth_append, irWidth_cons]
      omega
    rw [shiftOut, if_pos above]
    refine ⟨pre ++ mid, after, by simp [Context.slot], ?_, irPost, ?_, drPost⟩
    · simp only [Context.slot, irPre, irWidth_append, irWidth_cons]
      omega
    · simp only [Context.slot, drPre, List.length_append, List.length_cons]
      omega
  · have below : ¬ ctx.irPre > irWidth (before ++ ctx.tap :: mid) := by
      rw [irPre, irWidth_append, irWidth_cons]
      omega
    rw [shiftOut, if_neg below]
    refine ⟨before, mid ++ post, by simp [Context.slot], irPre, ?_, drPre, ?_⟩
    · simp only [Context.slot, irPost, irWidth_append, irWidth_cons]
      omega
    · simp only [Context.slot, drPost, List.length_append, List.length_cons]
      omega

theorem shiftOut_tap (irPre irlen : Int) (ctx : Context) : (shiftOut irPre irlen ctx).tap = ctx.tap := by
  unfold shiftOut
  split <;> rfl

theorem shiftOut_enabled (irPre irlen : Int) (ctx : Context) :
    (shiftOut irPre irlen ctx).enabled = ctx.enabled := by
  unfold shiftOut
  split <;> rfl

/-- A chain whose enabled contexts are those of `ch` without `tap`, shifted. -/
structure Closing (ch ch' : Chain) (tap : Tap) (pre : List Tap) : Prop where
  keys : (ch'.contexts.map Context.tap).Nodup
  taps : ∀ c ∈ ch'.contexts, ∃ d ∈ ch.contexts, d.tap = c.tap
  fresh : ch'.fresh = ch.fresh
  from_old : ∀ c ∈ ch'.contexts, c.enabled = true →
    ∃ d ∈ ch.contexts, d.tap ≠ tap ∧ d.enabled = true ∧ c.slot = (shiftOut (irWidth pre) tap.irlen d).slot
  keeps : ∀ d ∈ ch.contexts, d.tap ≠ tap → d.enabled = true →
    ∃ c ∈ ch'.contexts, c.slot = (shiftOut (irWidth pre) tap.irlen d).slot
  totalIr : ch'.totalIrlen = ch.totalIrlen - tap.irlen
  totalDr : ch'.totalDrlen = ch.totalDrlen - 1

theorem Closing.tiles {ch ch' : Chain} {tap : Tap} {pre post : List Tap} (closing : Closing ch ch' tap pre)
    (tiles : Tiles ch (pre ++ tap :: post)) : Tiles ch' (pre ++ post) := by
  have once := List.nodup_cons.mp (List.nodup_middle.mp tiles.nodup)
  have listed : tap ∈ pre ++ tap :: post := List.mem_append_right _ List.mem_cons_self
  have some : 1 ≤ tap.irlen := by
    obtain ⟨c, member, same, _⟩ := tiles.listed tap listed
    exact same ▸ tiles.irlens c member
  constructor
  · exact closing.keys
  · intro c member
    obtain ⟨d, known, same⟩ := closing.taps c member
    rw [← same, closing.fresh]
    exact tiles.older d known
  · intro c member
    obtain ⟨d, known, same⟩ := closing.taps c member
    rw [← same]
    exact tiles.irlens d known
  · exact once.2
  · intro other member
    have wider : other ∈ pre ++ tap :: post := by
      rcases List.mem_append.mp member with before | after
      · exact List.mem_append_left _ before
      · exact List.mem_append_right _ (List.mem_cons_of_mem _ after)
    obtain ⟨d, known, rfl, enabled⟩ := tiles.listed other wider
    have distinct : d.tap ≠ tap := fun same => once.1 (same ▸ member)
    obtain ⟨c, among, slot⟩ := closing.keeps d known distinct enabled
    refine ⟨c, among, ?_, ?_⟩
    · exact (congrArg Slot.tap slot).trans (shiftOut_tap ..)
    · exact (congrArg Slot.enabled slot).trans ((shiftOut_enabled ..).trans enabled)
  · intro c member enabled
    obtain ⟨d, known, distinct, wasEnabled, slot⟩ := closing.from_old c member enabled
    rw [slot]
    exact placed_shiftOut (tiles.placed d known wasEnabled) distinct some
  · rw [closing.totalIr, tiles.totalIr, irWidth_append, irWidth_append, irWidth_cons]
    omega
  · rw [closing.totalDr, tiles.totalDr, List.length_append, List.length_append, List.length_cons]
    omega

theorem Tiles.split {ch : Chain} {order : List Tap} (tiles : Tiles ch order) {ctx : Context}
    (member : ctx ∈ ch.contexts) (enabled : ctx.enabled = true) :
    ∃ pre post, order = pre ++ ctx.tap :: post ∧ ctx.irPre = irWidth pre ∧ ctx.irPost = irWidth post ∧
      ctx.drPre = pre.length ∧ ctx.drPost = post.length := tiles.placed ctx member enabled

def detached (ctx other : Context) : Context :=
  if other.tap = ctx.tap then { other with enabled := false, currentIr := none }
  else if other.enabled then shiftOut ctx.irPre ctx.tap.irlen other
  else other

theorem tapDetach_eq {ch : Chain} {ctx : Context} (known : ch.context? ctx.tap = some ctx)
    (enabled : ctx.enabled = true) :
    (ch.tapDetach ctx.tap).1 =
      { ch with contexts := ch.contexts.map (detached ctx), totalIrlen := ch.totalIrlen - ctx.tap.irlen
                totalDrlen := ch.totalDrlen - 1 } := by
  simp only [tapDetach, known, enabled, if_true, modify, applyRemovalGeometry, List.map_map]
  congr 1
  refine List.map_congr_left fun c _ => ?_
  simp only [Function.comp_apply, detached]
  by_cases itself : c.tap = ctx.tap
  · simp [itself]
  · by_cases on : c.enabled = true
    · simp [itself, on, shiftOut_tap]
    · simp [itself, on]

theorem detached_tap (ctx other : Context) : (detached ctx other).tap = other.tap := by
  unfold detached
  split
  · rfl
  · split
    · exact shiftOut_tap ..
    · rfl

theorem tapDetach_tiles {ch : Chain} {ctx : Context} {pre post : List Tap}
    (tiles : Tiles ch (pre ++ ctx.tap :: post)) (known : ch.context? ctx.tap = some ctx)
    (enabled : ctx.enabled = true) (irPre : ctx.irPre = irWidth pre) :
    Tiles (ch.tapDetach ctx.tap).1 (pre ++ post) := by
  refine Closing.tiles ?_ tiles
  rw [tapDetach_eq known enabled]
  constructor
  · rw [List.map_map]
    have taps : ch.contexts.map (Context.tap ∘ detached ctx) = ch.contexts.map Context.tap :=
      List.map_congr_left fun c _ => detached_tap ctx c
    rw [taps]
    exact tiles.keys
  · intro c member
    obtain ⟨d, among, rfl⟩ := List.mem_map.mp member
    exact ⟨d, among, (detached_tap ctx d).symm⟩
  · rfl
  · intro c member on
    obtain ⟨d, among, rfl⟩ := List.mem_map.mp member
    unfold detached at on ⊢
    split at on
    · cases on
    · rename_i other
      rw [if_neg other]
      split at on
      · rename_i was
        rw [if_pos was, irPre]
        exact ⟨d, among, other, was, rfl⟩
      · rename_i off
        exact (off on).elim
  · intro d among other on
    refine ⟨detached ctx d, List.mem_map_of_mem among, ?_⟩
    rw [detached, if_neg other, if_pos on, irPre]
  · rfl
  · rfl

theorem mem_filter_tap {ch : Chain} {tap : Tap} {c : Context} :
    c ∈ ch.contexts.filter (fun other => other.tap ≠ tap) ↔ c ∈ ch.contexts ∧ c.tap ≠ tap := by
  rw [List.mem_filter, decide_eq_true_iff]

theorem keys_filter {ch : Chain} (keys : (ch.contexts.map Context.tap).Nodup) (tap : Tap) :
    ((ch.contexts.filter fun other => other.tap ≠ tap).map Context.tap).Nodup :=
  keys.sublist (List.Sublist.map _ List.filter_sublist)

theorem withdraw_contexts (ch : Chain) {ctx : Context} (enabled : ctx.enabled = true) :
    (ch.withdraw ctx).contexts = (ch.contexts.filter fun other => other.tap ≠ ctx.tap).map fun other =>
      if other.enabled then shiftOut ctx.irPre ctx.tap.irlen other else other := by
  rw [withdraw, if_pos enabled]
  refine List.map_congr_left fun c member => ?_
  simp only [(mem_filter_tap.mp member).2, ne_eq, not_false_eq_true, true_and]

theorem withdraw_tiles {ch : Chain} {ctx : Context} {pre post : List Tap}
    (tiles : Tiles ch (pre ++ ctx.tap :: post)) (enabled : ctx.enabled = true) (irPre : ctx.irPre = irWidth pre) :
    Tiles (ch.withdraw ctx) (pre ++ post) := by
  have contexts := withdraw_contexts ch enabled
  have tap : ∀ c : Context, (if c.enabled then shiftOut ctx.irPre ctx.tap.irlen c else c).tap = c.tap := by
    intro c
    split
    · exact shiftOut_tap ..
    · rfl
  refine Closing.tiles ?_ tiles
  constructor
  · rw [contexts, List.map_map]
    have taps : (ch.contexts.filter fun other => other.tap ≠ ctx.tap).map
        (Context.tap ∘ fun c => if c.enabled then shiftOut ctx.irPre ctx.tap.irlen c else c) =
        (ch.contexts.filter fun other => other.tap ≠ ctx.tap).map Context.tap :=
      List.map_congr_left fun c _ => tap c
    rw [taps]
    exact keys_filter tiles.keys _
  · intro c member
    rw [contexts] at member
    obtain ⟨d, among, rfl⟩ := List.mem_map.mp member
    exact ⟨d, (mem_filter_tap.mp among).1, (tap d).symm⟩
  · rw [withdraw, if_pos enabled]
    rfl
  · intro c member on
    rw [contexts] at member
    obtain ⟨d, among, rfl⟩ := List.mem_map.mp member
    obtain ⟨known, other⟩ := mem_filter_tap.mp among
    split at on
    · rename_i was
      rw [if_pos was, irPre]
      exact ⟨d, known, other, was, rfl⟩
    · rename_i off
      exact (off on).elim
  · intro d among other on
    rw [contexts]
    refine ⟨_, List.mem_map_of_mem (mem_filter_tap.mpr ⟨among, other⟩), ?_⟩
    rw [if_pos on, irPre]
  · rw [withdraw, if_pos enabled]
    rfl
  · rw [withdraw, if_pos enabled]
    rfl

theorem withdraw_detached_tiles {ch : Chain} {ctx : Context} {order : List Tap} (tiles : Tiles ch order)
    (member : ctx ∈ ch.contexts) (detached : ctx.enabled = false) : Tiles (ch.withdraw ctx) order := by
  have off : ¬ ctx.enabled = true := by rw [detached]; exact Bool.false_ne_true
  rw [withdraw, if_neg off]
  constructor
  · exact keys_filter tiles.keys _
  · exact fun c among => tiles.older c (mem_filter_tap.mp among).1
  · exact fun c among => tiles.irlens c (mem_filter_tap.mp among).1
  · exact tiles.nodup
  · intro tap listed
    obtain ⟨c, among, rfl, on⟩ := tiles.listed tap listed
    refine ⟨c, mem_filter_tap.mpr ⟨among, fun same => ?_⟩, rfl, on⟩
    rw [eq_of_tap tiles.keys among member same] at on
    exact off on
  · exact fun c among on => tiles.placed c (mem_filter_tap.mp among).1 on
  · exact tiles.totalIr
  · exact tiles.totalDr

/-! ### Runs -/

/-- The place of an enabled TAP, or the end of the chain. -/
def Boundary (ch : Chain) (irPre drPre : Int) : Prop :=
  (∃ ctx ∈ ch.contexts, ctx.enabled = true ∧ ctx.irPre = irPre ∧ ctx.drPre = drPre) ∨
    irPre = ch.totalIrlen ∧ drPre = ch.totalDrlen

instance (ch : Chain) (irPre drPre : Int) : Decidable (ch.Boundary irPre drPre) :=
  inferInstanceAs (Decidable (_ ∨ _))

theorem Tiles.boundary {ch : Chain} {order : List Tap} (tiles : Tiles ch order) {irPre drPre : Int}
    (boundary : ch.Boundary irPre drPre) :
    ∃ pre post, order = pre ++ post ∧ irPre = irWidth pre ∧ drPre = pre.length := by
  rcases boundary with ⟨ctx, member, enabled, rfl, rfl⟩ | ⟨rfl, rfl⟩
  · obtain ⟨pre, post, split, irPre, _, drPre, _⟩ := tiles.split member enabled
    exact ⟨pre, ctx.tap :: post, split, irPre, drPre⟩
  · exact ⟨order, [], (List.append_nil _).symm, tiles.totalIr, tiles.totalDr⟩

/-- Calls that respect the slots of the chain they are made on. -/
def Allowed (ch : Chain) : Call → Prop
  | .add _ _ irlen => 1 ≤ irlen
  | .insert _ _ irlen irPre drPre _ => 1 ≤ irlen ∧ ch.Boundary irPre drPre
  | .reattach _ irPre drPre _ => ch.Boundary irPre drPre
  | _ => True

instance (ch : Chain) : (call : Call) → Decidable (ch.Allowed call)
  | .add _ _ irlen => inferInstanceAs (Decidable (1 ≤ irlen))
  | .insert _ _ irlen irPre drPre _ => inferInstanceAs (Decidable (1 ≤ irlen ∧ ch.Boundary irPre drPre))
  | .reattach _ irPre drPre _ => inferInstanceAs (Decidable (ch.Boundary irPre drPre))
  | .detach _ | .remove _ | .setController _ _ => .isTrue trivial

inductive Edit : List Tap → List Tap → Prop where
  | same (order : List Tap) : Edit order order
  | insert (pre post : List Tap) (tap : Tap) : Edit (pre ++ post) (pre ++ tap :: post)
  | remove (pre post : List Tap) (tap : Tap) : Edit (pre ++ tap :: post) (pre ++ post)

theorem tapDetach_edit {ch : Chain} {order : List Tap} (tiles : Tiles ch order) (tap : Tap) :
    ∃ order', Tiles (ch.tapDetach tap).1 order' ∧ Edit order order' := by
  cases known : ch.context? tap with
  | none => exact ⟨order, by simpa only [tapDetach, known] using tiles, .same order⟩
  | some ctx =>
    obtain ⟨member, rfl⟩ := context?_some known
    cases enabled : ctx.enabled with
    | false =>
      refine ⟨order, ?_, .same order⟩
      simpa only [tapDetach, known, enabled, Bool.false_eq_true, if_false] using tiles
    | true =>
      obtain ⟨pre, post, rfl, irPre, _⟩ := tiles.split member enabled
      exact ⟨pre ++ post, tapDetach_tiles tiles known enabled irPre, .remove pre post ctx.tap⟩

theorem tapRemove_edit {ch : Chain} {order : List Tap} (tiles : Tiles ch order) (tap : Tap) :
    ∃ order', Tiles (ch.tapRemove tap).1 order' ∧ Edit order order' := by
  cases known : ch.context? tap with
  | none => exact ⟨order, by simpa only [tapRemove, known] using tiles, .same order⟩
  | some ctx =>
    obtain ⟨member, rfl⟩ := context?_some known
    cases enabled : ctx.enabled with
    | false =>
      exact ⟨order, (withdraw_detached_tiles tiles member enabled).transport (sameButLinks_tapRemove known).geometry, .same order⟩
    | true =>
      obtain ⟨pre, post, rfl, irPre, _⟩ := tiles.split member enabled
      exact ⟨pre ++ post, (withdraw_tiles tiles enabled irPre).transport (sameButLinks_tapRemove known).geometry,
        .remove pre post ctx.tap⟩

theorem tapReattach_edit {ch : Chain} {order : List Tap} (tiles : Tiles ch order) (tap : Tap) {irPre drPre : Int}
    (boundary : ch.Boundary irPre drPre) (controller : Option Tap) :
    ∃ order', Tiles (ch.tapReattach tap irPre drPre controller).1 order' ∧ Edit order order' := by
  cases known : ch.context? tap with
  | none => exact ⟨order, by simpa only [tapReattach, known] using tiles, .same order⟩
  | some ctx =>
    cases enabled : ctx.enabled with
    | true =>
      refine ⟨order, ?_, .same order⟩
      simpa only [tapReattach, known, enabled, if_true] using tiles
    | false =>
      obtain ⟨pre, post, rfl, rfl, rfl⟩ := tiles.boundary boundary
      exact ⟨_, tapReattach_tiles tiles known enabled controller, .insert pre post tap⟩

theorem tapInsert_edit {ch : Chain} {order : List Tap} (tiles : Tiles ch order) (name : String)
    (idcode : Option Nat) {irlen : Nat} (some : 1 ≤ irlen) {irPre drPre : Int}
    (boundary : ch.Boundary irPre drPre) (controller : Option Tap) :
    ∃ order', Tiles (ch.tapInsert name idcode irlen irPre drPre controller).1 order' ∧ Edit order order' := by
  obtain ⟨pre, post, rfl, rfl, rfl⟩ := tiles.boundary boundary
  exact ⟨_, tapInsert_tiles tiles name idcode some controller, .insert pre post _⟩

/-- A call edits the abstract chain in one place at most. -/
theorem after_edit {ch : Chain} {order : List Tap} (tiles : Tiles ch order) {call : Call} (allowed : ch.Allowed call) :
    ∃ order', Tiles (ch.after call) order' ∧ Edit order order' := by
  cases call with
  | add name idcode irlen => exact tapInsert_edit tiles name idcode allowed (.inr ⟨rfl, rfl⟩) none
  | insert name idcode irlen irPre drPre controller =>
    exact tapInsert_edit tiles name idcode allowed.1 allowed.2 controller
  | reattach tap irPre drPre controller => exact tapReattach_edit tiles tap allowed controller
  | detach tap => exact tapDetach_edit tiles tap
  | remove tap => exact tapRemove_edit tiles tap
  | setController tap controller =>
    refine ⟨order, ?_, .same order⟩
    simp only [after, tapSetController]
    split
    · exact tiles
    · exact tiles.transport (sameButLinks_setController ..).geometry

def run (ch : Chain) : List Call → Chain
  | [] => ch
  | call :: calls => run (ch.after call) calls

def AllowedRun (ch : Chain) : List Call → Prop
  | [] => True
  | call :: calls => ch.Allowed call ∧ AllowedRun (ch.after call) calls

def decideAllowedRun : (ch : Chain) → (calls : List Call) → Decidable (ch.AllowedRun calls)
  | _, [] => .isTrue trivial
  | ch, call :: calls =>
    have := decideAllowedRun (ch.after call) calls
    inferInstanceAs (Decidable (ch.Allowed call ∧ (ch.after call).AllowedRun calls))

instance (ch : Chain) (calls : List Call) : Decidable (ch.AllowedRun calls) := decideAllowedRun ch calls

theorem run_tiles {ch : Chain} {order : List Tap} (tiles : Tiles ch order) {calls : List Call}
    (allowed : ch.AllowedRun calls) : ∃ order', Tiles (ch.run calls) order' := by
  induction calls generalizing ch order with
  | nil => exact ⟨order, tiles⟩
  | cons call calls ih =>
    obtain ⟨order', next, _⟩ := after_edit tiles allowed.1
    exact ih next allowed.2

theorem empty_tiles (name : String) : Tiles { name } [] := by
  constructor <;> simp

/-! ### The invariant -/

def enabledContexts (ch : Chain) : List Context := ch.contexts.filter Context.enabled

/-- The enabled TAPs tile the chain. -/
structure Tiled (ch : Chain) : Prop where
  irSum : ∀ c ∈ ch.enabledContexts, c.irPre + c.tap.irlen + c.irPost = ch.totalIrlen
  drSum : ∀ c ∈ ch.enabledContexts, c.drPre + 1 + c.drPost = ch.totalDrlen
  inside : ∀ c ∈ ch.enabledContexts, 0 ≤ c.irPre ∧ c.irPre + c.tap.irlen ≤ ch.totalIrlen
  disjoint : ∀ c ∈ ch.enabledContexts, ∀ d ∈ ch.enabledContexts, c.tap ≠ d.tap →
    c.irPre + c.tap.irlen ≤ d.irPre ∨ d.irPre + d.tap.irlen ≤ c.irPre
  cover : ∀ x : Int, 0 ≤ x → x < ch.totalIrlen →
    ∃ c ∈ ch.enabledContexts, c.irPre ≤ x ∧ x < c.irPre + c.tap.irlen
  count : ch.totalDrlen = ch.enabledContexts.length
  rank : ∀ c ∈ ch.enabledContexts, c.drPre = (ch.enabledContexts.filter fun d => d.irPre < c.irPre).length

theorem mem_enabledContexts {ch : Chain} {c : Context} :
    c ∈ ch.enabledContexts ↔ c ∈ ch.contexts ∧ c.enabled = true := List.mem_filter

section
variable {ch : Chain} {order : List Tap} (tiles : Tiles ch order)
include tiles

theorem Tiles.keys_enabled : (ch.enabledContexts.map Context.tap).Nodup :=
  tiles.keys.sublist (List.Sublist.map _ List.filter_sublist)

theorem Tiles.perm : (ch.enabledContexts.map Context.tap).Perm order := by
  refine (List.perm_ext_iff_of_nodup tiles.keys_enabled tiles.nodup).mpr fun tap => ?_
  constructor
  · intro member
    obtain ⟨c, among, rfl⟩ := List.mem_map.mp member
    obtain ⟨known, enabled⟩ := mem_enabledContexts.mp among
    exact (tiles.mem_iff known).mpr enabled
  · intro listed
    obtain ⟨c, known, rfl, enabled⟩ := tiles.listed tap listed
    exact List.mem_map_of_mem (mem_enabledContexts.mpr ⟨known, enabled⟩)

theorem Tiles.perm_before {c : Context} {pre post : List Tap} (split : order = pre ++ c.tap :: post)
    (irPre : c.irPre = irWidth pre) :
    ((ch.enabledContexts.filter fun d => d.irPre < c.irPre).map Context.tap).Perm pre := by
  have once : (pre ++ c.tap :: post).Nodup := split ▸ tiles.nodup
  have keys := tiles.keys_enabled.sublist (List.Sublist.map Context.tap
    (List.filter_sublist (p := fun d : Context => decide (d.irPre < c.irPre))))
  refine (List.perm_ext_iff_of_nodup keys once.of_append_left).mpr fun tap => ?_
  have place : ∀ {d : Context}, d ∈ ch.enabledContexts → (d.irPre < c.irPre ↔ d.tap ∈ pre) := by
    intro d among
    obtain ⟨known, enabled⟩ := mem_enabledContexts.mp among
    obtain ⟨before, after, splitd, irPred, _⟩ := tiles.split known enabled
    have some := tiles.irlens d known
    rw [irPre, irPred]
    rcases split_cases (split.symm.trans splitd) with ⟨same, _, _⟩ | ⟨mid, later, _⟩ | ⟨mid, earlier, _⟩
    · rw [same]
      refine ⟨fun h => (Int.lt_irrefl _ h).elim, fun member => ?_⟩
      have twice : (before ++ d.tap :: after).Nodup := splitd ▸ tiles.nodup
      exact ((List.nodup_append.mp twice).2.2 _ member _ List.mem_cons_self rfl).elim
    · rw [later, irWidth_append, irWidth_cons]
      refine ⟨fun h => by omega, fun member => ?_⟩
      have twice : (before ++ d.tap :: after).Nodup := splitd ▸ tiles.nodup
      rw [later] at twice
      exact ((List.nodup_append.mp twice).2.2 _ (List.mem_append_left _ member) _ List.mem_cons_self rfl).elim
    · rw [earlier, irWidth_append, irWidth_cons]
      refine ⟨fun _ => List.mem_append_right _ List.mem_cons_self, fun _ => by omega⟩
  constructor
  · intro member
    obtain ⟨d, among, rfl⟩ := List.mem_map.mp member
    obtain ⟨enabled, below⟩ := List.mem_filter.mp among
    exact (place enabled).mp (by simpa using below)
  · intro before
    have listed : tap ∈ order := split ▸ List.mem_append_left _ before
    obtain ⟨d, known, rfl, enabled⟩ := tiles.listed tap listed
    have among := mem_enabledContexts.mpr ⟨known, enabled⟩
    exact List.mem_map_of_mem (List.mem_filter.mpr ⟨among, by simpa using (place among).mpr before⟩)

theorem Tiles.tiled : Tiled ch := by
  have split : ∀ c ∈ ch.enabledContexts, ∃ pre post, order = pre ++ c.tap :: post ∧ c.irPre = irWidth pre ∧
      c.irPost = irWidth post ∧ c.drPre = pre.length ∧ c.drPost = post.length := by
    intro c among
    obtain ⟨known, enabled⟩ := mem_enabledContexts.mp among
    exact tiles.split known enabled
  constructor
  · intro c among
    obtain ⟨pre, post, place, irPre, irPost, _⟩ := split c among
    rw [irPre, irPost, tiles.totalIr, place, irWidth_append, irWidth_cons]
    omega
  · intro c among
    obtain ⟨pre, post, place, _, _, drPre, drPost⟩ := split c among
    rw [drPre, drPost, tiles.totalDr, place, List.length_append, List.length_cons]
    omega
  · intro c among
    obtain ⟨pre, post, place, irPre, _⟩ := split c among
    rw [irPre, tiles.totalIr, place, irWidth_append, irWidth_cons]
    omega
  · intro c amongc d amongd other
    obtain ⟨pre, post, place, irPre, _⟩ := split c amongc
    obtain ⟨pre', post', place', irPre', _⟩ := split d amongd
    have apart := items_disjoint (w := Tap.irlen) other (place.symm.trans place')
    rw [irPre, irPre']
    unfold irWidth
    omega
  · intro x low high
    have inside : x.toNat < width Tap.irlen order := by
      have := tiles.totalIr
      unfold irWidth at this
      omega
    obtain ⟨pre, tap, post, place, lower, upper⟩ := exists_item_at inside
    obtain ⟨c, known, rfl, enabled⟩ := tiles.listed tap (place ▸ List.mem_append_right _ List.mem_cons_self)
    have among := mem_enabledContexts.mpr ⟨known, enabled⟩
    obtain ⟨pre', post', place', irPre, _⟩ := split c among
    obtain ⟨rfl, rfl⟩ := split_unique (place ▸ tiles.nodup) (place.symm.trans place')
    refine ⟨c, among, ?_, ?_⟩ <;> rw [irPre] <;> unfold irWidth <;> omega
  · rw [tiles.totalDr, ← tiles.perm.length_eq, List.length_map]
  · intro c among
    obtain ⟨pre, post, place, irPre, _, drPre, _⟩ := split c among
    rw [drPre, ← (tiles.perm_before place irPre).length_eq, List.length_map]

end

/-- Whatever the calls, and whether they raise or not, the enabled TAPs tile the chain. -/
theorem run_tiled {name : String} {calls : List Call} (allowed : AllowedRun { name } calls) :
    Tiled (run { name } calls) := by
  obtain ⟨order, tiles⟩ := run_tiles (empty_tiles name) allowed
  exact tiles.tiled

/-- Two TAPs, a third before them, and the first of the two taken out, put back last, and removed. -/
theorem run_tiled_round_trip :
    let calls : List Call := [.add "a" none 4, .add "b" (some 0x4ba00477) 5, .insert "c" none 2 0 0 none,
      .detach ⟨0, "a", none, 4⟩, .reattach ⟨0, "a", none, 4⟩ 7 2 (some ⟨2, "c", none, 2⟩), .remove ⟨2, "c", none, 2⟩]
    Tiled (run { name := "chain" } calls) ∧ (run { name := "chain" } calls).totalIrlen = 9 :=
  ⟨run_tiled (by decide), by decide⟩

end Chain
end Acrobe.Jtag
