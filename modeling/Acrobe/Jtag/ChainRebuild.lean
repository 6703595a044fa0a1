import Acrobe.Jtag.ChainRefresh
import Acrobe.Jtag.ChainControllers

/-!
# Rebuilding the chain

A refresh matches the slots found with the TAPs known, takes every enabled TAP
out and puts the slots in one after the other. Whatever the probe finds, this
keeps the chain tiled and its links symmetric.
-/

namespace Acrobe.Jtag
open BitString Lib Tiling

namespace Chain

/-! ### Claims -/

theorem claim_sound {slots : List (Option Nat × Nat)} {taps : List Tap} {available : List Nat}
    {claimed : List (Nat × Tap)} (once : available.Nodup) (ok : claim slots taps available = .ok claimed) :
    (claimed.map Prod.snd).Sublist taps ∧ (claimed.map Prod.fst).Nodup ∧
      ∀ i tap, (i, tap) ∈ claimed → i ∈ available ∧ slots[i]? = some tap.identity := by
  induction taps generalizing available claimed with
  | nil =>
    cases ok
    exact ⟨.slnil, List.nodup_nil, nofun⟩
  | cons tap taps ih =>
    rw [claim] at ok
    split at ok
    · obtain ⟨sub, keys, sound⟩ := ih once ok
      exact ⟨sub.cons _, keys, sound⟩
    · rename_i i found
      cases rest : claim slots taps (available.erase i) with
      | error e =>
        rw [rest] at ok
        cases ok
      | ok claimed' =>
        rw [rest] at ok
        cases ok
        obtain ⟨sub, keys, sound⟩ := ih (once.erase i) rest
        have here : i ∈ available.filter fun i => slots[i]? = some tap.identity := by
          rw [found]
          exact List.mem_cons_self
        rw [List.mem_filter, decide_eq_true_iff] at here
        refine ⟨sub.cons_cons _, List.nodup_cons.mpr ⟨fun again => ?_, keys⟩, fun j t member => ?_⟩
        · obtain ⟨⟨_, t⟩, member, rfl⟩ := List.mem_map.mp again
          exact once.not_mem_erase (sound _ _ member).1
        · rcases List.mem_cons.mp member with same | later
          · cases same
            exact here
          · exact ⟨List.mem_of_mem_erase (sound j t later).1, (sound j t later).2⟩
    · cases ok

/-- The slots from `first` on with the identity of `tap`. -/
def matching (slots : List (Option Nat × Nat)) (tap : Tap) (first count : Nat) : List Nat :=
  (List.range' first count).filter fun i => slots[i]? = some tap.identity

theorem matching_own (pre : List Tap) (tap : Tap) (taps : List Tap) :
    matching ((pre ++ tap :: taps).map Tap.identity) tap pre.length (tap :: taps).length =
      pre.length :: matching ((pre ++ tap :: taps).map Tap.identity) tap (pre.length + 1) taps.length := by
  have own : ((pre ++ tap :: taps).map Tap.identity)[pre.length]? = some tap.identity := by
    rw [List.map_append, List.getElem?_append_right (by simp), List.length_map, Nat.sub_self]
    rfl
  rw [matching, List.length_cons, List.range'_succ, List.filter_cons_of_pos]
  · rfl
  · rw [own, decide_eq_true_iff]

theorem matching_others (pre : List Tap) (tap : Tap) (taps : List Tap) :
    matching ((pre ++ tap :: taps).map Tap.identity) tap (pre.length + 1) taps.length = [] ↔
      tap.identity ∉ taps.map Tap.identity := by
  have slot : ∀ j, ((pre ++ tap :: taps).map Tap.identity)[pre.length + 1 + j]? = (taps.map Tap.identity)[j]? := by
    intro j
    rw [List.map_append, List.getElem?_append_right (by simp; omega), List.length_map,
      show pre.length + 1 + j - pre.length = j + 1 by omega, List.map_cons, List.getElem?_cons_succ]
  rw [matching, List.filter_eq_nil_iff]
  constructor
  · intro none member
    obtain ⟨j, there⟩ := List.mem_iff_getElem?.mp member
    have inside := (List.getElem?_eq_some_iff.mp there).1
    rw [List.length_map] at inside
    apply none (pre.length + 1 + j) (List.mem_range'_1.mpr ⟨by omega, by omega⟩)
    rw [slot, there, decide_eq_true_iff]
  · intro new i among same
    obtain ⟨low, _⟩ := List.mem_range'_1.mp among
    obtain ⟨j, rfl⟩ := Nat.exists_eq_add_of_le low
    rw [slot, decide_eq_true_iff] at same
    exact new (List.mem_of_getElem? same)

/-- TAPs of different identities claim their own slots; of two with the same identity, the first is refused. -/
theorem claim_own (pre taps : List Tap) :
    ((taps.map Tap.identity).Nodup →
      claim ((pre ++ taps).map Tap.identity) taps (List.range' pre.length taps.length) =
        .ok ((taps.zipIdx pre.length).map Prod.swap)) ∧
      (¬ (taps.map Tap.identity).Nodup → ∃ message,
        claim ((pre ++ taps).map Tap.identity) taps (List.range' pre.length taps.length) =
          .error (.refreshAmbiguity message)) := by
  induction taps generalizing pre with
  | nil => exact ⟨fun _ => rfl, fun twice => (twice List.nodup_nil).elim⟩
  | cons tap taps ih =>
    have own := matching_own pre tap taps
    have others := matching_others pre tap taps
    rw [matching] at own
    rw [List.map_cons, List.nodup_cons, claim, own, ← others]
    cases matching ((pre ++ tap :: taps).map Tap.identity) tap (pre.length + 1) taps.length with
    | nil =>
      have erased : (List.range' pre.length (tap :: taps).length).erase pre.length =
          List.range' (pre.length + 1) taps.length := by
        rw [List.length_cons, List.range'_succ, List.erase_cons_head]
      obtain ⟨distinct, repeated⟩ := ih (pre ++ [tap])
      rw [List.append_assoc, List.singleton_append, List.length_append, List.length_singleton] at distinct repeated
      simp only [erased, true_and]
      constructor
      · intro once
        rw [distinct once]
        rfl
      · intro twice
        obtain ⟨message, refused⟩ := repeated twice
        exact ⟨message, by rw [refused]; rfl⟩
    | cons other rest =>
      refine ⟨fun once => ?_, fun _ => ⟨_, rfl⟩⟩
      cases once.1

theorem lookup_zipIdx (taps : List Tap) (first j : Nat) :
    ((taps.zipIdx first).map Prod.swap).lookup (first + j) = taps[j]? := by
  induction taps generalizing first j with
  | nil => rfl
  | cons tap taps ih =>
    rw [List.zipIdx_cons, List.map_cons]
    cases j with
    | zero => simp [Prod.swap]
    | succ j =>
      have other : (first + (j + 1) == first) = false := by simp
      rw [Prod.swap, List.lookup_cons, other, show first + (j + 1) = first + 1 + j by omega]
      exact ih (first + 1) j

theorem mem_of_lookup {claimed : List (Nat × Tap)} {i : Nat} {tap : Tap} (found : claimed.lookup i = some tap) :
    (i, tap) ∈ claimed := by
  induction claimed with
  | nil => cases found
  | cons entry claimed ih =>
    obtain ⟨j, t⟩ := entry
    rw [List.lookup_cons] at found
    split at found
    · rename_i same
      cases found
      rw [eq_of_beq same]
      exact List.mem_cons_self
    · exact List.mem_cons_of_mem _ (ih found)

/-! ### The order of the chain -/

theorem context?_of_mem {ch : Chain} (keys : (ch.contexts.map Context.tap).Nodup) {c : Context}
    (member : c ∈ ch.contexts) : ch.context? c.tap = some c := by
  cases found : ch.context? c.tap with
  | none =>
    have missing := List.find?_eq_none.mp found c member
    simp at missing
  | some d =>
    obtain ⟨among, same⟩ := context?_some found
    rw [eq_of_tap keys among member same]

theorem isEnabled_iff {ch : Chain} (keys : (ch.contexts.map Context.tap).Nodup) {c : Context} (member : c ∈ ch.contexts) :
    ch.isEnabled c.tap = c.enabled ∧ ch.irPreOf c.tap = c.irPre := by
  rw [isEnabled, irPreOf, context?_of_mem keys member]
  exact ⟨rfl, rfl⟩

theorem irPreOf_split {ch : Chain} {order pre post : List Tap} {tap : Tap} (tiles : Tiles ch order)
    (split : order = pre ++ tap :: post) : ch.irPreOf tap = irWidth pre := by
  obtain ⟨c, member, rfl, enabled⟩ := tiles.listed tap (split ▸ List.mem_append_right _ List.mem_cons_self)
  obtain ⟨pre', post', split', irPre, _⟩ := tiles.split member enabled
  obtain ⟨rfl, _⟩ := split_unique (split ▸ tiles.nodup) (split.symm.trans split')
  rw [(isEnabled_iff tiles.keys member).2, irPre]

theorem filter_isEnabled {ch : Chain} (keys : (ch.contexts.map Context.tap).Nodup) :
    (ch.contexts.map Context.tap).filter ch.isEnabled = ch.enabledContexts.map Context.tap := by
  rw [List.filter_map, enabledContexts]
  congr 1
  exact List.filter_congr fun c member => (isEnabled_iff keys member).1

theorem enabledFirst_eq {ch : Chain} {order : List Tap} (tiles : Tiles ch order) :
    ch.enabledFirst (ch.contexts.map Context.tap) = order := by
  have some : ∀ tap ∈ order, 1 ≤ tap.irlen := by
    intro tap listed
    obtain ⟨c, member, rfl, _⟩ := tiles.listed tap listed
    exact tiles.irlens c member
  have sorted : ∀ pre post, order = pre ++ post → post.Pairwise fun a b => ch.irPreOf a ≤ ch.irPreOf b := by
    intro pre post split
    induction post generalizing pre with
    | nil => exact .nil
    | cons a post ih =>
      refine .cons (fun b later => ?_) (ih (pre ++ [a]) (by rw [split, List.append_assoc]; rfl))
      obtain ⟨mid, rest, rfl⟩ := List.append_of_mem later
      have place : order = (pre ++ a :: mid) ++ b :: rest := by
        rw [split, List.append_assoc, List.cons_append]
      rw [irPreOf_split tiles split, irPreOf_split tiles place, irWidth_append]
      omega
  have total : Std.Total fun a b : Tap => ch.irPreOf a ≤ ch.irPreOf b := ⟨fun a b => Int.le_total ..⟩
  have trans : IsTrans Tap fun a b : Tap => ch.irPreOf a ≤ ch.irPreOf b := ⟨fun a b c => Int.le_trans⟩
  rw [enabledFirst, filter_isEnabled tiles.keys]
  refine List.Perm.eq_of_pairwise (fun a b among listed le ge => ?_) (List.pairwise_insertionSort _ _)
    (sorted [] order rfl) ((List.perm_insertionSort _ _).trans tiles.perm)
  have member : a ∈ order := tiles.perm.mem_iff.mp ((List.perm_insertionSort _ _).mem_iff.mp among)
  obtain ⟨pre, post, split⟩ := List.append_of_mem member
  obtain ⟨pre', post', split'⟩ := List.append_of_mem listed
  rw [irPreOf_split tiles split, irPreOf_split tiles split'] at le ge
  have := some a member
  have := some b listed
  rcases split_cases (split.symm.trans split') with ⟨_, same, _⟩ | ⟨mid, rfl, _⟩ | ⟨mid, rfl, _⟩
  · exact same
  · rw [irWidth_append, irWidth_cons] at ge
    omega
  · rw [irWidth_append, irWidth_cons] at le
    omega

/-! ### Taking the chain apart -/

/-- The same TAPs with the same links, wherever they are. -/
structure SameTaps (ch ch' : Chain) : Prop where
  keys : ch'.contexts.map Context.tap = ch.contexts.map Context.tap
  children : ch'.children = ch.children
  fresh : ch'.fresh = ch.fresh
  links : SameLinks ch ch'

theorem SameTaps.refl (ch : Chain) : SameTaps ch ch := ⟨rfl, rfl, rfl, .refl ch⟩

theorem SameTaps.trans {a b c : Chain} (h : SameTaps a b) (h' : SameTaps b c) : SameTaps a c :=
  ⟨h'.keys.trans h.keys, h'.children.trans h.children, h'.fresh.trans h.fresh, h.links.trans h'.links⟩

theorem SameTaps.knows {ch ch' : Chain} (same : SameTaps ch ch') {tap : Tap} : ch'.Knows tap ↔ ch.Knows tap := by
  rw [knows_iff, knows_iff, same.keys]

theorem SameTaps.sane {ch ch' : Chain} (same : SameTaps ch ch') (sane : Sane ch) {order : List Tap}
    (tiles : Tiles ch' order) : Sane ch' :=
  ⟨⟨order, tiles⟩, sane.linked.transport same.links, by rw [same.children, same.keys, sane.children]⟩

theorem sameTaps_tapDetach (ch : Chain) (tap : Tap) : SameTaps ch (ch.tapDetach tap).1 := by
  obtain ⟨keys, children, _⟩ := keys_tapDetach ch tap
  refine ⟨keys, children, ?_, sameLinks_tapDetach ch tap⟩
  simp only [tapDetach]
  split
  · rfl
  · split <;> rfl

theorem tapDetach_order {ch : Chain} {order : List Tap} (tiles : Tiles ch order) (tap : Tap) :
    ∃ order', Tiles (ch.tapDetach tap).1 order' ∧ ∀ t ∈ order', t ∈ order ∧ t ≠ tap := by
  by_cases listed : tap ∈ order
  · obtain ⟨c, member, rfl, enabled⟩ := tiles.listed tap listed
    obtain ⟨pre, post, split, irPre, _⟩ := tiles.split member enabled
    subst split
    refine ⟨pre ++ post, tapDetach_tiles tiles (context?_of_mem tiles.keys member) enabled irPre, fun t there => ?_⟩
    have once := List.nodup_cons.mp (List.nodup_middle.mp tiles.nodup)
    refine ⟨?_, fun itself => once.1 (itself ▸ there)⟩
    rw [List.mem_append] at there ⊢
    exact there.imp_right (List.mem_cons_of_mem _)
  · have same : (ch.tapDetach tap).1 = ch := by
      simp only [tapDetach]
      split
      · rfl
      · rename_i ctx known
        obtain ⟨member, rfl⟩ := context?_some known
        rw [tiles.mem_iff member] at listed
        rw [if_neg listed]
    exact ⟨order, by rwa [same], fun t there => ⟨there, fun itself => listed (itself ▸ there)⟩⟩

theorem detachAll_order {ch : Chain} {order : List Tap} (tiles : Tiles ch order) (taps : List Tap) :
    ∃ order', Tiles (ch.detachAll taps) order' ∧ (∀ t ∈ order', t ∈ order ∧ t ∉ taps) ∧
      SameTaps ch (ch.detachAll taps) := by
  induction taps generalizing ch order with
  | nil => exact ⟨order, tiles, fun t there => ⟨there, List.not_mem_nil⟩, .refl ch⟩
  | cons tap taps ih =>
    obtain ⟨order₁, tiles₁, fewer₁⟩ := tapDetach_order tiles tap
    obtain ⟨order₂, tiles₂, fewer₂, same⟩ := ih tiles₁
    refine ⟨order₂, tiles₂, fun t there => ?_, (sameTaps_tapDetach ch tap).trans same⟩
    obtain ⟨before, later⟩ := fewer₂ t there
    obtain ⟨listed, other⟩ := fewer₁ t before
    exact ⟨listed, fun among => (List.mem_cons.mp among).elim other later⟩

theorem detachAll_enabled {ch : Chain} (sane : Sane ch) :
    Tiles (ch.detachAll (ch.children.filter ch.isEnabled)) [] ∧
      SameTaps ch (ch.detachAll (ch.children.filter ch.isEnabled)) := by
  obtain ⟨order, tiles⟩ := sane.tiles
  obtain ⟨order', tiles', fewer, same⟩ := detachAll_order tiles (ch.children.filter ch.isEnabled)
  have empty : order' = [] := by
    refine List.eq_nil_iff_forall_not_mem.mpr fun t there => ?_
    obtain ⟨listed, left⟩ := fewer t there
    rw [sane.children, filter_isEnabled tiles.keys] at left
    exact left (tiles.perm.mem_iff.mpr listed)
  exact ⟨empty ▸ tiles', same⟩

/-! ### Putting it together again -/

theorem reattach_own {ch : Chain} {placed : List Tap} (tiles : Tiles ch placed) (linked : Linked ch) {tap : Tap}
    (known : ch.Knows tap) (outside : tap ∉ placed) :
    ∃ ch' t, ch.tapReattach tap (irWidth placed) placed.length (ch.controllerOf tap) = (ch', .ok t) ∧
      SameTaps ch ch' ∧ Tiles ch' (placed ++ [tap]) := by
  obtain ⟨ctx, found⟩ := Option.isSome_iff_exists.mp known
  obtain ⟨member, rfl⟩ := context?_some found
  have off : ctx.enabled = false := by
    rw [tiles.mem_iff member] at outside
    exact Bool.eq_false_iff.mpr outside
  obtain ⟨shape, succeeds⟩ := tapReattach_eq found off (irWidth placed) placed.length (ch.controllerOf ctx.tap)
  rw [← List.append_nil placed] at tiles
  have tiles' := tapReattach_tiles tiles found off (ch.controllerOf ctx.tap)
  have links := sameLinks_putBack found
    (rfl : Context.tap { ctx with irPre := irWidth placed, drPre := placed.length, irPost := 0, drPost := 0,
                                  enabled := true } = _) rfl rfl
  generalize back : ch.putBack { ctx with irPre := irWidth placed, drPre := placed.length, irPost := 0, drPost := 0,
                                          enabled := true } = ch₁ at *
  have here : ch₁.Knows ctx.tap := by
    rw [← back, knows_iff, keys_putBack, ← knows_iff]
    exact known
  obtain ⟨set, same⟩ := sameLinks_setController (linked.transport links) here
  rw [links.controller] at set same
  have ok := succeeds.mpr set
  generalize result : ch.tapReattach ctx.tap (irWidth placed) placed.length (ch.controllerOf ctx.tap) = pair at *
  obtain ⟨ch', value⟩ := pair
  cases value with
  | error e => cases ok
  | ok t =>
    simp only at shape tiles'
    subst shape
    refine ⟨_, t, rfl, ⟨?_, ?_, ?_, links.trans same⟩, tiles'⟩
    · rw [keys_setController, ← back, keys_putBack]
    · rw [children_setController, ← back]
      rfl
    · rw [(sameButLinks_setController ..).fresh, ← back]
      rfl

theorem place_own (naming : Option Nat → Nat → String) {claimed : List (Nat × Tap)} {ch : Chain} {placed rest : List Tap}
    (tiles : Tiles ch placed) (linked : Linked ch) (known : ∀ tap ∈ rest, ch.Knows tap) (once : (placed ++ rest).Nodup)
    (claims : ∀ j, claimed.lookup (placed.length + j) = rest[j]?) :
    ∃ ch', place naming claimed (rest.map Tap.identity) placed.length (irWidth placed) placed.length ch = (ch', .ok ()) ∧
      SameTaps ch ch' ∧ Tiles ch' (placed ++ rest) := by
  induction rest generalizing ch placed with
  | nil => exact ⟨ch, rfl, .refl ch, by rwa [List.append_nil]⟩
  | cons tap rest ih =>
    have outside : tap ∉ placed := fun inside =>
      (List.nodup_append.mp once).2.2 _ inside _ List.mem_cons_self rfl
    obtain ⟨ch₁, t, back, same, tiles₁⟩ := reattach_own tiles linked (known tap List.mem_cons_self) outside
    have next : placed ++ tap :: rest = (placed ++ [tap]) ++ rest := by
      rw [List.append_assoc]
      rfl
    obtain ⟨ch', finish, same', tiles'⟩ := ih tiles₁ (linked.transport same.links)
      (fun t later => same.knows.mpr (known t (List.mem_cons_of_mem _ later))) (next ▸ once) (by
        intro j
        rw [List.length_append, List.length_singleton, Nat.add_assoc, claims, Nat.add_comm 1 j,
          List.getElem?_cons_succ])
    refine ⟨ch', ?_, same.trans same', next ▸ tiles'⟩
    have mine : claimed.lookup placed.length = some tap := claims 0
    simp only [List.map_cons, Tap.identity, place, mine, back]
    rw [irWidth_append, List.length_append, irWidth_cons, irWidth_nil, List.length_singleton] at finish
    exact_mod_cast finish

theorem insert_new {ch : Chain} {placed : List Tap} (tiles : Tiles ch placed) (sane : Sane ch) (name : String)
    (idcode : Option Nat) {irlen : Nat} (some : 1 ≤ irlen) :
    ∃ ch', ch.tapInsert name idcode irlen (irWidth placed) placed.length none =
        (ch', .ok { id := ch.fresh, name, idcode, irlen }) ∧
      Sane ch' ∧ Tiles ch' (placed ++ [{ id := ch.fresh, name, idcode, irlen }]) ∧
      ∀ tap, ch.Knows tap → ch'.Knows tap ∧ tap ≠ { id := ch.fresh, name, idcode, irlen } := by
  have tiles₀ := tiles
  rw [← List.append_nil placed] at tiles₀
  have tiles' := tapInsert_tiles tiles₀ name idcode some none
  have boundary : ch.Boundary (irWidth placed) placed.length := .inr ⟨tiles.totalIr.symm, tiles.totalDr.symm⟩
  have ok : (ch.tapInsert name idcode irlen (irWidth placed) placed.length none).2.toBool = true := rfl
  have keys : (ch.tapInsert name idcode irlen (irWidth placed) placed.length none).1.contexts.map Context.tap =
      ch.contexts.map Context.tap ++ [{ id := ch.fresh, name, idcode, irlen }] := by
    rw [(tapInsert_ok ok).2, withChild, keys_setController, keys_register]
    rfl
  refine ⟨(ch.tapInsert name idcode irlen (irWidth placed) placed.length none).1, rfl,
    tapInsert_sane sane name idcode some boundary ok, tiles', fun tap known => ⟨?_, fun itself => ?_⟩⟩
  · rw [knows_iff] at known ⊢
    rw [keys]
    exact List.mem_append_left _ known
  · have unknown : ch.context? tap = none := sane.unknown (by rw [itself])
    rw [Knows, unknown] at known
    cases known

structure Claims (ch : Chain) (placed : List Tap) (slots : List (Option Nat × Nat)) (claimed : List (Nat × Tap)) : Prop where
  knows : ∀ j tap, claimed.lookup (placed.length + j) = some tap → ch.Knows tap
  outside : ∀ j tap, claimed.lookup (placed.length + j) = some tap → tap ∉ placed
  irlen : ∀ j tap, claimed.lookup (placed.length + j) = some tap → slots[j]? = some tap.identity
  once : ∀ i j tap, claimed.lookup i = some tap → claimed.lookup j = some tap → i = j

theorem Claims.next {ch ch' : Chain} {placed : List Tap} {slot : Option Nat × Nat} {slots : List (Option Nat × Nat)}
    {claimed : List (Nat × Tap)} (claims : Claims ch placed (slot :: slots) claimed) {tap : Tap}
    (knows : ∀ t, ch.Knows t → ch'.Knows t)
    (other : ∀ j t, claimed.lookup (placed.length + (j + 1)) = some t → t ≠ tap) :
    Claims ch' (placed ++ [tap]) slots claimed := by
  have shift : ∀ j, (placed ++ [tap]).length + j = placed.length + (j + 1) := by
    intro j
    rw [List.length_append, List.length_singleton]
    omega
  refine ⟨fun j t found => ?_, fun j t found => ?_, fun j t found => ?_, claims.once⟩
  · exact knows t (claims.knows _ t (shift j ▸ found))
  · rw [shift] at found
    rw [List.mem_append, List.mem_singleton]
    exact fun inside => inside.elim (claims.outside _ t found) (other j t found)
  · rw [shift] at found
    exact claims.irlen _ t found

theorem place_sane (naming : Option Nat → Nat → String) {claimed : List (Nat × Tap)} {ch : Chain} {placed : List Tap}
    {slots : List (Option Nat × Nat)} (sane : Sane ch) (tiles : Tiles ch placed)
    (lengths : ∀ slot ∈ slots, 1 ≤ slot.2) (claims : Claims ch placed slots claimed) :
    ∃ ch', place naming claimed slots placed.length (irWidth placed) placed.length ch = (ch', .ok ()) ∧ Sane ch' := by
  -- The slots still to come may name no TAP placed already, so a reattach never finds its TAP enabled.
  induction slots generalizing ch placed with
  | nil => exact ⟨ch, rfl, sane⟩
  | cons slot slots ih =>
    obtain ⟨idcode, irlen⟩ := slot
    have lengths' : ∀ slot ∈ slots, 1 ≤ slot.2 := fun slot member => lengths slot (List.mem_cons_of_mem _ member)
    have step : ∀ tap : Tap, tap.irlen = irlen →
        (irWidth (placed ++ [tap]) : Int) = irWidth placed + irlen ∧ (placed ++ [tap]).length = placed.length + 1 := by
      intro tap same
      rw [irWidth_append, irWidth_cons, irWidth_nil, same, List.length_append]
      exact ⟨by omega, rfl⟩
    cases mine : claimed.lookup placed.length with
    | some tap =>
      obtain ⟨ch₁, t, back, same, tiles₁⟩ :=
        reattach_own tiles sane.linked (claims.knows 0 tap mine) (claims.outside 0 tap mine)
      have irlen : tap.irlen = irlen := (congrArg Prod.snd (Option.some.inj (claims.irlen 0 tap mine))).symm
      obtain ⟨ch', finish, sane'⟩ := ih (same.sane sane tiles₁) tiles₁ lengths'
        (claims.next (fun t => same.knows.mpr) fun j t found itself => by
          subst itself
          have := claims.once _ _ _ mine found
          omega)
      refine ⟨ch', ?_, sane'⟩
      rw [(step tap irlen).1, (step tap irlen).2] at finish
      simp only [place, mine, back]
      exact_mod_cast finish
    | none =>
      obtain ⟨ch₁, new, sane₁, tiles₁, knows⟩ :=
        insert_new tiles sane (naming idcode irlen) idcode (lengths _ List.mem_cons_self)
      obtain ⟨ch', finish, sane'⟩ := ih sane₁ tiles₁ lengths'
        (claims.next (fun t known => (knows t known).1) fun j t found => (knows t (claims.knows _ t found)).2)
      refine ⟨ch', ?_, sane'⟩
      rw [(step _ rfl).1, (step _ rfl).2] at finish
      simp only [place, mine, new]
      exact_mod_cast finish

theorem lookup_claimed {slots : List (Option Nat × Nat)} {taps : List Tap} (once : taps.Nodup)
    {claimed : List (Nat × Tap)} (ok : claim slots taps (List.range slots.length) = .ok claimed) :
    (∀ i tap, claimed.lookup i = some tap → tap ∈ taps ∧ slots[i]? = some tap.identity) ∧
      ∀ i j tap, claimed.lookup i = some tap → claimed.lookup j = some tap → i = j := by
  obtain ⟨sub, _, sound⟩ := claim_sound List.nodup_range ok
  refine ⟨fun i tap found => ?_, fun i j tap here there => ?_⟩
  · have member := mem_of_lookup found
    exact ⟨sub.subset (List.mem_map_of_mem (f := Prod.snd) member), (sound i tap member).2⟩
  · have same := List.inj_on_of_nodup_map (f := Prod.snd) (once.sublist sub) (mem_of_lookup here) (mem_of_lookup there) rfl
    exact congrArg Prod.fst same

theorem lacks_children {ch : Chain} (children : ch.children = ch.contexts.map Context.tap) :
    ch.lacks ch.children = false := by
  rw [lacks, List.any_eq_false]
  intro tap child missing
  rw [children, ← knows_iff, Knows, Option.isNone_iff_eq_none.mp missing] at child
  cases child

/-- A refresh raises before it changes anything, or rebuilds a sane chain. -/
theorem refresh_sane {ch : Chain} (sane : Sane ch) (naming : Option Nat → Nat → String)
    {slots : List (Option Nat × Nat)} (lengths : ∀ slot ∈ slots, 1 ≤ slot.2) :
    Sane (ch.refresh naming ch.children slots).1 := by
  obtain ⟨order, tiles⟩ := sane.tiles
  rw [refresh]
  cases ok : ch.matchIdentities ch.children slots with
  | error e => exact sane
  | ok claimed =>
    have split : (ch.enabledFirst ch.children ++ ch.children.filter fun tap => !ch.isEnabled tap).Perm ch.children :=
      ((List.perm_insertionSort _ _).append_right _).trans (List.filter_append_perm ch.isEnabled ch.children)
    have once : ch.children.Nodup := sane.children ▸ tiles.keys
    rw [matchIdentities, lacks_children sane.children, if_neg Bool.false_ne_true] at ok
    obtain ⟨sound, distinct⟩ := lookup_claimed (split.nodup_iff.mpr once) ok
    obtain ⟨empty, same⟩ := detachAll_enabled sane
    have claims : Claims (ch.detachAll (ch.children.filter ch.isEnabled)) [] slots claimed := by
      refine ⟨fun j tap found => ?_, fun _ _ _ => List.not_mem_nil, fun j tap found => ?_, distinct⟩
      · rw [same.knows, knows_iff, ← sane.children]
        exact split.mem_iff.mp (sound _ tap found).1
      · rw [List.length_nil, Nat.zero_add] at found
        exact (sound j tap found).2
    obtain ⟨ch', finish, sane'⟩ := place_sane naming (same.sane sane empty) empty lengths claims
    rw [irWidth_nil, List.length_nil] at finish
    simp only [applyRefresh]
    rw [show place naming claimed slots 0 0 0 _ = _ from finish]
    exact sane'

/-! ### The chains a program reaches -/

/-- A call that names a controller names a TAP of the chain. -/
def Grounded (ch : Chain) : Call → Prop
  | .insert _ _ _ _ _ (some k) => ch.Knows k
  | .reattach _ _ _ (some k) => ch.Knows k
  | .setController _ (some k) => ch.Knows k
  | _ => True

theorem linkable_of_grounded {ch : Chain} {call : Call} (grounded : ch.Grounded call) : ch.linkable call = true := by
  cases call with
  | add name idcode irlen => rfl
  | insert name idcode irlen irPre drPre controller =>
    cases controller with
    | none => rfl
    | some k => exact grounded
  | reattach tap irPre drPre controller =>
    have known : (controller.all fun k => (ch.context? k).isSome) = true := by
      cases controller with
      | none => rfl
      | some k => exact grounded
    cases found : ch.context? tap <;> simp [linkable, found, known]
  | detach tap => rfl
  | remove tap => rfl
  | setController tap controller =>
    cases controller with
    | none => simp [linkable]
    | some k =>
      have known : (ch.context? k).isSome = true := grounded
      simp [linkable, known]

/-- Chains built by calls, batches of operations and refreshes, whatever a probe found. -/
inductive Reached : Chain → Prop where
  | empty (name : String) : Reached { name }
  | call {ch : Chain} (before : Reached ch) (call : Call) (allowed : ch.Allowed call) (grounded : ch.Grounded call) :
    Reached (ch.after call)
  | ops {ch : Chain} (before : Reached ch) (posted : Nat) (batch : List Envelope) : Reached (ch.flushOps posted batch).1
  | refresh {ch : Chain} (before : Reached ch) (naming : Option Nat → Nat → String) (slots : List (Option Nat × Nat))
    (lengths : ∀ slot ∈ slots, 1 ≤ slot.2) : Reached (ch.refresh naming ch.children slots).1

theorem Reached.sane {ch : Chain} (reached : Reached ch) : Sane ch := by
  induction reached with
  | empty name => exact sane_empty name
  | call before call allowed grounded sane =>
    rcases after_cases sane.tracked (linkable_of_grounded grounded) with same | ok
    · rw [same]
      exact sane
    · exact after_sane sane allowed ok
  | ops before posted batch sane => exact flushOps_sane sane posted batch
  | refresh before naming slots lengths sane => exact refresh_sane sane naming lengths

end Chain
end Acrobe.Jtag
