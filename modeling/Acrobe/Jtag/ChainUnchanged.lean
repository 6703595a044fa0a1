import Acrobe.Jtag.ChainRebuild

/-!
# Refreshing what has not changed

When the probe finds the TAPs that are enabled, each claims its own slot, unless
two have the same identity, and comes back to where it was.
-/

namespace Acrobe.Jtag
open BitString Lib Tiling

namespace Chain

/-! ### Unchanged chains -/

/-- The same Tap objects, flags, geometry and links, the last up to the order of the gated TAPs. -/
structure Unchanged (ch ch' : Chain) : Prop where
  children : ch'.children = ch.children
  geometry : SameGeometry ch ch'
  links : SameLinks ch ch'

theorem Unchanged.refl (ch : Chain) : Unchanged ch ch := ⟨rfl, .refl ch, .refl ch⟩

theorem Unchanged.trans {a b c : Chain} (h : Unchanged a b) (h' : Unchanged b c) : Unchanged a c :=
  ⟨h'.children.trans h.children, h.geometry.trans h'.geometry, h.links.trans h'.links⟩

theorem Unchanged.keys {ch ch' : Chain} (same : Unchanged ch ch') :
    ch'.contexts.map Context.tap = ch.contexts.map Context.tap := by
  have taps := congrArg (List.map Slot.tap) same.geometry.1
  rw [slots, slots, List.map_map, List.map_map] at taps
  exact taps

theorem Unchanged.sane {ch ch' : Chain} (same : Unchanged ch ch') (sane : Sane ch) : Sane ch' := by
  obtain ⟨order, tiles⟩ := sane.tiles
  refine ⟨⟨order, tiles.transport same.geometry⟩, sane.linked.transport same.links, ?_⟩
  rw [same.children, same.keys, sane.children]

theorem Unchanged.attached {ch ch' : Chain} (same : Unchanged ch ch') (attached : ∀ c ∈ ch.contexts, c.enabled = true) :
    ∀ c ∈ ch'.contexts, c.enabled = true := by
  intro c member
  obtain ⟨d, among, slot⟩ := same.geometry.exists_slot member
  exact (congrArg Slot.enabled slot).symm.trans (attached d among)

theorem slots_eq {ch ch' : Chain} {order : List Tap} (tiles : Tiles ch order) (tiles' : Tiles ch' order)
    (keys : ch'.contexts.map Context.tap = ch.contexts.map Context.tap) (attached : ∀ c ∈ ch.contexts, c.enabled = true) :
    ch'.slots = ch.slots := by
  have length : ch'.contexts.length = ch.contexts.length := by
    rw [← List.length_map Context.tap, keys, List.length_map]
  refine List.ext_getElem (by rw [slots, slots, List.length_map, List.length_map, length]) fun i here there => ?_
  simp only [slots, List.getElem_map, List.length_map] at here there ⊢
  have tap : (ch'.contexts[i]).tap = (ch.contexts[i]).tap := by
    have same := congrArg (·[i]?) keys
    simpa only [List.getElem?_map, List.getElem?_eq_getElem here, List.getElem?_eq_getElem there, Option.map_some,
      Option.some.injEq] using same
  generalize was : ch.contexts[i] = c at tap
  generalize is : ch'.contexts[i] = c' at tap
  have member : c ∈ ch.contexts := was ▸ List.getElem_mem _
  have member' : c' ∈ ch'.contexts := is ▸ List.getElem_mem _
  have enabled' : c'.enabled = true := by
    rw [← tiles'.mem_iff member', tap, tiles.mem_iff member]
    exact attached c member
  obtain ⟨pre, post, split, irPre, irPost, drPre, drPost⟩ := tiles.split member (attached c member)
  obtain ⟨pre', post', split', irPre', irPost', drPre', drPost'⟩ := tiles'.split member' enabled'
  rw [tap] at split'
  obtain ⟨rfl, rfl⟩ := split_unique (split ▸ tiles.nodup) (split.symm.trans split')
  rw [Context.slot, Context.slot, tap, enabled', attached c member, irPre, irPre', irPost, irPost', drPre, drPre', drPost,
    drPost']

theorem refresh_own {ch : Chain} (sane : Sane ch) (attached : ∀ c ∈ ch.contexts, c.enabled = true) {order : List Tap}
    (tiles : Tiles ch order) (naming : Option Nat → Nat → String) :
    ((order.map Tap.identity).Nodup →
      ∃ ch', ch.refresh naming ch.children (order.map Tap.identity) = (ch', .ok ()) ∧ Unchanged ch ch') ∧
      (¬ (order.map Tap.identity).Nodup → ∃ message,
        ch.refresh naming ch.children (order.map Tap.identity) = (ch, .error (.refreshAmbiguity message))) := by
  have enabled : ch.children.filter ch.isEnabled = ch.children := by
    rw [sane.children, filter_isEnabled tiles.keys, enabledContexts, List.filter_eq_self.mpr attached]
  have nobody : (ch.children.filter fun tap => !ch.isEnabled tap) = [] := by
    rw [List.filter_eq_nil_iff]
    intro tap child
    rw [← enabled] at child
    simp [(List.mem_filter.mp child).2]
  have matched : ch.matchIdentities ch.children (order.map Tap.identity) =
      claim (order.map Tap.identity) order (List.range' 0 order.length) := by
    rw [matchIdentities, lacks_children sane.children, if_neg Bool.false_ne_true, nobody, List.append_nil, sane.children,
      enabledFirst_eq tiles, List.length_map, List.range_eq_range']
  obtain ⟨distinct, repeated⟩ := claim_own [] order
  rw [List.nil_append, List.length_nil] at distinct repeated
  constructor
  · intro once
    obtain ⟨empty, same⟩ := detachAll_enabled sane
    have known : ∀ tap ∈ order, (ch.detachAll (ch.children.filter ch.isEnabled)).Knows tap := by
      intro tap listed
      obtain ⟨c, member, rfl, _⟩ := tiles.listed tap listed
      rw [same.knows, knows_iff]
      exact List.mem_map_of_mem member
    obtain ⟨ch', finish, same', tiles'⟩ := place_own naming empty (sane.linked.transport same.links) known tiles.nodup
      (lookup_zipIdx order 0)
    have all := same.trans same'
    refine ⟨ch', ?_, all.children, ⟨slots_eq tiles tiles' all.keys attached, ?_, ?_, all.fresh⟩, all.links⟩
    · rw [refresh, matched, distinct once]
      exact finish
    · rw [tiles'.totalIr, tiles.totalIr]
      rfl
    · rw [tiles'.totalDr, tiles.totalDr]
      rfl
  · intro twice
    obtain ⟨message, refused⟩ := repeated twice
    exact ⟨message, by rw [refresh, matched, refused]⟩

/-! ### Hooks -/

/-- A hook that raises nothing, changes nothing of `ch` and leaves the hardware what it is. -/
def QuietHook (ch : Chain) (hook : Tap → Chain → ScanPath → Chain × ScanPath × Except PyErr Unit) : Prop :=
  ∀ tap now hw, Unchanged ch now →
    ∃ now' hw', hook tap now hw = (now', hw', .ok ()) ∧ Unchanged now now' ∧ ScanPath.Keeps hw hw'

structure Hooks.Quiet (hooks : Hooks) (ch : Chain) : Prop where
  pre : QuietHook ch hooks.preTlr
  post : QuietHook ch hooks.postTlr

theorem Hooks.default_quiet (ch : Chain) : Hooks.default.Quiet ch :=
  ⟨fun _ now hw _ => ⟨now, hw, rfl, .refl now, .refl hw⟩, fun _ now hw _ => ⟨now, hw, rfl, .refl now, .refl hw⟩⟩

theorem eachTap_quiet {ch : Chain} {hook : Tap → Chain → ScanPath → Chain × ScanPath × Except PyErr Unit}
    (quiet : QuietHook ch hook) (taps : List Tap) {now : Chain} (same : Unchanged ch now) (hw : ScanPath) :
    ∃ now' hw', eachTap hook taps now hw = (now', hw', .ok ()) ∧ Unchanged ch now' ∧ ScanPath.Keeps hw hw' := by
  induction taps generalizing now hw with
  | nil => exact ⟨now, hw, rfl, same, .refl hw⟩
  | cons tap taps ih =>
    obtain ⟨now₁, hw₁, first, same₁, keeps₁⟩ := quiet tap now hw same
    obtain ⟨now₂, hw₂, rest, same₂, keeps₂⟩ := ih (same.trans same₁) hw₁
    refine ⟨now₂, hw₂, ?_, same₂, keeps₁.trans keeps₂⟩
    rw [eachTap, first]
    exact rest

theorem quiet_enabled {ch : Chain} {hook : Tap → Chain → ScanPath → Chain × ScanPath × Except PyErr Unit}
    (quiet : QuietHook ch hook) :
    QuietHook ch fun tap ch hw => if ch.isEnabled tap then hook tap ch hw else (ch, hw, .ok ()) := by
  intro tap now hw same
  simp only
  split
  · exact quiet tap now hw same
  · exact ⟨now, hw, rfl, .refl now, .refl hw⟩

/-! ### The hardware after the reset -/

theorem run_cjtagSet_ir (hw : ScanPath) (lens : List Nat) : (hw.run (cjtagSet lens)).ir = hw.ir := by
  have scans : ∀ hw : ScanPath, (hw.run (lens.flatMap cjtagScan)).ir = hw.ir := by
    induction lens with
    | nil => exact fun hw => rfl
    | cons val lens ih =>
      intro hw
      rw [List.flatMap_cons, ScanPath.run_append, ih]
      rfl
  rw [cjtagSet, ← List.singleton_append, ScanPath.run_append, ScanPath.run_append]
  exact scans hw

theorem run_resetAndUnlock_ir (hw : ScanPath) {tap : Tap} (listed : tap ∈ hw.path) :
    (hw.run resetAndUnlock).ir tap = hw.resetIr tap := by
  rw [resetAndUnlock, ScanPath.run_append, run_cjtagSet_ir]
  exact if_pos listed

theorem probe_after_reset {hw hw' : ScanPath} (keeps : ScanPath.Keeps hw hw') (discoverable : hw.Discoverable)
    {irlenFor : Nat → Option Nat} (recorded : hw.Recorded irlenFor) :
    (hw.Unambiguous irlenFor →
      (probeChainInResetState irlenFor (hw'.run resetAndUnlock)).2 = .ok (hw.path.map Tap.identity)) ∧
      (¬ hw.Unambiguous irlenFor → ∃ message,
        (probeChainInResetState irlenFor (hw'.run resetAndUnlock)).2 = .error (.valueError message)) := by
  have all := keeps.trans (ScanPath.keeps_run hw' resetAndUnlock)
  have reset : ∀ tap ∈ (hw'.run resetAndUnlock).path,
      (hw'.run resetAndUnlock).ir tap = (hw'.run resetAndUnlock).resetIr tap := by
    intro tap listed
    rw [(ScanPath.keeps_run hw' resetAndUnlock).path] at listed
    rw [run_resetAndUnlock_ir hw' listed, (ScanPath.keeps_run hw' resetAndUnlock).resetIr]
  have recorded' : (hw'.run resetAndUnlock).Recorded irlenFor := by
    rw [ScanPath.Recorded, all.path]
    exact recorded
  have unambiguous : (hw'.run resetAndUnlock).Unambiguous irlenFor ↔ hw.Unambiguous irlenFor := by
    rw [ScanPath.Unambiguous, ScanPath.Unambiguous, all.path, all.captured]
  have sound := probe_sound (discoverable.keeps all) recorded' reset
  rw [unambiguous, all.path] at sound
  exact sound

/-! ### Ordinary hardware -/

/-- TAPs that capture 10..0, with an IDCODE register if they have an IDCODE. -/
def ordinary (path : List Tap) : ScanPath where
  path
  ir _ := 0
  captured tap := true :: zeros (tap.irlen - 1)
  data tap ir := if ir = tap.bypass then [false] else idRegister tap.idcode
  resetIr tap := if tap.idcode = none then tap.bypass else 0

theorem ordinary_discoverable {path : List Tap} (nodup : path.Nodup)
    (taps : ∀ tap ∈ path, 2 ≤ tap.irlen ∧ ValidIdcode tap.idcode) (shortIr : irWidth path ≤ defaultLength)
    (shortDr : (path.flatMap fun tap => idRegister tap.idcode).length ≤ defaultLength) :
    (ordinary path).Discoverable := by
  refine ⟨nodup, fun tap listed => ?_, shortIr, shortDr⟩
  obtain ⟨irlen, valid⟩ := taps tap listed
  have some : 2 ^ 2 ≤ 2 ^ tap.irlen := Nat.pow_le_pow_right (by decide) irlen
  refine ⟨⟨zeros (tap.irlen - 2), ?_⟩, ?_, if_pos rfl, ?_, valid⟩
  · show true :: zeros (tap.irlen - 1) = _
    rw [show tap.irlen - 1 = tap.irlen - 2 + 1 by omega]
    rfl
  · show (true :: zeros (tap.irlen - 1)).length = _
    rw [List.length_cons, length_zeros]
    omega
  · show (if (if tap.idcode = none then tap.bypass else 0) = tap.bypass then [false] else idRegister tap.idcode) = _
    cases tap.idcode with
    | none => simp [idRegister]
    | some value =>
      apply if_neg
      rw [Tap.bypass]
      simp only [reduceCtorEq, if_false]
      omega

/-- After a reset, whatever the registers held, the probe finds the TAPs of the path or refuses. -/
theorem reset_then_probe {hw : ScanPath} (discoverable : hw.Discoverable) {irlenFor : Nat → Option Nat}
    (recorded : hw.Recorded irlenFor) :
    (hw.Unambiguous irlenFor →
      (probeChainInResetState irlenFor (hw.run resetAndUnlock)).2 = .ok (hw.path.map Tap.identity)) ∧
      (¬ hw.Unambiguous irlenFor → ∃ message,
        (probeChainInResetState irlenFor (hw.run resetAndUnlock)).2 = .error (.valueError message)) :=
  probe_after_reset (.refl hw) discoverable recorded

theorem reset_then_probe_pair :
    (probeChainInResetState (fun _ => none)
      ((ordinary [⟨0, "a", none, 4⟩, ⟨1, "b", some 0x4ba00477, 4⟩]).run resetAndUnlock)).2 =
        .ok [(none, 4), (some 0x4ba00477, 4)] :=
  (@reset_then_probe _ (ordinary_discoverable (by decide) (by decide) (by decide) (by decide)) (fun _ => none)
    fun _ _ _ _ _ => nofun).1 (by decide)

/-! ### The refresh -/

theorem tlrAndRefresh_eq {hooks : Hooks} {irlenFor : Nat → Option Nat} {naming : Option Nat → Nat → String}
    {ch now : Chain} {hw hw' : ScanPath} (children : ch.children = ch.contexts.map Context.tap)
    (first : eachTap hooks.preTlr ch.children ch hw = (now, hw', .ok ())) :
    tlrAndRefresh hooks irlenFor naming ch hw =
      now.finishRefresh hooks naming ch.children (probeChainInResetState irlenFor (hw'.run resetAndUnlock)) := by
  simp only [tlrAndRefresh, lacks_children children, Bool.false_eq_true, if_false, first]

theorem finishRefresh_error {ch : Chain} {hooks : Hooks} {naming : Option Nat → Nat → String} {existing : List Tap}
    {hw : ScanPath} {slots : List (Option Nat × Nat)} {e : PyErr} (refused : (ch.refresh naming existing slots).2 = .error e) :
    (ch.finishRefresh hooks naming existing (hw, .ok slots)).2.2 = .error e := by
  generalize result : ch.refresh naming existing slots = pair at refused
  obtain ⟨ch', _⟩ := pair
  cases refused
  simp only [finishRefresh, result]

section
variable {ch : Chain} (attached : ∀ c ∈ ch.contexts, c.enabled = true) {hw : ScanPath}
  (exposed : hw.path = ch.enabledFirst ch.children) (discoverable : hw.Discoverable) {irlenFor : Nat → Option Nat}
  (recorded : hw.Recorded irlenFor) {hooks : Hooks} (quiet : hooks.Quiet ch) (naming : Option Nat → Nat → String)
include attached exposed discoverable recorded quiet

theorem tlrAndRefresh_cases (sane : Sane ch) :
    Unchanged ch (tlrAndRefresh hooks irlenFor naming ch hw).1 ∧
      (hw.Unambiguous irlenFor → (hw.path.map Tap.identity).Nodup →
        (tlrAndRefresh hooks irlenFor naming ch hw).2.2 = .ok ()) ∧
      (hw.Unambiguous irlenFor → ¬ (hw.path.map Tap.identity).Nodup →
        ∃ message, (tlrAndRefresh hooks irlenFor naming ch hw).2.2 = .error (.refreshAmbiguity message)) ∧
      (¬ hw.Unambiguous irlenFor →
        ∃ message, (tlrAndRefresh hooks irlenFor naming ch hw).2.2 = .error (.valueError message)) := by
  obtain ⟨now, hw', first, same, keeps⟩ := eachTap_quiet quiet.pre ch.children (.refl ch) hw
  have tiles : Tiles now hw.path := by
    obtain ⟨order, tiles⟩ := sane.tiles
    rw [exposed, sane.children, enabledFirst_eq tiles]
    exact tiles.transport same.geometry
  obtain ⟨distinct, repeated⟩ := refresh_own (same.sane sane) (same.attached attached) tiles naming
  rw [same.children] at distinct repeated
  -- The hooks may have used the chain, but the path they leave is the one that was there.
  obtain ⟨found, ambiguous⟩ := probe_after_reset keeps discoverable recorded
  rw [tlrAndRefresh_eq sane.children first]
  generalize probeChainInResetState irlenFor (hw'.run resetAndUnlock) = probe at found ambiguous
  obtain ⟨hw₁, slots⟩ := probe
  by_cases clear : hw.Unambiguous irlenFor
  · cases found clear
    by_cases once : (hw.path.map Tap.identity).Nodup
    · obtain ⟨now', refreshed, same'⟩ := distinct once
      obtain ⟨now'', hw₂, last, same'', _⟩ :=
        eachTap_quiet (quiet_enabled quiet.post) now'.children (same.trans same') hw₁
      simp only [finishRefresh, refreshed, last]
      exact ⟨same'', fun _ _ => trivial, fun _ twice => (twice once).elim, fun unclear => (unclear clear).elim⟩
    · obtain ⟨message, refused⟩ := repeated once
      simp only [finishRefresh, refused]
      exact ⟨same, fun _ distinct => (once distinct).elim, fun _ _ => ⟨message, rfl⟩,
        fun unclear => (unclear clear).elim⟩
  · obtain ⟨message, failed⟩ := ambiguous clear
    cases failed
    exact ⟨same, fun unclear => (clear unclear).elim, fun unclear => (clear unclear).elim, fun _ => ⟨message, rfl⟩⟩

/-- Refreshing hardware that has not changed leaves the model as it was. It
raises nothing exactly when the probe is not ambiguous and no two TAPs have the
same identity. -/
theorem tlrAndRefresh_unchanged (reached : Reached ch) :
    Unchanged ch (tlrAndRefresh hooks irlenFor naming ch hw).1 ∧
      ((tlrAndRefresh hooks irlenFor naming ch hw).2.2 = .ok () ↔
        hw.Unambiguous irlenFor ∧ (hw.path.map Tap.identity).Nodup) ∧
      (hw.Unambiguous irlenFor → ¬ (hw.path.map Tap.identity).Nodup →
        ∃ message, (tlrAndRefresh hooks irlenFor naming ch hw).2.2 = .error (.refreshAmbiguity message)) ∧
      (¬ hw.Unambiguous irlenFor →
        ∃ message, (tlrAndRefresh hooks irlenFor naming ch hw).2.2 = .error (.valueError message)) := by
  obtain ⟨same, quietly, repeated, ambiguous⟩ :=
    tlrAndRefresh_cases attached exposed discoverable recorded quiet naming reached.sane
  refine ⟨same, ⟨fun ok => ?_, fun both => quietly both.1 both.2⟩, repeated, ambiguous⟩
  by_contra neither
  rw [not_and_or] at neither
  by_cases clear : hw.Unambiguous irlenFor
  · obtain ⟨message, refused⟩ := repeated clear (neither.resolve_left (not_not_intro clear))
    rw [refused] at ok
    cases ok
  · obtain ⟨message, failed⟩ := ambiguous clear
    rw [failed] at ok
    cases ok

end

/-- Two TAPs, the first the controller of the second. -/
theorem tlrAndRefresh_unchanged_pair :
    let a : Tap := ⟨0, "a", none, 4⟩
    let b : Tap := ⟨1, "b", some 0x4ba00477, 4⟩
    let ch := run { name := "chain" } [.add "a" none 4, .add "b" (some 0x4ba00477) 4, .setController b (some a)]
    Unchanged ch (tlrAndRefresh Hooks.default (fun _ => none) (fun _ _ => "tap") ch (ordinary [a, b])).1 ∧
      (tlrAndRefresh Hooks.default (fun _ => none) (fun _ _ => "tap") ch (ordinary [a, b])).2.2 = .ok () := by
  intro a b ch
  have reached : Reached ch := (((Reached.empty "chain").call (.add "a" none 4) (by decide) trivial).call
    (.add "b" (some 0x4ba00477) 4) (by decide) trivial).call (.setController b (some a)) trivial rfl
  have exposed : (ordinary [a, b]).path = ch.enabledFirst ch.children := by decide
  have discoverable : (ordinary [a, b]).Discoverable :=
    ordinary_discoverable (by decide) (by decide) (by decide) (by decide)
  have recorded : (ordinary [a, b]).Recorded fun _ => none := fun _ _ _ _ _ => nofun
  obtain ⟨same, raises, _⟩ := tlrAndRefresh_unchanged (by decide) exposed discoverable recorded (Hooks.default_quiet ch)
    (fun _ _ => "tap") reached
  exact ⟨same, raises.mpr ⟨by decide, by decide⟩⟩

/-- Two TAPs of the same identity are refused. So is one TAP whose controller was
set to a stranger: the call raised, but not before it had changed the link. -/
theorem tlrAndRefresh_raises :
    let a : Tap := ⟨0, "a", none, 4⟩
    let b : Tap := ⟨1, "b", none, 4⟩
    let twins := run { name := "chain" } [.add "a" none 4, .add "b" none 4]
    let linked := run { name := "chain" } [.add "a" none 4, .setController a (some ⟨7, "stranger", none, 4⟩)]
    Reached twins ∧ (∀ c ∈ twins.contexts, c.enabled = true) ∧ [a, b] = twins.enabledFirst twins.children ∧
      (∃ message, (tlrAndRefresh Hooks.default (fun _ => none) (fun _ _ => "tap") twins (ordinary [a, b])).2.2 =
        .error (.refreshAmbiguity message)) ∧
      (∀ c ∈ linked.contexts, c.enabled = true) ∧ [a] = linked.enabledFirst linked.children ∧
      ∃ message, (tlrAndRefresh Hooks.default (fun _ => none) (fun _ _ => "tap") linked (ordinary [a])).2.2 =
        .error (.runtimeError message) := by
  intro a b twins linked
  have reached : Reached twins := ((Reached.empty "chain").call (.add "a" none 4) (by decide) trivial).call
    (.add "b" none 4) (by decide) trivial
  have exposed : (ordinary [a, b]).path = twins.enabledFirst twins.children := by decide
  refine ⟨reached, by decide, exposed, ?_, by decide, by decide, ?_⟩
  · have discoverable : (ordinary [a, b]).Discoverable :=
      ordinary_discoverable (by decide) (by decide) (by decide) (by decide)
    have recorded : (ordinary [a, b]).Recorded fun _ => none := fun _ _ _ _ _ => nofun
    obtain ⟨_, _, repeated, _⟩ := tlrAndRefresh_cases (by decide) exposed discoverable recorded
      (Hooks.default_quiet twins) (fun _ _ => "tap") reached.sane
    exact repeated (by decide) (by decide)
  · have discoverable : (ordinary [a]).Discoverable :=
      ordinary_discoverable (by decide) (by decide) (by decide) (by decide)
    have recorded : (ordinary [a]).Recorded fun _ => none := fun _ _ _ _ _ => nofun
    have found := (probe_after_reset (.refl _) discoverable recorded).1 (by decide)
    have first : eachTap Hooks.default.preTlr linked.children linked (ordinary [a]) = (linked, ordinary [a], .ok ()) := rfl
    have refused : (linked.refresh (fun _ _ => "tap") linked.children [a.identity]).2 =
        .error (.runtimeError "Controller 'stranger' has no context in chain 'chain'") := by decide
    rw [tlrAndRefresh_eq rfl first]
    generalize probeChainInResetState (fun _ => none) ((ordinary [a]).run resetAndUnlock) = probe at found
    obtain ⟨hw, slots⟩ := probe
    cases found
    exact ⟨_, finishRefresh_error refused⟩

end Chain
end Acrobe.Jtag
