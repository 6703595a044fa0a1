import Acrobe.Jtag.ChainUnchanged

/-!
# The instruction cache after a Test-Logic-Reset

`tlr_and_refresh` resets the hardware and scans its instruction registers behind the back of the
cache. Only the rebuild of the chain forgets what was cached, and a probe or a match that raises
leaves the cache as it was.
-/

namespace Acrobe.Jtag
open BitString Lib Tiling

/-! ### What the hardware holds -/

/-- The instruction registers of the path, TDO end first. -/
def ScanPath.irBits (hw : ScanPath) : BitString := hw.path.flatMap fun tap => ofNat (hw.ir tap) tap.irlen

/-- The part of the instruction registers that stands where the chain has the TAP. -/
def Context.segment (ctx : Context) (bits : BitString) : BitString :=
  (bits.drop ctx.irPre.toNat).take ctx.tap.irlen

/-- Nothing is cached, or BYPASS is. -/
def Context.Parked (ctx : Context) : Prop := ctx.currentIr = none ∨ ctx.currentIr = some ctx.tap.bypass

namespace Chain

/-- No enabled TAP has a cached instruction that differs from the bits in its place. -/
def AgreesWith (ch : Chain) (bits : BitString) : Prop :=
  ∀ ctx ∈ ch.contexts, ctx.enabled = true → ∀ value, ctx.currentIr = some value →
    (ctx.segment bits).length = ctx.tap.irlen → toNat (ctx.segment bits) = value

def CacheSound (ch : Chain) (hw : ScanPath) : Prop := ch.AgreesWith hw.irBits

/-! ### What calls do to the cache -/

/-- Every cached instruction of `ch'` was cached in `ch` already, and a TAP that is out was out. -/
def Carries (ch ch' : Chain) : Prop :=
  ∀ ctx' ∈ ch'.contexts, ctx'.currentIr = none ∨ ∃ ctx ∈ ch.contexts, ctx.tap = ctx'.tap ∧
    ctx.currentIr = ctx'.currentIr ∧ (ctx'.enabled = false → ctx.enabled = false)

theorem Carries.refl (ch : Chain) : Carries ch ch := fun ctx member => .inr ⟨ctx, member, rfl, rfl, id⟩

theorem Carries.trans {a b c : Chain} (h : Carries a b) (h' : Carries b c) : Carries a c := by
  intro last member
  rcases h' last member with none | ⟨middle, among, tap, cached, out⟩
  · exact .inl none
  · rcases h middle among with none | ⟨first, there, tap', cached', out'⟩
    · exact .inl (cached ▸ none)
    · exact .inr ⟨first, there, tap'.trans tap, cached'.trans cached, out' ∘ out⟩

theorem carries_map {ch : Chain} {f : Context → Context}
    (keeps : ∀ ctx, (f ctx).tap = ctx.tap ∧ ((f ctx).currentIr = none ∨
      (f ctx).currentIr = ctx.currentIr ∧ ((f ctx).enabled = false → ctx.enabled = false))) :
    Carries ch { ch with contexts := ch.contexts.map f } := by
  intro ctx' member
  obtain ⟨ctx, among, rfl⟩ := List.mem_map.mp member
  obtain ⟨tap, kept⟩ := keeps ctx
  rcases kept with none | ⟨cached, out⟩
  · exact .inl none
  · exact .inr ⟨ctx, among, tap.symm, cached.symm, out⟩

theorem SameButLinks.carries {ch ch' : Chain} (same : SameButLinks ch ch') : Carries ch ch' := by
  intro ctx' member
  have among : ctx'.unlinked ∈ ch.contexts.map Context.unlinked := by
    rw [← same.contexts]
    exact List.mem_map_of_mem member
  obtain ⟨ctx, there, equal⟩ := List.mem_map.mp among
  have tap : ctx.unlinked.tap = ctx'.unlinked.tap := congrArg Context.tap equal
  have cached : ctx.unlinked.currentIr = ctx'.unlinked.currentIr := congrArg Context.currentIr equal
  have enabled : ctx.unlinked.enabled = ctx'.unlinked.enabled := congrArg Context.enabled equal
  exact .inr ⟨ctx, there, tap, cached, fun out => enabled.trans out⟩

theorem inserted_currentIr (ch : Chain) (ctx other : Context) : (inserted ch ctx other).currentIr = other.currentIr := by
  unfold inserted
  split
  · rfl
  · split
    · unfold shiftIn
      split <;> rfl
    · rfl

theorem carries_insertion (ch : Chain) (ctx : Context) : Carries ch (ch.applyInsertionGeometry ctx ctx.tap.irlen) := by
  intro ctx' member
  rw [applyInsertionGeometry_contexts] at member
  obtain ⟨other, among, rfl⟩ := List.mem_map.mp member
  refine .inr ⟨other, among, (inserted_tap ..).symm, (inserted_currentIr ..).symm, fun out => ?_⟩
  rwa [inserted_enabled] at out

theorem carries_removal (ch : Chain) (ctx : Context) (irlen : Int) : Carries ch (ch.applyRemovalGeometry ctx irlen) := by
  intro ctx' member
  obtain ⟨other, among, rfl⟩ := List.mem_map.mp member
  right
  refine ⟨other, among, ?_⟩
  split
  · unfold shiftOut
    split <;> exact ⟨rfl, rfl, id⟩
  · exact ⟨rfl, rfl, id⟩

theorem carries_register (ch : Chain) (ctx : Context) (unused : ctx.currentIr = none) : Carries ch (ch.register ctx) := by
  refine Carries.trans (b := { ch with contexts := ch.contexts ++ [ctx], fresh := ch.fresh + 1 }) ?_
    (carries_insertion _ ctx)
  intro ctx' member
  rcases List.mem_append.mp member with old | new
  · exact .inr ⟨ctx', old, rfl, rfl, id⟩
  · rw [List.mem_singleton.mp new]
    exact .inl unused

theorem carries_tapInsert (ch : Chain) (name : String) (idcode : Option Nat) (irlen : Nat) (irPre drPre : Int)
    (controller : Option Tap) : Carries ch (ch.tapInsert name idcode irlen irPre drPre controller).1 :=
  (carries_register ch _ rfl).trans (sameButLinks_tapInsert ch name idcode irlen irPre drPre controller).carries

theorem carries_tapReattach (ch : Chain) (tap : Tap) (irPre drPre : Int) (controller : Option Tap) :
    Carries ch (ch.tapReattach tap irPre drPre controller).1 := by
  cases known : ch.context? tap with
  | none =>
    simp only [tapReattach, known]
    exact .refl ch
  | some ctx =>
    cases enabled : ctx.enabled with
    | true =>
      simp only [tapReattach, known, enabled, if_true]
      exact .refl ch
    | false =>
      obtain ⟨member, rfl⟩ := context?_some known
      refine Carries.trans ?_ (sameButLinks_tapReattach known enabled irPre drPre controller).carries
      refine Carries.trans ?_ (carries_insertion _ _)
      intro ctx' among
      obtain ⟨other, there, rfl⟩ := List.mem_map.mp among
      right
      split
      · exact ⟨ctx, member, rfl, rfl, by rintro ⟨⟩⟩
      · exact ⟨other, there, rfl, rfl, id⟩

theorem carries_tapDetach (ch : Chain) (tap : Tap) : Carries ch (ch.tapDetach tap).1 := by
  simp only [tapDetach]
  split
  · exact .refl ch
  · split
    · refine (carries_removal ch _ _).trans (carries_map fun ctx => ?_)
      split
      · exact ⟨rfl, .inl rfl⟩
      · exact ⟨rfl, .inr ⟨rfl, id⟩⟩
    · exact .refl ch

theorem carries_withdraw (ch : Chain) (ctx : Context) : Carries ch (ch.withdraw ctx) := by
  have fewer : Carries ch { ch with contexts := ch.contexts.filter fun other => other.tap ≠ ctx.tap } :=
    fun other member => .inr ⟨other, List.mem_of_mem_filter member, rfl, rfl, id⟩
  simp only [withdraw]
  split
  · exact fewer.trans (carries_removal _ _ _)
  · exact fewer

theorem carries_after (ch : Chain) (call : Call) : Carries ch (ch.after call) := by
  cases call with
  | add name idcode irlen => exact carries_tapInsert _ _ _ _ _ _ _
  | insert name idcode irlen irPre drPre controller => exact carries_tapInsert _ _ _ _ _ _ _
  | reattach tap irPre drPre controller => exact carries_tapReattach _ _ _ _ _
  | detach tap => exact carries_tapDetach ch tap
  | remove tap =>
    cases known : ch.context? tap with
    | none =>
      simp only [after, tapRemove, known]
      exact .refl ch
    | some ctx => exact (carries_withdraw ch ctx).trans (sameButLinks_tapRemove known).carries
  | setController tap controller =>
    simp only [after, tapSetController]
    split
    · exact .refl ch
    · exact (sameButLinks_setController ch tap controller).carries

theorem carries_detachAll (ch : Chain) (taps : List Tap) : Carries ch (ch.detachAll taps) := by
  induction taps generalizing ch with
  | nil => exact .refl ch
  | cons tap taps ih => exact (carries_tapDetach ch tap).trans (ih _)

theorem carries_place (naming : Option Nat → Nat → String) (claimed : List (Nat × Tap)) (slots : List (Option Nat × Nat))
    (slot : Nat) (irPre drPre : Int) (ch : Chain) : Carries ch (place naming claimed slots slot irPre drPre ch).1 := by
  induction slots generalizing slot irPre drPre ch with
  | nil => exact .refl ch
  | cons head slots ih =>
    obtain ⟨idcode, irlen⟩ := head
    simp only [place]
    split
    · rename_i tap _
      have first := carries_tapReattach ch tap irPre drPre (ch.controllerOf tap)
      split
      · rename_i back
        rwa [back] at first
      · rename_i back
        rw [back] at first
        exact first.trans (ih _ _ _ _)
    · have first := carries_tapInsert ch (naming idcode irlen) idcode irlen irPre drPre none
      split
      · rename_i new
        rwa [new] at first
      · rename_i new
        rw [new] at first
        exact first.trans (ih _ _ _ _)

/-! ### Parked contexts -/

def Parks (ch : Chain) : Prop := ∀ ctx ∈ ch.contexts, ctx.enabled = false → ctx.Parked

def AllParked (ch : Chain) : Prop := ∀ ctx ∈ ch.contexts, ctx.Parked

theorem Parks.carried {ch ch' : Chain} (parks : Parks ch) (carries : Carries ch ch') : Parks ch' := by
  intro ctx' member out
  rcases carries ctx' member with none | ⟨ctx, among, tap, cached, wasOut⟩
  · exact .inl none
  · have parked := parks ctx among (wasOut out)
    rwa [Context.Parked, cached, tap] at parked

theorem AllParked.carried {ch ch' : Chain} (parked : AllParked ch) (carries : Carries ch ch') : AllParked ch' := by
  intro ctx' member
  rcases carries ctx' member with none | ⟨ctx, among, tap, cached, -⟩
  · exact .inl none
  · have there := parked ctx among
    rwa [Context.Parked, cached, tap] at there

theorem flushOp_invalidates (ch : Chain) (posted : Nat) (envelope : Envelope) :
    (ch.flushOp posted envelope).1 = ch ∨ ∃ ctx value, ctx ∈ ch.contexts ∧ ctx.enabled = true ∧
      (ch.flushOp posted envelope).1 = ch.invalidateIrCacheForShift ctx.tap value := by
  cases envelope with
  | other typeName => exact .inl rfl
  | tapOp tap op =>
    simp only [flushOp]
    split
    · exact .inl rfl
    · rename_i ctx known
      obtain ⟨member, rfl⟩ := context?_some known
      split
      · rename_i enabled
        split
        · exact .inr ⟨ctx, _, member, enabled, rfl⟩
        · simp only [flushShift, flushIr]
          split
          · exact .inr ⟨ctx, _, member, enabled, rfl⟩
          · exact .inl rfl
        · exact .inl rfl
        · exact .inl rfl
      · exact .inl rfl

theorem flushOps_parks {ch : Chain} (sane : Sane ch) (parks : Parks ch) (posted : Nat) (batch : List Envelope) :
    Parks (ch.flushOps posted batch).1 := by
  induction batch generalizing ch posted with
  | nil => exact parks
  | cons envelope batch ih =>
    have both : Sane (ch.flushOp posted envelope).1 ∧ Parks (ch.flushOp posted envelope).1 := by
      rcases flushOp_invalidates ch posted envelope with same | ⟨ctx, value, member, enabled, cached⟩
      · rw [same]
        exact ⟨sane, parks⟩
      · rw [cached]
        refine ⟨invalidate_sane sane ctx.tap value, fun ctx' among out => ?_⟩
        obtain ⟨other, there, rfl⟩ := List.mem_map.mp among
        obtain ⟨order, tiles⟩ := sane.tiles
        have different : other.tap ≠ ctx.tap := by
          intro same
          rw [eq_of_tap tiles.keys there member same, enabled] at out
          cases out
        right
        change some (if other.tap = ctx.tap then value else other.tap.bypass) = _
        rw [if_neg different]
    exact ih both.1 both.2 _

theorem detachAll_parked {ch : Chain} (sane : Sane ch) (parks : Parks ch) :
    AllParked (ch.detachAll (ch.children.filter ch.isEnabled)) := by
  obtain ⟨tiles, -⟩ := detachAll_enabled sane
  intro ctx member
  apply (parks.carried (carries_detachAll ch _)) ctx member
  have nowhere : ctx.tap ∉ ([] : List Tap) := List.not_mem_nil
  rw [tiles.mem_iff member] at nowhere
  exact Bool.eq_false_iff.mpr nowhere

theorem refresh_parks {ch : Chain} (parks : Parks ch) (naming : Option Nat → Nat → String)
    (slots : List (Option Nat × Nat)) : Parks (ch.refresh naming ch.children slots).1 := by
  rw [refresh]
  split
  · exact parks
  · rw [applyRefresh]
    exact (parks.carried (carries_detachAll ch _)).carried (carries_place _ _ _ _ _ _ _)

theorem refresh_allParked {ch : Chain} (sane : Sane ch) (parks : Parks ch) (naming : Option Nat → Nat → String)
    {slots : List (Option Nat × Nat)} {claimed : List (Nat × Tap)} (matched : ch.matchIdentities ch.children slots = .ok claimed) :
    AllParked (ch.refresh naming ch.children slots).1 := by
  rw [refresh, matched]
  exact (detachAll_parked sane parks).carried (carries_place _ _ _ _ _ _ _)

theorem Reached.parks {ch : Chain} (reached : Reached ch) : Parks ch := by
  induction reached with
  | empty name => exact nofun
  | call before call allowed grounded parks => exact parks.carried (carries_after _ call)
  | ops before posted batch parks => exact flushOps_parks before.sane parks posted batch
  | refresh before naming slots lengths parks => exact refresh_parks parks naming slots

end Chain

/-! ### The hardware after the probe -/

/-- Instruction registers of the lengths the TAPs have, within the reach of the discovery. -/
structure ScanPath.Scannable (hw : ScanPath) : Prop where
  nodup : hw.path.Nodup
  captures : ∀ tap ∈ hw.path, (hw.captured tap).length = tap.irlen
  shortIr : irWidth hw.path ≤ defaultLength

theorem ScanPath.Scannable.keeps {hw hw' : ScanPath} (keeps : ScanPath.Keeps hw hw') (scannable : hw.Scannable) :
    hw'.Scannable := by
  obtain ⟨nodup, captures, shortIr⟩ := scannable
  constructor
  · rwa [keeps.path]
  · rwa [keeps.path, keeps.captured]
  · rwa [keeps.path]

theorem ScanPath.irBits_congr {hw : ScanPath} {ir : Tap → Nat} (same : ∀ tap ∈ hw.path, hw.ir tap = ir tap) :
    hw.irBits = hw.path.flatMap fun tap => ofNat (ir tap) tap.irlen :=
  List.flatMap_congr fun tap listed => by rw [same tap listed]

theorem flatMap_bypass (path : List Tap) : (path.flatMap fun tap => ofNat tap.bypass tap.irlen) = ones (irWidth path) := by
  induction path with
  | nil => rfl
  | cons tap path ih =>
    have all : ofNat tap.bypass tap.irlen = ones tap.irlen := by
      have roundTrip := ofNat_toNat (ones tap.irlen)
      rwa [toNat_ones, length_ones] at roundTrip
    rw [List.flatMap_cons, ih, all, irWidth_cons, ones, ones, ones, ← List.replicate_add]

theorem discover_dr (hw : ScanPath) (maxLength : Nat) :
    (shiftDiscover (hw.exec .captureDr) maxLength none).1.ir = hw.ir ∧
      ScanPath.Keeps hw (shiftDiscover (hw.exec .captureDr) maxLength none).1 := by
  have scanned : (shiftDiscover (hw.exec .captureDr) maxLength none).1 =
      (hw.exec .captureDr).exec (.shift { tdi := markerTdi maxLength }) := by
    simp only [shiftDiscover]
    split <;> rfl
  rw [scanned]
  exact ⟨rfl, (ScanPath.keeps_exec ..).trans (ScanPath.keeps_exec ..)⟩

theorem discover_ir_scannable {hw : ScanPath} (scannable : hw.Scannable) :
    ∃ hw' register, shiftDiscover (hw.exec .captureIr) defaultLength (some ones) = (hw', .ok register) ∧
      ScanPath.Keeps hw hw' ∧ ∀ tap ∈ hw.path, hw'.ir tap = tap.bypass := by
  have length : (hw.exec .captureIr).register.length = irWidth hw.path := ScanPath.length_captured scannable.captures
  have found := shiftDiscover_eq (length ▸ scannable.shortIr) (some ones)
  rw [length] at found
  exact ⟨_, _, found, (ScanPath.keeps_exec ..).trans (ScanPath.keeps_run ..),
    fun tap listed => ir_after_ones scannable.nodup scannable.captures _ listed⟩

namespace Chain

/-- The instructions that the reset and the scans of the probe leave: BYPASS everywhere once the
instruction registers have been scanned. -/
def leftBits (hw : ScanPath) : BitString :=
  match (shiftDiscover ((hw.run resetAndUnlock).exec .captureDr) defaultLength none).2 with
  | .error _ => hw.path.flatMap fun tap => ofNat (hw.resetIr tap) tap.irlen
  | .ok _ => ones (irWidth hw.path)

theorem probe_irBits {hw : ScanPath} (scannable : hw.Scannable) (irlenFor : Nat → Option Nat) :
    (probeChainInResetState irlenFor (hw.run resetAndUnlock)).1.irBits = leftBits hw := by
  have keeps := ScanPath.keeps_run hw resetAndUnlock
  obtain ⟨ir₁, keeps₁⟩ := discover_dr (hw.run resetAndUnlock) defaultLength
  unfold probeChainInResetState leftBits
  generalize shiftDiscover ((hw.run resetAndUnlock).exec .captureDr) defaultLength none = first at ir₁ keeps₁
  obtain ⟨hw₁, outcome⟩ := first
  have path₁ : hw₁.path = hw.path := keeps₁.path.trans keeps.path
  cases outcome with
  | error e =>
    dsimp only
    have reset : ∀ tap ∈ hw₁.path, hw₁.ir tap = hw.resetIr tap := by
      intro tap listed
      rw [path₁] at listed
      rw [ir₁, run_resetAndUnlock_ir hw listed]
    rw [ScanPath.irBits_congr reset, path₁]
  | ok resetDr =>
    dsimp only
    obtain ⟨hw₂, register, second, keeps₂, bypassed⟩ := discover_ir_scannable ((scannable.keeps keeps).keeps keeps₁)
    obtain ⟨ir₃, keeps₃⟩ := discover_dr hw₂ (register.length / 2)
    have path₂ : hw₂.path = hw.path := keeps₂.path.trans path₁
    have held : ∀ hw₃ : ScanPath, hw₃.ir = hw₂.ir → hw₃.path = hw₂.path → hw₃.irBits = ones (irWidth hw.path) := by
      intro hw₃ ir path
      have all : ∀ tap ∈ hw₃.path, hw₃.ir tap = tap.bypass := by
        intro tap listed
        rw [path, keeps₂.path] at listed
        rw [ir, bypassed tap listed]
      rw [ScanPath.irBits_congr all, flatMap_bypass, path, path₂]
    rw [second]
    dsimp only
    generalize shiftDiscover (hw₂.exec .captureDr) (register.length / 2) none = third at ir₃ keeps₃
    obtain ⟨hw₃, outcome⟩ := third
    cases outcome <;> exact held hw₃ ir₃ keeps₃.path

theorem leftBits_of_ok {hw : ScanPath} {irlenFor : Nat → Option Nat} {slots : List (Option Nat × Nat)}
    (found : (probeChainInResetState irlenFor (hw.run resetAndUnlock)).2 = .ok slots) :
    leftBits hw = ones (irWidth hw.path) := by
  unfold probeChainInResetState at found
  unfold leftBits
  generalize shiftDiscover ((hw.run resetAndUnlock).exec .captureDr) defaultLength none = first at found
  obtain ⟨hw₁, outcome⟩ := first
  cases outcome with
  | error e => cases found
  | ok resetDr => rfl

theorem AllParked.agreesWith {ch : Chain} (parked : AllParked ch) (width : Nat) : ch.AgreesWith (ones width) := by
  intro ctx member _ value cached complete
  have whole : ctx.segment (ones width) = ones ctx.tap.irlen := by
    rw [List.eq_replicate_iff.mpr ⟨complete, fun bit among => ?_⟩, ones]
    exact List.eq_of_mem_replicate (List.mem_of_mem_drop (List.mem_of_mem_take among))
  rw [whole, toNat_ones]
  rcases parked ctx member with none | bypass
  · rw [none] at cached
    cases cached
  · rw [bypass] at cached
    exact Option.some.inj cached

/-! ### The refresh -/

/-- Hooks that work through the chain: before the reset they leave a chain that programs reach, and after
it they keep a sound cache sound. -/
structure Hooks.Orderly (hooks : Hooks) : Prop where
  pre : ∀ tap ch hw, Reached ch → hw.Scannable → Reached (hooks.preTlr tap ch hw).1 ∧
    (hooks.preTlr tap ch hw).1.children = ch.children ∧ (hooks.preTlr tap ch hw).2.1.Scannable
  post : ∀ tap ch hw, CacheSound ch hw → CacheSound (hooks.postTlr tap ch hw).1 (hooks.postTlr tap ch hw).2.1

theorem Hooks.default_orderly : Hooks.default.Orderly :=
  ⟨fun _ _ _ reached scannable => ⟨reached, rfl, scannable⟩, fun _ _ _ => id⟩

theorem eachTap_pre {hooks : Hooks} (orderly : hooks.Orderly) (taps : List Tap) {ch ch' : Chain} {hw hw' : ScanPath}
    {outcome : Except PyErr Unit} (reached : Reached ch) (scannable : hw.Scannable)
    (ran : eachTap hooks.preTlr taps ch hw = (ch', hw', outcome)) :
    Reached ch' ∧ ch'.children = ch.children ∧ hw'.Scannable := by
  induction taps generalizing ch hw with
  | nil =>
    cases ran
    exact ⟨reached, rfl, scannable⟩
  | cons tap taps ih =>
    obtain ⟨reached₁, children, scannable₁⟩ := orderly.pre tap ch hw reached scannable
    rw [eachTap] at ran
    generalize hooks.preTlr tap ch hw = first at reached₁ children scannable₁ ran
    obtain ⟨ch₁, hw₁, outcome₁⟩ := first
    cases outcome₁ with
    | error e =>
      cases ran
      exact ⟨reached₁, children, scannable₁⟩
    | ok _ =>
      obtain ⟨reached₂, children₂, scannable₂⟩ := ih reached₁ scannable₁ ran
      exact ⟨reached₂, children₂.trans children, scannable₂⟩

theorem eachTap_post {hooks : Hooks} (orderly : hooks.Orderly) (taps : List Tap) {ch : Chain} {hw : ScanPath}
    (sound : CacheSound ch hw) :
    let after := eachTap (fun tap ch hw => if ch.isEnabled tap then hooks.postTlr tap ch hw else (ch, hw, .ok ())) taps ch hw
    CacheSound after.1 after.2.1 := by
  induction taps generalizing ch hw with
  | nil => exact sound
  | cons tap taps ih =>
    dsimp only
    rw [eachTap]
    have first : CacheSound (if ch.isEnabled tap then hooks.postTlr tap ch hw else (ch, hw, .ok ())).1
        (if ch.isEnabled tap then hooks.postTlr tap ch hw else (ch, hw, .ok ())).2.1 := by
      split
      · exact orderly.post tap ch hw sound
      · exact sound
    generalize (if ch.isEnabled tap then hooks.postTlr tap ch hw else (ch, hw, .ok ())) = result at first
    obtain ⟨ch₁, hw₁, outcome⟩ := result
    cases outcome with
    | error e => exact first
    | ok _ => exact ih first

/-- The probe identifies the chain and no identity is ambiguous, so the chain is rebuilt. -/
def Rebuilds (irlenFor : Nat → Option Nat) (ch : Chain) (hw : ScanPath) : Prop :=
  ∃ slots claimed, (probeChainInResetState irlenFor (hw.run resetAndUnlock)).2 = .ok slots ∧
    ch.matchIdentities ch.children slots = .ok claimed

theorem finishRefresh_sound {hooks : Hooks} (orderly : hooks.Orderly) (naming : Option Nat → Nat → String) {ch : Chain}
    (sane : Sane ch) (parks : Parks ch) {hw : ScanPath} {slots : List (Option Nat × Nat)} {claimed : List (Nat × Tap)}
    {width : Nat} (held : hw.irBits = ones width) (matched : ch.matchIdentities ch.children slots = .ok claimed) :
    CacheSound (ch.finishRefresh hooks naming ch.children (hw, .ok slots)).1
      (ch.finishRefresh hooks naming ch.children (hw, .ok slots)).2.1 := by
  have parked := refresh_allParked sane parks naming matched
  simp only [finishRefresh]
  generalize ch.refresh naming ch.children slots = result at parked
  obtain ⟨ch', outcome⟩ := result
  have sound : CacheSound ch' hw := by
    rw [CacheSound, held]
    exact parked.agreesWith width
  cases outcome with
  | error e => exact sound
  | ok _ => exact eachTap_post orderly ch'.children sound

theorem finishRefresh_kept (hooks : Hooks) (naming : Option Nat → Nat → String) {ch : Chain}
    (probe : ScanPath × Except PyErr (List (Option Nat × Nat)))
    (kept : ∀ slots, probe.2 = .ok slots → ∃ e, ch.matchIdentities ch.children slots = .error e) :
    (ch.finishRefresh hooks naming ch.children probe).1 = ch ∧
      (ch.finishRefresh hooks naming ch.children probe).2.1 = probe.1 := by
  obtain ⟨hw, outcome⟩ := probe
  cases outcome with
  | error e => exact ⟨rfl, rfl⟩
  | ok slots =>
    obtain ⟨e, refused⟩ := kept slots rfl
    simp only [finishRefresh, refresh, refused]
    exact ⟨trivial, trivial⟩

/-- After a refresh no enabled TAP has a stale instruction cached exactly when the chain was rebuilt, or
nothing cached before differs from what the reset and the probe left. -/
theorem tlrAndRefresh_cacheSound_iff {hooks : Hooks} (orderly : hooks.Orderly) {ch now : Chain} (reached : Reached ch)
    {hw hw' : ScanPath} (scannable : hw.Scannable)
    (before : eachTap hooks.preTlr ch.children ch hw = (now, hw', .ok ())) (irlenFor : Nat → Option Nat)
    (naming : Option Nat → Nat → String) :
    CacheSound (tlrAndRefresh hooks irlenFor naming ch hw).1 (tlrAndRefresh hooks irlenFor naming ch hw).2.1 ↔
      Rebuilds irlenFor now hw' ∨ now.AgreesWith (leftBits hw') := by
  obtain ⟨reached', children, scannable'⟩ := eachTap_pre orderly ch.children reached scannable before
  rw [tlrAndRefresh_eq reached.sane.children before, ← children]
  have held := probe_irBits scannable' irlenFor
  by_cases rebuilds : Rebuilds irlenFor now hw'
  · refine ⟨fun _ => .inl rebuilds, fun _ => ?_⟩
    obtain ⟨slots, claimed, found, matched⟩ := rebuilds
    rw [leftBits_of_ok found] at held
    generalize probeChainInResetState irlenFor (hw'.run resetAndUnlock) = probe at found held
    obtain ⟨hw₁, outcome⟩ := probe
    cases found
    exact finishRefresh_sound orderly naming reached'.sane reached'.parks held matched
  · have kept : ∀ slots, (probeChainInResetState irlenFor (hw'.run resetAndUnlock)).2 = .ok slots →
        ∃ e, now.matchIdentities now.children slots = .error e := by
      intro slots found
      cases matched : now.matchIdentities now.children slots with
      | error e => exact ⟨e, rfl⟩
      | ok claimed => exact (rebuilds ⟨slots, claimed, found, matched⟩).elim
    obtain ⟨same, scanned⟩ := finishRefresh_kept hooks naming _ kept
    rw [same, scanned, CacheSound, held]
    exact ⟨.inr, fun either => either.resolve_left rebuilds⟩

/-- The chain after an instruction has been loaded in a TAP. -/
def loaded (ch : Chain) (tap : Tap) (value : Nat) : Chain :=
  (ch.flushOps 0 [.tapOp tap (.shift { irValue := some value, tdi := none, readTdo := false })]).1

/-- One TAP with an instruction in it, found again by the probe. -/
theorem tlrAndRefresh_cacheSound_single :
    let a : Tap := ⟨0, "a", some 0x4ba00477, 4⟩
    let ch := (run { name := "chain" } [.add "a" (some 0x4ba00477) 4]).loaded a 2
    CacheSound (tlrAndRefresh Hooks.default (fun _ => none) (fun _ _ => "tap") ch (ordinary [a])).1
      (tlrAndRefresh Hooks.default (fun _ => none) (fun _ _ => "tap") ch (ordinary [a])).2.1 := by
  intro a ch
  have reached : Reached ch :=
    ((Reached.empty "chain").call (.add "a" (some 0x4ba00477) 4) (by decide) trivial).ops 0 _
  have discoverable : (ordinary [a]).Discoverable :=
    ordinary_discoverable (by decide) (by decide) (by decide) (by decide)
  have recorded : (ordinary [a]).Recorded fun _ => none := fun _ _ _ _ _ => nofun
  have scannable : (ordinary [a]).Scannable :=
    ⟨discoverable.nodup, fun tap listed => (discoverable.compliant tap listed).irlen, discoverable.shortIr⟩
  have found := (probe_after_reset (.refl _) discoverable recorded).1 (by decide)
  apply (tlrAndRefresh_cacheSound_iff Hooks.default_orderly reached scannable rfl _ _).mpr
  exact .inl ⟨_, [(0, a)], found, by decide⟩

/-- Two TAPs of one identity: the match is refused after the reset and the probe, and the instruction loaded
before stays cached while the hardware holds BYPASS. -/
theorem tlrAndRefresh_stale :
    let a : Tap := ⟨0, "a", none, 4⟩
    let b : Tap := ⟨1, "b", none, 4⟩
    let ch := (run { name := "chain" } [.add "a" none 4, .add "b" none 4]).loaded a 2
    Reached ch ∧ (ordinary [a, b]).Scannable ∧
      (∃ message, (tlrAndRefresh Hooks.default (fun _ => none) (fun _ _ => "tap") ch (ordinary [a, b])).2.2 =
        .error (.refreshAmbiguity message)) ∧
      ¬CacheSound (tlrAndRefresh Hooks.default (fun _ => none) (fun _ _ => "tap") ch (ordinary [a, b])).1
        (tlrAndRefresh Hooks.default (fun _ => none) (fun _ _ => "tap") ch (ordinary [a, b])).2.1 := by
  intro a b ch
  have reached : Reached ch := (((Reached.empty "chain").call (.add "a" none 4) (by decide) trivial).call
    (.add "b" none 4) (by decide) trivial).ops 0 _
  have discoverable : (ordinary [a, b]).Discoverable :=
    ordinary_discoverable (by decide) (by decide) (by decide) (by decide)
  have recorded : (ordinary [a, b]).Recorded fun _ => none := fun _ _ _ _ _ => nofun
  have scannable : (ordinary [a, b]).Scannable :=
    ⟨discoverable.nodup, fun tap listed => (discoverable.compliant tap listed).irlen, discoverable.shortIr⟩
  have exposed : (ordinary [a, b]).path = ch.enabledFirst ch.children := by decide
  have first : eachTap Hooks.default.preTlr ch.children ch (ordinary [a, b]) = (ch, ordinary [a, b], .ok ()) := rfl
  have found := (probe_after_reset (.refl _) discoverable recorded).1 (by decide)
  have held := probe_irBits scannable fun _ => none
  rw [leftBits_of_ok found] at held
  obtain ⟨_, _, repeated, _⟩ := tlrAndRefresh_cases (by decide) exposed discoverable recorded
    (Hooks.default_quiet ch) (fun _ _ => "tap") reached.sane
  refine ⟨reached, scannable, repeated (by decide) (by decide), ?_⟩
  have refused : ∃ e, ch.matchIdentities ch.children ([a, b].map Tap.identity) = .error e := ⟨_, rfl⟩
  rw [tlrAndRefresh_eq rfl first]
  generalize probeChainInResetState (fun _ => none) ((ordinary [a, b]).run resetAndUnlock) = probe at found held
  obtain ⟨hw, outcome⟩ := probe
  cases found
  obtain ⟨same, scanned⟩ := finishRefresh_kept Hooks.default (fun _ _ => "tap")
    (hw, .ok ([a, b].map Tap.identity)) (fun slots ok => by cases ok; exact refused)
  rw [show (ordinary [a, b]).path.map Tap.identity = [a, b].map Tap.identity from rfl, same, scanned, CacheSound, held]
  intro agrees
  have stale := agrees { tap := a, irPost := 4, drPost := 1, currentIr := some 2 } (by decide) rfl 2 rfl (by decide)
  revert stale
  decide

end Chain
end Acrobe.Jtag
