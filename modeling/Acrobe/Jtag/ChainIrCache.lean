import Acrobe.Jtag.ScanPath

/-!
# The instruction cache of a chain

`current_ir` against the instructions the hardware holds. Every scan of the
instruction registers writes the cache of every context, and a TapShift whose
instruction is the cached one is not preceded by a scan.
-/

namespace Acrobe.Jtag
open BitString Lib Tiling

/-- Instructions are masked to the length of the register before they are posted. -/
def Envelope.Fits : Envelope → Prop
  | .tapOp tap (.shift op) => ∀ value, op.irValue = some value → value < 2 ^ tap.irlen
  | _ => True

namespace Chain

/-- An enabled TAP whose instruction is cached holds it. -/
def Cached (ch : Chain) (hw : ScanPath) : Prop :=
  ∀ c ∈ ch.contexts, c.enabled = true → ∀ value, c.currentIr = some value → hw.ir c.tap = value

/-! ### What one envelope does to the cache and to the hardware -/

def Quiet (ops : List Op) : Prop :=
  ∀ hw : ScanPath, hw.SamePath (hw.run ops) ∧ (hw.run ops).ir = hw.ir

theorem quiet_nil : Quiet [] := fun _ => ⟨⟨rfl, rfl⟩, rfl⟩

theorem Quiet.append {xs ys : List Op} (first : Quiet xs) (second : Quiet ys) : Quiet (xs ++ ys) := by
  intro hw
  obtain ⟨⟨path, captured⟩, ir⟩ := first hw
  obtain ⟨⟨path', captured'⟩, ir'⟩ := second (hw.run xs)
  rw [ScanPath.run_append]
  exact ⟨⟨path'.trans path, captured'.trans captured⟩, ir'.trans ir⟩

theorem quiet_run (cycles : Nat) : Quiet [.run cycles] := fun _ => ⟨⟨rfl, rfl⟩, rfl⟩

theorem quiet_idle (cycles : Nat) : Quiet (idle cycles) := by
  unfold idle
  split
  · exact quiet_run cycles
  · exact quiet_nil

theorem quiet_flushDr (ctx : Context) (op : TapShift) : Quiet (flushDr ctx op) := by
  unfold flushDr
  split
  · exact fun _ => ⟨⟨rfl, rfl⟩, rfl⟩
  · exact quiet_idle _

structure Loads (ch : Chain) (ch' : Chain) (ops : List Op) (ctx : Context) (value : Nat) : Prop where
  member : ctx ∈ ch.contexts
  enabled : ctx.enabled = true
  fits : value < 2 ^ ctx.tap.irlen
  chain : ch' = ch.invalidateIrCacheForShift ctx.tap value
  scan : ∃ readTdo rest, ops = irScan ctx value readTdo ++ rest ∧ Quiet rest

theorem flushShift_effect {ch : Chain} {ctx : Context} (member : ctx ∈ ch.contexts) (enabled : ctx.enabled = true)
    (op : TapShift) (fits : ∀ value, op.irValue = some value → value < 2 ^ ctx.tap.irlen) (posted : Nat) :
    ((ch.flushShift posted ctx op).1 = ch ∧ Quiet (ch.flushShift posted ctx op).2.1) ∨
      ∃ value, Loads ch (ch.flushShift posted ctx op).1 (ch.flushShift posted ctx op).2.1 ctx value := by
  have rest := (quiet_idle op.preDrRun).append (quiet_flushDr ctx op)
  simp only [flushShift, flushIr]
  cases needed : irToLoad ctx op with
  | none =>
    refine .inl ⟨rfl, ?_⟩
    simp only [List.nil_append]
    exact rest
  | some value =>
    have asked : op.irValue = some value := by
      unfold irToLoad at needed
      split at needed
      · cases needed
      · exact needed
    refine .inr ⟨value, member, enabled, fits value asked, rfl, false, _, ?_, rest⟩
    simp only [List.append_assoc]

theorem flushOp_effect (ch : Chain) (posted : Nat) {envelope : Envelope} (fits : envelope.Fits) :
    ((ch.flushOp posted envelope).1 = ch ∧ Quiet (ch.flushOp posted envelope).2.1) ∨
      ∃ ctx value, Loads ch (ch.flushOp posted envelope).1 (ch.flushOp posted envelope).2.1 ctx value := by
  cases envelope with
  | other typeName => exact .inl ⟨rfl, quiet_nil⟩
  | tapOp tap op =>
    cases known : ch.context? tap with
    | none => simp only [flushOp, known]; exact .inl ⟨trivial, quiet_nil⟩
    | some ctx =>
      obtain ⟨member, rfl⟩ := context?_some known
      by_cases enabled : ctx.enabled = true
      · cases op with
        | irStatus =>
          simp only [flushOp, known, enabled, if_true]
          refine .inr ⟨ctx, ctx.tap.bypass, member, enabled, ?_, rfl, true, [], (List.append_nil _).symm, quiet_nil⟩
          have := Nat.two_pow_pos ctx.tap.irlen
          unfold Tap.bypass
          omega
        | shift op =>
          simp only [flushOp, known, enabled, if_true]
          rcases flushShift_effect member enabled op fits posted with quiet | ⟨value, loads⟩
          · exact .inl quiet
          · exact .inr ⟨ctx, value, loads⟩
        | run cycles => simp only [flushOp, known, enabled, if_true]; exact .inl ⟨trivial, quiet_run cycles⟩
        | other typeName => simp only [flushOp, known, enabled, if_true]; exact .inl ⟨trivial, quiet_nil⟩
      · simp only [flushOp, known, enabled, Bool.false_eq_true, if_false]; exact .inl ⟨trivial, quiet_nil⟩

theorem sameGeometry_invalidate (ch : Chain) (tap : Tap) (value : Nat) :
    SameGeometry ch (ch.invalidateIrCacheForShift tap value) := sameGeometry_map fun _ => rfl

end Chain

namespace ScanPath

theorem Follows.quiet {hw : ScanPath} {ch : Chain} (follows : hw.Follows ch) {ops : List Op}
    (quiet : Chain.Quiet ops) : (hw.run ops).Follows ch := by
  obtain ⟨⟨path, captured⟩, _⟩ := quiet hw
  exact ⟨by rw [path]; exact follows.tiles, by rw [captured]; exact follows.captures⟩

theorem Follows.loads {hw : ScanPath} {ch ch' : Chain} (follows : hw.Follows ch) {ops : List Op} {ctx : Context}
    {value : Nat} (loads : Chain.Loads ch ch' ops ctx value) :
    (hw.run ops).Follows ch' ∧ (hw.run ops).path = hw.path ∧
      (hw.run ops).ir = selecting ctx.tap value hw.path hw.ir := by
  obtain ⟨readTdo, rest, rfl, quiet⟩ := loads.scan
  obtain ⟨⟨path, captured⟩, ir⟩ := run_irScan follows loads.member loads.enabled loads.fits readTdo
  obtain ⟨⟨path', captured'⟩, ir'⟩ := quiet (hw.run (Chain.irScan ctx value readTdo))
  rw [run_append]
  refine ⟨⟨?_, ?_⟩, path'.trans path, ir'.trans ir⟩
  · rw [path', path, loads.chain]
    exact follows.tiles.transport (Chain.sameGeometry_invalidate ..)
  · rw [captured', captured, loads.chain]
    intro c member
    obtain ⟨d, known, rfl⟩ := List.mem_map.mp member
    exact follows.captures d known

end ScanPath

namespace Chain

/-! ### Across topology changes -/

/-- The cache of a detached TAP is empty, or what the scans of others wrote there. -/
def Parked (ch : Chain) : Prop :=
  ∀ c ∈ ch.contexts, c.enabled = false → c.currentIr = none ∨ c.currentIr = some c.tap.bypass

structure InStep (ch : Chain) (hw : ScanPath) : Prop where
  follows : hw.Follows ch
  cached : ch.Cached hw
  parked : ch.Parked

theorem flushOp_inStep {ch : Chain} {hw : ScanPath} (inStep : InStep ch hw) (posted : Nat) {envelope : Envelope}
    (fits : envelope.Fits) :
    InStep (ch.flushOp posted envelope).1 (hw.run (ch.flushOp posted envelope).2.1) := by
  rcases flushOp_effect ch posted fits with ⟨same, quiet⟩ | ⟨ctx, value, loads⟩
  · rw [same]
    refine ⟨inStep.follows.quiet quiet, ?_, inStep.parked⟩
    intro c member enabled v cached
    rw [(quiet hw).2]
    exact inStep.cached c member enabled v cached
  · obtain ⟨follows, path, ir⟩ := inStep.follows.loads loads
    refine ⟨follows, ?_, ?_⟩
    · rw [loads.chain]
      intro c member enabled v cached
      obtain ⟨d, known, rfl⟩ := List.mem_map.mp member
      simp only [Option.some.injEq] at cached
      rw [ir, ScanPath.selecting, ← cached]
      split
      · rfl
      · rw [if_pos ((inStep.follows.tiles.mem_iff known).mpr enabled)]
    · rw [loads.chain]
      intro c member detached
      obtain ⟨d, known, rfl⟩ := List.mem_map.mp member
      right
      simp only [Option.some.injEq]
      refine if_neg fun same => ?_
      -- The TAP a scan is for is enabled.
      have itself := eq_of_tap inStep.follows.tiles.keys known loads.member same
      rw [itself] at detached
      exact Bool.false_ne_true (detached.symm.trans loads.enabled)

theorem flushOps_inStep {ch : Chain} {hw : ScanPath} (inStep : InStep ch hw) (posted : Nat) {batch : List Envelope}
    (fits : ∀ envelope ∈ batch, envelope.Fits) :
    InStep (ch.flushOps posted batch).1 (hw.run (postedOps (ch.flushOps posted batch).2)) := by
  induction batch generalizing ch hw posted with
  | nil => exact inStep
  | cons envelope batch ih =>
    have first := flushOp_inStep inStep posted (fits envelope List.mem_cons_self)
    have rest := ih first (posted + (ch.flushOp posted envelope).2.1.length) fun e member =>
      fits e (List.mem_cons_of_mem _ member)
    simp only [flushOps, postedOps, List.flatMap_cons, ScanPath.run_append]
    exact rest

def memo (ctx : Context) : Tap × Bool × Option Nat := (ctx.tap, ctx.enabled, ctx.currentIr)

theorem memo_eq_iff {c d : Context} :
    memo c = memo d ↔ c.tap = d.tap ∧ c.enabled = d.enabled ∧ c.currentIr = d.currentIr := by
  simp [memo]

theorem SameButLinks.exists_memo {ch ch' : Chain} (same : SameButLinks ch ch') {c : Context}
    (member : c ∈ ch'.contexts) : ∃ d ∈ ch.contexts, memo d = memo c := by
  have among : memo c ∈ ch'.contexts.map (memo ∘ Context.unlinked) := List.mem_map_of_mem member
  rw [same.map_eq memo] at among
  exact List.mem_map.mp among

theorem memo_inserted (ch : Chain) (ctx other : Context) : memo (inserted ch ctx other) = memo other := by
  unfold inserted
  split
  · rfl
  · split
    · unfold shiftIn
      split <;> rfl
    · rfl

theorem memo_shiftOut (irPre irlen : Int) (ctx : Context) : memo (shiftOut irPre irlen ctx) = memo ctx := by
  unfold shiftOut
  split <;> rfl

theorem mem_tapInsert {ch : Chain} {name : String} {idcode : Option Nat} {irlen : Nat} {irPre drPre : Int}
    {controller : Option Tap} {c : Context}
    (member : c ∈ (ch.tapInsert name idcode irlen irPre drPre controller).1.contexts) :
    (∃ d ∈ ch.contexts, memo d = memo c) ∨ memo c = (⟨ch.fresh, name, idcode, irlen⟩, true, none) := by
  obtain ⟨d, among, same⟩ := (sameButLinks_tapInsert ..).exists_memo member
  obtain ⟨e, known, rfl⟩ := List.mem_map.mp among
  have kept : memo e = memo c := (memo_inserted _ _ e).symm.trans same
  rcases List.mem_append.mp known with old | new
  · exact .inl ⟨e, old, kept⟩
  · rw [List.mem_singleton.mp new] at kept
    exact .inr kept.symm

theorem mem_tapReattach {ch : Chain} {ctx : Context} (known : ch.context? ctx.tap = some ctx)
    (detached : ctx.enabled = false) {irPre drPre : Int} {controller : Option Tap} {c : Context}
    (member : c ∈ (ch.tapReattach ctx.tap irPre drPre controller).1.contexts) :
    (∃ d ∈ ch.contexts, memo d = memo c) ∨ memo c = (ctx.tap, true, ctx.currentIr) := by
  obtain ⟨d, among, same⟩ := (sameButLinks_tapReattach known detached irPre drPre controller).exists_memo member
  obtain ⟨e, changed, rfl⟩ := List.mem_map.mp among
  have kept : memo e = memo c := (memo_inserted _ _ e).symm.trans same
  obtain ⟨f, old, rfl⟩ := List.mem_map.mp changed
  split at kept
  · exact .inr kept.symm
  · exact .inl ⟨f, old, kept⟩

theorem exists_tapReattach {ch : Chain} {ctx : Context} (known : ch.context? ctx.tap = some ctx)
    (detached : ctx.enabled = false) (irPre drPre : Int) (controller : Option Tap) :
    ∃ c ∈ (ch.tapReattach ctx.tap irPre drPre controller).1.contexts, memo c = (ctx.tap, true, ctx.currentIr) := by
  obtain ⟨member, _⟩ := context?_some known
  have back : { ctx with irPre, drPre, irPost := 0, drPost := 0, enabled := true } ∈
      (ch.modify ctx.tap fun _ => { ctx with irPre, drPre, irPost := 0, drPost := 0, enabled := true }).contexts :=
    List.mem_map.mpr ⟨ctx, member, if_pos rfl⟩
  obtain ⟨c, among, same⟩ := (sameButLinks_tapReattach known detached irPre drPre controller).symm.exists_memo
    (List.mem_map_of_mem back)
  exact ⟨c, among, same.trans (memo_inserted ..)⟩

theorem mem_tapDetach {ch : Chain} {ctx : Context} (known : ch.context? ctx.tap = some ctx)
    (enabled : ctx.enabled = true) {c : Context} (member : c ∈ (ch.tapDetach ctx.tap).1.contexts) :
    (∃ d ∈ ch.contexts, d.tap ≠ ctx.tap ∧ memo d = memo c) ∨ memo c = (ctx.tap, false, none) := by
  rw [tapDetach_eq known enabled] at member
  obtain ⟨d, among, rfl⟩ := List.mem_map.mp member
  unfold Chain.detached
  split
  · rename_i same
    right
    simp [memo, same]
  · rename_i other
    left
    refine ⟨d, among, other, ?_⟩
    split
    · exact (memo_shiftOut ..).symm
    · rfl

theorem mem_tapRemove {ch : Chain} {tap : Tap} {c : Context} (member : c ∈ (ch.tapRemove tap).1.contexts) :
    ∃ d ∈ ch.contexts, memo d = memo c := by
  cases known : ch.context? tap with
  | none =>
    simp only [tapRemove, known] at member
    exact ⟨c, member, rfl⟩
  | some ctx =>
    obtain ⟨d, among, same⟩ := (sameButLinks_tapRemove known).exists_memo member
    cases enabled : ctx.enabled with
    | true =>
      rw [withdraw_contexts ch enabled] at among
      obtain ⟨e, old, rfl⟩ := List.mem_map.mp among
      refine ⟨e, (mem_filter_tap.mp old).1, ?_⟩
      rw [← same]
      split
      · exact (memo_shiftOut ..).symm
      · rfl
    | false =>
      rw [withdraw, enabled] at among
      exact ⟨d, (mem_filter_tap.mp among).1, same⟩

end Chain

/-! ### Runs of a chain and its hardware -/

def ScanPath.plug (hw : ScanPath) (index : Nat) (tap : Tap) : ScanPath :=
  { hw with path := hw.path.take index ++ tap :: hw.path.drop index }

def ScanPath.unplug (hw : ScanPath) (tap : Tap) : ScanPath := { hw with path := hw.path.erase tap }

structure System where
  chain : Chain
  hw : ScanPath

/-- What happens to them. A fresh TAP comes with whatever instruction it `held`
and whatever `pattern` it captures. -/
inductive Action where
  | ops (batch : List Envelope)
  | insert (name : String) (idcode : Option Nat) (irlen : Nat) (irPre drPre : Int) (controller : Option Tap)
      (held : Nat) (pattern : BitString)
  | reattach (tap : Tap) (irPre drPre : Int) (controller : Option Tap)
  | detach (tap : Tap)
  | remove (tap : Tap)

namespace System

def isDetached (s : System) (tap : Tap) : Bool := (s.chain.context? tap).any fun ctx => !ctx.enabled

/-- A call on the chain goes with the same change of the scan path; a detached
TAP keeps its instruction. -/
def act (s : System) : Action → System
  | .ops batch => ⟨(s.chain.flushOps 0 batch).1, s.hw.run (Chain.postedOps (s.chain.flushOps 0 batch).2)⟩
  | .insert name idcode irlen irPre drPre controller held pattern =>
    let tap : Tap := { id := s.chain.fresh, name, idcode, irlen }
    ⟨(s.chain.tapInsert name idcode irlen irPre drPre controller).1,
      { s.hw.plug drPre.toNat tap with
        ir := Function.update s.hw.ir tap held, captured := Function.update s.hw.captured tap pattern }⟩
  | .reattach tap irPre drPre controller =>
    ⟨(s.chain.tapReattach tap irPre drPre controller).1,
      if s.isDetached tap then s.hw.plug drPre.toNat tap else s.hw⟩
  | .detach tap => ⟨(s.chain.tapDetach tap).1, s.hw.unplug tap⟩
  | .remove tap => ⟨(s.chain.tapRemove tap).1, s.hw.unplug tap⟩

def Allowed (s : System) : Action → Prop
  | .ops batch => ∀ envelope ∈ batch, envelope.Fits
  | .insert _ _ irlen irPre drPre _ _ pattern => 1 ≤ irlen ∧ s.chain.Boundary irPre drPre ∧ pattern.length = irlen
  | .reattach _ irPre drPre _ => s.chain.Boundary irPre drPre
  | .detach _ | .remove _ => True

/-- A TAP comes back before any scan of the others, or holding BYPASS. -/
def Clean (s : System) : Action → Prop
  | .reattach tap _ _ _ => ∀ ctx, s.chain.context? tap = some ctx → ctx.enabled = false →
      ctx.currentIr = none ∨ s.hw.ir tap = tap.bypass
  | _ => True

def Careful (s : System) (action : Action) : Prop := s.Allowed action ∧ s.Clean action

inductive Reachable (guard : System → Action → Prop) : System → Prop where
  | start (name : String) (hw : ScanPath) : hw.path = [] → Reachable guard ⟨{ name }, hw⟩
  | act {s : System} (reached : Reachable guard s) (action : Action) : guard s action →
      Reachable guard (s.act action)

open Chain

theorem path_plug {hw : ScanPath} {pre post : List Tap} (split : hw.path = pre ++ post) (tap : Tap) :
    (hw.plug pre.length tap).path = pre ++ tap :: post := by
  simp only [ScanPath.plug, split, List.take_left, List.drop_left]

theorem insert_inStep {s : System} (inStep : InStep s.chain s.hw) (name : String) (idcode : Option Nat)
    {irlen : Nat} (some : 1 ≤ irlen) {irPre drPre : Int} (boundary : s.chain.Boundary irPre drPre)
    (controller : Option Tap) (held : Nat) {pattern : BitString} (fits : pattern.length = irlen) :
    InStep (s.act (.insert name idcode irlen irPre drPre controller held pattern)).chain
      (s.act (.insert name idcode irlen irPre drPre controller held pattern)).hw := by
  obtain ⟨pre, post, split, rfl, rfl⟩ := inStep.follows.tiles.boundary boundary
  have unknown : ∀ c ∈ s.chain.contexts, c.tap ≠ ⟨s.chain.fresh, name, idcode, irlen⟩ := by
    intro c member same
    have older := inStep.follows.tiles.older c member
    rw [same] at older
    exact Nat.lt_irrefl _ older
  refine ⟨⟨?_, ?_⟩, ?_, ?_⟩
  · show Tiles _ (s.hw.plug pre.length _).path
    rw [path_plug split]
    exact tapInsert_tiles (split ▸ inStep.follows.tiles) name idcode some controller
  · intro c member
    show (Function.update s.hw.captured _ pattern c.tap).length = _
    rcases mem_tapInsert member with ⟨d, known, same⟩ | new
    · rw [← (memo_eq_iff.mp same).1, Function.update_of_ne (unknown d known)]
      exact inStep.follows.captures d known
    · have tap : c.tap = ⟨s.chain.fresh, name, idcode, irlen⟩ := congrArg Prod.fst new
      rw [tap, Function.update_self, fits]
  · intro c member enabled value cached
    rcases mem_tapInsert member with ⟨d, known, same⟩ | new
    · obtain ⟨tap, on, ir⟩ := memo_eq_iff.mp same
      show Function.update s.hw.ir _ held c.tap = value
      rw [← tap, Function.update_of_ne (unknown d known)]
      exact inStep.cached d known (on.trans enabled) value (ir.trans cached)
    · have empty : c.currentIr = none := congrArg (fun m => m.2.2) new
      rw [empty] at cached
      cases cached
  · intro c member detached
    rcases mem_tapInsert member with ⟨d, known, same⟩ | new
    · obtain ⟨tap, on, ir⟩ := memo_eq_iff.mp same
      rw [← tap, ← ir]
      exact inStep.parked d known (on.trans detached)
    · exact .inl (congrArg (fun m => m.2.2) new)

theorem plug_inStep {s : System} (inStep : InStep s.chain s.hw) {ctx : Context}
    (known : s.chain.context? ctx.tap = some ctx) (detached : ctx.enabled = false) {pre post : List Tap}
    (split : s.hw.path = pre ++ post) (controller : Option Tap)
    (clean : ctx.currentIr = none ∨ s.hw.ir ctx.tap = ctx.tap.bypass) :
    InStep (s.chain.tapReattach ctx.tap (irWidth pre) pre.length controller).1 (s.hw.plug pre.length ctx.tap) := by
  obtain ⟨member, _⟩ := context?_some known
  refine ⟨⟨?_, ?_⟩, ?_, ?_⟩
  · rw [path_plug split]
    exact tapReattach_tiles (split ▸ inStep.follows.tiles) known detached controller
  · intro c among
    rcases mem_tapReattach known detached among with ⟨d, old, same⟩ | back
    · rw [← (memo_eq_iff.mp same).1]
      exact inStep.follows.captures d old
    · have tap : c.tap = ctx.tap := congrArg Prod.fst back
      rw [tap]
      exact inStep.follows.captures ctx member
  · intro c among on value cached
    show s.hw.ir c.tap = value
    rcases mem_tapReattach known detached among with ⟨d, old, same⟩ | back
    · obtain ⟨tap, was, ir⟩ := memo_eq_iff.mp same
      rw [← tap]
      exact inStep.cached d old (was.trans on) value (ir.trans cached)
    · have tap : c.tap = ctx.tap := congrArg Prod.fst back
      have ir : c.currentIr = ctx.currentIr := congrArg (fun m => m.2.2) back
      rw [ir] at cached
      rcases clean with empty | held
      · rw [empty] at cached
        cases cached
      · rcases inStep.parked ctx member detached with empty | bypass
        · rw [empty] at cached
          cases cached
        · rw [bypass] at cached
          rw [tap, held]
          exact Option.some.inj cached
  · intro c among off
    rcases mem_tapReattach known detached among with ⟨d, old, same⟩ | back
    · obtain ⟨tap, was, ir⟩ := memo_eq_iff.mp same
      rw [← tap, ← ir]
      exact inStep.parked d old (was.trans off)
    · have on : c.enabled = true := congrArg (fun m => m.2.1) back
      rw [on] at off
      cases off

theorem reattach_inStep {s : System} (inStep : InStep s.chain s.hw) {tap : Tap} {irPre drPre : Int}
    (boundary : s.chain.Boundary irPre drPre) (controller : Option Tap)
    (clean : s.Clean (.reattach tap irPre drPre controller)) :
    InStep (s.act (.reattach tap irPre drPre controller)).chain (s.act (.reattach tap irPre drPre controller)).hw := by
  simp only [act]
  cases known : s.chain.context? tap with
  | none =>
    simp only [isDetached, tapReattach, known, Option.any_none, Bool.false_eq_true, if_false]
    exact inStep
  | some ctx =>
    cases enabled : ctx.enabled with
    | true =>
      simp only [isDetached, tapReattach, known, enabled, if_true, Option.any_some, Bool.not_true, Bool.false_eq_true,
        if_false]
      exact inStep
    | false =>
      obtain ⟨_, rfl⟩ := context?_some known
      obtain ⟨pre, post, split, rfl, rfl⟩ := inStep.follows.tiles.boundary boundary
      have detached : s.isDetached ctx.tap = true := by
        simp only [isDetached, known, enabled, Option.any_some, Bool.not_false]
      rw [if_pos detached]
      exact plug_inStep inStep known enabled split controller (clean ctx known enabled)

theorem path_unplug {hw : ScanPath} {pre post : List Tap} {tap : Tap} (split : hw.path = pre ++ tap :: post)
    (nodup : hw.path.Nodup) : (hw.unplug tap).path = pre ++ post := by
  have once : tap ∉ pre := by
    rw [split] at nodup
    intro member
    exact (List.nodup_append.mp nodup).2.2 _ member _ List.mem_cons_self rfl
  rw [ScanPath.unplug, split, List.erase_append_right _ once, List.erase_cons_head]

theorem path_unplug_of_notMem {hw : ScanPath} {tap : Tap} (outside : tap ∉ hw.path) : hw.unplug tap = hw := by
  rw [ScanPath.unplug, List.erase_of_not_mem outside]

theorem notMem_path_of_unknown {ch : Chain} {hw : ScanPath} (inStep : InStep ch hw) {tap : Tap}
    (unknown : ch.context? tap = none) : tap ∉ hw.path := by
  intro listed
  obtain ⟨c, member, same, _⟩ := inStep.follows.tiles.listed tap listed
  have missing := List.find?_eq_none.mp unknown c member
  simp [same] at missing

theorem shrink_inStep {ch ch' : Chain} {hw hw' : ScanPath} (inStep : InStep ch hw) (tiles : ch'.Tiles hw'.path)
    (ir : hw'.ir = hw.ir) (captured : hw'.captured = hw.captured)
    (memos : ∀ c ∈ ch'.contexts, (∃ d ∈ ch.contexts, memo d = memo c) ∨
      ∃ d ∈ ch.contexts, memo c = (d.tap, false, none)) : InStep ch' hw' := by
  refine ⟨⟨tiles, ?_⟩, ?_, ?_⟩
  · intro c member
    rw [captured]
    rcases memos c member with ⟨d, known, same⟩ | ⟨d, known, same⟩
    · rw [← (memo_eq_iff.mp same).1]
      exact inStep.follows.captures d known
    · have tap : c.tap = d.tap := congrArg Prod.fst same
      rw [tap]
      exact inStep.follows.captures d known
  · intro c member on value cached
    rw [ir]
    rcases memos c member with ⟨d, known, same⟩ | ⟨d, known, same⟩
    · obtain ⟨tap, was, held⟩ := memo_eq_iff.mp same
      rw [← tap]
      exact inStep.cached d known (was.trans on) value (held.trans cached)
    · have off : c.enabled = false := congrArg (fun m => m.2.1) same
      rw [off] at on
      cases on
  · intro c member off
    rcases memos c member with ⟨d, known, same⟩ | ⟨d, known, same⟩
    · obtain ⟨tap, was, held⟩ := memo_eq_iff.mp same
      rw [← tap, ← held]
      exact inStep.parked d known (was.trans off)
    · exact .inl (congrArg (fun m => m.2.2) same)

theorem detach_inStep {s : System} (inStep : InStep s.chain s.hw) (tap : Tap) :
    InStep (s.act (.detach tap)).chain (s.act (.detach tap)).hw := by
  simp only [act]
  cases known : s.chain.context? tap with
  | none =>
    simp only [tapDetach, known, path_unplug_of_notMem (notMem_path_of_unknown inStep known)]
    exact inStep
  | some ctx =>
    obtain ⟨member, rfl⟩ := context?_some known
    cases enabled : ctx.enabled with
    | false =>
      have outside : ctx.tap ∉ s.hw.path := by
        rw [inStep.follows.tiles.mem_iff member, enabled]
        exact Bool.false_ne_true
      simp only [tapDetach, known, enabled, Bool.false_eq_true, if_false, path_unplug_of_notMem outside]
      exact inStep
    | true =>
      obtain ⟨pre, post, split, irPre, _⟩ := inStep.follows.tiles.split member enabled
      have tiles := tapDetach_tiles (split ▸ inStep.follows.tiles) known enabled irPre
      refine shrink_inStep inStep ?_ rfl rfl ?_
      · rw [path_unplug split inStep.follows.tiles.nodup]
        exact tiles
      · intro c among
        rcases mem_tapDetach known enabled among with ⟨d, old, _, same⟩ | emptied
        · exact .inl ⟨d, old, same⟩
        · exact .inr ⟨ctx, member, emptied⟩

theorem remove_inStep {s : System} (inStep : InStep s.chain s.hw) (tap : Tap) :
    InStep (s.act (.remove tap)).chain (s.act (.remove tap)).hw := by
  refine shrink_inStep inStep ?_ rfl rfl fun c member => .inl (mem_tapRemove member)
  simp only [act]
  cases known : s.chain.context? tap with
  | none =>
    simp only [tapRemove, known, path_unplug_of_notMem (notMem_path_of_unknown inStep known)]
    exact inStep.follows.tiles
  | some ctx =>
    obtain ⟨member, rfl⟩ := context?_some known
    cases enabled : ctx.enabled with
    | false =>
      have outside : ctx.tap ∉ s.hw.path := by
        rw [inStep.follows.tiles.mem_iff member, enabled]
        exact Bool.false_ne_true
      rw [path_unplug_of_notMem outside]
      exact (withdraw_detached_tiles inStep.follows.tiles member enabled).transport (sameButLinks_tapRemove known).geometry
    | true =>
      obtain ⟨pre, post, split, irPre, _⟩ := inStep.follows.tiles.split member enabled
      rw [path_unplug split inStep.follows.tiles.nodup]
      exact (withdraw_tiles (split ▸ inStep.follows.tiles) enabled irPre).transport
        (sameButLinks_tapRemove known).geometry

theorem act_inStep {s : System} (inStep : InStep s.chain s.hw) {action : Action} (allowed : s.Allowed action)
    (clean : s.Clean action) : InStep (s.act action).chain (s.act action).hw := by
  cases action with
  | ops batch => exact flushOps_inStep inStep 0 allowed
  | insert name idcode irlen irPre drPre controller held pattern =>
    exact insert_inStep inStep name idcode allowed.1 allowed.2.1 controller held allowed.2.2
  | reattach tap irPre drPre controller => exact reattach_inStep inStep allowed controller clean
  | detach tap => exact detach_inStep inStep tap
  | remove tap => exact remove_inStep inStep tap

theorem reachable_inStep {s : System} (reachable : Reachable Careful s) :
    InStep s.chain s.hw := by
  induction reachable with
  | start name hw empty =>
    refine ⟨⟨?_, ?_⟩, ?_, ?_⟩
    · rw [empty]
      exact empty_tiles name
    all_goals intro c member; cases member
  | act _ action guard inStep => exact act_inStep inStep guard.1 guard.2

/-- A TAP that comes back otherwise is cached with BYPASS and holds something else. -/
theorem not_cached_of_unclean {s : System} (inStep : InStep s.chain s.hw) {action : Action}
    (unclean : ¬ s.Clean action) : ¬ (s.act action).chain.Cached (s.act action).hw := by
  cases action with
  | reattach tap irPre drPre controller =>
    simp only [Clean, not_forall, not_or] at unclean
    obtain ⟨ctx, known, off, scanned, held⟩ := unclean
    obtain ⟨member, rfl⟩ := context?_some known
    obtain ⟨c, among, same⟩ := exists_tapReattach known off irPre drPre controller
    have tap : c.tap = ctx.tap := congrArg Prod.fst same
    have on : c.enabled = true := congrArg (fun m => m.2.1) same
    have bypass : c.currentIr = some ctx.tap.bypass :=
      (congrArg (fun m => m.2.2) same).trans ((inStep.parked ctx member off).resolve_left scanned)
    intro cached
    have instruction := cached c among on _ bypass
    rw [tap] at instruction
    have detached : s.isDetached ctx.tap = true := by
      simp only [isDetached, known, off, Option.any_some, Bool.not_false]
    simp only [act, if_pos detached] at instruction
    exact held instruction
  | _ => exact (unclean trivial).elim

/-- In every run in which TAPs come back cleanly, a cached instruction is the
one the TAP holds; from there, the next action keeps that exactly when it is clean. -/
theorem reachable_cached {s : System} (reachable : Reachable Careful s) :
    s.chain.Cached s.hw ∧
      ∀ action, s.Allowed action → ((s.act action).chain.Cached (s.act action).hw ↔ s.Clean action) := by
  have inStep := reachable_inStep reachable
  refine ⟨inStep.cached, fun action allowed => ⟨?_, fun clean => (act_inStep inStep allowed clean).cached⟩⟩
  intro cached
  by_contra unclean
  exact not_cached_of_unclean inStep unclean cached

def bare : System where
  chain := { name := "chain" }
  hw := { path := [], ir := fun _ => 0, captured := fun _ => [], data := fun _ _ => [false], resetIr := fun _ => 0 }

def tapA : Tap := ⟨0, "a", none, 4⟩

def tapB : Tap := ⟨1, "b", none, 5⟩

def pair : System :=
  (bare.act (.insert "a" none 4 0 0 none 7 [true, false, false, false])).act
    (.insert "b" none 5 4 1 none 9 [true, false, false, false, false])

def irOnly (tap : Tap) (value : Nat) : Envelope := .tapOp tap (.shift { irValue := some value, tdi := none, readTdo := false })

theorem pair_reachable {guard : System → Action → Prop}
    (within : ∀ s action, s.Allowed action → s.Clean action → guard s action) : Reachable guard pair := by
  have first : Reachable guard bare := .start _ _ rfl
  have second := first.act _ (within bare (.insert "a" none 4 0 0 none 7 [true, false, false, false])
    ⟨by decide, by decide, rfl⟩ trivial)
  exact second.act _ (within _ _ ⟨by decide, by decide, rfl⟩ trivial)

/-- A TAP taken out and put back with nothing scanned in between. -/
theorem reachable_cached_quick_return :
    let s := ((pair.act (.ops [irOnly tapA 3])).act (.detach tapA)).act (.reattach tapA 5 1 none)
    s.chain.Cached s.hw ∧ s.hw.ir tapA = 3 := by
  have connected : Reachable Careful pair := pair_reachable fun s action allowed clean => ⟨allowed, clean⟩
  have loaded := connected.act (.ops [irOnly tapA 3]) ⟨by simp [Allowed, irOnly, Envelope.Fits, tapA], trivial⟩
  have detached := loaded.act (.detach tapA) ⟨trivial, trivial⟩
  have empty : (((pair.act (.ops [irOnly tapA 3])).act (.detach tapA)).chain.context? tapA).map Context.currentIr =
      some none := by decide
  have back := detached.act (.reattach tapA 5 1 none) ⟨?_, ?_⟩
  · exact ⟨(reachable_cached back).1, by decide⟩
  · show Chain.Boundary _ 5 1
    decide
  · intro ctx known _
    rw [known] at empty
    exact .inl (Option.some.inj empty)

/-- A TAP taken out holding an instruction, another one used, and the first put back: its cache says BYPASS. -/
theorem stale_after_return :
    let s := (((pair.act (.ops [irOnly tapA 3])).act (.detach tapA)).act (.ops [irOnly tapB 2])).act
      (.reattach tapA 5 1 none)
    Reachable Allowed s ∧ (s.chain.context? tapA).map (fun ctx => (ctx.enabled, ctx.currentIr)) = some (true, some 15) ∧
      s.hw.ir tapA = 3 ∧ ¬ s.chain.Cached s.hw := by
  intro s
  have connected : Reachable Allowed pair := pair_reachable fun s action allowed _ => allowed
  have loaded := connected.act (.ops [irOnly tapA 3]) (by simp [Allowed, irOnly, Envelope.Fits, tapA])
  have detached := loaded.act (.detach tapA) trivial
  have used := detached.act (.ops [irOnly tapB 2]) (by simp [Allowed, irOnly, Envelope.Fits, tapB])
  have back := used.act (.reattach tapA 5 1 none) (show Chain.Boundary _ 5 1 by decide)
  have memo : (s.chain.context? tapA).map (fun ctx => (ctx.enabled, ctx.currentIr)) = some (true, some 15) := by decide
  have held : s.hw.ir tapA = 3 := by decide
  refine ⟨back, memo, held, fun cached => ?_⟩
  obtain ⟨ctx, known, state⟩ := Option.map_eq_some_iff.mp memo
  obtain ⟨member, tap⟩ := context?_some known
  have wrong := cached ctx member (congrArg Prod.fst state) 15 (congrArg Prod.snd state)
  rw [tap, held] at wrong
  cases wrong

end System
end Acrobe.Jtag
