import Acrobe.Jtag.ChainIrCache

/-!
# Elided instruction scans and DR shifts

A DR shift on one TAP pads one bit for every other TAP, which is right while
those hold BYPASS. Elision only looks at the TAP of the operation, so a DR
shift through BYPASS leaves the instruction of another TAP in place.
-/

namespace Acrobe.Jtag
open BitString Lib Tiling

/-- The hardware as a DR shift of `tap` needs it. -/
def ScanPath.DrReady (hw : ScanPath) (tap : Tap) (value : Nat) : Prop :=
  hw.ir tap = value ∧ ∀ other ∈ hw.path, other ≠ tap → hw.ir other = other.bypass

namespace Chain

def EntryReady (hw : ScanPath) (entry : Entry) : Prop :=
  ∀ tap op value before s after, entry.envelope = .tapOp tap (.shift op) → op.irValue = some value →
    entry.ops = before ++ .captureDr :: .shift s :: after → (hw.run before).DrReady tap value

def EntriesReady (hw : ScanPath) : List Entry → Prop
  | [] => True
  | entry :: entries => EntryReady hw entry ∧ EntriesReady (hw.run entry.ops) entries

def Addressed (path : List Tap) : Envelope → Prop
  | .tapOp tap (.shift op) => tap ∈ path ∧ ∃ value, op.irValue = some value ∧ value < 2 ^ tap.irlen
  | .tapOp tap .irStatus => tap ∈ path
  | .tapOp tap (.run _) => tap ∈ path
  | _ => False

/-- The TAP left with an instruction other than BYPASS, read off the operations alone. -/
def select (selected : Option Tap) : Envelope → Option Tap
  | .tapOp tap (.shift op) =>
    if op.irValue ≠ some tap.bypass then some tap
    else if selected = some tap then none
    else selected
  | .tapOp _ .irStatus => none
  | _ => selected

/-- A DR shift through BYPASS is only asked for while no other TAP is selected. -/
def Unselected (selected : Option Tap) : Envelope → Prop
  | .tapOp tap (.shift op) => op.tdi ≠ none → op.irValue = some tap.bypass → selected = none ∨ selected = some tap
  | _ => True

def NeverStale (selected : Option Tap) : List Envelope → Prop
  | [] => True
  | envelope :: rest => Unselected selected envelope ∧ NeverStale (select selected envelope) rest

/-! ### Batches as one sequence -/

inductive Flushes : Chain → List Envelope → List Entry → Prop where
  | nil (ch : Chain) : Flushes ch [] []
  | cons {ch : Chain} {posted : Nat} {envelope : Envelope} {rest : List Envelope} {entries : List Entry} :
      Flushes (ch.flushOp posted envelope).1 rest entries →
      Flushes ch (envelope :: rest)
        ({ envelope, ops := (ch.flushOp posted envelope).2.1, outcome := (ch.flushOp posted envelope).2.2 } :: entries)

theorem flushes_flushOps_append {ch : Chain} {posted : Nat} {batch rest : List Envelope} {entries : List Entry}
    (later : Flushes (ch.flushOps posted batch).1 rest entries) :
    Flushes ch (batch ++ rest) ((ch.flushOps posted batch).2 ++ entries) := by
  induction batch generalizing ch posted with
  | nil => exact later
  | cons envelope batch ih => exact .cons (ih later)

theorem flushes_flushBatches (ch : Chain) (batches : List (List Envelope)) :
    Flushes ch batches.flatten (ch.flushBatches batches).2 := by
  induction batches generalizing ch with
  | nil => exact .nil ch
  | cons batch batches ih => exact flushes_flushOps_append (ih _)

/-! ### A static chain -/

/-- Every TAP is enabled; before the first scan nothing is cached, afterwards
every instruction is, and at most the selected TAP holds something else than BYPASS. -/
structure Static (ch : Chain) (hw : ScanPath) (selected : Option Tap) : Prop where
  follows : hw.Follows ch
  enabled : ∀ c ∈ ch.contexts, c.enabled = true
  known : (selected = none ∧ ∀ c ∈ ch.contexts, c.currentIr = none) ∨
    (∀ c ∈ ch.contexts, c.currentIr = some (hw.ir c.tap)) ∧
      (∀ c ∈ ch.contexts, hw.ir c.tap ≠ c.tap.bypass ↔ selected = some c.tap) ∧
      ∀ tap, selected = some tap → tap ∈ hw.path

theorem Static.context {ch : Chain} {hw : ScanPath} {selected : Option Tap} (static : Static ch hw selected) {tap : Tap}
    (member : tap ∈ hw.path) : ∃ ctx ∈ ch.contexts, ctx.tap = tap ∧ ch.context? tap = some ctx := by
  obtain ⟨c, among, rfl, _⟩ := static.follows.tiles.listed tap member
  cases known : ch.context? c.tap with
  | none =>
    have missing := List.find?_eq_none.mp known c among
    simp at missing
  | some ctx =>
    obtain ⟨among', same⟩ := context?_some known
    exact ⟨ctx, among', same, rfl⟩

theorem Static.loads {ch ch' : Chain} {hw : ScanPath} {selected selected' : Option Tap} (static : Static ch hw selected)
    {ops : List Op} {ctx : Context} {value : Nat} (loads : Loads ch ch' ops ctx value)
    (choice : selected' = if value = ctx.tap.bypass then none else some ctx.tap) :
    Static ch' (hw.run ops) selected' := by
  obtain ⟨follows, path, ir⟩ := static.follows.loads loads
  have listed : ∀ d ∈ ch.contexts, d.tap ∈ hw.path := fun d member =>
    (static.follows.tiles.mem_iff member).mpr (static.enabled d member)
  have holds : ∀ d ∈ ch.contexts, (hw.run ops).ir d.tap = if d.tap = ctx.tap then value else d.tap.bypass := by
    intro d member
    rw [ir, ScanPath.selecting]
    split
    · rfl
    · rw [if_pos (listed d member)]
  refine ⟨follows, ?_, .inr ⟨?_, ?_, ?_⟩⟩
  · rw [loads.chain]
    intro c member
    obtain ⟨d, among, rfl⟩ := List.mem_map.mp member
    exact static.enabled d among
  · rw [loads.chain]
    intro c member
    obtain ⟨d, among, rfl⟩ := List.mem_map.mp member
    exact congrArg some (holds d among).symm
  · rw [loads.chain, choice]
    intro c member
    obtain ⟨d, among, rfl⟩ := List.mem_map.mp member
    simp only [holds d among]
    by_cases itself : d.tap = ctx.tap
    · by_cases bypass : value = ctx.tap.bypass <;> simp [itself, bypass]
    · by_cases bypass : value = ctx.tap.bypass <;> simp [itself, bypass, Ne.symm itself]
  · intro tap chosen
    rw [path]
    rw [choice] at chosen
    split at chosen
    · cases chosen
    · rw [← Option.some.inj chosen]
      exact listed ctx loads.member

/-! ### One operation -/

theorem Static.quiet {ch : Chain} {hw : ScanPath} {selected : Option Tap} (static : Static ch hw selected)
    {ops : List Op} (quiet : Quiet ops) : Static ch (hw.run ops) selected := by
  obtain ⟨⟨path, _⟩, ir⟩ := quiet hw
  refine ⟨static.follows.quiet quiet, static.enabled, ?_⟩
  rw [path, ir]
  exact static.known

theorem Static.drReady_iff {ch : Chain} {hw : ScanPath} {selected : Option Tap} (static : Static ch hw selected)
    {ctx : Context} {value : Nat} (member : ctx ∈ ch.contexts) (cached : ctx.currentIr = some value) :
    hw.DrReady ctx.tap value ↔ selected = none ∨ selected = some ctx.tap := by
  obtain ⟨_, empty⟩ | ⟨known, others, inPath⟩ := static.known
  · rw [empty ctx member] at cached
    cases cached
  have held : hw.ir ctx.tap = value := Option.some.inj ((known ctx member).symm.trans cached)
  constructor
  · rintro ⟨_, bypassed⟩
    cases selected with
    | none => exact .inl rfl
    | some tap =>
      right
      obtain ⟨c, among, rfl, _⟩ := static.follows.tiles.listed tap (inPath _ rfl)
      by_contra different
      have other : c.tap ≠ ctx.tap := fun same => different (congrArg some same)
      exact (others c among).mpr rfl (bypassed c.tap (inPath _ rfl) other)
  · intro choice
    refine ⟨held, fun tap listed different => ?_⟩
    obtain ⟨c, among, rfl, _⟩ := static.follows.tiles.listed tap listed
    by_contra loaded
    have chosen := (others c among).mp loaded
    rcases choice with nothing | itself
    · rw [nothing] at chosen
      cases chosen
    · rw [itself] at chosen
      exact different (Option.some.inj chosen).symm

theorem select_shift_iff (selected : Option Tap) (tap : Tap) (op : TapShift) :
    (select selected (.tapOp tap (.shift op)) = none ∨ select selected (.tapOp tap (.shift op)) = some tap) ↔
      (op.irValue = some tap.bypass → selected = none ∨ selected = some tap) := by
  by_cases bypass : op.irValue = some tap.bypass
  · by_cases itself : selected = some tap <;> simp [select, bypass, itself]
  · simp [select, bypass]

theorem Static.select_elided {ch : Chain} {hw : ScanPath} {selected : Option Tap} (static : Static ch hw selected)
    {ctx : Context} {op : TapShift} {value : Nat} (member : ctx ∈ ch.contexts) (asked : op.irValue = some value)
    (cached : ctx.currentIr = some value) : select selected (.tapOp ctx.tap (.shift op)) = selected := by
  obtain ⟨_, empty⟩ | ⟨known, others, _⟩ := static.known
  · rw [empty ctx member] at cached
    cases cached
  have held : hw.ir ctx.tap = value := Option.some.inj ((known ctx member).symm.trans cached)
  have chosen := others ctx member
  rw [held] at chosen
  by_cases bypass : value = ctx.tap.bypass
  · have another : selected ≠ some ctx.tap := fun same => chosen.mpr same bypass
    simp [select, asked, bypass, another]
  · simp [select, asked, bypass, chosen.mp bypass]

theorem Static.select_loaded {ch : Chain} {hw : ScanPath} {selected : Option Tap} (static : Static ch hw selected)
    {ctx : Context} {op : TapShift} {value : Nat} (member : ctx ∈ ch.contexts) (asked : op.irValue = some value)
    (missing : ctx.currentIr ≠ some value) :
    select selected (.tapOp ctx.tap (.shift op)) = if value = ctx.tap.bypass then none else some ctx.tap := by
  by_cases bypass : value = ctx.tap.bypass
  · rw [if_pos bypass]
    have chosen : selected = none ∨ selected = some ctx.tap := by
      obtain ⟨nothing, _⟩ | ⟨known, others, _⟩ := static.known
      · exact .inl nothing
      · refine .inr ((others ctx member).mp fun held => missing ?_)
        rw [known ctx member, held, bypass]
    rcases chosen with nothing | itself
    · simp [select, asked, bypass, nothing]
    · simp [select, asked, bypass, itself]
  · simp [select, asked, bypass]

theorem flushIr_static {ch : Chain} {hw : ScanPath} {selected : Option Tap} (static : Static ch hw selected)
    {ctx : Context} {op : TapShift} {value : Nat} (member : ctx ∈ ch.contexts) (asked : op.irValue = some value)
    (fits : value < 2 ^ ctx.tap.irlen) :
    Static (ch.flushIr ctx op).1 (hw.run (ch.flushIr ctx op).2) (select selected (.tapOp ctx.tap (.shift op))) ∧
      ∃ ctx' ∈ (ch.flushIr ctx op).1.contexts, ctx'.tap = ctx.tap ∧ ctx'.currentIr = some value := by
  by_cases cached : ctx.currentIr = some value
  · have elided : ch.flushIr ctx op = (ch, []) := by simp [flushIr, irToLoad, asked, cached]
    rw [elided, static.select_elided member asked cached]
    exact ⟨static, ctx, member, rfl, cached⟩
  · have loaded : ch.flushIr ctx op = (ch.invalidateIrCacheForShift ctx.tap value, irScan ctx value false) := by
      simp [flushIr, irToLoad, asked, Ne.symm cached]
    have enabled := static.enabled ctx member
    rw [loaded]
    refine ⟨static.loads ⟨member, enabled, fits, rfl, false, [], (List.append_nil _).symm, quiet_nil⟩
      (static.select_loaded member asked cached), ?_⟩
    exact ⟨_, List.mem_map_of_mem member, rfl, congrArg some (if_pos rfl)⟩

theorem captureDr_notMem_flushIr (ch : Chain) (ctx : Context) (op : TapShift) :
    Op.captureDr ∉ (ch.flushIr ctx op).2 ++ idle op.preDrRun := by
  unfold flushIr idle
  split <;> split <;> simp [irScan]

theorem entryReady_shift_iff (hw : ScanPath) (ch : Chain) (ctx : Context) {op : TapShift} {value : Nat}
    (asked : op.irValue = some value) (outcome : Outcome) :
    EntryReady hw ⟨.tapOp ctx.tap (.shift op), (ch.flushIr ctx op).2 ++ idle op.preDrRun ++ flushDr ctx op, outcome⟩ ↔
      (op.tdi ≠ none → (hw.run ((ch.flushIr ctx op).2 ++ idle op.preDrRun)).DrReady ctx.tap value) := by
  have free := captureDr_notMem_flushIr ch ctx op
  cases data : op.tdi with
  | none =>
    refine ⟨fun _ some => (some rfl).elim, fun _ => ?_⟩
    rintro tap op' v before s after addressed _ split
    have member : Op.captureDr ∈ (ch.flushIr ctx op).2 ++ idle op.preDrRun ++ flushDr ctx op := by
      have same : _ ++ flushDr ctx op = before ++ Op.captureDr :: Op.shift s :: after := split
      rw [same]
      exact List.mem_append_right _ List.mem_cons_self
    rcases List.mem_append.mp member with early | late
    · exact (free early).elim
    · simp only [flushDr, data, idle] at late
      split at late <;> simp at late
  | some tdi =>
    simp only [flushDr, data]
    constructor
    · intro ready _
      exact ready ctx.tap op value _ _ [] rfl asked rfl
    · rintro ready tap op' v before s after addressed asked' split
      cases addressed
      cases asked.symm.trans asked'
      rcases split_cases split with ⟨rfl, _⟩ | ⟨mid, _, late⟩ | ⟨mid, early, _⟩
      · exact ready (by simp)
      · have short := congrArg List.length late
        simp only [List.length_append, List.length_cons, List.length_nil] at short
        omega
      · exact (free (early ▸ by simp)).elim

/-- One operation keeps the chain static, and its DR shift is right exactly while no other TAP is selected. -/
theorem flushOp_static {ch : Chain} {hw : ScanPath} {selected : Option Tap} (static : Static ch hw selected)
    (posted : Nat) {envelope : Envelope} (addressed : Addressed hw.path envelope) :
    Static (ch.flushOp posted envelope).1 (hw.run (ch.flushOp posted envelope).2.1) (select selected envelope) ∧
      (EntryReady hw { envelope, ops := (ch.flushOp posted envelope).2.1, outcome := (ch.flushOp posted envelope).2.2 } ↔
        Unselected selected envelope) := by
  cases envelope with
  | other typeName => exact addressed.elim
  | tapOp tap op =>
    cases op with
    | other typeName => exact addressed.elim
    | run cycles =>
      obtain ⟨ctx, member, rfl, known⟩ := static.context addressed
      simp only [flushOp, known, static.enabled ctx member, if_true]
      refine ⟨static.quiet (quiet_run cycles), fun _ => trivial, fun _ => ?_⟩
      rintro _ _ _ _ _ _ ⟨⟩
    | irStatus =>
      obtain ⟨ctx, member, rfl, known⟩ := static.context addressed
      have enabled := static.enabled ctx member
      simp only [flushOp, known, enabled, if_true]
      refine ⟨static.loads ⟨member, enabled, ?_, rfl, true, [], (List.append_nil _).symm, quiet_nil⟩
        (if_pos rfl).symm, fun _ => trivial, fun _ => ?_⟩
      · have := Nat.two_pow_pos ctx.tap.irlen
        unfold Tap.bypass
        omega
      · rintro _ _ _ _ _ _ ⟨⟩
    | shift op =>
      obtain ⟨listed, value, asked, fits⟩ := addressed
      obtain ⟨ctx, member, rfl, known⟩ := static.context listed
      obtain ⟨loaded, ctx', member', same, cached⟩ := flushIr_static static member asked fits
      have ready := loaded.quiet (quiet_idle op.preDrRun)
      rw [← ScanPath.run_append] at ready
      simp only [flushOp, known, static.enabled ctx member, if_true, flushShift]
      constructor
      · rw [ScanPath.run_append]
        exact ready.quiet (quiet_flushDr ctx op)
      · rw [entryReady_shift_iff hw ch ctx asked, ← same, ready.drReady_iff member' cached, same, select_shift_iff]
        rfl

/-! ### Whole runs -/

theorem entriesReady_iff {ch : Chain} {hw : ScanPath} {selected : Option Tap} (static : Static ch hw selected)
    {envelopes : List Envelope} {entries : List Entry} (flushes : Flushes ch envelopes entries)
    (addressed : ∀ envelope ∈ envelopes, Addressed hw.path envelope) :
    EntriesReady hw entries ↔ NeverStale selected envelopes := by
  induction flushes generalizing hw selected with
  | nil ch => exact Iff.rfl
  | @cons ch posted envelope rest entries _ ih =>
    obtain ⟨static', ready⟩ := flushOp_static static posted (addressed envelope List.mem_cons_self)
    refine and_congr ready (ih static' fun e member => ?_)
    rw [(ScanPath.keeps_run ..).path]
    exact addressed e (List.mem_cons_of_mem _ member)

/-- On a static chain nothing was posted on yet, every DR shift finds its TAP
with the instruction asked for and the others in BYPASS exactly when none of
those through BYPASS is asked for while another TAP is selected. -/
theorem flushBatches_ready_iff {ch : Chain} {hw : ScanPath} (follows : hw.Follows ch)
    (enabled : ∀ c ∈ ch.contexts, c.enabled = true) (unused : ∀ c ∈ ch.contexts, c.currentIr = none)
    (batches : List (List Envelope)) (addressed : ∀ envelope ∈ batches.flatten, Addressed hw.path envelope) :
    EntriesReady hw (ch.flushBatches batches).2 ↔ NeverStale none batches.flatten :=
  entriesReady_iff ⟨follows, enabled, .inl ⟨rfl, unused⟩⟩ (flushes_flushBatches ch batches) addressed

end Chain

namespace System
open Chain

def drShift (tap : Tap) (value : Nat) (data : BitString) : Envelope :=
  .tapOp tap (.shift { irValue := some value, tdi := some data, readTdo := true })

/-- Both TAPs used in turn, the one in BYPASS after an IR status of the other. -/
theorem flushBatches_ready_after_status :
    EntriesReady pair.hw (pair.chain.flushBatches
      [[drShift tapA 3 [true]], [.tapOp tapA .irStatus, drShift tapB 31 [true, false]]]).2 := by
  have inStep := reachable_inStep (pair_reachable fun s action allowed clean => ⟨allowed, clean⟩)
  have path : pair.hw.path = [tapA, tapB] := by decide
  refine (flushBatches_ready_iff inStep.follows (by decide) (by decide) _ ?_).mpr ?_
  · rw [path]
    simp [drShift, Addressed, tapA, tapB]
  · simp [drShift, NeverStale, Unselected, select, tapA, tapB, Tap.bypass]

/-- BYPASS asked for in the second TAP while the first holds another
instruction: the scan is elided, and the padding of the DR shift is wrong. -/
theorem flushBatches_unready_bypass :
    (pair.chain.flushBatches [[drShift tapA 3 [true], drShift tapB 31 [true, false]]]).2.map Entry.ops =
        [[.captureIr, .shift { tdi := [true, true, false, false, true, true, true, true, true], readTdo := false },
          .captureDr, .shift { tdi := [true, false], readTdo := true }],
         [.captureDr, .shift { tdi := [false, true, false], readTdo := true }]] ∧
      ¬ EntriesReady pair.hw (pair.chain.flushBatches [[drShift tapA 3 [true], drShift tapB 31 [true, false]]]).2 := by
  refine ⟨by decide, fun ready => ?_⟩
  obtain ⟨_, ready, _⟩ := ready
  have held := ready tapB _ 31 [] _ [] rfl rfl rfl
  have bypass := held.2 tapA (by decide) (by decide)
  revert bypass
  decide

end System
end Acrobe.Jtag
