import Mathlib
import Acrobe.Stapl.Demotion

/-!
# Demotion and the global store

Side by side with a run of the interpreter, the demoted program takes the same steps as long as
it reads a demoted variable only where its local copy is current: written as a whole in the same
activation, or still as initialised while the interpreter's variable had that value too, and not
written by another activation since.
-/

namespace Acrobe.Stapl
open LittleEndian Acrobe.Storage Exceptional Exec

/-! ### The condition -/

/-- For each activation, innermost first, the locals that are current. -/
abbrev Current := List (Name → Bool)

def Available (program : Program) (current : Name → Bool) (name : Name) : Prop :=
  isPrivate program name = false ∨ current name = true

/-- The conditions that are evaluated on the way to the statement behind them. -/
def Stmt.conditions (store : Store) : Stmt → List Expr
  | .ifStmt condition thenStmt =>
    condition :: match evalInt store condition with
      | .ok value => if value = 0 then [] else thenStmt.conditions store
      | .error _ => []
  | _ => []

/-- A statement reads available variables, and writes available ones or replaces a local. -/
structure Stmt.Sees (program : Program) (proc : ProcedureDef) (current : Name → Bool) (store locals : Store)
    (stmt : Stmt) : Prop where
  reads : ∀ e ∈ stmt.operands, ∀ name ∈ e.names, Available program current name
  writes : ∀ name ∈ stmt.writes, Available program current name ∨
    stmt.whole = some name ∧ isLocal program proc name = true ∧
      stmt.Replaces store (store.entry name) (locals.entry name)

def Decl.Closed (decl : Decl) : Prop := ∀ e ∈ decl.operands, ∃ value, evalInt .empty e = .ok value

/-- A demoted variable is initialised with constant expressions, any other one from variables that
are not demoted. -/
def Decl.Initialises (program : Program) (decl : Decl) : Prop :=
  (isDemoted program decl.name = true → decl.Closed) ∧
  (isDemoted program decl.name = false → ∀ e ∈ decl.operands, ∀ name ∈ e.names, isPrivate program name = false)

def Initialises (program : Program) (procedure : Name) : Prop :=
  ∀ proc, program.procedures.lookup procedure = some proc →
    ∀ used ∈ proc.uses, ∀ block, program.dataBlocks.lookup used = some block → ∀ decl ∈ block.statements,
      decl.Initialises program

def Meets (program : Program) (config : Config) (demoted : Demoted) (current : Current) : Prop :=
  (match config.frames, demoted.frames, current with
    | frame :: _, ⟨_, locals⟩ :: _, inner :: _ =>
      ∀ proc stmt, program.procedures.lookup frame.procedure = some proc → proc.statements[frame.pc]? = some stmt →
        (∀ e ∈ stmt.conditions config.state.store, ∀ name ∈ e.names, Available program inner name) ∧
        ∀ taken, stmt.taken config.state.store = some taken →
          taken.Sees program proc inner config.state.store locals
    | _, _, _ => True) ∧
  ∀ procedure, config.entered program = some procedure → Initialises program procedure

/-- A local of another activation stays current as long as the variable does not change. -/
def unchanged (before after : Store) (current : Name → Bool) (name : Name) : Bool :=
  current name && after.entry name = before.entry name

/-- The locals of the innermost activation. -/
def Demoted.innermost (demoted : Demoted) : Store := (demoted.frames.head?.map LocalFrame.locals).getD .empty

/-- Entering a procedure, a local is current if it is initialised with what the variable holds. -/
def entryCurrent (program : Program) (procedure : Name) (store locals : Store) (name : Name) : Bool :=
  match program.procedures.lookup procedure with
  | some proc => isLocal program proc name && locals.entry name = store.entry name
  | none => false

/-- The current locals after a step. -/
def advance (program : Program) (config next : Config) (demoted : Demoted) (current : Current) : Current :=
  match config.entered program with
  | some procedure =>
    entryCurrent program procedure next.state.store demoted.innermost ::
      current.map (unchanged config.state.store next.state.store)
  | none =>
    match config.frames, current with
    | frame :: _, inner :: outer =>
      match program.procedures.lookup frame.procedure with
      | none => []
      | some proc =>
        match proc.statements[frame.pc]? with
        | none => outer
        | some stmt =>
          (fun name => inner name ||
            ((stmt.taken config.state.store).bind Stmt.whole = some name && isLocal program proc name)) ::
            outer.map (unchanged config.state.store next.state.store)
    | _, _ => []

/-- The first `n` steps meet the condition. -/
def MeetsFor (program : Program) (player : Player) : Nat → Config → Demoted → Current → Prop
  | 0, _, _, _ => True
  | n + 1, config, demoted, current =>
    Meets program config demoted current ∧
      match step program player config, Demoted.step program player demoted with
      | .running next, .running next' =>
        MeetsFor program player n next next' (advance program config next next' current)
      | _, _ => True

/-! ### One statement -/

section

variable {program : Program} {player : Player} {proc : ProcedureDef} {pc : Nat} {s t : State}

theorem whole_writes {stmt : Stmt} {name : Name} (whole : stmt.whole = some name) : stmt.writes = [name] := by
  cases stmt with
  | assignStmt target index high low value =>
    match index, high, whole with
    | none, none, whole => cases whole; rfl
  | popStmt target index =>
    match index, whole with
    | none, whole => cases whole; rfl
  | forStmt var start stop step => cases whole; rfl
  | integerDecl decl => cases whole; rfl
  | booleanDecl decl => cases whole; rfl
  | _ => cases whole

theorem Agree.weaken {A B : Name → Prop} (agree : Agree A s t) (weaker : ∀ name, B name → A name) : Agree B s t :=
  ⟨fun name inB => agree.entries name (weaker name inB), agree.rest⟩

theorem Joins.weaken {A B : Name → Prop} {α : Type} {x y : EStateM.Result Error State α} (joined : Joins A x y)
    (weaker : ∀ name, B name → A name) : Joins B x y := by
  unfold Joins at joined ⊢
  cases x <;> cases y
  · exact ⟨joined.1, joined.2.weaken weaker⟩
  · exact joined
  · exact joined
  · exact joined

theorem Joins.of_related {A : Name → Prop} {α : Type} {x : Exec α} (agree : Agree A s t)
    (related : Related (Agree A) Eq x x) : Joins A (x s) (x t) := by
  have both := related s t agree
  unfold Joins
  cases left : x s <;> cases right : x t <;> rw [left, right] at both
  · exact both
  · exact both
  · exact both
  · exact ⟨both.1, both.2.requests⟩

/-- The variables that are in step after a statement. -/
def InStep (program : Program) (proc : ProcedureDef) (current : Name → Bool) (taken : Option Stmt) (name : Name) : Prop :=
  Available program current name ∨ taken.bind Stmt.whole = some name ∧ isLocal program proc name = true

theorem execStmt_sees {current : Name → Bool} {taken : Stmt} (agree : Agree (Available program current) s t)
    (notIf : ∀ condition thenStmt, taken ≠ .ifStmt condition thenStmt)
    (sees : taken.Sees program proc current s.store t.store) :
    Joins (InStep program proc current (some taken)) (execStmt player proc pc taken s)
      (execStmt player proc pc taken t) := by
  by_cases available : ∀ name ∈ taken.writes, Available program current name
  · have covered : ∀ name ∈ taken.mentions, Available program current name := by
      intro name mentioned
      rcases List.mem_append.mp mentioned with read | written
      · obtain ⟨e, isOperand, inNames⟩ := List.mem_flatMap.mp read
        exact sees.reads e isOperand name inNames
      · exact available name written
    refine (Joins.of_related agree (related_execStmt player proc pc notIf covered)).weaken ?_
    rintro name (inA | ⟨whole, -⟩)
    · exact inA
    · exact available name (by rw [whole_writes whole]; exact List.mem_singleton_self name)
  · push Not at available
    obtain ⟨target, written, missing⟩ := available
    obtain ⟨whole, -, replaces⟩ := (sees.writes target written).resolve_left missing
    refine (execStmt_joins player proc pc agree whole sees.reads replaces).weaken ?_
    rintro name (inA | ⟨whole', -⟩)
    · exact Or.inl inA
    · exact Or.inr (Option.some.inj (whole'.symm.trans whole))

theorem execStmt_alike (player : Player) (proc : ProcedureDef) (pc : Nat) {current : Name → Bool} {stmt : Stmt} (agree : Agree (Available program current) s t)
    (conditions : ∀ e ∈ stmt.conditions s.store, ∀ name ∈ e.names, Available program current name)
    (sees : ∀ taken, stmt.taken s.store = some taken → taken.Sees program proc current s.store t.store) :
    Joins (InStep program proc current (stmt.taken s.store)) (execStmt player proc pc stmt s)
      (execStmt player proc pc stmt t) := by
  induction stmt with
  | ifStmt condition thenStmt ih =>
    have same : evalInt s.store condition = evalInt t.store condition :=
      (eval_congr fun name inNames => agree.entries name (conditions condition List.mem_cons_self name inNames)).1
    rw [execStmt]
    simp only [evalI, lift, bind, EStateM.bind, ← same, Stmt.taken]
    rw [Stmt.conditions] at conditions
    simp only [Stmt.taken] at sees
    cases value : evalInt s.store condition with
    | error error => exact ⟨rfl, agree.requests⟩
    | ok value' =>
      simp only [value] at conditions sees ⊢
      by_cases zero : value' = 0
      · simp only [if_pos zero]
        refine ⟨rfl, agree.weaken ?_⟩
        rintro name (inA | ⟨whole, -⟩)
        · exact inA
        · cases whole
      · simp only [if_neg zero] at conditions sees ⊢
        exact ih (fun e isCondition => conditions e (List.mem_cons_of_mem _ isCondition)) sees
  | _ => exact execStmt_sees agree (by rintro _ _ ⟨⟩) (sees _ rfl)

end

/-! ### The simulation -/

/-- The current locals of an activation have the values of the interpreter's variables. -/
def Follows (program : Program) (store : Store) (frame : LocalFrame) (current : Name → Bool) : Prop :=
  ∀ name, current name = true →
    (∃ proc, program.procedures.lookup frame.frame.procedure = some proc ∧ isLocal program proc name = true) ∧
      frame.locals.entry name = store.entry name

def Shared (program : Program) (name : Name) : Prop := isPrivate program name = false

structure Sim (program : Program) (config : Config) (demoted : Demoted) (current : Current) : Prop where
  pending : config.pending = demoted.pending
  frames : config.frames = demoted.frames.map LocalFrame.frame
  state : Agree (Shared program) config.state demoted.state
  locals : List.Forall₂ (Follows program config.state.store) demoted.frames current

section

variable {program : Program} {player : Player} {proc : ProcedureDef} {s t : State}

theorem isPrivate_of_isLocal {procedure name : Name} (found : program.procedures.lookup procedure = some proc)
    (isLocal : isLocal program proc name = true) : isPrivate program name = true := by
  unfold isPrivate
  rcases Bool.or_eq_true_iff.mp isLocal with declared | inlined
  · refine Bool.or_eq_true_iff.mpr (Or.inr ?_)
    obtain ⟨decl, isDecl, same⟩ := List.mem_map.mp (of_decide_eq_true declared)
    refine decide_eq_true (List.mem_map.mpr ⟨decl, ?_, same⟩)
    exact List.mem_flatMap.mpr ⟨_, mem_of_lookup found, isDecl⟩
  · refine Bool.or_eq_true_iff.mpr (Or.inl ?_)
    unfold isInlined at inlined
    simp only [Bool.and_eq_true] at inlined
    exact inlined.1.2

theorem Follows.congr {store store' : Store} {frame : LocalFrame} {current : Name → Bool}
    (follows : Follows program store frame current) :
    Follows program store' frame (unchanged store store' current) := by
  intro name isCurrent
  obtain ⟨inner, same⟩ := Bool.and_eq_true_iff.mp isCurrent
  obtain ⟨isLocal, held⟩ := follows name inner
  exact ⟨isLocal, held.trans (of_decide_eq_true same).symm⟩

theorem mapM_evalI_closed {init : List Expr} (closed : ∀ e ∈ init, ∃ value, evalInt .empty e = .ok value) (s : State) :
    ∃ values, init.mapM evalI s = .ok values s := by
  induction init with
  | nil => exact ⟨[], rfl⟩
  | cons e init ih =>
    obtain ⟨value, evaluated⟩ := closed e List.mem_cons_self
    obtain ⟨values, rest⟩ := ih fun other inRest => closed other (List.mem_cons_of_mem e inRest)
    refine ⟨value :: values, ?_⟩
    rw [List.mapM_cons]
    simp only [bind, EStateM.bind, evalI_of_empty evaluated, rest]
    rfl

theorem execDecl_closed {decl : Decl} (closed : decl.Closed) (s : State) :
    ∃ store, execDecl decl s = .ok () { s with store := store } ∧
      ∀ name, name ≠ decl.name → store.entry name = s.store.entry name := by
  match decl with
  | .integer ⟨target, some size, init⟩ =>
    obtain ⟨length, evaluated⟩ := closed size (by simp [Decl.operands])
    have closedInit : ∀ e ∈ init.getD [], ∃ value, evalInt .empty e = .ok value := fun e inInit =>
      closed e (List.mem_append_right _ inInit)
    obtain ⟨values, read⟩ := mapM_evalI_closed closedInit s
    let held : IntVar := .array (values.reverse ++ List.replicate (length.toNat - values.length) 0)
    refine ⟨s.store.setInteger target held, ?_, fun name other => Store.setInteger_entry_ne _ other⟩
    simp only [execDecl, execIntegerDecl, bind, EStateM.bind, evalI_of_empty evaluated, read]
    rfl
  | .integer ⟨target, none, some (first :: rest)⟩ =>
    obtain ⟨value, evaluated⟩ := closed first (by simp [Decl.operands])
    refine ⟨s.store.setInteger target (.scalar value), ?_, fun name other => Store.setInteger_entry_ne _ other⟩
    simp only [execDecl, execIntegerDecl, bind, EStateM.bind, evalI_of_empty evaluated]
    rfl
  | .integer ⟨target, none, some []⟩ => exact ⟨_, rfl, fun name other => Store.setInteger_entry_ne _ other⟩
  | .integer ⟨target, none, none⟩ => exact ⟨_, rfl, fun name other => Store.setInteger_entry_ne _ other⟩
  | .boolean ⟨target, some size, init⟩ =>
    obtain ⟨length, evaluated⟩ := closed size (by simp [Decl.operands])
    simp only [execDecl, execBooleanDecl, bind, EStateM.bind, evalI_of_empty evaluated]
    split
    · exact ⟨_, rfl, fun name other => Store.setBoolean_entry_ne _ other⟩
    · exact ⟨_, rfl, fun name other => Store.setBoolean_entry_ne _ other⟩
  | .boolean ⟨target, none, some init⟩ =>
    obtain ⟨value, evaluated⟩ := closed init (by simp [Decl.operands])
    refine ⟨(s.store.addScalar target).setBoolean target [value % 2 == 1], ?_, fun name other => ?_⟩
    · simp only [execDecl, execBooleanDecl, bind, EStateM.bind, updateStore, update, evalI_of_empty evaluated]
    · exact (Store.setBoolean_entry_ne _ other).trans (Store.addScalar_entry_ne other)
  | .boolean ⟨target, none, none⟩ =>
    exact ⟨_, rfl, fun name other => (Store.setBoolean_entry_ne _ other).trans (Store.addScalar_entry_ne other)⟩

theorem initLocal_closed {decl : Decl} (closed : decl.Closed) (s : State) :
    ∃ store, initLocal decl s = .ok () { s with store := store } := by
  unfold initLocal
  split
  · next target size init =>
    have closedInit : ∀ e ∈ init, ∃ value, evalInt .empty e = .ok value := fun e inInit =>
      closed e (List.mem_append_right _ inInit)
    obtain ⟨values, read⟩ := mapM_evalI_closed closedInit s
    refine ⟨s.store.setInteger target (.array values.reverse), ?_⟩
    simp only [bind, EStateM.bind, read]
    rfl
  · exact ⟨_, rfl⟩
  · obtain ⟨store, ran, -⟩ := execDecl_closed closed s
    exact ⟨store, ran⟩

theorem forM_initLocal_closed {decls : List Decl} (closed : ∀ decl ∈ decls, decl.Closed) (s : State) :
    ∃ store, decls.forM initLocal s = .ok () { s with store := store } := by
  induction decls generalizing s with
  | nil => exact ⟨s.store, rfl⟩
  | cons decl decls ih =>
    obtain ⟨store, first⟩ := initLocal_closed (closed decl List.mem_cons_self) s
    obtain ⟨store', rest⟩ := ih (fun other inRest => closed other (List.mem_cons_of_mem decl inRest)) { s with store := store }
    refine ⟨store', ?_⟩
    change EStateM.bind (initLocal decl) (fun _ => decls.forM initLocal) s = _
    simp only [EStateM.bind, first]
    exact rest

theorem forM_execDecl_alike {decls : List Decl} (initialises : ∀ decl ∈ decls, decl.Initialises program)
    (agree : Agree (Shared program) s t) :
    Joins (Shared program) (decls.forM execDecl s)
      ((decls.filter fun decl => !isDemoted program decl.name).forM execDecl t) := by
  induction decls generalizing s t with
  | nil => exact ⟨rfl, agree⟩
  | cons decl decls ih =>
    obtain ⟨closed, shared⟩ := initialises decl List.mem_cons_self
    have rest {s t : State} := ih (s := s) (t := t) fun other inRest => initialises other (List.mem_cons_of_mem decl inRest)
    change Joins _ (EStateM.bind (execDecl decl) (fun _ => decls.forM execDecl) s) _
    cases isDemoted : isDemoted program decl.name with
    | true =>
      obtain ⟨store, ran, apart⟩ := execDecl_closed (closed isDemoted) s
      rw [List.filter_cons_of_neg (by simp [isDemoted])]
      simp only [EStateM.bind, ran]
      refine rest ⟨fun name isShared => ?_, agree.rest⟩
      refine (apart name ?_).trans (agree.entries name isShared)
      rintro rfl
      rw [Shared, isPrivate, isDemoted] at isShared
      cases isShared
    | false =>
      rw [List.filter_cons_of_pos (by simp [isDemoted])]
      change Joins _ _ (EStateM.bind (execDecl decl) (fun _ => (decls.filter _).forM execDecl) t)
      have covered : ∀ name ∈ decl.operands.flatMap Expr.names, Shared program name := by
        intro name inNames
        obtain ⟨e, isOperand, inNames⟩ := List.mem_flatMap.mp inNames
        exact shared isDemoted e isOperand name inNames
      have both := related_execDecl covered s t agree
      simp only [EStateM.bind]
      cases left : execDecl decl s <;> cases right : execDecl decl t <;> rw [left, right] at both
      · exact rest both.2
      · exact both.elim
      · exact both.elim
      · exact ⟨both.1, both.2.requests⟩

theorem Agree.initializedData {A : Name → Prop} (agree : Agree A s t) : s.initializedData = t.initializedData := by
  rw [← agree.rest]

theorem initDataBlock_alike {used : Name}
    (initialises : ∀ block, program.dataBlocks.lookup used = some block → ∀ decl ∈ block.statements, decl.Initialises program)
    (agree : Agree (Shared program) s t) :
    Joins (Shared program) (initDataBlock program used s) (initShared program used t) := by
  simp only [initDataBlock, initShared, bind, EStateM.bind, readState, agree.initializedData]
  split
  · exact ⟨rfl, agree⟩
  · cases found : program.dataBlocks.lookup used with
    | none => exact ⟨rfl, agree⟩
    | some block =>
      refine forM_execDecl_alike (initialises block found) ⟨agree.entries, ?_⟩
      rw [← agree.rest]

theorem forM_initDataBlock_alike {uses : List Name}
    (initialises : ∀ used ∈ uses, ∀ block, program.dataBlocks.lookup used = some block →
      ∀ decl ∈ block.statements, decl.Initialises program)
    (agree : Agree (Shared program) s t) :
    Joins (Shared program) (uses.forM (initDataBlock program) s) (uses.forM (initShared program) t) := by
  induction uses generalizing s t with
  | nil => exact ⟨rfl, agree⟩
  | cons used uses ih =>
    have first := initDataBlock_alike (initialises used List.mem_cons_self) agree
    change Joins _ (EStateM.bind (initDataBlock program used) (fun _ => uses.forM (initDataBlock program)) s)
      (EStateM.bind (initShared program used) (fun _ => uses.forM (initShared program)) t)
    simp only [EStateM.bind]
    cases left : initDataBlock program used s <;> cases right : initShared program used t <;>
      rw [left, right] at first
    · exact ih (fun other inRest => initialises other (List.mem_cons_of_mem used inRest)) first.2
    · exact False.elim first
    · exact False.elim first
    · exact first

/-- The outcomes correspond, with `current` after the step. -/
def Corresponds (program : Program) (current : Config → Demoted → Current) : Outcome → DemotedOutcome → Prop
  | .running config, .running demoted => Sim program config demoted (current config demoted)
  | .exited code s, .exited code' t => code = code' ∧ s.requests = t.requests
  | .raised error s, .raised error' t => error = error' ∧ s.requests = t.requests
  | _, _ => False

theorem inlinedDecls_closed {procedure : Name} (found : program.procedures.lookup procedure = some proc)
    (initialises : Initialises program procedure) : ∀ decl ∈ inlinedDecls program proc, decl.Closed := by
  intro decl isInlined
  obtain ⟨used, isUsed, inBlock⟩ := List.mem_flatMap.mp isInlined
  cases foundBlock : program.dataBlocks.lookup used with
  | none => rw [foundBlock] at inBlock; cases inBlock
  | some block =>
    rw [foundBlock] at inBlock
    obtain ⟨inStatements, inlined⟩ := List.mem_filter.mp inBlock
    unfold Acrobe.Stapl.isInlined at inlined
    simp only [Bool.and_eq_true] at inlined
    exact (initialises proc found used isUsed block foundBlock decl inStatements).1 inlined.1.2

theorem enter_corresponds {config : Config} {demoted : Demoted} {current : Current} {procedure : Name}
    (sim : Sim program config demoted current) (initialises : Initialises program procedure) :
    Corresponds program
      (fun next demoted' => entryCurrent program procedure next.state.store demoted'.innermost ::
        current.map (unchanged config.state.store next.state.store))
      (enter program config procedure) (Demoted.enter program demoted procedure) := by
  unfold enter Demoted.enter
  cases found : program.procedures.lookup procedure with
  | none => exact ⟨rfl, sim.state.requests⟩
  | some proc =>
    have initialised := forM_initDataBlock_alike (initialises proc found) sim.state
    dsimp only
    cases left : proc.uses.forM (initDataBlock program) config.state <;>
      cases right : proc.uses.forM (initShared program) demoted.state <;> rw [left, right] at initialised
    · next s' _ t' =>
      obtain ⟨locals, inside⟩ := forM_initLocal_closed (inlinedDecls_closed found initialises)
        (Demoted.seen program proc .empty t')
      simp only [inside]
      refine ⟨sim.pending, congrArg _ sim.frames, initialised.2, ?_⟩
      refine List.Forall₂.cons ?_ ?_
      · intro name isCurrent
        rw [entryCurrent, found] at isCurrent
        obtain ⟨isLocal, same⟩ := Bool.and_eq_true_iff.mp isCurrent
        exact ⟨⟨proc, found, isLocal⟩, of_decide_eq_true same⟩
      · rw [List.forall₂_map_right_iff]
        exact sim.locals.imp fun _ _ follows => follows.congr
    · exact False.elim initialised
    · exact False.elim initialised
    · exact initialised

theorem seen_agree {frame : Frame} {locals : Store} {inner : Name → Bool}
    (found : program.procedures.lookup frame.procedure = some proc) (agree : Agree (Shared program) s t)
    (follows : Follows program s.store ⟨frame, locals⟩ inner) :
    Agree (Available program inner) s (Demoted.seen program proc locals t) := by
  refine ⟨fun name available => ?_, ?_⟩
  · change _ = (mergeStore _ _ _).entry name
    rw [mergeStore_entry]
    rcases available with isShared | isCurrent
    · rw [if_neg fun isLocal => by rw [isPrivate_of_isLocal found isLocal] at isShared; cases isShared]
      exact agree.entries name isShared
    · obtain ⟨⟨proc', found', isLocal⟩, held⟩ := follows name isCurrent
      cases found.symm.trans found'
      rw [if_pos isLocal]
      exact held.symm
  · rw [Demoted.seen, ← agree.rest]

theorem kept_sim (pending : List Name) {frame frame' : Frame} {frames : List LocalFrame} {inner : Name → Bool}
    {outer : Current} {taken : Option Stmt} {s' t' : State}
    (found : program.procedures.lookup frame.procedure = some proc) (same : frame'.procedure = frame.procedure)
    (agree : Agree (InStep program proc inner taken) s' t')
    (followsInner : ∀ name, inner name = true → isLocal program proc name = true)
    (followsOuter : List.Forall₂ (Follows program s.store) frames outer) :
    Sim program ⟨pending, frame' :: frames.map LocalFrame.frame, s'⟩
      ⟨pending, ⟨frame', t'.store⟩ :: frames, Demoted.kept program proc t t'⟩
      ((fun name => inner name || (taken.bind Stmt.whole = some name && isLocal program proc name)) ::
        outer.map (unchanged s.store s'.store)) := by
  refine ⟨rfl, rfl, ⟨fun name isShared => ?_, ?_⟩, List.Forall₂.cons ?_ ?_⟩
  · change _ = (mergeStore _ _ _).entry name
    rw [mergeStore_entry, if_neg fun isLocal => by rw [Shared, isPrivate_of_isLocal found isLocal] at isShared; cases isShared]
    exact agree.entries name (Or.inl (Or.inl isShared))
  · change { s' with store := _ } = { t' with store := _ }
    rw [← agree.rest]
    rfl
  · intro name isCurrent
    rcases Bool.or_eq_true_iff.mp isCurrent with isInner | isWhole
    · refine ⟨⟨proc, same ▸ found, followsInner name isInner⟩, ?_⟩
      exact (agree.entries name (Or.inl (Or.inr isInner))).symm
    · obtain ⟨whole, isLocal⟩ := Bool.and_eq_true_iff.mp isWhole
      refine ⟨⟨proc, same ▸ found, isLocal⟩, ?_⟩
      exact (agree.entries name (Or.inr ⟨of_decide_eq_true whole, isLocal⟩)).symm
  · rw [List.forall₂_map_right_iff]
    exact followsOuter.imp fun _ _ follows => follows.congr

theorem step_corresponds (player : Player) {config : Config} {demoted : Demoted} {current : Current}
    (sim : Sim program config demoted current) (meets : Meets program config demoted current) :
    Corresponds program (fun next demoted' => advance program config next demoted' current)
      (step program player config) (Demoted.step program player demoted) := by
  obtain ⟨pending, frames, s⟩ := config
  obtain ⟨pending', frames', t⟩ := demoted
  obtain ⟨samePending, sameFrames, agree, locals⟩ := sim
  dsimp only at samePending sameFrames agree locals
  subst samePending sameFrames
  cases locals with
  | nil =>
    cases pending with
    | nil => exact ⟨rfl, agree.requests⟩
    | cons procedure pending =>
      have sim : Sim program ⟨pending, [], s⟩ ⟨pending, [], t⟩ [] := ⟨rfl, rfl, agree, .nil⟩
      exact enter_corresponds sim (meets.2 procedure rfl)
  | @cons frame inner frames outer follows followsOuter =>
    obtain ⟨frame, locals⟩ := frame
    simp only [step, Demoted.step, List.map_cons]
    cases found : program.procedures.lookup frame.procedure with
    | none => exact ⟨rfl, agree.requests⟩
    | some proc =>
      cases here : proc.statements[frame.pc]? with
      | none =>
        have ended : Config.entered program ⟨pending, frame :: frames.map LocalFrame.frame, s⟩ = none := by
          simp [Config.entered, Config.stmt, found, here]
        simp only [Corresponds, advance, ended, found, here]
        exact ⟨rfl, rfl, agree, followsOuter⟩
      | some stmt =>
        simp only [here]
        have isLocalInner (name : Name) (isInner : inner name = true) : isLocal program proc name = true := by
          obtain ⟨⟨proc', found', isLocal⟩, -⟩ := follows name isInner
          cases found.symm.trans found'
          exact isLocal
        have current : Config.stmt program ⟨pending, frame :: frames.map LocalFrame.frame, s⟩ = stmt.taken s.store := by
          simp [Config.stmt, found, here]
        obtain ⟨conditions, sees⟩ := meets.1 proc stmt found here
        have agreeSeen := seen_agree found agree follows
        have both := execStmt_alike player proc frame.pc agreeSeen conditions fun taken reached => by
          refine ⟨(sees taken reached).reads, fun name written => ?_⟩
          refine ((sees taken reached).writes name written).imp_right fun replaced => ?_
          obtain ⟨whole, isLocal, replaces⟩ := replaced
          refine ⟨whole, isLocal, ?_⟩
          rw [Demoted.seen, mergeStore_entry, if_pos isLocal]
          exact replaces
        cases left : execStmt player proc frame.pc stmt s <;>
          cases right : execStmt player proc frame.pc stmt (Demoted.seen program proc locals t) <;>
          rw [left, right] at both
        · next control s' control' t' =>
          obtain ⟨rfl, after⟩ := both
          cases control with
          | exit code => exact ⟨rfl, after.requests⟩
          | next pc =>
            have ended : Config.entered program ⟨pending, frame :: frames.map LocalFrame.frame, s⟩ = none := by
              rw [Config.entered, current]
              dsimp only
              split
              · next reached =>
                rw [execStmt_of_call reached] at left
                cases left
              · rfl
            simp only [Corresponds, advance, ended, found, here]
            exact kept_sim pending found rfl after isLocalInner followsOuter
          | call procedure =>
            obtain ⟨reached, rfl⟩ := taken_of_call left
            obtain ⟨-, rfl⟩ := taken_of_call right
            have entered : Config.entered program ⟨pending, frame :: frames.map LocalFrame.frame, s⟩ = some procedure := by
              rw [Config.entered, current, reached]
            have called : Sim program ⟨pending, { frame with pc := frame.pc + 1 } :: frames.map LocalFrame.frame, s⟩
                ⟨pending, ⟨{ frame with pc := frame.pc + 1 }, (Demoted.seen program proc locals t).store⟩ :: frames,
                  Demoted.kept program proc t (Demoted.seen program proc locals t)⟩ (inner :: outer) := by
              refine ⟨rfl, rfl, (kept_sim pending found rfl after isLocalInner followsOuter).state, .cons ?_ followsOuter⟩
              intro name isInner
              refine ⟨⟨proc, found, isLocalInner name isInner⟩, ?_⟩
              exact (agreeSeen.entries name (Or.inr isInner)).symm
            simp only [advance, entered]
            exact enter_corresponds called (meets.2 procedure entered)
        · exact False.elim both
        · exact False.elim both
        · exact both

theorem run_observe {n : Nat} {config : Config} {demoted : Demoted} {current : Current}
    (sim : Sim program config demoted current) (meets : MeetsFor program player n config demoted current) :
    (run program player n config).observe = (Demoted.run program player n demoted).observe := by
  induction n generalizing config demoted current with
  | zero => exact congrArg (Observation.mk · .running) sim.state.requests
  | succ n ih =>
    obtain ⟨here, rest⟩ := meets
    have corresponds := step_corresponds player sim here
    rw [run, Demoted.run]
    cases left : step program player config <;> cases right : Demoted.step program player demoted <;>
      rw [left, right] at corresponds <;> simp only [left, right] at rest ⊢
    · exact ih corresponds rest
    all_goals first | exact False.elim corresponds | skip
    · obtain ⟨rfl, same⟩ := corresponds
      exact congrArg (Observation.mk · _) same
    · obtain ⟨rfl, same⟩ := corresponds
      exact congrArg (Observation.mk · _) same

end

/-- A run whose steps read demoted variables only where they are current looks the same when the
variables are locals. -/
theorem demotion_preserves_runs (program : Program) (player : Player) (procedures : List Name) (n : Nat)
    (meets : MeetsFor program player n (Config.initial procedures) (Demoted.initial procedures) []) :
    (run program player n (Config.initial procedures)).observe =
      (Demoted.run program player n (Demoted.initial procedures)).observe :=
  run_observe ⟨rfl, rfl, ⟨fun _ _ => rfl, rfl⟩, .nil⟩ meets

def settingProgram : Program where
  procedures := [("P", ⟨"P", ["D"], [
    .assignStmt "X" none none none (.intLiteral 7),
    .exportStmt "X" (.varRef "X")], []⟩)]
  dataBlocks := [("D", ⟨"D", [.integer ⟨"X", none, none⟩]⟩)]

def acceptingPlayer : Player := fun _ _ => .ok none

theorem setting_initialises : Initialises settingProgram "P" := by
  intro proc found used isUsed block foundBlock decl inBlock
  cases found
  cases List.mem_singleton.mp isUsed
  cases foundBlock
  cases List.mem_singleton.mp inBlock
  exact ⟨fun _ _ isOperand => (by cases isOperand), fun _ _ isOperand => (by cases isOperand)⟩

theorem setting_run_preserved :
    (run settingProgram acceptingPlayer 3 (Config.initial ["P"])).observe =
      (Demoted.run settingProgram acceptingPlayer 3 (Demoted.initial ["P"])).observe := by
  refine demotion_preserves_runs settingProgram acceptingPlayer ["P"] 3 ⟨⟨trivial, ?_⟩, ⟨?_, nofun⟩, ⟨?_, nofun⟩, trivial⟩
  · rintro procedure ⟨⟩
    exact setting_initialises
  · intro proc stmt found here
    cases found
    cases here
    refine ⟨nofun, fun taken reached => ?_⟩
    cases reached
    refine ⟨?_, ?_⟩
    · intro e isOperand
      cases List.mem_singleton.mp isOperand
      exact nofun
    · intro name written
      cases List.mem_singleton.mp written
      refine Or.inr ⟨rfl, by decide, Or.inl ⟨0, 0, rfl, rfl⟩⟩
  · intro proc stmt found here
    cases found
    cases here
    refine ⟨nofun, fun taken reached => ?_⟩
    cases reached
    refine ⟨?_, nofun⟩
    intro e isOperand name inNames
    cases List.mem_singleton.mp isOperand
    cases List.mem_singleton.mp inNames
    exact Or.inr (by decide)
/-- A procedure that counts its calls in a variable of its DATA block. -/
def countingProgram : Program where
  procedures := [("P", ⟨"P", ["D"], [
    .assignStmt "X" none none none (.binOp .add (.varRef "X") (.intLiteral 1)),
    .exportStmt "X" (.varRef "X")], []⟩)]
  dataBlocks := [("D", ⟨"D", [.integer ⟨"X", none, none⟩]⟩)]

/-- Called twice, the demoted program exports 1 again. -/
theorem demotion_forgets_count :
    isDemoted countingProgram "X" = true ∧
      (run countingProgram acceptingPlayer 8 (Config.initial ["P", "P"])).observe ≠
        (Demoted.run countingProgram acceptingPlayer 8 (Demoted.initial ["P", "P"])).observe := by
  decide

end Acrobe.Stapl
