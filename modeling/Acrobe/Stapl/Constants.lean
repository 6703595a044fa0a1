import Acrobe.Stapl.Footprint

/-!
# Constants

A variable that the analysis takes for a constant is inlined wherever it is read. This holds up
in a run as long as nothing writes it behind the back of `_check_write` and every value folded for
it is the value the interpreter computes.
-/

namespace Acrobe.Stapl
open LittleEndian Acrobe.Storage Exceptional Exec

/-! ### Constants of a program -/

def Program.IsConst (program : Program) (name : Name) (info : VarInfo) : Prop :=
  analyzeVariables program name = some info ∧ info.isConst

instance (program : Program) (name : Name) (info : VarInfo) : Decidable (program.IsConst name info) :=
  inferInstanceAs (Decidable (_ ∧ _))

section

variable {program : Program} {name : Name} {info : VarInfo}

theorem declaredVars_name {declared : VarInfo} (found : declaredVars program name = some declared) :
    declared.name = name := by
  have named {scope : Scope} {block : Option Name} {decl : Decl} (same : decl.name = name) :
      (analyzeDecl scope block decl).name = name := by
    cases decl <;> exact same
  unfold declaredVars at found
  split at found
  · next block decl first =>
    cases found
    exact named (by simpa using List.find?_some first)
  · obtain ⟨decl, first, rfl⟩ := Option.map_eq_some_iff.mp found
    exact named (by simpa using List.find?_some first)

theorem Program.IsConst.exists_declared (const : program.IsConst name info) :
    ∃ declared, declaredVars program name = some declared ∧ info.vtype = declared.vtype ∧
      info.constValue = declared.constValueIn program ∧ info.constValue.isSome = true := by
  obtain ⟨found, isConst⟩ := const
  obtain ⟨marked, foundMarked, rfl⟩ := Option.map_eq_some_iff.mp found
  obtain ⟨declared, foundDeclared, rfl⟩ := Option.map_eq_some_iff.mp foundMarked
  refine ⟨declared, foundDeclared, ?_⟩
  split at isConst <;> split <;> first | contradiction | exact ⟨rfl, rfl, isConst⟩

theorem Program.IsConst.not_written (const : program.IsConst name info) : Write.other name ∉ checkedWrites program := by
  obtain ⟨declared, found, -, value, isSome⟩ := const.exists_declared
  rw [value, VarInfo.constValueIn] at isSome
  split at isSome
  · next conditions =>
    rw [declaredVars_name found] at conditions
    exact conditions.2.2.1
  · cases isSome

theorem constOf_eq_some {value : ConstValue} (found : constOf program info = some value) :
    ∃ decl : Decl, decl.const info (procWriteValues program info.name) = some value := by
  have loop (step : Option ConstValue → Name × DataBlock → Option ConstValue)
      (each : ∀ found entry value, step found entry = some value → found = some value ∨
        ∃ decl : Decl, decl.const info (procWriteValues program info.name) = some value)
      (blocks : List (Name × DataBlock)) (start : Option ConstValue)
      (known : ∀ value, start = some value →
        ∃ decl : Decl, decl.const info (procWriteValues program info.name) = some value) :
      ∀ value, blocks.foldl step start = some value →
        ∃ decl : Decl, decl.const info (procWriteValues program info.name) = some value := by
    induction blocks generalizing start with
    | nil => exact known
    | cons block blocks ih => exact ih _ fun value same => (each start block value same).elim (known value) id
  unfold constOf at found
  refine loop _ ?_ _ none (fun _ none => by cases none) value found
  intro found entry value same
  split at same
  · next decl _ =>
    rcases Option.or_eq_some_iff.mp same with same | ⟨-, same⟩
    · exact .inr ⟨decl, same⟩
    · exact .inl same
  · exact .inl same

theorem Decl.const_eq_scalar {decl : Decl} {writes : List Int} {found : ConstValue} {value : Int}
    (const : decl.const info writes = some found) (written : value ∈ writes) : found = .scalar value := by
  have agree {kept : Int} (result : (if writes.all (· = kept) then some (ConstValue.scalar kept) else none) = some found) :
      found = .scalar value := by
    split at result
    · next all =>
      cases result
      have same := List.all_eq_true.mp all value written
      rw [of_decide_eq_true same]
    · cases result
  cases decl with
  | boolean decl =>
    obtain ⟨init, -, rest⟩ := Option.bind_eq_some_iff.mp const
    obtain ⟨folded, -, result⟩ := Option.bind_eq_some_iff.mp rest
    exact agree result
  | integer decl =>
    obtain ⟨init, -, rest⟩ := Option.bind_eq_some_iff.mp const
    obtain ⟨folded, -, result⟩ := Option.bind_eq_some_iff.mp rest
    split at result
    · split at result
      · next empty =>
        rw [empty] at written
        cases written
      · cases result
    · obtain ⟨first, -, result⟩ := Option.bind_eq_some_iff.mp result
      exact agree result

theorem Program.IsConst.folded (const : program.IsConst name info) {value : Int}
    (written : Write.folded name value ∈ checkedWrites program) : info.constValue = some (.scalar value) := by
  obtain ⟨declared, found, -, same, isSome⟩ := const.exists_declared
  have inWrites : value ∈ procWriteValues program declared.name := by
    rw [declaredVars_name found, procWriteValues, List.mem_filterMap]
    exact ⟨_, written, if_pos rfl⟩
  rw [same] at isSome ⊢
  obtain ⟨kept, isKept⟩ := Option.isSome_iff_exists.mp isSome
  rw [isKept]
  rw [VarInfo.constValueIn] at isKept
  split at isKept
  · obtain ⟨decl, fromDecl⟩ := constOf_eq_some isKept
    rw [Decl.const_eq_scalar fromDecl inWrites]
  · cases isKept

end

/-! ### Holding a constant -/

/-- The variable holds the value of the constant. The elements of an array that are not
initialised are zero. -/
def VarInfo.Holds (info : VarInfo) (entry : Entry) : Prop :=
  match info.vtype, info.constValue with
  | .integer, some (.scalar value) => entry = ⟨some (.scalar value), none, false⟩
  | .integer, some (.array values) => ∃ count, entry = ⟨some (.array (values ++ List.replicate count 0)), none, false⟩
  | .boolean, some (.scalar value) => ∃ bit, entry = ⟨none, some [bit], true⟩ ∧ truth bit = value
  | _, _ => False

def Entry.undefined : Entry := ⟨none, none, false⟩

/-- The declaration, as the interpreter evaluates it, sets the variable to the constant. -/
def VarInfo.GivenBy (info : VarInfo) : Decl → Prop
  | .integer ⟨_, none, some (first :: _)⟩ =>
    info.vtype = .integer ∧ ∃ value, info.constValue = some (.scalar value) ∧ evalInt .empty first = .ok value
  | .integer ⟨_, some _, some init⟩ =>
    info.vtype = .integer ∧ ∃ values, info.constValue = some (.array values) ∧
      init.mapM (evalInt .empty) = .ok values.reverse
  | .boolean ⟨_, none, some init⟩ =>
    info.vtype = .boolean ∧ ∃ bit, info.constValue = some (.scalar (truth bit)) ∧
      evalInt .empty init = .ok (truth bit)
  | _ => False

/-! ### The condition on a step -/

/-- The targets that `_check_write` does not look at. -/
def Stmt.overlooked : Stmt → List Name
  | .drScanStmt scan => capturedTargets none scan.compare scan.result
  | .irScanStmt scan => capturedTargets none scan.compare scan.result
  | .vectorStmt vector => capturedTargets vector.capture vector.compare vector.result
  | _ => []

/-- The statement does not write the constant unseen, and a value folded for it, in a declaration
or an assignment, is the value the interpreter computes. -/
structure Stmt.Respects (stmt : Stmt) (name : Name) (info : VarInfo) : Prop where
  overlooked : name ∉ stmt.overlooked
  declared : ∀ decl, stmt.decl = some decl → decl.name = name → info.GivenBy decl
  assigned : ∀ low value folded, stmt = .assignStmt name none none low value →
    tryConstFold noConstants value = some folded → evalInt .empty value = .ok folded

structure Config.Respects (program : Program) (config : Config) : Prop where
  executed : ∀ stmt, config.stmt program = some stmt →
    ∀ name info, program.IsConst name info → stmt.Respects name info
  initialised : ∀ procedure proc, config.entered program = some procedure →
    program.procedures.lookup procedure = some proc →
    ∀ used ∈ proc.uses, ∀ block, program.dataBlocks.lookup used = some block →
    ∀ decl ∈ block.statements, ∀ info, program.IsConst decl.name info → info.GivenBy decl

/-! ### The invariant -/

def Program.Declares (program : Program) (used name : Name) : Prop :=
  ∃ block, program.dataBlocks.lookup used = some block ∧ ∃ decl ∈ block.statements, decl.name = name

/-- The constant is held, or still undefined because no initialised block declares it. -/
def ConstHeld (program : Program) (name : Name) (info : VarInfo) (s : State) : Prop :=
  info.Holds (s.store.entry name) ∨
    s.store.entry name = .undefined ∧ ∀ used ∈ s.initializedData, ¬ program.Declares used name

structure ConstInvariant (program : Program) (s : State) : Prop where
  held : ∀ name info, program.IsConst name info → ConstHeld program name info s
  loops : ∀ loop ∈ s.forStack, ∀ info, ¬ program.IsConst loop.var info

section

variable {program : Program} {name : Name} {info : VarInfo} {s s' : State}

theorem ConstHeld.congr (held : ConstHeld program name info s) (entry : s'.store.entry name = s.store.entry name)
    (initialized : s'.initializedData = s.initializedData) : ConstHeld program name info s' := by
  unfold ConstHeld at held ⊢
  rw [entry, initialized]
  exact held

theorem execFor_ok {var : Name} {start stop : Expr} {step : Option Expr} {pc : Nat} {result : Unit}
    (ran : execFor var start stop step pc s = .ok result s') :
    ∃ first last increment, s' = { s with
      store := s.store.setInteger var (.scalar first)
      forStack := ⟨var, last, increment, pc + 1⟩ :: s.forStack } := by
  obtain ⟨first, _, evaluated, ran⟩ := bind_ok ran
  obtain ⟨-, rfl⟩ := lift_ok evaluated
  obtain ⟨last, _, evaluated, ran⟩ := bind_ok ran
  obtain ⟨-, rfl⟩ := lift_ok evaluated
  obtain ⟨increment, middle, evaluated, ran⟩ := bind_ok ran
  have same : s = middle := by
    cases step with
    | none => cases evaluated; rfl
    | some step =>
      obtain ⟨value, _, evaluated, returned⟩ := bind_ok evaluated
      obtain ⟨-, rfl⟩ := lift_ok evaluated
      cases returned
      rfl
  subst same
  obtain ⟨_, _, updated, ran⟩ := bind_ok ran
  cases updated
  cases ran
  exact ⟨first, last, increment.getD 1, rfl⟩

theorem execNext_ok {var : Name} {pc pc' : Nat} (ran : execNext var pc s = .ok pc' s') :
    ∃ loop rest, s.forStack = loop :: rest ∧ loop.var = var ∧
      (s' = { s with forStack := rest } ∧ pc' = pc + 1 ∨
        ∃ value, s' = { s with store := s.store.setInteger var (.scalar value) } ∧ pc' = loop.pc) := by
  obtain ⟨_, _, read, ran⟩ := bind_ok ran
  cases read
  cases loops : s.forStack with
  | nil => rw [loops] at ran; cases ran
  | cons loop rest =>
    simp only [loops] at ran
    refine ⟨loop, rest, rfl, ?_⟩
    split at ran
    · cases ran
    · next same =>
      refine ⟨not_not.mp same, ?_⟩
      cases current : s.store.integers var with
      | none => rw [current] at ran; cases ran
      | some value =>
        cases value with
        | array values => rw [current] at ran; cases ran
        | scalar value =>
          simp only [current] at ran
          split at ran
          · cases ran
            exact Or.inl ⟨rfl, rfl⟩
          · cases ran
            refine Or.inr ⟨value + loop.step, ?_, rfl⟩
            rw [← loops]

/-! ### One step -/

variable {player : Player} {proc : ProcedureDef} {pc : Nat} {stmt : Stmt}

theorem taken_checkWrite {store : Store} {taken : Stmt} (reached : stmt.taken store = some taken) :
    taken.checkWrite = stmt.checkWrite := by
  induction stmt with
  | ifStmt condition thenStmt ih =>
    rw [Stmt.taken] at reached
    split at reached
    · split at reached
      · cases reached
      · exact ih reached
    · cases reached
  | _ => cases reached; rfl

theorem mapM_evalI_of_empty {init : List Expr} {values : List Int} (closed : init.mapM (evalInt .empty) = .ok values) :
    init.mapM evalI s = .ok values s := by
  induction init generalizing values with
  | nil =>
    cases closed
    rfl
  | cons e init ih =>
    rw [List.mapM_cons] at closed ⊢
    cases first : evalInt .empty e with
    | error error => rw [first] at closed; cases closed
    | ok value =>
      cases rest : init.mapM (evalInt .empty) with
      | error error => rw [first, rest] at closed; cases closed
      | ok others =>
        rw [first, rest] at closed
        cases closed
        simp only [bind, EStateM.bind, evalI_of_empty first, ih rest]
        rfl

theorem Entry.of_integer (const : info.vtype = .integer)
    (before : info.Holds (s.store.entry name) ∨ s.store.entry name = .undefined) :
    s.store.booleans name = none ∧ s.store.boolScalars name = false := by
  rcases before with holds | undefined
  · unfold VarInfo.Holds at holds
    split at holds
    · exact (Entry.mk.inj holds).2
    · obtain ⟨count, holds⟩ := holds
      exact (Entry.mk.inj holds).2
    · next boolean _ =>
      rw [boolean] at const
      cases const
    · cases holds
  · exact (Entry.mk.inj undefined).2

theorem execDecl_holds {decl : Decl} {result : Unit} (given : info.GivenBy decl)
    (before : info.Holds (s.store.entry decl.name) ∨ s.store.entry decl.name = .undefined)
    (ran : execDecl decl s = .ok result s') :
    info.Holds (s'.store.entry decl.name) ∧ s'.forStack = s.forStack ∧ s'.initializedData = s.initializedData := by
  match decl with
  | .integer ⟨name, none, some (first :: rest)⟩ =>
    obtain ⟨vtype, value, const, closed⟩ := given
    change info.Holds (s.store.entry name) ∨ s.store.entry name = .undefined at before
    obtain ⟨boolean, scalar⟩ := Entry.of_integer vtype before
    obtain ⟨_, _, evaluated, ran⟩ := bind_ok ran
    cases (evalI_of_empty closed).symm.trans evaluated
    cases ran
    refine ⟨?_, rfl, rfl⟩
    rw [VarInfo.Holds, vtype, const]
    change (s.store.setInteger name _).entry name = _
    rw [Store.setInteger_entry, boolean, scalar]
  | .integer ⟨name, some size, some init⟩ =>
    obtain ⟨vtype, values, const, closed⟩ := given
    change info.Holds (s.store.entry name) ∨ s.store.entry name = .undefined at before
    obtain ⟨boolean, scalar⟩ := Entry.of_integer vtype before
    obtain ⟨size, _, evaluated, ran⟩ := bind_ok ran
    obtain ⟨-, rfl⟩ := lift_ok evaluated
    obtain ⟨_, _, evaluated, ran⟩ := bind_ok ran
    cases (mapM_evalI_of_empty closed).symm.trans evaluated
    cases ran
    refine ⟨?_, rfl, rfl⟩
    rw [VarInfo.Holds, vtype, const]
    refine ⟨size.toNat - values.reverse.length, ?_⟩
    change (s.store.setInteger name _).entry name = _
    rw [Store.setInteger_entry, boolean, scalar, List.reverse_reverse]
  | .boolean ⟨name, none, some init⟩ =>
    obtain ⟨vtype, bit, const, closed⟩ := given
    obtain ⟨_, _, updated, ran⟩ := bind_ok ran
    cases updated
    obtain ⟨_, _, evaluated, ran⟩ := bind_ok ran
    cases (evalI_of_empty closed).symm.trans evaluated
    cases ran
    refine ⟨?_, rfl, rfl⟩
    have integer : s.store.integers name = none := by
      rcases before with holds | undefined
      · rw [VarInfo.Holds, vtype, const] at holds
        obtain ⟨held, holds, -⟩ := holds
        exact (Entry.mk.inj holds).1
      · exact (Entry.mk.inj undefined).1
    rw [VarInfo.Holds, vtype, const]
    refine ⟨bit, ?_, rfl⟩
    have same : (truth bit % 2 == 1) = bit := by cases bit <;> rfl
    change ((s.store.addScalar name).setBoolean name [truth bit % 2 == 1]).entry name = _
    rw [Store.setBoolean_entry, same]
    simp only [Store.addScalar, Function.update_self, integer]

theorem execAssign_holds {low : Option Expr} {value : Expr} {folded : Int} {result : Unit}
    (const : info.constValue = some (.scalar folded)) (closed : evalInt .empty value = .ok folded)
    (held : ConstHeld program name info s) (ran : execAssign name none none low value s = .ok result s') :
    Untouched name s s' := by
  obtain ⟨_, _, read, ran⟩ := bind_ok ran
  cases read
  rcases held with holds | ⟨undefined, -⟩
  · unfold VarInfo.Holds at holds
    split at holds
    · next value' _ same =>
      cases const.symm.trans same
      obtain ⟨integer, boolean, scalar⟩ := Entry.mk.inj holds
      rw [if_neg (by simp [boolean]), if_neg (by simp [scalar]), integer] at ran
      obtain ⟨_, _, evaluated, ran⟩ := bind_ok ran
      cases (evalI_of_empty closed).symm.trans evaluated
      cases ran
      refine ⟨?_, rfl, rfl⟩
      rw [holds, ← boolean, ← scalar]
      exact Store.setInteger_entry _
    · next _ same => cases const.symm.trans same
    · next value' _ same =>
      cases const.symm.trans same
      obtain ⟨bit, holds, isBit⟩ := holds
      obtain ⟨integer, boolean, scalar⟩ := Entry.mk.inj holds
      rw [if_neg (by simp [scalar]), if_pos scalar] at ran
      obtain ⟨_, _, evaluated, ran⟩ := bind_ok ran
      cases (evalI_of_empty closed).symm.trans evaluated
      cases (setScalar_eq boolean _).symm.trans ran
      refine ⟨?_, rfl, rfl⟩
      have same : (folded % 2 != 0) = bit := by rw [← isBit]; cases bit <;> rfl
      rw [holds, ← integer, ← scalar, ← same]
      exact Store.setBoolean_entry _
    · cases holds
  · obtain ⟨integer, boolean, scalar⟩ := Entry.mk.inj undefined
    rw [if_neg (by simp [boolean]), if_neg (by simp [scalar]), integer] at ran
    cases ran

theorem Program.IsConst.not_captured (const : program.IsConst name info) {capture : Option Expr}
    (seen : ∀ write ∈ (capture.bind Expr.nameAttr).toList.map Write.other, write ∈ checkedWrites program) :
    name ∉ (capture.bind Expr.nameAttr).toList :=
  fun captured => const.not_written (seen _ (List.mem_map_of_mem captured))

theorem execPlain_held {result : Unit} (const : program.IsConst name info) (respects : stmt.Respects name info)
    (seen : ∀ write ∈ stmt.checkWrite, write ∈ checkedWrites program) (held : ConstHeld program name info s)
    (ran : execPlain player stmt s = .ok result s') :
    ConstHeld program name info s' ∧ s'.forStack = s.forStack := by
  have framed (other : name ∉ stmt.writes) : ConstHeld program name info s' ∧ s'.forStack = s.forStack := by
    have untouched := keeps_execPlain player other s ⟨rfl, rfl, rfl⟩
    rw [ran] at untouched
    exact ⟨held.congr untouched.entry untouched.initialized, untouched.forStack⟩
  have scanned (capture compare result : Option Expr)
      (unseen : name ∉ capturedTargets none compare result)
      (captured : name ∉ (capture.bind Expr.nameAttr).toList) : name ∉ capturedTargets capture compare result := by
    intro target
    rcases List.mem_append.mp target with target | target
    · exact captured target
    · exact unseen (List.mem_append_right _ target)
  have declared {decl : Decl} (isDecl : stmt.decl = some decl) (same : decl.name = name)
      (ran : execDecl decl s = .ok result s') : ConstHeld program name info s' ∧ s'.forStack = s.forStack := by
    subst same
    obtain ⟨holds, forStack, -⟩ := execDecl_holds (respects.declared decl isDecl rfl)
      (held.imp_right And.left) ran
    exact ⟨Or.inl holds, forStack⟩
  by_cases written : name ∈ stmt.writes
  · cases stmt with
    | integerDecl decl => exact declared rfl (List.mem_singleton.mp written).symm ran
    | booleanDecl decl => exact declared rfl (List.mem_singleton.mp written).symm ran
    | assignStmt target index high low value =>
      cases List.mem_singleton.mp written
      unfold Stmt.checkWrite at seen
      split at seen
      · next folded isFolded =>
        have isConst := const.folded (seen _ (List.mem_singleton_self _))
        have closed := respects.assigned low value folded rfl isFolded
        have assigned : execAssign name none none low value s = .ok result s' := ran
        have untouched := execAssign_holds isConst closed held assigned
        exact ⟨held.congr untouched.entry untouched.initialized, untouched.forStack⟩
      · exact absurd (seen _ (List.mem_singleton_self _)) const.not_written
    | popStmt target index =>
      cases List.mem_singleton.mp written
      exact absurd (seen _ (List.mem_singleton_self _)) const.not_written
    | drScanStmt scan =>
      exact framed (scanned _ _ _ respects.overlooked (const.not_captured seen))
    | irScanStmt scan =>
      exact framed (scanned _ _ _ respects.overlooked (const.not_captured seen))
    | vectorStmt vector => exact absurd written respects.overlooked
    | ifStmt condition thenStmt => cases ran
    | forStmt var start stop step => cases ran
    | nextStmt var => cases ran
    | _ => cases written
  · exact framed written

theorem execStmt_invariant {control : Control} (invariant : ConstInvariant program s)
    (respects : ∀ name info, program.IsConst name info → stmt.Respects name info)
    (seen : ∀ write ∈ stmt.checkWrite, write ∈ checkedWrites program)
    (notIf : ∀ condition thenStmt, stmt ≠ .ifStmt condition thenStmt)
    (ran : execStmt player proc pc stmt s = .ok control s') : ConstInvariant program s' := by
  have plain (ran : (do execPlain player stmt; return Control.next (pc + 1)) s = .ok control s') :
      ConstInvariant program s' := by
    obtain ⟨_, _, ran, returned⟩ := bind_ok ran
    cases returned
    have after (name : Name) (info : VarInfo) (const : program.IsConst name info) :=
      execPlain_held const (respects name info const) seen (invariant.held name info const) ran
    refine ⟨fun name info const => (after name info const).1, fun loop inLoops info const => ?_⟩
    rw [(after loop.var info const).2] at inLoops
    exact invariant.loops loop inLoops info const
  cases stmt with
  | gotoStmt label =>
    cases found : proc.labels.lookup label with
    | none => rw [execStmt, found] at ran; cases ran
    | some target => rw [execStmt, found] at ran; cases ran; exact invariant
  | callStmt procedure => cases ran; exact invariant
  | exitStmt code =>
    obtain ⟨_, _, evaluated, ran⟩ := bind_ok ran
    obtain ⟨-, rfl⟩ := lift_ok evaluated
    cases ran
    exact invariant
  | ifStmt condition thenStmt => exact absurd rfl (notIf condition thenStmt)
  | forStmt var start stop step =>
    obtain ⟨_, _, ran, returned⟩ := bind_ok ran
    cases returned
    obtain ⟨first, last, increment, rfl⟩ := execFor_ok ran
    have notConst {info : VarInfo} (const : program.IsConst var info) : False :=
      const.not_written (seen _ (List.mem_singleton_self _))
    refine ⟨fun name info const => ?_, fun loop inLoops info const => ?_⟩
    · have other : name ≠ var := fun same => notConst (same ▸ const)
      exact (invariant.held name info const).congr (Store.setInteger_entry_ne _ other) rfl
    · rcases List.mem_cons.mp inLoops with rfl | inLoops
      · exact notConst const
      · exact invariant.loops loop inLoops info const
  | nextStmt var =>
    obtain ⟨_, _, ran, returned⟩ := bind_ok ran
    cases returned
    obtain ⟨loop, rest, loops, same, ⟨rfl, -⟩ | ⟨value, rfl, -⟩⟩ := execNext_ok ran
    · refine ⟨fun name info const => (invariant.held name info const).congr rfl rfl, fun loop inRest info const => ?_⟩
      exact invariant.loops loop (loops ▸ List.mem_cons_of_mem _ inRest) info const
    · refine ⟨fun name info const => ?_, invariant.loops⟩
      have other : name ≠ var := by
        intro isVar
        refine invariant.loops loop (loops ▸ List.mem_cons_self) info ?_
        rwa [same, ← isVar]
      exact (invariant.held name info const).congr (Store.setInteger_entry_ne _ other) rfl
  | _ => exact plain ran

theorem not_holds_undefined : ¬ info.Holds .undefined := by
  intro holds
  unfold VarInfo.Holds at holds
  split at holds
  · cases holds
  · obtain ⟨_, holds⟩ := holds
    cases holds
  · obtain ⟨_, holds, _⟩ := holds
    cases holds
  · exact holds

theorem forM_execDecl_holds {decls : List Decl} {result : Unit}
    (given : ∀ decl ∈ decls, decl.name = name → info.GivenBy decl)
    (before : info.Holds (s.store.entry name) ∨ s.store.entry name = .undefined)
    (ran : decls.forM execDecl s = .ok result s') :
    (info.Holds (s'.store.entry name) ∨ s.store.entry name = .undefined ∧ s'.store.entry name = .undefined ∧
      ∀ decl ∈ decls, decl.name ≠ name) ∧ s'.forStack = s.forStack ∧ s'.initializedData = s.initializedData := by
  induction decls generalizing s with
  | nil =>
    cases ran
    exact ⟨before.imp_right fun undefined => ⟨undefined, undefined, nofun⟩, rfl, rfl⟩
  | cons decl decls ih =>
    obtain ⟨_, middle, first, rest⟩ := bind_ok ran
    have givenRest : ∀ decl ∈ decls, decl.name = name → info.GivenBy decl :=
      fun other inRest => given other (List.mem_cons_of_mem decl inRest)
    by_cases same : decl.name = name
    · subst same
      obtain ⟨holds, forStack, initialized⟩ := execDecl_holds (given decl List.mem_cons_self rfl) before first
      obtain ⟨after, forStack', initialized'⟩ := ih givenRest (Or.inl holds) rest
      refine ⟨Or.inl ?_, forStack'.trans forStack, initialized'.trans initialized⟩
      rcases after with after | ⟨undefined, -⟩
      · exact after
      · exact absurd (undefined ▸ holds) not_holds_undefined
    · have untouched := keeps_execDecl (Ne.symm same) s ⟨rfl, rfl, rfl⟩
      rw [first] at untouched
      obtain ⟨after, forStack, initialized⟩ := ih givenRest (untouched.entry ▸ before) rest
      refine ⟨?_, forStack.trans untouched.forStack, initialized.trans untouched.initialized⟩
      refine after.imp_right fun ⟨undefined, undefined', apart⟩ => ⟨untouched.entry ▸ undefined, undefined', ?_⟩
      intro other inDecls
      rcases List.mem_cons.mp inDecls with rfl | inRest
      · exact same
      · exact apart other inRest

theorem initDataBlock_held {used : Name} {result : Unit}
    (given : ∀ block, program.dataBlocks.lookup used = some block →
      ∀ decl ∈ block.statements, decl.name = name → info.GivenBy decl)
    (held : ConstHeld program name info s) (ran : initDataBlock program used s = .ok result s') :
    ConstHeld program name info s' ∧ s'.forStack = s.forStack := by
  obtain ⟨_, _, read, ran⟩ := bind_ok ran
  cases read
  by_cases old : used ∈ s.initializedData
  · rw [if_pos old] at ran
    cases ran
    exact ⟨held, rfl⟩
  · rw [if_neg old] at ran
    cases found : program.dataBlocks.lookup used with
    | none =>
      rw [found] at ran
      cases ran
      exact ⟨held, rfl⟩
    | some block =>
      rw [found] at ran
      obtain ⟨_, _, updated, ran⟩ := bind_ok ran
      cases updated
      obtain ⟨after, forStack, initialized⟩ := forM_execDecl_holds
        (s := { s with initializedData := used :: s.initializedData }) (given block found) (held.imp_right And.left) ran
      refine ⟨after.imp_right fun ⟨undefined, undefined', apart⟩ => ⟨undefined', ?_⟩, forStack⟩
      intro other inInitialized
      rw [initialized] at inInitialized
      rcases List.mem_cons.mp inInitialized with rfl | before
      · rintro ⟨block', found', decl, inBlock, same⟩
        cases found.symm.trans found'
        exact apart decl inBlock same
      · rcases held with holds | ⟨-, apart⟩
        · exact absurd (undefined ▸ holds) not_holds_undefined
        · exact apart other before

theorem forM_initDataBlock_invariant {uses : List Name} {result : Unit}
    (given : ∀ used ∈ uses, ∀ block, program.dataBlocks.lookup used = some block →
      ∀ decl ∈ block.statements, ∀ info, program.IsConst decl.name info → info.GivenBy decl)
    (invariant : ConstInvariant program s) (ran : uses.forM (initDataBlock program) s = .ok result s') :
    ConstInvariant program s' := by
  induction uses generalizing s with
  | nil =>
    cases ran
    exact invariant
  | cons used uses ih =>
    obtain ⟨_, middle, first, rest⟩ := bind_ok ran
    refine ih (fun other inRest => given other (List.mem_cons_of_mem used inRest)) ?_ rest
    have after (name : Name) (info : VarInfo) (const : program.IsConst name info) :=
      initDataBlock_held (fun block found decl inBlock same =>
        given used List.mem_cons_self block found decl inBlock info (same ▸ const))
        (invariant.held name info const) first
    refine ⟨fun name info const => (after name info const).1, fun loop inLoops info const => ?_⟩
    rw [(after loop.var info const).2] at inLoops
    exact invariant.loops loop inLoops info const

theorem enter_invariant {config config' : Config} {procedure : Name}
    (given : ∀ proc, program.procedures.lookup procedure = some proc →
      ∀ used ∈ proc.uses, ∀ block, program.dataBlocks.lookup used = some block →
      ∀ decl ∈ block.statements, ∀ info, program.IsConst decl.name info → info.GivenBy decl)
    (invariant : ConstInvariant program config.state) (ran : enter program config procedure = .running config') :
    ConstInvariant program config'.state := by
  unfold enter at ran
  split at ran
  · cases ran
  · next proc found =>
    split at ran
    · next initialised =>
      cases ran
      exact forM_initDataBlock_invariant (given proc found) invariant initialised
    · cases ran

theorem step_invariant {config config' : Config} (respects : config.Respects program)
    (invariant : ConstInvariant program config.state) (ran : step program player config = .running config') :
    ConstInvariant program config'.state := by
  obtain ⟨pending, frames, s⟩ := config
  unfold step at ran
  cases frames with
  | nil =>
    cases pending with
    | nil => cases ran
    | cons procedure pending =>
      have entered : enter program ⟨pending, [], s⟩ procedure = .running config' := ran
      refine enter_invariant (fun proc found => ?_) ?_ entered
      · exact respects.initialised procedure proc rfl found
      · exact invariant
  | cons frame frames =>
    dsimp only at ran
    cases found : program.procedures.lookup frame.procedure with
    | none => rw [found] at ran; cases ran
    | some proc =>
      cases here : proc.statements[frame.pc]? with
      | none =>
        simp only [found, here] at ran
        cases ran
        exact invariant
      | some stmt =>
        simp only [found, here] at ran
        rcases execStmt_taken player proc frame.pc stmt s with ⟨taken, reached, notIf, same⟩ | same | ⟨error, same⟩
        · have current : Config.stmt program ⟨pending, frame :: frames, s⟩ = some taken := by
            simp [Config.stmt, found, here, reached]
          have seen : ∀ write ∈ taken.checkWrite, write ∈ checkedWrites program := by
            intro write isWrite
            rw [taken_checkWrite reached] at isWrite
            exact List.mem_flatMap.mpr ⟨_, mem_of_lookup found,
              List.mem_flatMap.mpr ⟨stmt, List.mem_of_getElem? here, isWrite⟩⟩
          have kept (control : Control) (s' : State) (done : execStmt player proc frame.pc taken s = .ok control s') :
              ConstInvariant program s' :=
            execStmt_invariant invariant (respects.executed taken current) seen notIf done
          rw [same] at ran
          cases done : execStmt player proc frame.pc taken s with
          | error error s' => rw [done] at ran; cases ran
          | ok control s' =>
            rw [done] at ran
            cases control with
            | next pc => cases ran; exact kept _ s' done
            | exit code => cases ran
            | call procedure =>
              refine enter_invariant (fun proc found => ?_) (kept _ s' done) ran
              refine respects.initialised procedure proc ?_ found
              rw [Config.entered, current, execStmt_call notIf done]
        · rw [same] at ran
          cases ran
          exact invariant
        · rw [same] at ran
          cases ran

end

/-- In a run whose steps respect the constants, every constant that is defined holds its value. -/
theorem constants_hold_in_runs (program : Program) (player : Player) (procedures : List Name) (config : Config)
    (reached : Relation.ReflTransGen
      (fun before after => before.Respects program ∧ step program player before = .running after)
      (Config.initial procedures) config) :
    ∀ name info, program.IsConst name info → ConstHeld program name info config.state := by
  suffices invariant : ConstInvariant program config.state from invariant.held
  induction reached with
  | refl => exact ⟨fun _ _ _ => Or.inr ⟨rfl, nofun⟩, nofun⟩
  | tail _ taken ih => exact step_invariant taken.1 ih taken.2

/-- `INTEGER X = 5` in a DATA block, and a procedure that pushes it, and its sum with what was pushed. -/
def pushingProgram : Program where
  procedures := [("P", ⟨"P", ["D"], [.pushStmt (.varRef "X"), .pushStmt (.binOp .add (.varRef "X") (.intLiteral 1)),
    .pushStmt (.varRef "X")], []⟩)]
  dataBlocks := [("D", ⟨"D", [.integer ⟨"X", none, some [.intLiteral 5]⟩]⟩)]

def pushedInfo : VarInfo where
  name := "X"
  vtype := .integer
  isArray := false
  hasInit := true
  scope := .data
  dataBlock := some "D"
  isRead := true
  constValue := some (.scalar 5)

def silentPlayer : Player := fun _ _ => .ok none

theorem pushing_respects {config : Config} {value : Expr} (stmt : config.stmt pushingProgram = some (.pushStmt value))
    (inside : config.entered pushingProgram = none) : config.Respects pushingProgram := by
  constructor
  · intro other found name info _
    cases stmt.symm.trans found
    refine ⟨List.not_mem_nil, ?_, ?_⟩
    · intro decl declares
      cases declares
    · intro low value folded assigns
      cases assigns
  · intro procedure proc entered
    cases inside.symm.trans entered

theorem entering_respects : (Config.initial ["P"]).Respects pushingProgram := by
  have isConst : pushingProgram.IsConst "X" pushedInfo := by decide
  constructor
  · intro stmt found
    cases found
  · intro procedure proc entered found used isUsed block foundBlock decl inBlock info const
    cases entered
    cases found
    cases List.mem_singleton.mp isUsed
    cases foundBlock
    cases List.mem_singleton.mp inBlock
    cases isConst.1.symm.trans const.1
    exact ⟨rfl, 5, rfl, rfl⟩

theorem pushed_constant_holds :
    ∃ config : Config, config.state.stack = [6, 5] ∧ pushingProgram.IsConst "X" pushedInfo ∧
      ConstHeld pushingProgram "X" pushedInfo config.state := by
  have isConst : pushingProgram.IsConst "X" pushedInfo := by decide
  have reached : ∃ last : Config, Relation.ReflTransGen
      (fun before after => before.Respects pushingProgram ∧ step pushingProgram silentPlayer before = .running after)
      (Config.initial ["P"]) last ∧ last.state.stack = [6, 5] := by
    refine ⟨_, .tail (.tail (.single ⟨entering_respects, rfl⟩) ⟨pushing_respects rfl rfl, rfl⟩)
      ⟨pushing_respects rfl rfl, rfl⟩, ?_⟩
    rfl
  obtain ⟨last, run, stack⟩ := reached
  exact ⟨last, stack, isConst, constants_hold_in_runs pushingProgram silentPlayer ["P"] last run "X" pushedInfo isConst⟩

/-- A procedure that compares a scan and keeps the result in an initialised Boolean. -/
def comparingProgram : Program where
  procedures := [("P", ⟨"P", ["D"], [
    .drScanStmt ⟨.intLiteral 1, .intLiteral 0, none, some (.intLiteral 1), some (.intLiteral 1), some (.varRef "OK")⟩,
    .exitStmt (.varRef "OK")], []⟩)]
  dataBlocks := [("D", ⟨"D", [.boolean ⟨"OK", none, some (.intLiteral 1)⟩]⟩)]

/-- A device that shifts out zeros. -/
def zeroPlayer : Player := fun _ _ => .ok (some [0])

theorem compared_constant_changes :
    ∃ info config, comparingProgram.IsConst "OK" info ∧
      Relation.ReflTransGen (fun before after => step comparingProgram zeroPlayer before = .running after)
        (Config.initial ["P"]) config ∧
      config.stmt comparingProgram = some (.exitStmt (.varRef "OK")) ∧
      info.constValue = some (.scalar 1) ∧ config.state.store.readVar "OK" = .ok 0 := by
  refine ⟨_, _, ⟨rfl, rfl⟩, .tail (.single rfl) rfl, rfl, rfl, rfl⟩

end Acrobe.Stapl
