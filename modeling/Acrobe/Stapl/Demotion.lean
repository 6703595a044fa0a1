import Acrobe.Stapl.ReadSet

/-!
# Local demotion

The transpiler turns some variables of the DATA blocks into locals of the procedures that
reference them. The demoted program runs the same statements, with the locals of each activation
in a store of their own.
-/

namespace Acrobe.Stapl
open LittleEndian Acrobe.Storage Exceptional Exec

/-! ### The analysis -/

/-- `_collect_data_vars`: the variables of the DATA blocks that a procedure uses. -/
def collectDataVars (program : Program) (proc : ProcedureDef) : List Name :=
  proc.uses.flatMap fun used =>
    match program.dataBlocks.lookup used with
    | some block => block.statements.map Decl.name
    | none => []

/-- `_collect_proc_locals`. -/
def collectProcLocals (proc : ProcedureDef) : List Name := (proc.statements.filterMap Stmt.decl).map Decl.name

/-- `_stmt_writes`: the variable a statement writes unconditionally. -/
def Stmt.definiteWrite : Stmt → Option Name
  | .assignStmt target none none _ _ => some target
  | .forStmt var _ _ _ => some var
  | .popStmt target none => some target
  | _ => none

def Stmt.assignTarget : Stmt → Option Name
  | .assignStmt target _ _ _ _ => some target
  | _ => none

/-- The loop over the statements before the first label, up to the first `GOTO` or `CALL`: the
variables read before a write, and the variables written. -/
def scanPrefix (used : List Name) : List Stmt → List Name × List Name → List Name × List Name
  | [], found => found
  | stmt :: rest, (needsEntry, definitelyWritten) =>
    let reads := stmt.reads.filter fun name => name ∈ used ∧ name ∉ definitelyWritten
    let writes := stmt.definiteWrite.toList.filter (· ∈ used)
    match stmt with
    | .gotoStmt _ | .callStmt _ => (reads ++ needsEntry, writes ++ definitelyWritten)
    | _ => scanPrefix used rest (reads ++ needsEntry, writes ++ definitelyWritten)

/-- What one procedure leaves of the candidates. -/
def keepCandidates (program : Program) (candidates : List Name) (proc : ProcedureDef) : List Name :=
  let dataVars := collectDataVars program proc
  let mentioned := proc.statements.flatMap fun stmt =>
    stmt.reads ++ stmt.definiteWrite.toList ++ stmt.assignTarget.toList
  let used := candidates.filter fun name => name ∈ dataVars ∧ name ∈ mentioned
  let labels := proc.labels.map Prod.snd
  if used = [] then candidates
  else if 0 ∈ labels then candidates.filter (· ∉ used)
  else
    let firstLabel := labels.min?.getD proc.statements.length
    let (needsEntry, definitelyWritten) := scanPrefix used (proc.statements.take firstLabel) ([], [])
    candidates.filter fun name =>
      name ∉ needsEntry ∧ ¬ (name ∈ used ∧ name ∉ definitelyWritten ∧ name ∉ needsEntry)

/-- `_find_demotable_vars`. -/
def findDemotableVars (program : Program) : List Name :=
  (program.procedures.map Prod.snd).foldl (keepCandidates program) ((dataDecls program).map fun entry => entry.2.name)

/-- `_stmt_names`. -/
def Stmt.referenced : Stmt → List Name
  | .ifStmt condition thenStmt => condition.names ++ thenStmt.referenced
  | .assignStmt target index high low value =>
    target :: (Stmt.assignStmt target index high low value).walked.flatMap Expr.names
  | .forStmt var start stop step => var :: (Stmt.forStmt var start stop step).walked.flatMap Expr.names
  | .popStmt target index => target :: index.toList.flatMap Expr.names
  | stmt => stmt.walked.flatMap Expr.names

/-- `_find_var_proc_map`: the procedures that reference a variable of their DATA blocks. -/
def findVarProcMap (program : Program) (name : Name) : List Name :=
  (program.procedures.filter fun entry =>
    name ∈ collectDataVars program entry.2 ∧ name ∈ entry.2.statements.flatMap Stmt.referenced).map Prod.fst

/-- `single_proc_vars`. -/
def isSingleProcVar (program : Program) (name : Name) : Bool :=
  (findVarProcMap program name).length = 1 && (analyzeVariables program name).any fun info => info.isRead && !info.isConst

def isConstVar (program : Program) (name : Name) : Bool := (analyzeVariables program name).any VarInfo.isConst

def isDemoted (program : Program) (name : Name) : Bool :=
  (name ∈ findDemotableVars program || isSingleProcVar program name) && !isConstVar program name

/-- The demoted variables that a procedure initialises as its locals. -/
def isInlined (program : Program) (proc : ProcedureDef) (name : Name) : Bool :=
  name ∈ collectDataVars program proc && isDemoted program name && proc.name ∈ findVarProcMap program name

/-- `proc_locals`. -/
def isLocal (program : Program) (proc : ProcedureDef) (name : Name) : Bool :=
  name ∈ collectProcLocals proc || isInlined program proc name

/-- A variable that is a local of some procedure, or of none although it was demoted. -/
def isPrivate (program : Program) (name : Name) : Bool :=
  isDemoted program name || name ∈ (localDecls program).map Decl.name

/-! ### The demoted program -/

/-- `chosen` names from the first store, the others from the second. -/
def mergeStore (chosen : Name → Bool) (first second : Store) : Store where
  integers := fun name => if chosen name then first.integers name else second.integers name
  booleans := fun name => if chosen name then first.booleans name else second.booleans name
  boolScalars := fun name => if chosen name then first.boolScalars name else second.boolScalars name

theorem mergeStore_entry (chosen : Name → Bool) (first second : Store) (name : Name) :
    (mergeStore chosen first second).entry name = if chosen name then first.entry name else second.entry name := by
  simp only [Store.entry, mergeStore]
  split <;> rfl

/-- `_init_data_block` without the demoted variables. -/
def initShared (program : Program) (used : Name) : Exec Unit := do
  let s ← readState
  if used ∈ s.initializedData then return
  else
    match program.dataBlocks.lookup used with
    | none => return
    | some block =>
      update fun s => { s with initializedData := used :: s.initializedData }
      (block.statements.filter fun decl => !isDemoted program decl.name).forM execDecl

/-- The initialisation of a local at the head of a procedure: an array has the elements of its
initialiser, a bit array the bits of its literal. -/
def initLocal : Decl → Exec Unit
  | .integer ⟨name, some _, some init⟩ => do
    let values ← init.mapM evalI
    updateStore (·.setInteger name (.array values.reverse))
  | .boolean ⟨name, some _, some (.booleanLiteral data bitCount)⟩ =>
    updateStore (·.setBoolean name (literalBits data bitCount))
  | decl => execDecl decl

/-- The declarations of a procedure's demoted variables. -/
def inlinedDecls (program : Program) (proc : ProcedureDef) : List Decl :=
  proc.uses.flatMap fun used =>
    match program.dataBlocks.lookup used with
    | some block => block.statements.filter fun decl => isInlined program proc decl.name
    | none => []

structure LocalFrame where
  frame : Frame
  locals : Store

/-- `state` has the variables that are not demoted. -/
structure Demoted where
  pending : List Name
  frames : List LocalFrame
  state : State

inductive DemotedOutcome where
  | running (demoted : Demoted)
  | exited (code : Int) (state : State)
  | raised (error : Error) (state : State)

/-- The state a statement of the procedure sees. -/
def Demoted.seen (program : Program) (proc : ProcedureDef) (locals : Store) (state : State) : State :=
  { state with store := mergeStore (isLocal program proc) locals state.store }

/-- The state left to the other procedures. -/
def Demoted.kept (program : Program) (proc : ProcedureDef) (before after : State) : State :=
  { after with store := mergeStore (isLocal program proc) before.store after.store }

def Demoted.enter (program : Program) (demoted : Demoted) (procedure : Name) : DemotedOutcome :=
  match program.procedures.lookup procedure with
  | none => .raised (.staplRuntimeError ("Procedure not found: " ++ procedure)) demoted.state
  | some proc =>
    match (proc.uses.forM (initShared program)) demoted.state with
    | .ok _ state =>
      match (inlinedDecls program proc).forM initLocal (Demoted.seen program proc .empty state) with
      | .ok _ inside => .running { demoted with frames := ⟨⟨procedure, 0⟩, inside.store⟩ :: demoted.frames, state }
      | .error error _ => .raised error state
    | .error error state => .raised error state

def Demoted.step (program : Program) (player : Player) (demoted : Demoted) : DemotedOutcome :=
  match demoted.frames with
  | [] =>
    match demoted.pending with
    | [] => .exited 0 demoted.state
    | procedure :: pending => Demoted.enter program { demoted with pending } procedure
  | ⟨frame, locals⟩ :: frames =>
    match program.procedures.lookup frame.procedure with
    | none => .raised (.staplRuntimeError ("Procedure not found: " ++ frame.procedure)) demoted.state
    | some proc =>
      match proc.statements[frame.pc]? with
      | none => .running { demoted with frames }
      | some stmt =>
        match execStmt player proc frame.pc stmt (Demoted.seen program proc locals demoted.state) with
        | .ok (.next pc) after =>
          .running { demoted with
            frames := ⟨{ frame with pc }, after.store⟩ :: frames
            state := Demoted.kept program proc demoted.state after }
        | .ok (.call procedure) after =>
          Demoted.enter program { demoted with
            frames := ⟨{ frame with pc := frame.pc + 1 }, after.store⟩ :: frames
            state := Demoted.kept program proc demoted.state after } procedure
        | .ok (.exit code) after => .exited code after
        | .error error after => .raised error after

def Demoted.initial (procedures : List Name) : Demoted :=
  { pending := procedures, frames := [], state := .initial }

/-! ### Runs -/

inductive Status where
  | running
  | exited (code : Int)
  | raised (error : Error)
  deriving DecidableEq

/-- What can be seen of a run: the calls on the player, and how it ended. -/
structure Observation where
  requests : List Request
  status : Status
  deriving DecidableEq

def Outcome.observe : Outcome → Observation
  | .running config => ⟨config.state.requests, .running⟩
  | .exited code state => ⟨state.requests, .exited code⟩
  | .raised error state => ⟨state.requests, .raised error⟩

def DemotedOutcome.observe : DemotedOutcome → Observation
  | .running demoted => ⟨demoted.state.requests, .running⟩
  | .exited code state => ⟨state.requests, .exited code⟩
  | .raised error state => ⟨state.requests, .raised error⟩

/-- At most `n` steps of the interpreter. -/
def run (program : Program) (player : Player) : Nat → Config → Outcome
  | 0, config => .running config
  | n + 1, config =>
    match step program player config with
    | .running next => run program player n next
    | ended => ended

def Demoted.run (program : Program) (player : Player) : Nat → Demoted → DemotedOutcome
  | 0, demoted => .running demoted
  | n + 1, demoted =>
    match Demoted.step program player demoted with
    | .running next => Demoted.run program player n next
    | ended => ended

end Acrobe.Stapl
