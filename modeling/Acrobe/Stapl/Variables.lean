import Mathlib
import Acrobe.Stapl.Simplify

/-!
# Variable analysis

What the transpiler finds out about each variable of a program before it emits code: its
declaration, whether it is read, and whether it is a constant.
-/

namespace Acrobe.Stapl

/-! ### Reads -/

def Expr.names : Expr → List Name
  | .intLiteral _ => []
  | .varRef name => [name]
  | .arrayIndex name index => name :: index.names
  | .arraySubrange name high low => name :: (high.names ++ low.names)
  | .arrayWhole name => [name]
  | .unaryOp _ operand => operand.names
  | .binOp _ left right => left.names ++ right.names
  | .funcCall _ arg => arg.names
  | .booleanLiteral .. => []

def ScanStmt.operands (scan : ScanStmt) : List Expr :=
  [scan.length, scan.tdi] ++ scan.capture.toList ++ scan.compare.toList ++ scan.mask.toList ++ scan.result.toList

def PrintPart.operand : PrintPart → List Expr
  | .text _ => []
  | .expr value => [value]

/-- The expressions both read collectors walk in a statement that is not an `IF`. -/
def Stmt.walked : Stmt → List Expr
  | .assignStmt _ index high low value => index.toList ++ high.toList ++ low.toList ++ [value]
  | .forStmt _ start stop step => [start, stop] ++ step.toList
  | .exitStmt code => [code]
  | .printStmt parts => parts.flatMap PrintPart.operand
  | .exportStmt _ value => [value]
  | .drScanStmt scan => scan.operands
  | .irScanStmt scan => scan.operands
  | .preDrStmt count data => count :: data.toList
  | .postDrStmt count data => count :: data.toList
  | .preIrStmt count data => count :: data.toList
  | .postIrStmt count data => count :: data.toList
  | .waitStmt _ cycles usecs _ => cycles.toList ++ usecs.toList
  | .pushStmt value => [value]
  | _ => []

/-- `_walk_stmt`. -/
def Stmt.reads : Stmt → List Name
  | .ifStmt condition thenStmt => condition.names ++ thenStmt.reads
  | stmt => stmt.walked.flatMap Expr.names

def Decl.reads : Decl → List Name
  | .integer decl => (decl.init.getD []).flatMap Expr.names
  | .boolean decl => decl.size.toList.flatMap Expr.names

/-- `_collect_read_vars`. -/
def collectReadVars (program : Program) : List Name :=
  program.procedures.flatMap (fun entry => entry.2.statements.flatMap Stmt.reads) ++
    program.dataBlocks.flatMap (fun entry => entry.2.statements.flatMap Decl.reads)

/-- The identities of the collector's own `simplify`, which does not know a factor 1. -/
def collectorIdentities (op : BinOp) (sl sr : Expr) : Expr :=
  match op with
  | .mul => if sl.literal = some 0 ∨ sr.literal = some 0 then .intLiteral 0 else .binOp .mul sl sr
  | op => applyIdentities op sl sr

/-- `simplify` of `_collect_read_vars_simplified`. -/
def collectorSimplify (constants : Name → Option Int) : Expr → Expr
  | .varRef name =>
    match constants name with
    | some value => .intLiteral value
    | none => .varRef name
  | .unaryOp op operand => simplifyUnary op (collectorSimplify constants operand)
  | .binOp op left right =>
    let sl := collectorSimplify constants left
    let sr := collectorSimplify constants right
    match (do foldBinop op (← sl.literal) (← sr.literal)) with
    | some value => .intLiteral value
    | none => collectorIdentities op sl sr
  | .funcCall name arg => .funcCall name (collectorSimplify constants arg)
  | .arrayIndex name index => .arrayIndex name (collectorSimplify constants index)
  | .arraySubrange name high low =>
    .arraySubrange name (collectorSimplify constants high) (collectorSimplify constants low)
  | .intLiteral value => .intLiteral value
  | .arrayWhole name => .arrayWhole name
  | .booleanLiteral data bitCount => .booleanLiteral data bitCount

/-- `walk_stmt` of `_collect_read_vars_simplified`: a branch whose condition simplifies to 0 is
not walked. -/
def Stmt.simplifiedReads (constants : Name → Option Int) : Stmt → List Name
  | .ifStmt condition thenStmt =>
    match (collectorSimplify constants condition).literal with
    | some value => if value ≠ 0 then thenStmt.simplifiedReads constants else []
    | none => (collectorSimplify constants condition).names ++ thenStmt.simplifiedReads constants
  | stmt => stmt.walked.flatMap fun e => (collectorSimplify constants e).names

/-- `_collect_read_vars_simplified`: the DATA blocks are not walked. -/
def collectReadVarsSimplified (program : Program) (constants : Name → Option Int) : List Name :=
  program.procedures.flatMap fun entry => entry.2.statements.flatMap (Stmt.simplifiedReads constants)

/-! ### Declarations -/

inductive VarType where
  | integer
  | boolean
  deriving DecidableEq

inductive Scope where
  | data
  | local
  deriving DecidableEq

inductive ConstValue where
  | scalar (value : Int)
  | array (values : List Int)
  deriving DecidableEq

structure VarInfo where
  name : Name
  vtype : VarType
  isArray : Bool
  hasInit : Bool
  scope : Scope
  dataBlock : Option Name
  isRead : Bool
  /-- The value of a constant, `none` for any other variable. -/
  constValue : Option ConstValue
  deriving DecidableEq

def VarInfo.isConst (info : VarInfo) : Bool := info.constValue.isSome

/-- `_analyze_decl`. -/
def analyzeDecl (scope : Scope) (dataBlock : Option Name) : Decl → VarInfo
  | .integer decl =>
    { name := decl.name, vtype := .integer, isArray := decl.size.isSome, hasInit := decl.init.isSome,
      scope, dataBlock, isRead := true, constValue := none }
  | .boolean decl =>
    { name := decl.name, vtype := .boolean, isArray := decl.size.isSome, hasInit := decl.init.isSome,
      scope, dataBlock, isRead := true, constValue := none }

def Stmt.decl : Stmt → Option Decl
  | .integerDecl decl => some (.integer decl)
  | .booleanDecl decl => some (.boolean decl)
  | _ => none

/-- The declarations of the DATA blocks, each with the name of its block. -/
def dataDecls (program : Program) : List (Name × Decl) :=
  program.dataBlocks.flatMap fun entry => entry.2.statements.map fun decl => (entry.1, decl)

def localDecls (program : Program) : List Decl :=
  program.procedures.flatMap fun entry => entry.2.statements.filterMap Stmt.decl

/-- The variables as declared: of several DATA declarations the last one counts, and a procedure
declares only names that no declaration before it has. -/
def declaredVars (program : Program) (name : Name) : Option VarInfo :=
  match (dataDecls program).reverse.find? (fun entry => entry.2.name = name) with
  | some (block, decl) => some (analyzeDecl .data (some block) decl)
  | none => ((localDecls program).find? fun decl => decl.name = name).map (analyzeDecl .local none)

/-! ### Constants -/

/-- What `_check_write` records of a write: the folded value of an assignment to the whole
variable, or only that there is one. -/
inductive Write where
  | folded (name : Name) (value : Int)
  | other (name : Name)
  deriving DecidableEq

/-- `getattr(expr, 'name', None)`. -/
def Expr.nameAttr : Expr → Option Name
  | .varRef name => some name
  | .arrayIndex name _ => some name
  | .arraySubrange name _ _ => some name
  | .arrayWhole name => some name
  | .funcCall .abs _ => some "ABS"
  | .funcCall .int _ => some "INT"
  | .funcCall .bool _ => some "BOOL"
  | .funcCall .chr _ => some "CHR$"
  | _ => none

/-- `_check_write`, for declared variables and others alike. -/
def Stmt.checkWrite : Stmt → List Write
  | .assignStmt target index high _ value =>
    match index, high, tryConstFold noConstants value with
    | none, none, some val => [.folded target val]
    | _, _, _ => [.other target]
  | .ifStmt _ thenStmt => thenStmt.checkWrite
  | .forStmt var _ _ _ => [.other var]
  | .popStmt target _ => [.other target]
  | .drScanStmt scan => (scan.capture.bind Expr.nameAttr).toList.map .other
  | .irScanStmt scan => (scan.capture.bind Expr.nameAttr).toList.map .other
  | _ => []

def checkedWrites (program : Program) : List Write :=
  program.procedures.flatMap fun entry => entry.2.statements.flatMap Stmt.checkWrite

/-- `proc_write_values[name]`, empty where the dictionary has no entry. -/
def procWriteValues (program : Program) (name : Name) : List Int :=
  (checkedWrites program).filterMap fun write =>
    match write with
    | .folded target value => if target = name then some value else none
    | .other _ => none

def foldAll (init : List Expr) : Option (List Int) := init.mapM (tryConstFold noConstants)

/-- The value an `INTEGER` declaration gives to a constant. Where an array is assigned a folded
value, the comparison of `write_vals` with a list raises a `TypeError`; there is no constant then. -/
def integerConst (isArray : Bool) (writes : List Int) (decl : IntegerDecl) : Option ConstValue := do
  let folded ← foldAll (← decl.init)
  if isArray then
    if writes = [] then some (.array folded.reverse) else none
  else
    let value ← folded.head?
    if writes.all (· = value) then some (.scalar value) else none

def booleanConst (writes : List Int) (decl : BooleanDecl) : Option ConstValue := do
  let value ← tryConstFold noConstants (← decl.init)
  if writes.all (· = value) then some (.scalar value) else none

/-- The declarations of a block that the search for constants stops at. -/
def Decl.initialises (name : Name) (vtype : VarType) : Decl → Bool
  | .integer decl => vtype = .integer && decl.name = name && decl.init.any (! ·.isEmpty)
  | .boolean decl =>
    vtype = .boolean && decl.name = name &&
      decl.init.any fun init => match init with
        | .booleanLiteral .. => false
        | _ => true

def Decl.const (info : VarInfo) (writes : List Int) : Decl → Option ConstValue
  | .integer decl => integerConst info.isArray writes decl
  | .boolean decl => booleanConst writes decl

/-- The loop over the DATA blocks: the first initialising declaration of each block is tried, and
a later block's constant replaces an earlier one's. -/
def constOf (program : Program) (info : VarInfo) : Option ConstValue :=
  program.dataBlocks.foldl (fun found entry =>
    match entry.2.statements.find? (Decl.initialises info.name info.vtype) with
    | some decl => (decl.const info (procWriteValues program info.name)).or found
    | none => found) none

/-- `vi.is_const` and `vi.const_value`. -/
def VarInfo.constValueIn (program : Program) (info : VarInfo) : Option ConstValue :=
  if info.scope = .data ∧ info.hasInit ∧ Write.other info.name ∉ checkedWrites program ∧
      info.name ∈ collectReadVars program ∧ (info.vtype = .boolean → info.isArray = false)
  then constOf program info else none

def markedVars (program : Program) (name : Name) : Option VarInfo :=
  (declaredVars program name).map fun info =>
    { info with isRead := decide (name ∈ collectReadVars program), constValue := info.constValueIn program }

def scalarConstants (vars : Name → Option VarInfo) (name : Name) : Option Int := do
  match (← vars name).constValue with
  | some (.scalar value) => some value
  | _ => none

/-- `if constants`. -/
def hasScalarConstants (program : Program) : Bool :=
  (dataDecls program).any fun entry => (scalarConstants (markedVars program) entry.2.name).isSome

/-- `_analyze_variables`, less the data files. -/
def analyzeVariables (program : Program) (name : Name) : Option VarInfo :=
  (markedVars program name).map fun info =>
    if hasScalarConstants program ∧ info.isConst = false ∧
        name ∉ collectReadVarsSimplified program (scalarConstants (markedVars program))
    then { info with isRead := false } else info

end Acrobe.Stapl
