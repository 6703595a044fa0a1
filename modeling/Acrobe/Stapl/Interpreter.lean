import Mathlib
import Acrobe.Stapl.Evaluate

/-!
# The interpreter

Statements act on the interpreter's state and talk to a player. A statement that raises keeps
what it did before. The machine runs the procedures of an action one statement at a time.
-/

namespace Acrobe.Stapl
open LittleEndian Acrobe.Storage

/-! ### State -/

structure ForState where
  var : Name
  stop : Int
  step : Int
  pc : Nat

inductive ExportValue where
  | int (value : Int)
  | bytes (bits : Bits)
  deriving DecidableEq

/-- The calls the interpreter makes on its player. -/
inductive Request where
  | irScan (length : Int) (tdi : Bits) (pre post : Int × Bits) (capture : Bool)
  | drScan (length : Int) (tdi : Bits) (pre post : Int × Bits) (capture : Bool)
  | state (path : List JtagState)
  | wait (waitState : Option JtagState) (cycles usecs : Option Int) (endState : Option JtagState)
  | trst (cycles usecs : Option Int)
  | frequency (hertz : Option Int)
  | note (text : String)
  | exportValue (key : String) (value : ExportValue)
  | vector (dirVec inVec : Bits) (capture : Bool)
  deriving DecidableEq

/-- What a player answers to a request, after the requests before it: captured bytes, nothing, or
an exception. -/
abbrev Player := List Request → Request → Except Error (Option Bytes)

/-- `stack` and `forStack` have their top first. -/
structure State where
  store : Store
  stack : List Int
  forStack : List ForState
  preDr : Int × Bits
  postDr : Int × Bits
  preIr : Int × Bits
  postIr : Int × Bits
  drStop : JtagState
  irStop : JtagState
  initializedData : List Name
  vmapSignals : List String
  requests : List Request

def Store.empty : Store := { integers := fun _ => none, booleans := fun _ => none, boolScalars := fun _ => false }

def State.initial : State where
  store := .empty
  stack := []
  forStack := []
  preDr := (0, [])
  postDr := (0, [])
  preIr := (0, [])
  postIr := (0, [])
  drStop := .idle
  irStop := .idle
  initializedData := []
  vmapSignals := []
  requests := []

abbrev Exec := EStateM Error State

namespace Store

def setInteger (store : Store) (name : Name) (value : IntVar) : Store :=
  { store with integers := Function.update store.integers name (some value) }

def setBoolean (store : Store) (name : Name) (bits : Bits) : Store :=
  { store with booleans := Function.update store.booleans name (some bits) }

def addScalar (store : Store) (name : Name) : Store :=
  { store with boolScalars := Function.update store.boolScalars name true }

/-- Write one bit of a variable; out of bounds is left to the caller. -/
def setBit (store : Store) (name : Name) (i : Nat) (bit : Bool) : Store :=
  match store.booleans name with
  | some bits => store.setBoolean name (bits.set i bit)
  | none => store

/-- Copy bits one after the other; a view of the target sees the bits already written. -/
def writeBits (store : Store) (name : Name) (start count : Nat) (source : BitsRef) : Store :=
  (List.range count).foldl
    (fun store i => store.setBit name (start + i) ((store.bits source).getD i false)) store

end Store

namespace Exec

def lift {α : Type} (read : State → Except Error α) : Exec α := fun s =>
  match read s with
  | .ok value => .ok value s
  | .error error => .error error s

def raise {α : Type} (error : Error) : Exec α := fun s => .error error s

def update (f : State → State) : Exec Unit := fun s => .ok () (f s)

def updateStore (f : Store → Store) : Exec Unit := update fun s => { s with store := f s.store }

def readState : Exec State := fun s => .ok s s

end Exec

open Exec

def evalI (e : Expr) : Exec Int := lift fun s => evalInt s.store e

def evalB (e : Expr) : Exec BitsRef := lift fun s => evalBits s.store e

def bitsOf (ref : BitsRef) : Exec Bits := lift fun s => .ok (s.store.bits ref)

def evalOptional : Option Expr → Exec (Option Int)
  | none => return none
  | some e => do
    let value ← evalI e
    return some value

/-- One call on the player; an exception it raises passes through. -/
def ask (player : Player) (request : Request) : Exec (Option Bytes) := fun s =>
  match player s.requests request with
  | .ok reply => .ok reply { s with requests := s.requests ++ [request] }
  | .error error => .error error { s with requests := s.requests ++ [request] }

/-! ### Writing variables -/

/-- `self._booleans[name]`. -/
def booleanVar (name : Name) : Exec Bits := lift fun s =>
  match s.store.booleans name with
  | some bits => .ok bits
  | none => .error .keyError

def listIndex (idx : Int) (length : Nat) : Option Nat :=
  let place := if idx < 0 then idx + length else idx
  if 0 ≤ place ∧ place < length then some place.toNat else none

/-- `arr[idx] = value` on a list. -/
def setItem (name : Name) (values : List Int) (idx value : Int) : Exec Unit :=
  match listIndex idx values.length with
  | some i => updateStore (·.setInteger name (.array (values.set i value)))
  | none => raise .indexError

/-- `_set_bit`: no effect out of bounds. -/
def setBitAt (name : Name) (idx value : Int) : Exec Unit := do
  let bits ← booleanVar name
  if 0 ≤ idx ∧ idx < bits.length then updateStore (·.setBit name idx.toNat (value != 0))

/-- `self._booleans[name][0] = value`. -/
def setScalar (name : Name) (value : Int) : Exec Unit := do
  let bits ← booleanVar name
  if bits.isEmpty then raise .indexError else updateStore (·.setBit name 0 (value != 0))

def BitsRef.length : BitsRef → Nat
  | .fresh bits => bits.length
  | .view _ start stop => stop - start

/-- `_copy_bits`. -/
def copyBits (name : Name) (source : BitsRef) : Exec Unit := do
  let bits ← booleanVar name
  updateStore (·.writeBits name 0 (min source.length bits.length) source)

/-- `_set_subrange`: a descending range is written from its upper end with the bits reversed. -/
def setSubrange (name : Name) (high low : Int) (source : BitsRef) : Exec Unit := do
  let bits ← booleanVar name
  if low ≤ high then
    let bounds := sliceBounds bits low (high + 1)
    updateStore (·.writeBits name bounds.1 (min (bounds.2 - bounds.1) source.length) source)
  else
    let held ← bitsOf source
    let n : Int := min (low - high + 1) source.length
    let bounds := sliceBounds bits (low + 1 - n) (low + 1)
    updateStore (·.writeBits name bounds.1 (min (bounds.2 - bounds.1) source.length) (.fresh held.reverse))

/-! ### Declarations -/

def execIntegerDecl (decl : IntegerDecl) : Exec Unit := do
  match decl.size with
  | some sizeExpr =>
    let size ← evalI sizeExpr
    let values ← (decl.init.getD []).mapM evalI
    let padding := List.replicate (size.toNat - values.length) 0
    updateStore (·.setInteger decl.name (.array (values.reverse ++ padding)))
  | none =>
    match decl.init with
    | some (first :: _) =>
      let value ← evalI first
      updateStore (·.setInteger decl.name (.scalar value))
    | _ => updateStore (·.setInteger decl.name (.scalar 0))

def execBooleanDecl (decl : BooleanDecl) : Exec Unit := do
  match decl.size with
  | some sizeExpr =>
    let size ← evalI sizeExpr
    match decl.init with
    | some (.booleanLiteral data _) => updateStore (·.setBoolean decl.name (literalBits data size.toNat))
    | _ => updateStore (·.setBoolean decl.name (BitString.zeros size.toNat))
  | none =>
    updateStore (·.addScalar decl.name)
    match decl.init with
    | some e =>
      let value ← evalI e
      updateStore (·.setBoolean decl.name [value % 2 == 1])
    | none => updateStore (·.setBoolean decl.name [false])

def execDecl : Decl → Exec Unit
  | .integer decl => execIntegerDecl decl
  | .boolean decl => execBooleanDecl decl

/-- `_init_data_block`: once for each block. -/
def initDataBlock (program : Program) (name : Name) : Exec Unit := do
  let s ← readState
  if name ∈ s.initializedData then return
  else
    match program.dataBlocks.lookup name with
    | none => return
    | some block =>
      update fun s => { s with initializedData := name :: s.initializedData }
      block.statements.forM execDecl

/-! ### Statements -/

def execAssign (target : Name) (index high low : Option Expr) (value : Expr) : Exec Unit := do
  match high, low, index with
  | some high, some low, _ =>
    let high ← evalI high
    let low ← evalI low
    let source ← evalB value
    setSubrange target high low source
  | _, _, some index =>
    let idx ← evalI index
    let s ← readState
    match s.store.integers target with
    | some (.array values) =>
      let val ← evalI value
      setItem target values idx val
    | some (.scalar _) => raise (.staplRuntimeError ("Cannot index scalar integer " ++ target))
    | none =>
      match s.store.booleans target with
      | some _ =>
        let bit ← evalI value
        setBitAt target idx bit
      | none => raise (Store.undefined target)
  | _, _, none =>
    let s ← readState
    if (s.store.booleans target).isSome ∧ s.store.boolScalars target = false then
      let source ← evalB value
      copyBits target source
    else if s.store.boolScalars target then
      let val ← evalI value
      setScalar target (val % 2)
    else
      match s.store.integers target with
      | some (.array _) =>
        let _ ← evalI value
        raise (.staplRuntimeError "Cannot assign scalar to integer array")
      | some (.scalar _) =>
        let val ← evalI value
        updateStore (·.setInteger target (.scalar val))
      | none => raise (Store.undefined target)

/-- `type(expr).__name__`. -/
def Expr.typeName : Expr → String
  | .intLiteral _ => "IntLiteral"
  | .varRef _ => "VarRef"
  | .arrayIndex .. => "ArrayIndex"
  | .arraySubrange .. => "ArraySubrange"
  | .arrayWhole _ => "ArrayWhole"
  | .unaryOp .. => "UnaryOp"
  | .binOp .. => "BinOp"
  | .funcCall .. => "FuncCall"
  | .booleanLiteral .. => "BooleanLiteral"

/-- `_store_bits`. -/
def storeBits (target : Expr) (source : BitsRef) : Exec Unit := do
  match target with
  | .varRef name =>
    let s ← readState
    if (s.store.booleans name).isSome then copyBits name source
    else raise (.staplRuntimeError ("Cannot store bits to " ++ name))
  | .arraySubrange name high low =>
    let high ← evalI high
    let low ← evalI low
    setSubrange name high low source
  | .arrayWhole name => copyBits name source
  | target => raise (.staplRuntimeError ("Invalid capture target: " ++ target.typeName))

/-- `_store_bool_result`. -/
def storeBoolResult (target : Expr) (value : Int) : Exec Unit := do
  match target with
  | .varRef name =>
    let s ← readState
    if s.store.boolScalars name then setScalar name (value % 2)
    else if (s.store.integers name).isSome then updateStore (·.setInteger name (.scalar value))
    else raise (.staplRuntimeError ("Cannot store result to " ++ name))
  | .arrayIndex name index =>
    let idx ← evalI index
    let s ← readState
    if (s.store.booleans name).isSome then setBitAt name idx value
    else
      match s.store.integers name with
      | some (.array values) => setItem name values idx value
      | some (.scalar _) => raise (.assertionError "")
      | none => raise (.staplRuntimeError ("Cannot store result to " ++ name ++ "[" ++ toString idx ++ "]"))
  | target => raise (.staplRuntimeError ("Invalid result target: " ++ target.typeName))

/-- `_bits_compare`. -/
def bitsCompare (a b mask : Bits) (length : Nat) : Bool :=
  (List.range length).all fun i => !mask.getD i false || getBit a i == getBit b i

def storeCapture (capture : Option Expr) (tdo : Bits) : Exec Unit :=
  match capture with
  | some target => storeBits target (.fresh tdo)
  | none => return

def maskBits (mask : Option Expr) (length : Nat) : Exec Bits :=
  match mask with
  | some mask => do
    let mask ← evalB mask
    bitsOf mask
  | none => return BitString.ones length

def compareCaptured (compare mask result : Option Expr) (length : Nat) (tdo : Bits) : Exec Unit :=
  match compare with
  | some compare => do
    let expected ← evalB compare
    let expected ← bitsOf expected
    let mask ← maskBits mask length
    match result with
    | some target => storeBoolResult target (truth (bitsCompare tdo expected mask length))
    | none => return
  | none => return

/-- The capture and the comparison behind a scan or a vector. -/
def storeCaptured (capture compare mask result : Option Expr) (length : Nat) (reply : Bytes) : Exec Unit := do
  storeCapture capture (literalBits reply length)
  compareCaptured compare mask result length (literalBits reply length)

def execScan (player : Player) (isIr : Bool) (scan : ScanStmt) : Exec Unit := do
  let length ← evalI scan.length
  let tdi ← evalB scan.tdi
  let tdi ← bitsOf tdi
  let needsCapture := scan.capture.isSome || scan.compare.isSome
  let s ← readState
  let reply ← ask player (if isIr then .irScan length tdi s.preIr s.postIr needsCapture
    else .drScan length tdi s.preDr s.postDr needsCapture)
  match reply with
  | some reply => storeCaptured scan.capture scan.compare scan.mask scan.result length.toNat reply
  | none => pure ()

def execVector (player : Player) (vector : VectorStmt) : Exec Unit := do
  let dirVec ← evalB vector.dirVec
  let inVec ← evalB vector.inVec
  let dirBits ← bitsOf dirVec
  let inBits ← bitsOf inVec
  let reply ← ask player (.vector dirBits inBits (vector.capture.isSome || vector.compare.isSome))
  match reply with
  | some reply => storeCaptured vector.capture vector.compare vector.mask vector.result dirVec.length reply
  | none => pure ()

/-- `_ones_bytes`. -/
def onesBits (count : Int) : Except Error Bits :=
  if 0 ≤ count then .ok (BitString.ones count.toNat) else if count % 8 = 0 then .ok [] else .error .indexError

/-- The operands of `PREDR`, `POSTDR`, `PREIR` and `POSTIR`. -/
def padding (count : Expr) (data : Option Expr) : Exec (Int × Bits) := do
  let count ← evalI count
  match data with
  | some data =>
    let bits ← evalB data
    let bits ← bitsOf bits
    return (count, bits)
  | none =>
    let bits ← lift fun _ => onesBits count
    return (count, bits)

def evalPrintPart : PrintPart → Exec String
  | .text value => return value
  | .expr (.funcCall .chr arg) => do
    let val ← evalI arg
    if 0 ≤ val ∧ val < 0x110000 then return String.singleton (Char.ofNat val.toNat) else raise .valueError
  | .expr e => do
    let val ← evalI e
    return toString val

/-- `_eval_export_value`: the bytes where an integer cannot be had. -/
def evalExportValue (e : Expr) : Exec ExportValue := lift fun s =>
  match evalInt s.store e with
  | .ok value => .ok (.int value)
  | .error (.staplRuntimeError _) | .error (.assertionError _) =>
    (evalBits s.store e).map fun ref => .bytes (s.store.bits ref)
  | .error error => .error error

def execPop (target : Name) (index : Option Expr) : Exec Unit := do
  let s ← readState
  match s.stack with
  | [] => raise (.staplRuntimeError "POP on empty stack")
  | val :: rest =>
    update fun s => { s with stack := rest }
    match index with
    | some index =>
      let idx ← evalI index
      let s ← readState
      match s.store.integers target with
      | some (.array values) => setItem target values idx val
      | some (.scalar _) => raise (.assertionError "")
      | none => raise .keyError
    | none =>
      if s.store.boolScalars target then
        if val = 0 ∨ val = 1 then setScalar target val
        else raise (.assertionError ("POP to boolean: value must be 0 or 1, got " ++ toString val))
      else updateStore (·.setInteger target (.scalar val))

/-- Where a statement leaves the program counter. -/
inductive Control where
  | next (pc : Nat)
  | call (procedure : Name)
  | exit (code : Int)

def execFor (var : Name) (start stop : Expr) (step : Option Expr) (pc : Nat) : Exec Unit := do
  let start ← evalI start
  let stop ← evalI stop
  let step ← evalOptional step
  updateStore (·.setInteger var (.scalar start))
  update fun s => { s with forStack := ⟨var, stop, step.getD 1, pc + 1⟩ :: s.forStack }

def ForState.done (forState : ForState) (value : Int) : Bool :=
  if 0 < forState.step then forState.stop < value
  else if forState.step < 0 then value < forState.stop
  else true

/-- `_exec_next`. -/
def execNext (var : Name) (pc : Nat) : Exec Nat := do
  let s ← readState
  match s.forStack with
  | [] => raise (.staplRuntimeError ("NEXT " ++ var ++ " without matching FOR"))
  | forState :: rest =>
    if forState.var ≠ var then
      raise (.staplRuntimeError ("NEXT " ++ var ++ " doesn't match FOR " ++ forState.var))
    else
      match s.store.integers var with
      | some (.scalar current) =>
        if forState.done (current + forState.step) then
          update fun s => { s with forStack := rest }
          return pc + 1
        else
          updateStore (·.setInteger var (.scalar (current + forState.step)))
          return forState.pc
      | some (.array _) => raise (.assertionError "")
      | none => raise .keyError

/-- A statement that falls through to the next one. -/
def execPlain (player : Player) : Stmt → Exec Unit
  | .integerDecl decl => execIntegerDecl decl
  | .booleanDecl decl => execBooleanDecl decl
  | .assignStmt target index high low value => execAssign target index high low value
  | .pushStmt value => do
    let value ← evalI value
    update fun s => { s with stack := value :: s.stack }
  | .popStmt target index => execPop target index
  | .drScanStmt scan => execScan player false scan
  | .irScanStmt scan => execScan player true scan
  | .drStopStmt state => update fun s => { s with drStop := state }
  | .irStopStmt state => update fun s => { s with irStop := state }
  | .stateStmt path => do
    if path.isEmpty then raise .indexError
    else
      let _ ← ask player (.state path)
  | .waitStmt waitState cycles usecs endState => do
    let cycles ← evalOptional cycles
    let usecs ← evalOptional usecs
    let _ ← ask player (.wait waitState cycles usecs endState)
  | .trstStmt cycles usecs => do
    let cycles ← evalOptional cycles
    let usecs ← evalOptional usecs
    let _ ← ask player (.trst cycles usecs)
  | .frequencyStmt value => do
    let hertz ← evalOptional value
    let _ ← ask player (.frequency hertz)
  | .preDrStmt count data => do
    let pad ← padding count data
    update fun s => { s with preDr := pad }
  | .postDrStmt count data => do
    let pad ← padding count data
    update fun s => { s with postDr := pad }
  | .preIrStmt count data => do
    let pad ← padding count data
    update fun s => { s with preIr := pad }
  | .postIrStmt count data => do
    let pad ← padding count data
    update fun s => { s with postIr := pad }
  | .printStmt parts => do
    let parts ← parts.mapM evalPrintPart
    let _ ← ask player (.note (String.join parts))
  | .exportStmt key value => do
    let value ← evalExportValue value
    let _ ← ask player (.exportValue key value)
  | .vmapStmt signals => update fun s => { s with vmapSignals := signals }
  | .vectorStmt vector => execVector player vector
  | _ => raise (.staplRuntimeError "Unhandled statement type: ReturnStmt")

/-- `_execute_stmt`. -/
def execStmt (player : Player) (proc : ProcedureDef) (pc : Nat) : Stmt → Exec Control
  | .gotoStmt label =>
    match proc.labels.lookup label with
    | some target => return .next target
    | none => raise (.staplRuntimeError ("Label not found: " ++ label))
  | .callStmt procedure => return .call procedure
  | .exitStmt code => do
    let code ← evalI code
    return .exit code
  | .ifStmt condition thenStmt => do
    let cond ← evalI condition
    if cond = 0 then return .next (pc + 1) else execStmt player proc pc thenStmt
  | .forStmt var start stop step => do
    execFor var start stop step pc
    return .next (pc + 1)
  | .nextStmt var => do
    let pc ← execNext var pc
    return .next pc
  | stmt => do
    execPlain player stmt
    return .next (pc + 1)

/-! ### The machine -/

structure Frame where
  procedure : Name
  pc : Nat
  deriving DecidableEq

/-- `pending` are the procedures of the action that have not been called yet. -/
structure Config where
  pending : List Name
  frames : List Frame
  state : State

inductive Outcome where
  | running (config : Config)
  | exited (code : Int) (state : State)
  | raised (error : Error) (state : State)

/-- `_execute_procedure` up to its first statement. -/
def enter (program : Program) (config : Config) (procedure : Name) : Outcome :=
  match program.procedures.lookup procedure with
  | none => .raised (.staplRuntimeError ("Procedure not found: " ++ procedure)) config.state
  | some proc =>
    match (proc.uses.forM (initDataBlock program)) config.state with
    | .ok _ state => .running { config with frames := ⟨procedure, 0⟩ :: config.frames, state }
    | .error error state => .raised error state

def step (program : Program) (player : Player) (config : Config) : Outcome :=
  match config.frames with
  | [] =>
    match config.pending with
    | [] => .exited 0 config.state
    | procedure :: pending => enter program { config with pending } procedure
  | frame :: frames =>
    match program.procedures.lookup frame.procedure with
    | none => .raised (.staplRuntimeError ("Procedure not found: " ++ frame.procedure)) config.state
    | some proc =>
      match proc.statements[frame.pc]? with
      | none => .running { config with frames }
      | some stmt =>
        match execStmt player proc frame.pc stmt config.state with
        | .ok (.next pc) state => .running { config with frames := { frame with pc } :: frames, state }
        | .ok (.call procedure) state =>
          enter program { config with frames := { frame with pc := frame.pc + 1 } :: frames, state } procedure
        | .ok (.exit code) state => .exited code state
        | .error error state => .raised error state

/-- The start of `execute` for the procedures that an action calls. -/
def Config.initial (procedures : List Name) : Config :=
  { pending := procedures, frames := [], state := .initial }

end Acrobe.Stapl
