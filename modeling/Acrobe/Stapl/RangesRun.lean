import Acrobe.Stapl.Footprint
import Acrobe.Stapl.Ranges

/-!
# Integers over a run

The expressions that a step of the machine evaluates. As long as they are narrow, every integer of
a run has 32 bits.
-/

namespace Acrobe.Stapl
open LittleEndian Acrobe.Storage Exceptional Exec

/-! ### Evaluations -/

inductive Reading where
  | int
  | bits

/-- A call of `_eval_int` or `_eval_bits`. -/
structure Evaluation where
  store : Store
  reading : Reading
  expr : Expr

namespace Evaluation

def returns (evaluation : Evaluation) : Bool :=
  match evaluation.reading with
  | .int => (evalInt evaluation.store evaluation.expr).isOk
  | .bits => (evalBits evaluation.store evaluation.expr).isOk

def values (evaluation : Evaluation) : List Int :=
  match evaluation.reading with
  | .int => intValues evaluation.store evaluation.expr
  | .bits => bitValues evaluation.store evaluation.expr

def Narrow (evaluation : Evaluation) : Prop :=
  match evaluation.reading with
  | .int => NarrowInt evaluation.store evaluation.expr
  | .bits => NarrowBits evaluation.store evaluation.expr

end Evaluation

/-- Evaluations at one store up to the first that raises. -/
def inOrder (store : Store) : List (Reading × Expr) → List Evaluation
  | [] => []
  | (reading, expr) :: rest =>
    ⟨store, reading, expr⟩ :: if Evaluation.returns ⟨store, reading, expr⟩ then inOrder store rest else []

def follow {α : Type} (ran : EStateM.Result Error State α) (next : α → State → List Evaluation) : List Evaluation :=
  match ran with
  | .ok value s => next value s
  | .error _ _ => []

def each {α β : Type} (evaluations : α → State → List Evaluation) (run : α → Exec β) : List α → State → List Evaluation
  | [], _ => []
  | a :: rest, s => evaluations a s ++ follow (run a s) fun _ s => each evaluations run rest s

/-! ### The evaluations of a statement -/

def declEvaluations (decl : Decl) (s : State) : List Evaluation :=
  match decl with
  | .integer decl =>
    match decl.size, decl.init with
    | some size, init => inOrder s.store ((.int, size) :: (init.getD []).map (Prod.mk .int))
    | none, some (first :: _) => inOrder s.store [(.int, first)]
    | none, _ => []
  | .boolean decl =>
    match decl.size, decl.init with
    | some size, _ => inOrder s.store [(.int, size)]
    | none, some e => inOrder (s.store.addScalar decl.name) [(.int, e)]
    | none, none => []

def assignOperands (store : Store) (target : Name) (index high low : Option Expr) (value : Expr) :
    List (Reading × Expr) :=
  match high, low, index with
  | some high, some low, _ => [(.int, high), (.int, low), (.bits, value)]
  | _, _, some index =>
    match store.integers target with
    | some (.array _) => [(.int, index), (.int, value)]
    | some (.scalar _) => [(.int, index)]
    | none => if (store.booleans target).isSome then [(.int, index), (.int, value)] else [(.int, index)]
  | _, _, none =>
    if (store.booleans target).isSome ∧ store.boolScalars target = false then [(.bits, value)]
    else if store.boolScalars target ∨ (store.integers target).isSome then [(.int, value)]
    else []

/-- The operands that `_store_bits` evaluates. -/
def captureOperands : Option Expr → List (Reading × Expr)
  | some (.arraySubrange _ high low) => [(.int, high), (.int, low)]
  | _ => []

/-- The operands that `_store_bool_result` evaluates. -/
def resultOperands : Option Expr → List (Reading × Expr)
  | some (.arrayIndex _ index) => [(.int, index)]
  | _ => []

def compareOperands (compare mask result : Option Expr) : List (Reading × Expr) :=
  match compare with
  | some compare => (.bits, compare) :: (mask.toList.map (Prod.mk .bits) ++ resultOperands result)
  | none => []

def capturedEvaluations (capture compare mask result : Option Expr) (length : Nat) (reply : Bytes) (s : State) :
    List Evaluation :=
  inOrder s.store (captureOperands capture) ++
    follow (storeCapture capture (literalBits reply length) s) fun _ s =>
      inOrder s.store (compareOperands compare mask result)

/-- A scan up to the player's reply. -/
def scanReply (player : Player) (isIr : Bool) (scan : ScanStmt) : Exec (Int × Option Bytes) := do
  let length ← evalI scan.length
  let tdi ← evalB scan.tdi
  let tdi ← bitsOf tdi
  let needsCapture := scan.capture.isSome || scan.compare.isSome
  let s ← readState
  let reply ← ask player (if isIr then .irScan length tdi s.preIr s.postIr needsCapture
    else .drScan length tdi s.preDr s.postDr needsCapture)
  return (length, reply)

def scanEvaluations (player : Player) (isIr : Bool) (scan : ScanStmt) (s : State) : List Evaluation :=
  inOrder s.store [(.int, scan.length), (.bits, scan.tdi)] ++
    follow (scanReply player isIr scan s) fun (length, reply) s =>
      match reply with
      | some reply => capturedEvaluations scan.capture scan.compare scan.mask scan.result length.toNat reply s
      | none => []

/-- A vector up to the player's reply. -/
def vectorReply (player : Player) (vector : VectorStmt) : Exec (Nat × Option Bytes) := do
  let dirVec ← evalB vector.dirVec
  let inVec ← evalB vector.inVec
  let dirBits ← bitsOf dirVec
  let inBits ← bitsOf inVec
  let reply ← ask player (.vector dirBits inBits (vector.capture.isSome || vector.compare.isSome))
  return (dirVec.length, reply)

def vectorEvaluations (player : Player) (vector : VectorStmt) (s : State) : List Evaluation :=
  inOrder s.store [(.bits, vector.dirVec), (.bits, vector.inVec)] ++
    follow (vectorReply player vector s) fun (length, reply) s =>
      match reply with
      | some reply => capturedEvaluations vector.capture vector.compare vector.mask vector.result length reply s
      | none => []

def partEvaluations (part : PrintPart) (s : State) : List Evaluation :=
  match part with
  | .text _ => []
  | .expr (.funcCall .chr arg) => inOrder s.store [(.int, arg)]
  | .expr e => inOrder s.store [(.int, e)]

def exportEvaluations (e : Expr) (s : State) : List Evaluation :=
  inOrder s.store [(.int, e)] ++
    match evalInt s.store e with
    | .error (.staplRuntimeError _) | .error (.assertionError _) => inOrder s.store [(.bits, e)]
    | _ => []

def plainEvaluations (player : Player) (stmt : Stmt) (s : State) : List Evaluation :=
  match stmt with
  | .integerDecl decl => declEvaluations (.integer decl) s
  | .booleanDecl decl => declEvaluations (.boolean decl) s
  | .assignStmt target index high low value => inOrder s.store (assignOperands s.store target index high low value)
  | .pushStmt value => inOrder s.store [(.int, value)]
  | .popStmt _ index => if s.stack.isEmpty then [] else inOrder s.store (index.toList.map (Prod.mk .int))
  | .drScanStmt scan => scanEvaluations player false scan s
  | .irScanStmt scan => scanEvaluations player true scan s
  | .waitStmt _ cycles usecs _ => inOrder s.store ((cycles.toList ++ usecs.toList).map (Prod.mk .int))
  | .trstStmt cycles usecs => inOrder s.store ((cycles.toList ++ usecs.toList).map (Prod.mk .int))
  | .frequencyStmt value => inOrder s.store (value.toList.map (Prod.mk .int))
  | .preDrStmt count data => inOrder s.store ((.int, count) :: data.toList.map (Prod.mk .bits))
  | .postDrStmt count data => inOrder s.store ((.int, count) :: data.toList.map (Prod.mk .bits))
  | .preIrStmt count data => inOrder s.store ((.int, count) :: data.toList.map (Prod.mk .bits))
  | .postIrStmt count data => inOrder s.store ((.int, count) :: data.toList.map (Prod.mk .bits))
  | .printStmt parts => each partEvaluations evalPrintPart parts s
  | .exportStmt _ value => exportEvaluations value s
  | .vectorStmt vector => vectorEvaluations player vector s
  | _ => []

def stmtEvaluations (player : Player) : Stmt → State → List Evaluation
  | .exitStmt code, s => inOrder s.store [(.int, code)]
  | .ifStmt condition thenStmt, s =>
    inOrder s.store [(.int, condition)] ++
      match evalInt s.store condition with
      | .ok cond => if cond = 0 then [] else stmtEvaluations player thenStmt s
      | .error _ => []
  | .forStmt _ start stop step, s => inOrder s.store ((.int, start) :: (.int, stop) :: step.toList.map (Prod.mk .int))
  | stmt, s => plainEvaluations player stmt s

/-! ### The evaluations of a step -/

def dataEvaluations (program : Program) (name : Name) (s : State) : List Evaluation :=
  if name ∈ s.initializedData then []
  else
    match program.dataBlocks.lookup name with
    | none => []
    | some block =>
      each declEvaluations execDecl block.statements { s with initializedData := name :: s.initializedData }

def enterEvaluations (program : Program) (procedure : Name) (s : State) : List Evaluation :=
  match program.procedures.lookup procedure with
  | none => []
  | some proc => each (dataEvaluations program) (initDataBlock program) proc.uses s

def stepEvaluations (program : Program) (player : Player) (config : Config) : List Evaluation :=
  match config.frames with
  | [] =>
    match config.pending with
    | [] => []
    | procedure :: _ => enterEvaluations program procedure config.state
  | frame :: _ =>
    match program.procedures.lookup frame.procedure with
    | none => []
    | some proc =>
      match proc.statements[frame.pc]? with
      | none => []
      | some stmt =>
        stmtEvaluations player stmt config.state ++
          follow (execStmt player proc frame.pc stmt config.state) fun control s =>
            match control with
            | .call procedure => enterEvaluations program procedure s
            | _ => []

/-- The integers that `_eval_int` produces in a step. -/
def produced (program : Program) (player : Player) (config : Config) : List Int :=
  (stepEvaluations program player config).flatMap Evaluation.values

def AllNarrow (evaluations : List Evaluation) : Prop := ∀ evaluation ∈ evaluations, evaluation.Narrow

def NarrowStep (program : Program) (player : Player) (before after : Config) : Prop :=
  AllNarrow (stepEvaluations program player before) ∧ step program player before = .running after

/-- The integer variables, the stack and the ends of the loops are 32-bit integers. -/
structure State.InRange (s : State) : Prop where
  store : s.store.InRange
  stack : ∀ value ∈ s.stack, Stapl.InRange value
  forStack : ∀ forState ∈ s.forStack, Stapl.InRange forState.stop

def Outcome.InRange : Outcome → Prop
  | .running config => config.state.InRange
  | .exited code s => Stapl.InRange code ∧ s.InRange
  | .raised _ s => s.InRange

/-! ### Narrow evaluations -/

/-- The evaluations are narrow exactly when they produce 32-bit integers only. -/
def Exact (evaluations : List Evaluation) : Prop :=
  AllNarrow evaluations ↔ ∀ evaluation ∈ evaluations, ∀ value ∈ evaluation.values, InRange value

theorem exact_nil : Exact [] :=
  ⟨fun _ _ member => (List.not_mem_nil member).elim, fun _ _ member => (List.not_mem_nil member).elim⟩

theorem Exact.append {first rest : List Evaluation} (exact : Exact first) (exactRest : AllNarrow first → Exact rest) :
    Exact (first ++ rest) := by
  have both : AllNarrow (first ++ rest) ↔ AllNarrow first ∧ AllNarrow rest := List.forall_mem_append
  rw [Exact, both, List.forall_mem_append]
  exact (and_congr_right exactRest).trans (and_congr_left' exact)

theorem exact_single {evaluation : Evaluation} (inside : evaluation.store.InRange) : Exact [evaluation] := by
  obtain ⟨store, reading, expr⟩ := evaluation
  rw [Exact, AllNarrow, List.forall_mem_singleton, List.forall_mem_singleton]
  cases reading with
  | int => exact (inside.narrow_iff expr).1
  | bits => exact (inside.narrow_iff expr).2

theorem exact_inOrder {store : Store} (inside : store.InRange) (operands : List (Reading × Expr)) :
    Exact (inOrder store operands) := by
  induction operands with
  | nil => exact exact_nil
  | cons operand rest ih =>
    obtain ⟨reading, expr⟩ := operand
    rw [inOrder, ← List.singleton_append]
    refine Exact.append (exact_single inside) fun _ => ?_
    split
    · exact ih
    · exact exact_nil

theorem allNarrow_append {first rest : List Evaluation} (narrow : AllNarrow (first ++ rest)) :
    AllNarrow first ∧ AllNarrow rest := List.forall_mem_append.mp narrow

theorem inOrder_cons {store : Store} {e : Expr} {value : Int} (rest : List (Reading × Expr))
    (ran : evalInt store e = .ok value) :
    inOrder store ((.int, e) :: rest) = ⟨store, .int, e⟩ :: inOrder store rest := by
  have returns : Evaluation.returns ⟨store, .int, e⟩ = true := by
    rw [Evaluation.returns, ran, Except.isOk, Except.toBool]
  rw [inOrder, if_pos returns]

/-! ### What keeps the integers in range -/

def Kept {α : Type} (ran : EStateM.Result Error State α) : Prop :=
  match ran with
  | .ok _ s => s.InRange
  | .error _ s => s.InRange

section

variable {α β : Type} {s : State}

theorem kept {x : Exec α} (keeps : Keeps State.InRange x) (inside : s.InRange) : Kept (x s) := by
  have after := keeps s inside
  cases ran : x s <;> rwa [ran] at after

theorem keeps_readState_bind {f : State → Exec α} (rest : ∀ s, s.InRange → Keeps State.InRange (f s)) :
    Keeps State.InRange (readState >>= f) := fun s inside => rest s inside s inside

theorem kept_bind {x : Exec α} {f : α → Exec β} (keeps : Kept (x s))
    (rest : ∀ value s', x s = .ok value s' → s'.InRange → Kept (f value s')) : Kept ((x >>= f) s) := by
  cases ran : x s with
  | ok value s' =>
    rw [run_bind_ok ran]
    rw [ran] at keeps
    exact rest value s' ran keeps
  | error error s' =>
    rw [run_bind_error ran]
    rwa [ran] at keeps

theorem inRange_evalInt {e : Expr} {value : Int} {rest : List (Reading × Expr)} (inside : s.InRange)
    (narrow : AllNarrow (inOrder s.store ((.int, e) :: rest))) (ran : evalInt s.store e = .ok value) : InRange value :=
  ((inside.store.narrow_iff e).1.mp (narrow _ List.mem_cons_self)) value (mem_intValues ran)

theorem kept_evalI {e : Expr} {rest : List (Reading × Expr)} {f : Int → Exec α} (inside : s.InRange)
    (narrow : AllNarrow (inOrder s.store ((.int, e) :: rest)))
    (goesOn : ∀ value, InRange value → AllNarrow (inOrder s.store rest) → Kept (f value s)) :
    Kept ((evalI e >>= f) s) := by
  cases ran : evalInt s.store e with
  | ok value =>
    have read : evalI e s = .ok value s := by rw [evalI, lift, ran]
    have small := inRange_evalInt inside narrow ran
    rw [run_bind_ok read]
    rw [inOrder_cons rest ran] at narrow
    exact goesOn value small fun evaluation member => narrow evaluation (List.mem_cons_of_mem _ member)
  | error error =>
    have raised : evalI e s = .error error s := by rw [evalI, lift, ran]
    rw [run_bind_error raised]
    exact inside

theorem kept_lift {read : State → Except Error α} {f : α → Exec β} (inside : s.InRange)
    (goesOn : ∀ value, Kept (f value s)) : Kept ((lift read >>= f) s) := by
  cases ran : read s with
  | ok value =>
    have returned : lift read s = .ok value s := by rw [lift, ran]
    rw [run_bind_ok returned]
    exact goesOn value
  | error error =>
    have raised : lift read s = .error error s := by rw [lift, ran]
    rw [run_bind_error raised]
    exact inside

theorem kept_readState {f : State → Exec α} (goesOn : Kept (f s s)) : Kept ((readState >>= f) s) := goesOn

theorem kept_mapM {l : List Expr} {f : List Int → Exec α} (inside : s.InRange)
    (narrow : AllNarrow (inOrder s.store (l.map (Prod.mk .int))))
    (goesOn : ∀ values, (∀ value ∈ values, InRange value) → Kept (f values s)) : Kept ((l.mapM evalI >>= f) s) := by
  induction l generalizing f with
  | nil => exact goesOn [] fun _ member => (List.not_mem_nil member).elim
  | cons e l ih =>
    rw [List.mapM_cons, bind_assoc]
    refine kept_evalI inside narrow fun value small narrow => ?_
    rw [bind_assoc]
    refine ih narrow fun values small' => ?_
    rw [pure_bind]
    exact goesOn (value :: values) (List.forall_mem_cons.mpr ⟨small, small'⟩)

/-! ### Writing variables -/

theorem Store.InRange.setInteger {store : Store} (inside : store.InRange) (name : Name) {value : IntVar}
    (scalar : ∀ val, value = .scalar val → Stapl.InRange val)
    (array : ∀ values, value = .array values → ∀ val ∈ values, Stapl.InRange val) :
    (store.setInteger name value).InRange := by
  constructor
  · intro other val held
    rw [Store.setInteger] at held
    dsimp only at held
    rw [Function.update_apply] at held
    split at held
    · exact scalar val (Option.some.inj held)
    · exact inside.scalar held
  · intro other values held
    rw [Store.setInteger] at held
    dsimp only at held
    rw [Function.update_apply] at held
    split at held
    · exact array values (Option.some.inj held)
    · exact inside.array held

theorem Store.InRange.of_integers {store store' : Store} (inside : store.InRange)
    (same : store'.integers = store.integers) : store'.InRange :=
  ⟨fun held => inside.scalar (same ▸ held), fun held => inside.array (same ▸ held)⟩

theorem setBit_integers (store : Store) (name : Name) (i : Nat) (bit : Bool) :
    (store.setBit name i bit).integers = store.integers := by
  unfold Store.setBit
  split <;> rfl

theorem writeBits_integers (store : Store) (name : Name) (start count : Nat) (source : BitsRef) :
    (store.writeBits name start count source).integers = store.integers := by
  unfold Store.writeBits
  generalize List.range count = places
  induction places generalizing store with
  | nil => rfl
  | cons i places ih => exact (ih _).trans (setBit_integers store name _ _)

theorem keeps_bits {f : Store → Store} (same : ∀ store : Store, (f store).integers = store.integers) :
    Keeps State.InRange (updateStore f) :=
  fun s inside => ⟨inside.store.of_integers (same s.store), inside.stack, inside.forStack⟩

theorem keeps_outside {f : State → State} (store : ∀ s, (f s).store = s.store) (stack : ∀ s, (f s).stack = s.stack)
    (forStack : ∀ s, (f s).forStack = s.forStack) : Keeps State.InRange (update f) := by
  intro s inside
  refine ⟨?_, ?_, ?_⟩
  · rw [store]
    exact inside.store
  · rw [stack]
    exact inside.stack
  · rw [forStack]
    exact inside.forStack

theorem keeps_scalar (name : Name) {value : Int} (small : InRange value) :
    Keeps State.InRange (updateStore (·.setInteger name (.scalar value))) := by
  refine fun s inside => ⟨inside.store.setInteger name ?_ nofun, inside.stack, inside.forStack⟩
  rintro val ⟨⟩
  exact small

theorem keeps_array (name : Name) {values : List Int} (small : ∀ value ∈ values, InRange value) :
    Keeps State.InRange (updateStore (·.setInteger name (.array values))) := by
  refine fun s inside => ⟨inside.store.setInteger name nofun ?_, inside.stack, inside.forStack⟩
  rintro val ⟨⟩
  exact small

theorem keepsRange_setItem (name : Name) {values : List Int} (idx : Int) {value : Int}
    (small : ∀ value ∈ values, InRange value) (written : InRange value) :
    Keeps State.InRange (setItem name values idx value) := by
  unfold setItem
  split
  · refine keeps_array name fun val member => ?_
    rcases List.mem_or_eq_of_mem_set member with old | rfl
    · exact small val old
    · exact written
  · exact keeps_raise _

theorem keepsRange_ask (player : Player) (request : Request) : Keeps State.InRange (ask player request) := by
  intro s inside
  unfold ask
  cases player s.requests request <;> exact ⟨inside.store, inside.stack, inside.forStack⟩

theorem keepsRange_setBitAt (name : Name) (idx value : Int) : Keeps State.InRange (setBitAt name idx value) := by
  refine keeps_bind (keeps_lift _) fun bits => ?_
  split
  · exact keeps_bits fun _ => setBit_integers ..
  · exact keeps_pure _

theorem keepsRange_setScalar (name : Name) (value : Int) : Keeps State.InRange (setScalar name value) := by
  refine keeps_bind (keeps_lift _) fun bits => ?_
  split
  · exact keeps_raise _
  · exact keeps_bits fun _ => setBit_integers ..

theorem keepsRange_copyBits (name : Name) (source : BitsRef) : Keeps State.InRange (copyBits name source) :=
  keeps_bind (keeps_lift _) fun _ => keeps_bits fun _ => writeBits_integers ..

theorem keepsRange_setSubrange (name : Name) (high low : Int) (source : BitsRef) :
    Keeps State.InRange (setSubrange name high low source) := by
  refine keeps_bind (keeps_lift _) fun bits => ?_
  split
  · exact keeps_bits fun _ => writeBits_integers ..
  · exact keeps_bind (keeps_lift _) fun _ => keeps_bits fun _ => writeBits_integers ..

theorem keepsRange_storeBits (target : Expr) (source : BitsRef) : Keeps State.InRange (storeBits target source) := by
  unfold storeBits
  split
  · refine keeps_bind keeps_readState fun s => ?_
    split
    · exact keepsRange_copyBits _ _
    · exact keeps_raise _
  · refine keeps_bind (keeps_lift _) fun high => ?_
    exact keeps_bind (keeps_lift _) fun low => keepsRange_setSubrange _ _ _ _
  · exact keepsRange_copyBits _ _
  · exact keeps_raise _

theorem keepsRange_storeBoolResult (target : Expr) {value : Int} (small : InRange value) :
    Keeps State.InRange (storeBoolResult target value) := by
  unfold storeBoolResult
  split
  · refine keeps_bind keeps_readState fun s => ?_
    split
    · exact keepsRange_setScalar _ _
    · split
      · exact keeps_scalar _ small
      · exact keeps_raise _
  · refine keeps_bind (keeps_lift _) fun idx => ?_
    refine keeps_readState_bind fun s inside => ?_
    split
    · exact keepsRange_setBitAt _ _ _
    · split
      · next values held => exact keepsRange_setItem _ _ (inside.store.array held) small
      · exact keeps_raise _
      · exact keeps_raise _
  · exact keeps_raise _

theorem keepsRange_storeCapture (capture : Option Expr) (tdo : Bits) :
    Keeps State.InRange (storeCapture capture tdo) := by
  cases capture with
  | none => exact keeps_pure _
  | some target => exact keepsRange_storeBits _ _

theorem keepsRange_compareCaptured (compare mask result : Option Expr) (length : Nat) (tdo : Bits) :
    Keeps State.InRange (compareCaptured compare mask result length tdo) := by
  cases compare with
  | none => exact keeps_pure _
  | some compare =>
    refine keeps_bind (keeps_lift _) fun expected => ?_
    refine keeps_bind (keeps_lift _) fun expected => ?_
    refine keeps_bind (keeps_maskBits mask length) fun mask => ?_
    cases result with
    | none => exact keeps_pure _
    | some target => exact keepsRange_storeBoolResult _ (inRange_truth _)

/-! ### Scans and vectors -/

theorem execScan_eq (player : Player) (isIr : Bool) (scan : ScanStmt) :
    execScan player isIr scan = (do
      let (length, reply) ← scanReply player isIr scan
      match reply with
      | some reply => storeCaptured scan.capture scan.compare scan.mask scan.result length.toNat reply
      | none => pure ()) := by
  have flat (next : Int → Option Bytes → Exec Unit) :=
    congrArg (· >>= fun entry => next entry.1 entry.2) (scanReply.eq_1 player isIr scan)
  simp only [bind_assoc, pure_bind] at flat
  exact (flat _).symm

theorem execVector_eq (player : Player) (vector : VectorStmt) :
    execVector player vector = (do
      let (length, reply) ← vectorReply player vector
      match reply with
      | some reply => storeCaptured vector.capture vector.compare vector.mask vector.result length reply
      | none => pure ()) := by
  have flat (next : Nat → Option Bytes → Exec Unit) :=
    congrArg (· >>= fun entry => next entry.1 entry.2) (vectorReply.eq_1 player vector)
  simp only [bind_assoc, pure_bind] at flat
  exact (flat fun length reply =>
    match reply with
    | some reply => storeCaptured vector.capture vector.compare vector.mask vector.result length reply
    | none => pure ()).symm

theorem keepsRange_scanReply (player : Player) (isIr : Bool) (scan : ScanStmt) :
    Keeps State.InRange (scanReply player isIr scan) := by
  refine keeps_bind (keeps_lift _) fun length => ?_
  refine keeps_bind (keeps_lift _) fun tdi => ?_
  refine keeps_bind (keeps_lift _) fun tdi => ?_
  refine keeps_bind keeps_readState fun s => ?_
  exact keeps_bind (keepsRange_ask _ _) fun reply => keeps_pure _

theorem keepsRange_vectorReply (player : Player) (vector : VectorStmt) :
    Keeps State.InRange (vectorReply player vector) := by
  refine keeps_bind (keeps_lift _) fun dirVec => ?_
  refine keeps_bind (keeps_lift _) fun inVec => ?_
  refine keeps_bind (keeps_lift _) fun dirBits => ?_
  refine keeps_bind (keeps_lift _) fun inBits => ?_
  exact keeps_bind (keepsRange_ask _ _) fun reply => keeps_pure _

/-! ### Programs and what they evaluate -/

/-- The evaluations tell whether the program produces wide integers, and it keeps the state in range
where they are narrow. -/
def Tracked (evaluations : State → List Evaluation) (x : Exec α) : Prop :=
  ∀ s, s.InRange → Exact (evaluations s) ∧ (AllNarrow (evaluations s) → Kept (x s))

theorem tracked_of_keeps {x : Exec α} {operands : State → List (Reading × Expr)} (keeps : Keeps State.InRange x) :
    Tracked (fun s => inOrder s.store (operands s)) x :=
  fun _ inside => ⟨exact_inOrder inside.store _, fun _ => kept keeps inside⟩

theorem exact_follow {x : Exec α} {next : α → State → List Evaluation} (keeps : Kept (x s))
    (exact : ∀ value s, s.InRange → Exact (next value s)) : Exact (follow (x s) next) := by
  cases ran : x s with
  | ok value s' =>
    rw [ran] at keeps
    exact exact value s' keeps
  | error error s' => exact exact_nil

theorem tracked_bind {x : Exec α} {f : α → Exec β} {first : State → List Evaluation}
    {next : α → State → List Evaluation} (tracked : Tracked first x) (rest : ∀ value, Tracked (next value) (f value)) :
    Tracked (fun s => first s ++ follow (x s) next) (x >>= f) := by
  intro s inside
  obtain ⟨exact, keeps⟩ := tracked s inside
  refine ⟨exact.append fun narrow => exact_follow (keeps narrow) fun value s inside => (rest value s inside).1,
    fun narrow => ?_⟩
  obtain ⟨narrow, after⟩ := allNarrow_append narrow
  refine kept_bind (keeps narrow) fun value s' ran inside => (rest value s' inside).2 ?_
  rwa [ran] at after

theorem tracked_then {x : Exec α} {f : α → Exec β} {evaluations : State → List Evaluation} (tracked : Tracked evaluations x)
    (keeps : ∀ value, Keeps State.InRange (f value)) : Tracked evaluations (x >>= f) := by
  intro s inside
  obtain ⟨exact, first⟩ := tracked s inside
  exact ⟨exact, fun narrow => kept_bind (first narrow) fun value s' _ inside => kept (keeps value) inside⟩

theorem tracked_forM {evaluations : α → State → List Evaluation} {run : α → Exec PUnit}
    (each : ∀ a, Tracked (evaluations a) (run a)) (l : List α) :
    Tracked (Stapl.each evaluations run l) (l.forM run) := by
  induction l with
  | nil => exact fun s inside => ⟨exact_nil, fun _ => inside⟩
  | cons a l ih => exact tracked_bind (each a) fun _ => ih

theorem tracked_mapM {evaluations : α → State → List Evaluation} {run : α → Exec β}
    (each : ∀ a, Tracked (evaluations a) (run a)) (l : List α) :
    Tracked (Stapl.each evaluations run l) (l.mapM run) := by
  induction l with
  | nil => exact fun s inside => ⟨exact_nil, fun _ => inside⟩
  | cons a l ih =>
    rw [List.mapM_cons]
    exact tracked_bind (each a) fun _ => tracked_then ih fun _ => keeps_pure _

/-! ### Statements -/

theorem tracked_execDecl (decl : Decl) : Tracked (declEvaluations decl) (execDecl decl) := by
  intro s inside
  have zero : InRange 0 := by decide
  cases decl with
  | integer decl =>
    obtain ⟨name, size, init⟩ := decl
    cases size with
    | some size =>
      refine ⟨exact_inOrder inside.store _, fun narrow => ?_⟩
      refine kept_evalI inside narrow fun size _ narrow => kept_mapM inside narrow fun values small => ?_
      refine kept (keeps_array name ?_) inside
      rw [List.forall_mem_append]
      refine ⟨fun value member => small value (List.mem_reverse.mp member), fun value member => ?_⟩
      rw [(List.mem_replicate.mp member).2]
      exact zero
    | none =>
      cases init with
      | none => exact ⟨exact_nil, fun _ => kept (keeps_scalar name zero) inside⟩
      | some init =>
        cases init with
        | nil => exact ⟨exact_nil, fun _ => kept (keeps_scalar name zero) inside⟩
        | cons first rest =>
          exact ⟨exact_inOrder inside.store _, fun narrow =>
            kept_evalI inside narrow fun value small _ => kept (keeps_scalar name small) inside⟩
  | boolean decl =>
    obtain ⟨name, size, init⟩ := decl
    have setBoolean (bits : Bits) : Keeps State.InRange (updateStore (·.setBoolean name bits)) :=
      keeps_bits fun _ => rfl
    have addScalar : Keeps State.InRange (updateStore (·.addScalar name)) := keeps_bits fun _ => rfl
    cases size with
    | some size =>
      refine ⟨exact_inOrder inside.store _, fun _ => kept ?_ inside⟩
      refine keeps_bind (keeps_lift _) fun size => ?_
      dsimp only
      split <;> exact setBoolean _
    | none =>
      cases init with
      | none => exact ⟨exact_nil, fun _ => kept (keeps_bind addScalar fun _ => setBoolean _) inside⟩
      | some e =>
        have scalars : (s.store.addScalar name).InRange := inside.store.of_integers rfl
        refine ⟨exact_inOrder scalars [(.int, e)], fun _ => kept ?_ inside⟩
        exact keeps_bind addScalar fun _ => keeps_bind (keeps_lift _) fun _ => setBoolean _

theorem tracked_execAssign_index (target : Name) (index value : Expr) :
    Tracked (fun s => inOrder s.store (assignOperands s.store target (some index) none none value))
      (execAssign target (some index) none none value) := by
  intro s inside
  refine ⟨exact_inOrder inside.store _, fun narrow => ?_⟩
  unfold execAssign
  unfold assignOperands at narrow
  dsimp only at narrow ⊢
  cases held : s.store.integers target with
  | some var =>
    rw [held] at narrow
    cases var with
    | scalar old =>
      refine kept_evalI inside narrow fun idx _ _ => kept_readState ?_
      rw [held]
      exact inside
    | array values =>
      refine kept_evalI inside narrow fun idx _ narrow => kept_readState ?_
      rw [held]
      exact kept_evalI inside narrow fun val small _ =>
        kept (keepsRange_setItem target idx (inside.store.array held) small) inside
  | none =>
    refine kept_lift inside fun idx => kept_readState ?_
    rw [held]
    cases s.store.booleans target with
    | some bits => exact kept_lift inside fun bit => kept (keepsRange_setBitAt _ _ _) inside
    | none => exact inside

theorem tracked_execAssign_whole (target : Name) (value : Expr) :
    Tracked (fun s => inOrder s.store (assignOperands s.store target none none none value))
      (execAssign target none none none value) := by
  intro s inside
  refine ⟨exact_inOrder inside.store _, fun narrow => ?_⟩
  unfold execAssign
  unfold assignOperands at narrow
  dsimp only at narrow ⊢
  refine kept_readState ?_
  by_cases array : (s.store.booleans target).isSome ∧ s.store.boolScalars target = false
  · rw [if_pos array]
    exact kept_lift inside fun source => kept (keepsRange_copyBits _ _) inside
  · rw [if_neg array] at narrow ⊢
    by_cases scalar : s.store.boolScalars target = true
    · rw [if_pos scalar]
      exact kept_lift inside fun val => kept (keepsRange_setScalar _ _) inside
    · rw [if_neg scalar]
      cases held : s.store.integers target with
      | none => exact inside
      | some var =>
        rw [if_pos (.inr (by rw [held]; rfl))] at narrow
        cases var with
        | array values => exact kept_lift inside fun _ => inside
        | scalar old => exact kept_evalI inside narrow fun val small _ => kept (keeps_scalar target small) inside

theorem tracked_execAssign (target : Name) (index high low : Option Expr) (value : Expr) :
    Tracked (fun s => inOrder s.store (assignOperands s.store target index high low value))
      (execAssign target index high low value) := by
  have other : Tracked (fun s => inOrder s.store (assignOperands s.store target index none none value))
      (execAssign target index none none value) := by
    cases index with
    | some index => exact tracked_execAssign_index target index value
    | none => exact tracked_execAssign_whole target value
  cases high with
  | none => cases low <;> cases index <;> exact other
  | some high =>
    cases low with
    | none => cases index <;> exact other
    | some low =>
      refine tracked_of_keeps (keeps_bind (keeps_lift _) fun high => keeps_bind (keeps_lift _) fun low => ?_)
      exact keeps_bind (keeps_lift _) fun source => keepsRange_setSubrange _ _ _ _

theorem keepsRange_execPop (target : Name) (index : Option Expr) : Keeps State.InRange (execPop target index) := by
  refine keeps_readState_bind fun s inside => ?_
  cases top : s.stack with
  | nil => exact keeps_raise _
  | cons val rest =>
    have inStack := inside.stack
    rw [top, List.forall_mem_cons] at inStack
    have pop : Keeps State.InRange (update fun s => { s with stack := rest }) :=
      fun _ inside => ⟨inside.store, inStack.2, inside.forStack⟩
    refine keeps_bind pop fun _ => ?_
    cases index with
    | some index =>
      refine keeps_bind (keeps_lift _) fun idx => keeps_readState_bind fun s inside => ?_
      split
      · next values held => exact keepsRange_setItem _ _ (inside.store.array held) inStack.1
      · exact keeps_raise _
      · exact keeps_raise _
    | none =>
      dsimp only
      split
      · split
        · exact keepsRange_setScalar _ _
        · exact keeps_raise _
      · exact keeps_scalar _ inStack.1

theorem tracked_execPop (target : Name) (index : Option Expr) :
    Tracked (fun s => if s.stack.isEmpty then [] else inOrder s.store (index.toList.map (Prod.mk .int)))
      (execPop target index) := by
  refine fun s inside => ⟨?_, fun _ => kept (keepsRange_execPop target index) inside⟩
  dsimp only
  split
  · exact exact_nil
  · exact exact_inOrder inside.store _

theorem tracked_captured (capture compare mask result : Option Expr) (length : Nat) (reply : Bytes) :
    Tracked (capturedEvaluations capture compare mask result length reply)
      (storeCaptured capture compare mask result length reply) := by
  refine tracked_bind (tracked_of_keeps (keepsRange_storeCapture _ _)) fun _ => ?_
  exact tracked_of_keeps (keepsRange_compareCaptured _ _ _ _ _)

theorem tracked_execScan (player : Player) (isIr : Bool) (scan : ScanStmt) :
    Tracked (scanEvaluations player isIr scan) (execScan player isIr scan) := by
  rw [execScan_eq]
  refine tracked_bind (tracked_of_keeps (keepsRange_scanReply _ _ _)) fun (length, reply) => ?_
  cases reply with
  | some reply => exact tracked_captured _ _ _ _ _ _
  | none => exact fun s inside => ⟨exact_nil, fun _ => inside⟩

theorem tracked_execVector (player : Player) (vector : VectorStmt) :
    Tracked (vectorEvaluations player vector) (execVector player vector) := by
  rw [execVector_eq]
  refine tracked_bind (tracked_of_keeps (keepsRange_vectorReply _ _)) fun (length, reply) => ?_
  cases reply with
  | some reply => exact tracked_captured _ _ _ _ _ _
  | none => exact fun s inside => ⟨exact_nil, fun _ => inside⟩

theorem tracked_evalPrintPart (part : PrintPart) : Tracked (partEvaluations part) (evalPrintPart part) := by
  refine fun s inside => ⟨?_, fun _ => kept (keeps_evalPrintPart part) inside⟩
  unfold partEvaluations
  split
  · exact exact_nil
  · exact exact_inOrder inside.store _
  · exact exact_inOrder inside.store _

theorem exact_export (e : Expr) {s : State} (inside : s.InRange) : Exact (exportEvaluations e s) := by
  refine (exact_inOrder inside.store _).append fun _ => ?_
  split
  · exact exact_inOrder inside.store _
  · exact exact_inOrder inside.store _
  · exact exact_nil

theorem tracked_execPlain (player : Player) (stmt : Stmt) :
    Tracked (plainEvaluations player stmt) (execPlain player stmt) := by
  have outside {f : State → State} (store : ∀ s, (f s).store = s.store) (stack : ∀ s, (f s).stack = s.stack)
      (forStack : ∀ s, (f s).forStack = s.forStack) : Tracked (fun _ => []) (update f) :=
    fun s inside => ⟨exact_nil, fun _ => kept (keeps_outside store stack forStack) inside⟩
  have padded (count : Expr) (data : Option Expr) {f : Int × Bits → State → State}
      (keeps : ∀ pad, Keeps State.InRange (update (f pad))) :
      Tracked (fun s => inOrder s.store ((.int, count) :: data.toList.map (Prod.mk .bits)))
        (padding count data >>= fun pad => update (f pad)) :=
    tracked_of_keeps (keeps_bind (keeps_padding count data) keeps)
  have asked (request : Request) : Keeps State.InRange (ask player request >>= fun _ => pure ()) :=
    keeps_bind (keepsRange_ask player request) fun _ => keeps_pure _
  cases stmt with
  | integerDecl decl => exact tracked_execDecl (.integer decl)
  | booleanDecl decl => exact tracked_execDecl (.boolean decl)
  | assignStmt target index high low value => exact tracked_execAssign target index high low value
  | pushStmt value =>
    refine fun s inside => ⟨exact_inOrder inside.store _, fun narrow => ?_⟩
    refine kept_evalI inside narrow fun value small _ => ?_
    exact ⟨inside.store, List.forall_mem_cons.mpr ⟨small, inside.stack⟩, inside.forStack⟩
  | popStmt target index => exact tracked_execPop target index
  | drScanStmt scan => exact tracked_execScan player false scan
  | irScanStmt scan => exact tracked_execScan player true scan
  | drStopStmt state => exact outside (fun _ => rfl) (fun _ => rfl) fun _ => rfl
  | irStopStmt state => exact outside (fun _ => rfl) (fun _ => rfl) fun _ => rfl
  | stateStmt path =>
    cases path with
    | nil => exact fun s inside => ⟨exact_nil, fun _ => inside⟩
    | cons state path => exact fun s inside => ⟨exact_nil, fun _ => kept (asked _) inside⟩
  | waitStmt waitState cycles usecs endState =>
    refine tracked_of_keeps (keeps_bind (keeps_evalOptional _) fun _ => ?_)
    exact keeps_bind (keeps_evalOptional _) fun _ => asked _
  | trstStmt cycles usecs =>
    refine tracked_of_keeps (keeps_bind (keeps_evalOptional _) fun _ => ?_)
    exact keeps_bind (keeps_evalOptional _) fun _ => asked _
  | frequencyStmt value => exact tracked_of_keeps (keeps_bind (keeps_evalOptional _) fun _ => asked _)
  | preDrStmt count data => exact padded count data fun _ => keeps_outside (fun _ => rfl) (fun _ => rfl) fun _ => rfl
  | postDrStmt count data => exact padded count data fun _ => keeps_outside (fun _ => rfl) (fun _ => rfl) fun _ => rfl
  | preIrStmt count data => exact padded count data fun _ => keeps_outside (fun _ => rfl) (fun _ => rfl) fun _ => rfl
  | postIrStmt count data => exact padded count data fun _ => keeps_outside (fun _ => rfl) (fun _ => rfl) fun _ => rfl
  | printStmt parts => exact tracked_then (tracked_mapM tracked_evalPrintPart parts) fun _ => asked _
  | exportStmt key value =>
    exact fun s inside => ⟨exact_export value inside, fun _ => kept (keeps_bind (keeps_lift _) fun _ => asked _) inside⟩
  | vmapStmt signals => exact outside (fun _ => rfl) (fun _ => rfl) fun _ => rfl
  | vectorStmt vector => exact tracked_execVector player vector
  | _ => exact fun s inside => ⟨exact_nil, fun _ => inside⟩

/-! ### Loops -/

theorem tracked_execFor (var : Name) (start stop : Expr) (step : Option Expr) (pc : Nat) :
    Tracked (fun s => inOrder s.store ((.int, start) :: (.int, stop) :: step.toList.map (Prod.mk .int)))
      (execFor var start stop step pc) := by
  refine fun s inside => ⟨exact_inOrder inside.store _, fun narrow => ?_⟩
  refine kept_evalI inside narrow fun start smallStart narrow => ?_
  refine kept_evalI inside narrow fun stop smallStop _ => kept ?_ inside
  refine keeps_bind (keeps_evalOptional _) fun step => keeps_bind (keeps_scalar var smallStart) fun _ => ?_
  exact fun s inside => ⟨inside.store, inside.stack, List.forall_mem_cons.mpr ⟨smallStop, inside.forStack⟩⟩

/-- The next value of a loop that goes on lies between the last one and the end of the loop. -/
theorem inRange_next {forState : ForState} {current : Int} (stop : InRange forState.stop) (inside : InRange current)
    (goesOn : forState.done (current + forState.step) = false) : InRange (current + forState.step) := by
  rw [InRange] at stop inside ⊢
  rw [ForState.done] at goesOn
  split at goesOn
  · have below := of_decide_eq_false goesOn
    omega
  · split at goesOn
    · have above := of_decide_eq_false goesOn
      omega
    · cases goesOn

theorem keepsRange_execNext (var : Name) (pc : Nat) : Keeps State.InRange (execNext var pc) := by
  refine keeps_readState_bind fun s inside => ?_
  split
  · exact keeps_raise _
  · next forState rest loops =>
    have inLoops := inside.forStack
    rw [loops, List.forall_mem_cons] at inLoops
    split
    · exact keeps_raise _
    split
    · next current held =>
      by_cases done : forState.done (current + forState.step) = true
      · rw [if_pos done]
        have pop : Keeps State.InRange (update fun s => { s with forStack := rest }) :=
          fun _ inside => ⟨inside.store, inside.stack, inLoops.2⟩
        exact keeps_bind pop fun _ => keeps_pure _
      · rw [if_neg done]
        have small := inRange_next inLoops.1 (inside.store.scalar held) (Bool.eq_false_iff.mpr done)
        exact keeps_bind (keeps_scalar var small) fun _ => keeps_pure _
    · exact keeps_raise _
    · exact keeps_raise _

/-! ### Control -/

variable (player : Player) (proc : ProcedureDef) (pc : Nat)

theorem tracked_execStmt (stmt : Stmt) : Tracked (stmtEvaluations player stmt) (execStmt player proc pc stmt) := by
  have silent {x : Exec Control} (keeps : Keeps State.InRange x) : Tracked (fun _ => []) x :=
    fun s inside => ⟨exact_nil, fun _ => kept keeps inside⟩
  induction stmt with
  | gotoStmt label =>
    refine silent ?_
    unfold execStmt
    cases proc.labels.lookup label with
    | some target => exact keeps_pure _
    | none => exact keeps_raise _
  | callStmt procedure => exact silent (keeps_pure _)
  | exitStmt code => exact tracked_of_keeps (keeps_bind (keeps_lift _) fun _ => keeps_pure _)
  | forStmt var start stop step => exact tracked_then (tracked_execFor var start stop step pc) fun _ => keeps_pure _
  | nextStmt var => exact silent (keeps_bind (keepsRange_execNext var pc) fun _ => keeps_pure _)
  | ifStmt condition thenStmt ih =>
    intro s inside
    unfold stmtEvaluations execStmt
    have first := exact_inOrder inside.store [(.int, condition)]
    cases ran : evalInt s.store condition with
    | error error =>
      refine ⟨first.append fun _ => exact_nil, fun _ => ?_⟩
      rw [run_bind_error (show evalI condition s = .error error s by rw [evalI, lift, ran])]
      exact inside
    | ok cond =>
      rw [run_bind_ok (show evalI condition s = .ok cond s by rw [evalI, lift, ran])]
      dsimp only
      by_cases zero : cond = 0
      · rw [if_pos zero, if_pos zero]
        exact ⟨first.append fun _ => exact_nil, fun _ => inside⟩
      · rw [if_neg zero, if_neg zero]
        obtain ⟨exact, keeps⟩ := ih s inside
        exact ⟨first.append fun _ => exact, fun narrow => keeps (allNarrow_append narrow).2⟩
  | _ => exact tracked_then (tracked_execPlain player _) fun _ => keeps_pure _

theorem inRange_exit {stmt : Stmt} {s' : State} {code : Int} (inside : s.InRange)
    (narrow : AllNarrow (stmtEvaluations player stmt s)) (ran : execStmt player proc pc stmt s = .ok (.exit code) s') :
    InRange code := by
  induction stmt with
  | gotoStmt label =>
    unfold execStmt at ran
    cases found : proc.labels.lookup label with
    | some target => rw [found] at ran; cases ran
    | none => rw [found] at ran; cases ran
  | callStmt procedure => cases ran
  | exitStmt code =>
    obtain ⟨value, middle, read, ran⟩ := bind_ok ran
    cases ran
    exact inRange_evalInt inside narrow (lift_ok read).1
  | forStmt var start stop step =>
    obtain ⟨_, _, _, ran⟩ := bind_ok ran
    cases ran
  | nextStmt var =>
    obtain ⟨_, _, _, ran⟩ := bind_ok ran
    cases ran
  | ifStmt condition thenStmt ih =>
    obtain ⟨cond, middle, read, ran⟩ := bind_ok ran
    obtain ⟨evaluated, rfl⟩ := lift_ok read
    have narrow := (allNarrow_append narrow).2
    rw [evaluated] at narrow
    dsimp only at narrow ran
    by_cases zero : cond = 0
    · rw [if_pos zero] at ran
      cases ran
    · rw [if_neg zero] at narrow ran
      exact ih narrow ran
  | _ =>
    obtain ⟨_, _, _, ran⟩ := bind_ok ran
    cases ran

variable (program : Program)

theorem tracked_initDataBlock (name : Name) : Tracked (dataEvaluations program name) (initDataBlock program name) := by
  intro s inside
  unfold dataEvaluations initDataBlock
  rw [run_bind_ok (show readState s = .ok s s from rfl)]
  by_cases known : name ∈ s.initializedData
  · rw [if_pos known, if_pos known]
    exact ⟨exact_nil, fun _ => inside⟩
  · rw [if_neg known, if_neg known]
    cases program.dataBlocks.lookup name with
    | none => exact ⟨exact_nil, fun _ => inside⟩
    | some block => exact tracked_forM tracked_execDecl block.statements _ ⟨inside.store, inside.stack, inside.forStack⟩

theorem tracked_enter (config : Config) (procedure : Name) (inside : config.state.InRange) :
    Exact (enterEvaluations program procedure config.state) ∧
      (AllNarrow (enterEvaluations program procedure config.state) → (enter program config procedure).InRange) := by
  unfold enterEvaluations enter
  cases program.procedures.lookup procedure with
  | none => exact ⟨exact_nil, fun _ => inside⟩
  | some proc =>
    obtain ⟨exact, keeps⟩ := tracked_forM (tracked_initDataBlock program) proc.uses config.state inside
    refine ⟨exact, fun narrow => ?_⟩
    have after := keeps narrow
    dsimp only
    split
    · next ran => rwa [ran] at after
    · next ran => rwa [ran] at after

/-- A step from a state in range produces 32-bit integers exactly where its evaluations are narrow, and
then it ends in range. -/
theorem tracked_step {config : Config} (inside : config.state.InRange) :
    Exact (stepEvaluations program player config) ∧
      (AllNarrow (stepEvaluations program player config) → (step program player config).InRange) := by
  obtain ⟨pending, frames, state⟩ := config
  cases frames with
  | nil =>
    cases pending with
    | nil => exact ⟨exact_nil, fun _ => ⟨by decide, inside⟩⟩
    | cons procedure pending => exact tracked_enter program ⟨pending, [], state⟩ procedure inside
  | cons frame frames =>
    unfold stepEvaluations step
    dsimp only
    cases program.procedures.lookup frame.procedure with
    | none => exact ⟨exact_nil, fun _ => inside⟩
    | some proc =>
      dsimp only
      cases proc.statements[frame.pc]? with
      | none => exact ⟨exact_nil, fun _ => inside⟩
      | some stmt =>
        dsimp only
        obtain ⟨exact, keeps⟩ := tracked_execStmt player proc frame.pc stmt state inside
        refine ⟨exact.append fun narrow => exact_follow (keeps narrow) fun control s inside => ?_, fun narrow => ?_⟩
        · cases control with
          | call procedure => exact (tracked_enter program ⟨pending, frames, s⟩ procedure inside).1
          | next pc => exact exact_nil
          | exit code => exact exact_nil
        · obtain ⟨narrow, after⟩ := allNarrow_append narrow
          have kept := keeps narrow
          cases ran : execStmt player proc frame.pc stmt state with
          | error error s => rwa [ran] at kept
          | ok control s =>
            rw [ran] at kept after
            cases control with
            | next pc => exact kept
            | exit code => exact ⟨inRange_exit player proc frame.pc inside narrow ran, kept⟩
            | call procedure =>
              let config : Config := ⟨pending, { frame with pc := frame.pc + 1 } :: frames, s⟩
              exact (tracked_enter program config procedure kept).2 after

end

/-! ### Runs -/

theorem inRange_initial : State.initial.InRange := ⟨⟨nofun, nofun⟩, nofun, nofun⟩

/-- As long as the evaluations of a run are narrow, its integers have 32 bits; the first evaluation
that is not narrow produces a wider one. -/
theorem run_inRange (program : Program) (player : Player) (procedures : List Name) (config : Config)
    (reached : Relation.ReflTransGen (NarrowStep program player) (Config.initial procedures) config) :
    config.state.InRange ∧
      (AllNarrow (stepEvaluations program player config) ↔ ∀ value ∈ produced program player config, InRange value) ∧
      (AllNarrow (stepEvaluations program player config) → (step program player config).InRange) := by
  have inside : config.state.InRange := by
    induction reached with
    | refl => exact inRange_initial
    | @tail before after _ taken ih =>
      have outcome := (tracked_step player program ih).2 taken.1
      rwa [taken.2] at outcome
  obtain ⟨exact, keeps⟩ := tracked_step player program inside
  refine ⟨inside, exact.trans ?_, keeps⟩
  simp only [produced, List.mem_flatMap]
  exact ⟨fun all value ⟨evaluation, member, made⟩ => all evaluation member value made,
    fun all evaluation member value made => all value ⟨evaluation, member, made⟩⟩

/-- `INTEGER X; X = 1 + value`. -/
def incrementProgram (value : Expr) : Program where
  procedures := [("P", ⟨"P", [], [
    .integerDecl ⟨"X", none, none⟩,
    .assignStmt "X" none none none (.binOp .add (.intLiteral 1) value)], []⟩)]
  dataBlocks := []

theorem incremented_inRange :
    ∃ config : Config, config.state.store.integers "X" = some (.scalar 3) ∧ config.state.InRange := by
  have declared (config : Config) (empty : stepEvaluations (incrementProgram (.intLiteral 2)) (fun _ _ => .ok none)
      config = []) : AllNarrow (stepEvaluations (incrementProgram (.intLiteral 2)) (fun _ _ => .ok none) config) := by
    rw [empty]
    nofun
  have added (store : Store) : NarrowInt store (.binOp .add (.intLiteral 1) (.intLiteral 2)) := by
    simp [NarrowInt, InRange]
  refine ⟨_, ?_, (run_inRange (incrementProgram (.intLiteral 2)) (fun _ _ => .ok none) ["P"] _
    (.tail (.tail (.single ⟨declared _ rfl, rfl⟩) ⟨declared _ rfl, rfl⟩) ⟨?_, rfl⟩)).1⟩
  · rfl
  · intro evaluation member
    cases List.mem_singleton.mp member
    exact added _

/-- `INTEGER X; X = ~0` -/
def invertProgram : Program where
  procedures := [("P", ⟨"P", [], [
    .integerDecl ⟨"X", none, none⟩,
    .assignStmt "X" none none none (.unaryOp .invert (.intLiteral 0))], []⟩)]
  dataBlocks := []

theorem inverted_is_wide :
    ∃ config : Config,
      Relation.ReflTransGen (fun before after => step invertProgram (fun _ _ => .ok none) before = .running after)
        (Config.initial ["P"]) config ∧
      config.state.store.integers "X" = some (.scalar 4294967295) ∧ ¬config.state.InRange := by
  refine ⟨_, .tail (.tail (.single rfl) rfl) rfl, rfl, fun inside => ?_⟩
  have wide : InRange 4294967295 := @Store.InRange.scalar _ inside.store "X" _ rfl
  exact absurd wide (by decide)

end Acrobe.Stapl
