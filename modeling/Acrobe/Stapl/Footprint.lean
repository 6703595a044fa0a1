import Acrobe.Lib.Exceptional
import Acrobe.Stapl.Interpreter
import Acrobe.Stapl.Variables

/-!
# What a statement writes

A statement leaves every variable alone that it does not name as a target, and only `FOR`, `NEXT`
and the entry of a procedure touch the loop stack and the record of initialised blocks.
-/

namespace Acrobe.Stapl
open LittleEndian Acrobe.Storage Exceptional Exec

def capturedTargets (capture compare result : Option Expr) : List Name :=
  (capture.bind Expr.nameAttr).toList ++ if compare.isSome then (result.bind Expr.nameAttr).toList else []

def Stmt.writes : Stmt → List Name
  | .integerDecl decl => [decl.name]
  | .booleanDecl decl => [decl.name]
  | .assignStmt target _ _ _ _ => [target]
  | .ifStmt _ thenStmt => thenStmt.writes
  | .forStmt var _ _ _ => [var]
  | .nextStmt var => [var]
  | .popStmt target _ => [target]
  | .drScanStmt scan => capturedTargets scan.capture scan.compare scan.result
  | .irScanStmt scan => capturedTargets scan.capture scan.compare scan.result
  | .vectorStmt vector => capturedTargets vector.capture vector.compare vector.result
  | _ => []

/-! ### Entries of the store -/

/-- All the store has under one name. -/
structure Entry where
  integer : Option IntVar
  boolean : Option Bits
  boolScalar : Bool
  deriving DecidableEq

namespace Store

variable {store : Store} {name target : Name}

def entry (store : Store) (name : Name) : Entry :=
  ⟨store.integers name, store.booleans name, store.boolScalars name⟩

theorem setInteger_entry (value : IntVar) :
    (store.setInteger name value).entry name = ⟨some value, store.booleans name, store.boolScalars name⟩ := by
  simp only [Store.entry, setInteger, Function.update_self]

theorem setBoolean_entry (bits : Bits) :
    (store.setBoolean name bits).entry name = ⟨store.integers name, some bits, store.boolScalars name⟩ := by
  simp only [Store.entry, setBoolean, Function.update_self]

theorem setInteger_entry_ne (value : IntVar) (other : name ≠ target) :
    (store.setInteger target value).entry name = store.entry name := by
  simp only [Store.entry, setInteger, Function.update_of_ne other]

theorem setBoolean_entry_ne (bits : Bits) (other : name ≠ target) :
    (store.setBoolean target bits).entry name = store.entry name := by
  simp only [Store.entry, setBoolean, Function.update_of_ne other]

theorem addScalar_entry_ne (other : name ≠ target) : (store.addScalar target).entry name = store.entry name := by
  simp only [Store.entry, addScalar, Function.update_of_ne other]

theorem setBit_entry_ne (i : Nat) (bit : Bool) (other : name ≠ target) :
    (store.setBit target i bit).entry name = store.entry name := by
  unfold setBit
  split
  · exact setBoolean_entry_ne _ other
  · rfl

theorem writeBits_entry_ne (start count : Nat) (source : BitsRef) (other : name ≠ target) :
    (store.writeBits target start count source).entry name = store.entry name := by
  unfold writeBits
  induction List.range count generalizing store with
  | nil => rfl
  | cons i rest ih => rw [List.foldl_cons, ih, setBit_entry_ne _ _ other]

end Store

/-! ### What an expression reads -/

namespace Store
variable {store store' : Store} {name : Name}

theorem readVar_congr (agree : store.entry name = store'.entry name) : store.readVar name = store'.readVar name := by
  obtain ⟨integer, boolean, scalar⟩ := Entry.mk.inj agree
  simp only [readVar, integer, boolean, scalar]

theorem readIndex_congr (idx : Int) (agree : store.entry name = store'.entry name) :
    store.readIndex name idx = store'.readIndex name idx := by
  obtain ⟨integer, boolean, scalar⟩ := Entry.mk.inj agree
  simp only [readIndex, integer, boolean]

theorem varBits_congr (agree : store.entry name = store'.entry name) : store.varBits name = store'.varBits name := by
  obtain ⟨integer, boolean, scalar⟩ := Entry.mk.inj agree
  simp only [varBits, integer, boolean]

theorem subrangeBits_congr (high low : Int) (agree : store.entry name = store'.entry name) :
    store.subrangeBits name high low = store'.subrangeBits name high low := by
  obtain ⟨integer, boolean, scalar⟩ := Entry.mk.inj agree
  simp only [subrangeBits, boolean]

theorem wholeBits_congr (agree : store.entry name = store'.entry name) :
    store.wholeBits name = store'.wholeBits name := by
  obtain ⟨integer, boolean, scalar⟩ := Entry.mk.inj agree
  simp only [wholeBits, boolean]

end Store

def BitsRef.names : BitsRef → List Name
  | .fresh _ => []
  | .view name _ _ => [name]

theorem Store.bits_congr {store store' : Store} {ref : BitsRef} (agree : ∀ name ∈ ref.names, store.entry name = store'.entry name) :
    store.bits ref = store'.bits ref := by
  cases ref with
  | fresh bits => rfl
  | view name start stop =>
    obtain ⟨-, boolean, -⟩ := Entry.mk.inj (agree name (List.mem_singleton_self name))
    simp only [Store.bits, boolean]

theorem getSubrange_names {name other : Name} {bits : Bits} {high low : Int}
    (inRef : other ∈ (getSubrange name bits high low).names) : other = name := by
  unfold getSubrange at inRef
  split at inRef
  · dsimp only at inRef
    split at inRef
    · cases inRef
    · exact List.mem_singleton.mp inRef
  · cases inRef

/-- A view that an expression stands for is of one of its variables. -/
theorem evalBits_names {store : Store} {e : Expr} {ref : BitsRef} (read : evalBits store e = .ok ref) :
    ∀ name ∈ ref.names, name ∈ e.names := by
  intro name inRef
  have word {value : Except Error Int} (read : (do let val ← value; return BitsRef.fresh (wordBits val)) = .ok ref) :
      name ∈ e.names := by
    cases value with
    | error error => cases read
    | ok val => cases read; cases inRef
  cases e with
  | booleanLiteral data bitCount => cases read; cases inRef
  | varRef var =>
    rw [evalBits, Store.varBits] at read
    split at read
    · cases read; exact inRef
    · split at read
      · cases read; cases inRef
      · cases read
      · cases read
  | arrayWhole var =>
    rw [evalBits, Store.wholeBits] at read
    split at read
    · cases read; exact inRef
    · cases read
  | arraySubrange var high low =>
    rw [evalBits] at read
    cases highValue : evalInt store high with
    | error error => rw [highValue] at read; cases read
    | ok high =>
      cases lowValue : evalInt store low with
      | error error => rw [highValue, lowValue] at read; cases read
      | ok low =>
        rw [highValue, lowValue] at read
        change store.subrangeBits var high low = .ok ref at read
        rw [Store.subrangeBits] at read
        split at read
        · cases read
          rw [getSubrange_names inRef]
          exact List.mem_cons_self
        · cases read
  | funcCall func arg => cases func <;> exact word read
  | intLiteral value => exact word read
  | arrayIndex var index => exact word read
  | unaryOp op operand => exact word read
  | binOp op left right => exact word read

/-- The value of an expression depends on its variables only. -/
theorem eval_congr {store store' : Store} {e : Expr}
    (agree : ∀ name ∈ e.names, store.entry name = store'.entry name) :
    evalInt store e = evalInt store' e ∧ evalBits store e = evalBits store' e := by
  induction e with
  | intLiteral value => exact ⟨rfl, rfl⟩
  | booleanLiteral data bitCount => exact ⟨rfl, rfl⟩
  | varRef name =>
    have same := agree name List.mem_cons_self
    exact ⟨Store.readVar_congr same, Store.varBits_congr same⟩
  | arrayWhole name => exact ⟨rfl, Store.wholeBits_congr (agree name List.mem_cons_self)⟩
  | arrayIndex name index ih =>
    have sameIndex := (ih fun other inIndex => agree other (List.mem_cons_of_mem name inIndex)).1
    have same : evalInt store (.arrayIndex name index) = evalInt store' (.arrayIndex name index) := by
      rw [evalInt, evalInt, sameIndex]
      exact bind_congr fun idx => Store.readIndex_congr idx (agree name List.mem_cons_self)
    exact ⟨same, by rw [evalBits, evalBits, same] <;> simp⟩
  | arraySubrange name high low ihHigh ihLow =>
    have sameHigh := (ihHigh fun other inHigh =>
      agree other (List.mem_cons_of_mem name (List.mem_append_left _ inHigh))).1
    have sameLow := (ihLow fun other inLow =>
      agree other (List.mem_cons_of_mem name (List.mem_append_right _ inLow))).1
    refine ⟨rfl, ?_⟩
    rw [evalBits, evalBits, sameHigh, sameLow]
    refine bind_congr fun high => bind_congr fun low => ?_
    exact Store.subrangeBits_congr high low (agree name List.mem_cons_self)
  | unaryOp op operand ih =>
    have same : evalInt store (.unaryOp op operand) = evalInt store' (.unaryOp op operand) := by
      rw [evalInt, evalInt, (ih agree).1]
    exact ⟨same, by rw [evalBits, evalBits, same] <;> simp⟩
  | binOp op left right ihLeft ihRight =>
    have sameLeft := (ihLeft fun other inLeft => agree other (List.mem_append_left _ inLeft)).1
    have sameRight := (ihRight fun other inRight => agree other (List.mem_append_right _ inRight)).1
    have same : evalInt store (.binOp op left right) = evalInt store' (.binOp op left right) := by
      rw [evalInt, evalInt, sameLeft, sameRight]
    exact ⟨same, by rw [evalBits, evalBits, same] <;> simp⟩
  | funcCall func arg ih =>
    obtain ⟨sameInt, sameBits⟩ := ih agree
    cases func with
    | bool =>
      refine ⟨rfl, ?_⟩
      rw [evalBits, evalBits, sameInt]
    | chr => exact ⟨rfl, rfl⟩
    | abs =>
      have same : evalInt store (.funcCall .abs arg) = evalInt store' (.funcCall .abs arg) := by
        rw [evalInt, evalInt, sameInt]
      exact ⟨same, by rw [evalBits, evalBits, same] <;> simp⟩
    | int =>
      have same : evalInt store (.funcCall .int arg) = evalInt store' (.funcCall .int arg) := by
        rw [evalInt_int, evalInt_int, ← sameBits]
        cases read : evalBits store arg with
        | error error => rfl
        | ok ref =>
          refine congrArg (fun bits => Except.ok (BitString.toNat bits : Int)) ?_
          exact Store.bits_congr fun name inRef => agree name (evalBits_names read name inRef)
      exact ⟨same, by rw [evalBits, evalBits, same] <;> simp⟩

theorem names_of_eval_empty (e : Expr) :
    (∀ value, evalInt .empty e = .ok value → e.names = []) ∧ (∀ ref, evalBits .empty e = .ok ref → e.names = []) := by
  have word {e : Expr} (int : ∀ value, evalInt .empty e = .ok value → e.names = []) (ref : BitsRef)
      (read : (do let val ← evalInt .empty e; return BitsRef.fresh (wordBits val)) = .ok ref) : e.names = [] := by
    cases val : evalInt .empty e with
    | error error => rw [val] at read; cases read
    | ok value => exact int value val
  induction e with
  | intLiteral value => exact ⟨fun _ _ => rfl, fun _ _ => rfl⟩
  | booleanLiteral data bitCount => exact ⟨fun _ _ => rfl, fun _ _ => rfl⟩
  | varRef name => exact ⟨fun _ closed => (by cases closed), fun _ closed => (by cases closed)⟩
  | arrayWhole name => exact ⟨fun _ closed => (by cases closed), fun _ closed => (by cases closed)⟩
  | arraySubrange name high low =>
    refine ⟨fun _ closed => (by cases closed), fun ref closed => ?_⟩
    rw [evalBits] at closed
    cases a : evalInt .empty high with
    | error error => rw [a] at closed; cases closed
    | ok _ =>
      cases b : evalInt .empty low with
      | error error => rw [a, b] at closed; cases closed
      | ok _ => rw [a, b] at closed; cases closed
  | arrayIndex name index ih =>
    have int : ∀ value, evalInt .empty (.arrayIndex name index) = .ok value → (Expr.arrayIndex name index).names = [] := by
      intro value closed
      rw [evalInt] at closed
      cases idx : evalInt .empty index with
      | error error => rw [idx] at closed; cases closed
      | ok _ => rw [idx] at closed; cases closed
    exact ⟨int, word int⟩
  | unaryOp op operand ih =>
    have int : ∀ value, evalInt .empty (.unaryOp op operand) = .ok value → (Expr.unaryOp op operand).names = [] := by
      intro value closed
      rw [evalInt] at closed
      cases val : evalInt .empty operand with
      | error error => rw [val] at closed; cases closed
      | ok value => exact ih.1 value val
    exact ⟨int, word int⟩
  | binOp op left right ihLeft ihRight =>
    have int : ∀ value, evalInt .empty (.binOp op left right) = .ok value → (Expr.binOp op left right).names = [] := by
      intro value closed
      rw [evalInt] at closed
      cases a : evalInt .empty left with
      | error error => rw [a] at closed; cases closed
      | ok _ =>
        cases b : evalInt .empty right with
        | error error => rw [a, b] at closed; cases closed
        | ok _ => rw [Expr.names, ihLeft.1 _ a, ihRight.1 _ b, List.append_nil]
    exact ⟨int, word int⟩
  | funcCall func arg ih =>
    cases func with
    | bool =>
      refine ⟨fun _ closed => (by cases closed), fun ref closed => ?_⟩
      rw [evalBits] at closed
      exact word (e := arg) ih.1 ref closed
    | chr => exact ⟨fun _ closed => (by cases closed), fun _ closed => (by cases closed)⟩
    | abs =>
      have int : ∀ value, evalInt .empty (.funcCall .abs arg) = .ok value → (Expr.funcCall .abs arg).names = [] := by
        intro value closed
        rw [evalInt] at closed
        cases val : evalInt .empty arg with
        | error error => rw [val] at closed; cases closed
        | ok value => exact ih.1 value val
      exact ⟨int, word int⟩
    | int =>
      have int : ∀ value, evalInt .empty (.funcCall .int arg) = .ok value → (Expr.funcCall .int arg).names = [] := by
        intro value closed
        rw [evalInt_int] at closed
        cases read : evalBits .empty arg with
        | error error => rw [read] at closed; cases closed
        | ok ref => exact ih.2 ref read
      exact ⟨int, word int⟩

/-- An expression that has a value without any variable has it with all of them. -/
theorem evalInt_of_empty {e : Expr} {value : Int} (store : Store) (closed : evalInt .empty e = .ok value) :
    evalInt store e = .ok value := by
  rw [← closed]
  refine (eval_congr fun name inNames => ?_).1
  rw [(names_of_eval_empty e).1 value closed] at inNames
  cases inNames

/-! ### The frame of a statement -/

/-- `s` agrees with `before` on one variable, the loop stack and the initialised blocks. -/
structure Untouched (name : Name) (before s : State) : Prop where
  entry : s.store.entry name = before.store.entry name
  forStack : s.forStack = before.forStack
  initialized : s.initializedData = before.initializedData

section

variable {name : Name} {before : State} {α : Type}

theorem keeps_lift {P : State → Prop} (read : State → Except Error α) : Keeps P (lift read) := by
  intro s holds
  unfold lift
  cases read s <;> exact holds

theorem keeps_raise {P : State → Prop} (error : Error) : Keeps P (raise error : Exec α) := fun _ holds => holds

theorem keeps_readState {P : State → Prop} : Keeps P readState := fun _ holds => holds

theorem evalI_of_empty {s : State} {e : Expr} {value : Int} (closed : evalInt .empty e = .ok value) : evalI e s = .ok value s := by
  rw [evalI, lift, evalInt_of_empty s.store closed]

theorem keeps_evalOptional {P : State → Prop} (e : Option Expr) : Keeps P (evalOptional e) := by
  cases e with
  | none => exact keeps_pure none
  | some e => exact keeps_bind (keeps_lift _) fun _ => keeps_pure _

theorem keeps_updateStore {f : Store → Store} (same : ∀ store : Store, (f store).entry name = store.entry name) :
    Keeps (Untouched name before) (updateStore f) := by
  intro s untouched
  exact ⟨(same s.store).trans untouched.entry, untouched.forStack, untouched.initialized⟩

theorem keeps_update {f : State → State} (store : ∀ s, (f s).store = s.store)
    (forStack : ∀ s, (f s).forStack = s.forStack) (initialized : ∀ s, (f s).initializedData = s.initializedData) :
    Keeps (Untouched name before) (update f) := by
  intro s untouched
  refine ⟨?_, (forStack s).trans untouched.forStack, (initialized s).trans untouched.initialized⟩
  rw [store s]
  exact untouched.entry

theorem keeps_ask (player : Player) (request : Request) : Keeps (Untouched name before) (ask player request) := by
  intro s untouched
  unfold ask
  cases player s.requests request <;> exact ⟨untouched.entry, untouched.forStack, untouched.initialized⟩

variable {target : Name}

theorem keeps_setInteger (value : IntVar) (other : name ≠ target) :
    Keeps (Untouched name before) (updateStore (·.setInteger target value)) :=
  keeps_updateStore fun _ => Store.setInteger_entry_ne value other

theorem keeps_setItem (values : List Int) (idx value : Int) (other : name ≠ target) :
    Keeps (Untouched name before) (setItem target values idx value) := by
  unfold setItem
  split
  · exact keeps_setInteger _ other
  · exact keeps_raise _

theorem keeps_setBitAt (idx value : Int) (other : name ≠ target) :
    Keeps (Untouched name before) (setBitAt target idx value) := by
  refine keeps_bind (keeps_lift _) fun bits => ?_
  split
  · exact keeps_updateStore fun _ => Store.setBit_entry_ne _ _ other
  · exact keeps_pure _

theorem keeps_setScalar (value : Int) (other : name ≠ target) :
    Keeps (Untouched name before) (setScalar target value) := by
  refine keeps_bind (keeps_lift _) fun bits => ?_
  split
  · exact keeps_raise _
  · exact keeps_updateStore fun _ => Store.setBit_entry_ne _ _ other

theorem keeps_copyBits (source : BitsRef) (other : name ≠ target) :
    Keeps (Untouched name before) (copyBits target source) :=
  keeps_bind (keeps_lift _) fun _ => keeps_updateStore fun _ => Store.writeBits_entry_ne _ _ _ other

theorem keeps_setSubrange (high low : Int) (source : BitsRef) (other : name ≠ target) :
    Keeps (Untouched name before) (setSubrange target high low source) := by
  refine keeps_bind (keeps_lift _) fun bits => ?_
  split
  · exact keeps_updateStore fun _ => Store.writeBits_entry_ne _ _ _ other
  · exact keeps_bind (keeps_lift _) fun _ => keeps_updateStore fun _ => Store.writeBits_entry_ne _ _ _ other

theorem keeps_execIntegerDecl {decl : IntegerDecl} (other : name ≠ decl.name) :
    Keeps (Untouched name before) (execIntegerDecl decl) := by
  unfold execIntegerDecl
  split
  · refine keeps_bind (keeps_lift _) fun size => ?_
    refine keeps_bind (keeps_mapM fun e _ => keeps_lift _) fun values => ?_
    exact keeps_setInteger _ other
  · split
    · exact keeps_bind (keeps_lift _) fun _ => keeps_setInteger _ other
    · exact keeps_setInteger _ other

theorem keeps_execBooleanDecl {decl : BooleanDecl} (other : name ≠ decl.name) :
    Keeps (Untouched name before) (execBooleanDecl decl) := by
  have setBoolean (bits : Bits) : Keeps (Untouched name before) (updateStore (·.setBoolean decl.name bits)) :=
    keeps_updateStore fun _ => Store.setBoolean_entry_ne bits other
  unfold execBooleanDecl
  split
  · refine keeps_bind (keeps_lift _) fun size => ?_
    split <;> exact setBoolean _
  · refine keeps_bind (keeps_updateStore fun _ => Store.addScalar_entry_ne other) fun _ => ?_
    split
    · exact keeps_bind (keeps_lift _) fun _ => setBoolean _
    · exact setBoolean _

theorem keeps_execDecl {decl : Decl} (other : name ≠ decl.name) :
    Keeps (Untouched name before) (execDecl decl) := by
  cases decl with
  | integer decl => exact keeps_execIntegerDecl other
  | boolean decl => exact keeps_execBooleanDecl other

theorem keeps_execAssign (index high low : Option Expr) (value : Expr) (other : name ≠ target) :
    Keeps (Untouched name before) (execAssign target index high low value) := by
  unfold execAssign
  split
  · refine keeps_bind (keeps_lift _) fun high => ?_
    refine keeps_bind (keeps_lift _) fun low => ?_
    exact keeps_bind (keeps_lift _) fun source => keeps_setSubrange _ _ _ other
  · refine keeps_bind (keeps_lift _) fun idx => ?_
    refine keeps_bind keeps_readState fun s => ?_
    split
    · exact keeps_bind (keeps_lift _) fun _ => keeps_setItem _ _ _ other
    · exact keeps_raise _
    · split
      · exact keeps_bind (keeps_lift _) fun _ => keeps_setBitAt _ _ other
      · exact keeps_raise _
  · refine keeps_bind keeps_readState fun s => ?_
    split
    · exact keeps_bind (keeps_lift _) fun _ => keeps_copyBits _ other
    · split
      · exact keeps_bind (keeps_lift _) fun _ => keeps_setScalar _ other
      · split
        · exact keeps_bind (keeps_lift _) fun _ => keeps_raise _
        · exact keeps_bind (keeps_lift _) fun _ => keeps_setInteger _ other
        · exact keeps_raise _

theorem keeps_storeBits {e : Expr} (source : BitsRef) (other : e.nameAttr ≠ some name) :
    Keeps (Untouched name before) (storeBits e source) := by
  have apart {target : Name} (same : e.nameAttr = some target) : name ≠ target := fun equal =>
    other (same.trans (congrArg some equal.symm))
  unfold storeBits
  split
  · refine keeps_bind keeps_readState fun s => ?_
    split
    · exact keeps_copyBits _ (apart rfl)
    · exact keeps_raise _
  · refine keeps_bind (keeps_lift _) fun high => ?_
    exact keeps_bind (keeps_lift _) fun low => keeps_setSubrange _ _ _ (apart rfl)
  · exact keeps_copyBits _ (apart rfl)
  · exact keeps_raise _

theorem keeps_storeBoolResult {e : Expr} (value : Int) (other : e.nameAttr ≠ some name) :
    Keeps (Untouched name before) (storeBoolResult e value) := by
  have apart {target : Name} (same : e.nameAttr = some target) : name ≠ target := fun equal =>
    other (same.trans (congrArg some equal.symm))
  unfold storeBoolResult
  split
  · refine keeps_bind keeps_readState fun s => ?_
    split
    · exact keeps_setScalar _ (apart rfl)
    · split
      · exact keeps_setInteger _ (apart rfl)
      · exact keeps_raise _
  · refine keeps_bind (keeps_lift _) fun idx => ?_
    refine keeps_bind keeps_readState fun s => ?_
    split
    · exact keeps_setBitAt _ _ (apart rfl)
    · split
      · exact keeps_setItem _ _ _ (apart rfl)
      · exact keeps_raise _
      · exact keeps_raise _
  · exact keeps_raise _

theorem keeps_maskBits {P : State → Prop} (mask : Option Expr) (length : Nat) : Keeps P (maskBits mask length) := by
  cases mask with
  | none => exact keeps_pure _
  | some mask => exact keeps_bind (keeps_lift _) fun _ => keeps_lift _

theorem keeps_storeCaptured {capture compare mask result : Option Expr} (length : Nat) (reply : Bytes)
    (other : name ∉ capturedTargets capture compare result) :
    Keeps (Untouched name before) (storeCaptured capture compare mask result length reply) := by
  refine keeps_bind ?_ fun _ => ?_
  · cases capture with
    | none => exact keeps_pure _
    | some target =>
      refine keeps_storeBits _ fun same => other ?_
      simp [capturedTargets, same]
  · cases compare with
    | none => exact keeps_pure _
    | some compare =>
      refine keeps_bind (keeps_lift _) fun expected => ?_
      refine keeps_bind (keeps_lift _) fun expected => ?_
      refine keeps_bind (keeps_maskBits mask length) fun mask => ?_
      cases result with
      | none => exact keeps_pure _
      | some target =>
        refine keeps_storeBoolResult _ fun same => other ?_
        simp [capturedTargets, same]

theorem keeps_execScan (player : Player) (isIr : Bool) {scan : ScanStmt}
    (other : name ∉ capturedTargets scan.capture scan.compare scan.result) :
    Keeps (Untouched name before) (execScan player isIr scan) := by
  refine keeps_bind (keeps_lift _) fun length => ?_
  refine keeps_bind (keeps_lift _) fun tdi => ?_
  refine keeps_bind (keeps_lift _) fun tdi => ?_
  refine keeps_bind keeps_readState fun s => ?_
  refine keeps_bind (keeps_ask _ _) fun reply => ?_
  cases reply with
  | none => exact keeps_pure _
  | some reply => exact keeps_storeCaptured _ _ other

theorem keeps_execVector (player : Player) {vector : VectorStmt}
    (other : name ∉ capturedTargets vector.capture vector.compare vector.result) :
    Keeps (Untouched name before) (execVector player vector) := by
  refine keeps_bind (keeps_lift _) fun dirVec => ?_
  refine keeps_bind (keeps_lift _) fun inVec => ?_
  refine keeps_bind (keeps_lift _) fun dirBits => ?_
  refine keeps_bind (keeps_lift _) fun inBits => ?_
  refine keeps_bind (keeps_ask _ _) fun reply => ?_
  cases reply with
  | none => exact keeps_pure _
  | some reply => exact keeps_storeCaptured _ _ other

theorem keeps_padding {P : State → Prop} (count : Expr) (data : Option Expr) : Keeps P (padding count data) := by
  refine keeps_bind (keeps_lift _) fun count => ?_
  cases data with
  | none => exact keeps_bind (keeps_lift _) fun _ => keeps_pure _
  | some data =>
    refine keeps_bind (keeps_lift _) fun bits => ?_
    exact keeps_bind (keeps_lift _) fun _ => keeps_pure _

theorem keeps_evalPrintPart {P : State → Prop} (part : PrintPart) : Keeps P (evalPrintPart part) := by
  unfold evalPrintPart
  split
  · exact keeps_pure _
  · refine keeps_bind (keeps_lift _) fun val => ?_
    split
    · exact keeps_pure _
    · exact keeps_raise _
  · exact keeps_bind (keeps_lift _) fun _ => keeps_pure _

theorem keeps_execPop (index : Option Expr) (other : name ≠ target) :
    Keeps (Untouched name before) (execPop target index) := by
  refine keeps_bind keeps_readState fun s => ?_
  split
  · exact keeps_raise _
  · refine keeps_bind (keeps_update (fun _ => rfl) (fun _ => rfl) fun _ => rfl) fun _ => ?_
    split
    · refine keeps_bind (keeps_lift _) fun idx => ?_
      refine keeps_bind keeps_readState fun s => ?_
      split
      · exact keeps_setItem _ _ _ other
      · exact keeps_raise _
      · exact keeps_raise _
    · split
      · split
        · exact keeps_setScalar _ other
        · exact keeps_raise _
      · exact keeps_setInteger _ other

theorem keeps_execPlain (player : Player) {stmt : Stmt} (other : name ∉ stmt.writes) :
    Keeps (Untouched name before) (execPlain player stmt) := by
  have apart {target : Name} (writes : stmt.writes = [target]) : name ≠ target := fun same =>
    other (by rw [writes, same]; exact List.mem_singleton_self target)
  unfold execPlain
  split
  · exact keeps_execIntegerDecl (apart rfl)
  · exact keeps_execBooleanDecl (apart rfl)
  · exact keeps_execAssign _ _ _ _ (apart rfl)
  · exact keeps_bind (keeps_lift _) fun _ => keeps_update (fun _ => rfl) (fun _ => rfl) fun _ => rfl
  · exact keeps_execPop _ (apart rfl)
  · exact keeps_execScan player false other
  · exact keeps_execScan player true other
  · exact keeps_update (fun _ => rfl) (fun _ => rfl) fun _ => rfl
  · exact keeps_update (fun _ => rfl) (fun _ => rfl) fun _ => rfl
  · split
    · exact keeps_raise _
    · exact keeps_bind (keeps_ask _ _) fun _ => keeps_pure _
  · refine keeps_bind (keeps_evalOptional _) fun _ => ?_
    refine keeps_bind (keeps_evalOptional _) fun _ => ?_
    exact keeps_bind (keeps_ask _ _) fun _ => keeps_pure _
  · refine keeps_bind (keeps_evalOptional _) fun _ => ?_
    refine keeps_bind (keeps_evalOptional _) fun _ => ?_
    exact keeps_bind (keeps_ask _ _) fun _ => keeps_pure _
  · refine keeps_bind (keeps_evalOptional _) fun _ => ?_
    exact keeps_bind (keeps_ask _ _) fun _ => keeps_pure _
  iterate 4
    · exact keeps_bind (keeps_padding _ _) fun _ => keeps_update (fun _ => rfl) (fun _ => rfl) fun _ => rfl
  · refine keeps_bind (keeps_mapM fun part _ => keeps_evalPrintPart part) fun _ => ?_
    exact keeps_bind (keeps_ask _ _) fun _ => keeps_pure _
  · refine keeps_bind (keeps_lift _) fun _ => ?_
    exact keeps_bind (keeps_ask _ _) fun _ => keeps_pure _
  · exact keeps_update (fun _ => rfl) (fun _ => rfl) fun _ => rfl
  · exact keeps_execVector player other
  · exact keeps_raise _

theorem setScalar_eq {s : State} {bit : Bool} (boolean : s.store.booleans name = some [bit]) (value : Int) :
    setScalar name value s = .ok () { s with store := s.store.setBoolean name [value != 0] } := by
  have written : s.store.setBit name 0 (value != 0) = s.store.setBoolean name [value != 0] := by
    rw [Store.setBit, boolean]
    rfl
  rw [← written]
  simp only [setScalar, booleanVar, lift, bind, EStateM.bind, boolean]
  rfl

end

/-! ### The statement behind an `IF` -/

/-- The statement behind the conditions in front of it; none where it is not reached. -/
def Stmt.taken (store : Store) : Stmt → Option Stmt
  | .ifStmt condition thenStmt =>
    match evalInt store condition with
    | .ok value => if value = 0 then none else thenStmt.taken store
    | .error _ => none
  | stmt => some stmt

/-- The statement that the next step executes. -/
def Config.stmt (program : Program) (config : Config) : Option Stmt := do
  let frame ← config.frames.head?
  let proc ← program.procedures.lookup frame.procedure
  let stmt ← proc.statements[frame.pc]?
  stmt.taken config.state.store

/-- The procedure that the next step enters. -/
def Config.entered (program : Program) (config : Config) : Option Name :=
  match config.frames with
  | [] => config.pending.head?
  | _ :: _ =>
    match config.stmt program with
    | some (.callStmt procedure) => some procedure
    | _ => none

section

variable {s s' : State} {player : Player} {proc : ProcedureDef} {pc : Nat} {stmt : Stmt}

theorem lift_ok {α : Type} {read : State → Except Error α} {value : α} (ran : lift read s = .ok value s') :
    read s = .ok value ∧ s = s' := by
  unfold lift at ran
  cases done : read s with
  | ok result => rw [done] at ran; cases ran; exact ⟨rfl, rfl⟩
  | error error => rw [done] at ran; cases ran

/-- A statement does what the statement behind its conditions does, or nothing. -/
theorem execStmt_taken (player : Player) (proc : ProcedureDef) (pc : Nat) (stmt : Stmt) (s : State) :
    (∃ taken, stmt.taken s.store = some taken ∧ (∀ condition thenStmt, taken ≠ .ifStmt condition thenStmt) ∧
      execStmt player proc pc stmt s = execStmt player proc pc taken s) ∨
    execStmt player proc pc stmt s = .ok (.next (pc + 1)) s ∨
    ∃ error, execStmt player proc pc stmt s = .error error s := by
  induction stmt with
  | ifStmt condition thenStmt ih =>
    cases value : evalInt s.store condition with
    | error error =>
      refine Or.inr (Or.inr ⟨error, ?_⟩)
      simp [execStmt, evalI, lift, value, bind, EStateM.bind]
    | ok value' =>
      have continues : execStmt player proc pc (.ifStmt condition thenStmt) s =
          if value' = 0 then .ok (.next (pc + 1)) s else execStmt player proc pc thenStmt s := by
        rw [execStmt]
        simp only [evalI, lift, value, bind, EStateM.bind]
        split <;> rfl
      rw [continues]
      by_cases zero : value' = 0
      · rw [if_pos zero]
        exact Or.inr (Or.inl rfl)
      · rw [if_neg zero]
        rw [Stmt.taken, value]
        dsimp only
        rw [if_neg zero]
        exact ih
  | _ => exact Or.inl ⟨_, rfl, nofun, rfl⟩

theorem execStmt_call {procedure : Name} (notIf : ∀ condition thenStmt, stmt ≠ .ifStmt condition thenStmt)
    (ran : execStmt player proc pc stmt s = .ok (.call procedure) s') : stmt = .callStmt procedure := by
  have returned {α : Type} {x : Exec α} (next : α → Nat)
      (ran : (do let value ← x; return Control.next (next value)) s = .ok (.call procedure) s') :
      stmt = .callStmt procedure := by
    obtain ⟨_, _, _, ran⟩ := bind_ok ran
    cases ran
  cases stmt with
  | gotoStmt label =>
    cases found : proc.labels.lookup label with
    | none => rw [execStmt, found] at ran; cases ran
    | some target => rw [execStmt, found] at ran; cases ran
  | callStmt callee => cases ran; rfl
  | exitStmt code =>
    obtain ⟨_, _, _, ran⟩ := bind_ok ran
    cases ran
  | ifStmt condition thenStmt => exact absurd rfl (notIf condition thenStmt)
  | nextStmt var => exact returned id ran
  | _ => exact returned (fun _ => pc + 1) ran

theorem execStmt_of_call {procedure : Name} (reached : stmt.taken s.store = some (.callStmt procedure)) :
    execStmt player proc pc stmt s = .ok (.call procedure) s := by
  induction stmt with
  | ifStmt condition thenStmt ih =>
    rw [Stmt.taken] at reached
    split at reached
    · next value evaluated =>
      split at reached
      · cases reached
      · next nonzero =>
        rw [execStmt]
        simp only [evalI, lift, evaluated, bind, EStateM.bind, if_neg nonzero]
        exact ih reached
    · cases reached
  | callStmt callee => cases reached; rfl
  | _ => cases reached

/-- A call is what a statement with a call behind its conditions comes to, and nothing else. -/
theorem taken_of_call {procedure : Name} (ran : execStmt player proc pc stmt s = .ok (.call procedure) s') :
    stmt.taken s.store = some (.callStmt procedure) ∧ s = s' := by
  rcases execStmt_taken player proc pc stmt s with ⟨taken, reached, notIf, same⟩ | same | ⟨error, same⟩
  · rw [same] at ran
    cases execStmt_call notIf ran
    cases ran
    exact ⟨reached, rfl⟩
  · rw [same] at ran
    cases ran
  · rw [same] at ran
    cases ran

theorem mem_of_lookup {β : Type} {entries : List (Name × β)} {key : Name} {value : β}
    (found : entries.lookup key = some value) : (key, value) ∈ entries := by
  obtain ⟨before, after, rfl, -⟩ := List.lookup_eq_some_iff.mp found
  exact List.mem_append_right _ List.mem_cons_self

end

end Acrobe.Stapl
