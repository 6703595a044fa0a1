import Acrobe.Stapl.Footprint

/-!
# What a statement depends on

Two states that agree on the variables a statement mentions take it alike: the same requests, the
same raise or the same way on, and agreement afterwards.
-/

namespace Acrobe.Stapl
open LittleEndian Acrobe.Storage Exceptional Exec

def VectorStmt.operands (vector : VectorStmt) : List Expr :=
  [vector.dirVec, vector.inVec] ++ vector.capture.toList ++ vector.compare.toList ++ vector.mask.toList ++
    vector.result.toList

def Decl.operands : Decl → List Expr
  | .integer decl => decl.size.toList ++ decl.init.getD []
  | .boolean decl => decl.size.toList ++ decl.init.toList

/-- All expressions of a statement that is not an `IF`. -/
def Stmt.operands : Stmt → List Expr
  | .integerDecl decl => Decl.operands (.integer decl)
  | .booleanDecl decl => Decl.operands (.boolean decl)
  | .popStmt _ index => index.toList
  | .trstStmt cycles usecs => cycles.toList ++ usecs.toList
  | .frequencyStmt value => value.toList
  | .vectorStmt vector => vector.operands
  | stmt => stmt.walked

/-- The variables a statement other than an `IF` reads or writes. -/
def Stmt.mentions (stmt : Stmt) : List Name := stmt.operands.flatMap Expr.names ++ stmt.writes

/-- The states differ only in variables outside `A`. -/
structure Agree (A : Name → Prop) (s t : State) : Prop where
  entries : ∀ name, A name → s.store.entry name = t.store.entry name
  rest : { s with store := t.store } = t

namespace Store

variable {store store' : Store} {name : Name}

theorem setInteger_congr (target : Name) (value : IntVar) (agree : store.entry name = store'.entry name) :
    (store.setInteger target value).entry name = (store'.setInteger target value).entry name := by
  by_cases same : name = target
  · subst same
    obtain ⟨-, boolean, scalar⟩ := Entry.mk.inj agree
    rw [setInteger_entry, setInteger_entry, boolean, scalar]
  · rw [setInteger_entry_ne value same, setInteger_entry_ne value same, agree]

theorem setBoolean_congr (target : Name) (bits : Bits) (agree : store.entry name = store'.entry name) :
    (store.setBoolean target bits).entry name = (store'.setBoolean target bits).entry name := by
  by_cases same : name = target
  · subst same
    obtain ⟨integer, -, scalar⟩ := Entry.mk.inj agree
    rw [setBoolean_entry, setBoolean_entry, integer, scalar]
  · rw [setBoolean_entry_ne bits same, setBoolean_entry_ne bits same, agree]

theorem addScalar_congr (target : Name) (agree : store.entry name = store'.entry name) :
    (store.addScalar target).entry name = (store'.addScalar target).entry name := by
  by_cases same : name = target
  · subst same
    obtain ⟨integer, boolean, -⟩ := Entry.mk.inj agree
    simp only [Store.entry, addScalar, integer, boolean, Function.update_self]
  · rw [addScalar_entry_ne same, addScalar_entry_ne same, agree]

theorem setBit_congr (target : Name) (i : Nat) (bit : Bool) (agree : store.entry name = store'.entry name) :
    (store.setBit target i bit).entry name = (store'.setBit target i bit).entry name := by
  by_cases same : name = target
  · subst same
    obtain ⟨-, boolean, -⟩ := Entry.mk.inj agree
    unfold setBit
    rw [boolean]
    split
    · exact setBoolean_congr name _ agree
    · exact agree
  · rw [setBit_entry_ne i bit same, setBit_entry_ne i bit same, agree]

theorem writeBits_congr {A : Name → Prop} (target : Name) (start count : Nat) {source : BitsRef}
    (covered : ∀ name ∈ source.names, A name) (agree : ∀ name, A name → store.entry name = store'.entry name) :
    ∀ name, A name →
      (store.writeBits target start count source).entry name = (store'.writeBits target start count source).entry name := by
  unfold writeBits
  induction List.range count generalizing store store' with
  | nil => exact agree
  | cons i rest ih =>
    refine ih fun name inA => ?_
    dsimp only
    rw [Store.bits_congr fun other inSource => agree other (covered other inSource)]
    exact setBit_congr target _ _ (agree name inA)

end Store

section

variable {A : Name → Prop} {α : Type}

theorem related_lift {read : State → Except Error α} (same : ∀ s t, Agree A s t → read s = read t) :
    Related (Agree A) Eq (lift read) (lift read) := by
  intro s t agree
  unfold lift
  rw [same s t agree]
  cases read t with
  | ok value => exact ⟨rfl, agree⟩
  | error error => exact ⟨rfl, agree⟩

theorem related_raise {V : α → α → Prop} (error : Error) : Related (Agree A) V (raise error : Exec α) (raise error) :=
  fun _ _ agree => ⟨rfl, agree⟩

theorem related_readState : Related (Agree A) (Agree A) readState readState := fun _ _ agree => ⟨agree, agree⟩

theorem related_evalI {e : Expr} (covered : ∀ name ∈ e.names, A name) : Related (Agree A) Eq (evalI e) (evalI e) :=
  related_lift fun _ _ agree => (eval_congr fun name inNames => agree.entries name (covered name inNames)).1

theorem related_evalB {e : Expr} (covered : ∀ name ∈ e.names, A name) :
    Related (Agree A) (fun a b => a = b ∧ ∀ name ∈ a.names, A name) (evalB e) (evalB e) := by
  intro s t agree
  have same := (eval_congr fun name inNames => agree.entries name (covered name inNames)).2
  unfold evalB lift
  dsimp only
  rw [same]
  cases read : evalBits t.store e with
  | ok ref => exact ⟨⟨rfl, fun name inRef => covered name (evalBits_names read name inRef)⟩, agree⟩
  | error error => exact ⟨rfl, agree⟩

theorem related_bitsOf {ref : BitsRef} (covered : ∀ name ∈ ref.names, A name) :
    Related (Agree A) Eq (bitsOf ref) (bitsOf ref) :=
  related_lift fun _ _ agree => congrArg Except.ok
    (Store.bits_congr fun name inRef => agree.entries name (covered name inRef))

theorem related_readBits {e : Expr} (covered : ∀ name ∈ e.names, A name) :
    Related (Agree A) Eq (do let ref ← evalB e; bitsOf ref) (do let ref ← evalB e; bitsOf ref) := by
  refine related_bind (related_evalB covered) ?_
  rintro ref _ ⟨rfl, inA⟩
  exact related_bitsOf inA

theorem related_evalOptional {e : Option Expr} (covered : ∀ name ∈ e.toList.flatMap Expr.names, A name) :
    Related (Agree A) Eq (evalOptional e) (evalOptional e) := by
  cases e with
  | none => exact related_pure rfl
  | some e =>
    refine related_bind_eq (related_evalI fun name inNames => covered name ?_) fun _ => related_pure rfl
    simpa using inNames

theorem Agree.requests {s t : State} (agree : Agree A s t) : s.requests = t.requests := by rw [← agree.rest]

theorem related_ask (player : Player) (request : Request) :
    Related (Agree A) Eq (ask player request) (ask player request) := by
  intro s t agree
  unfold ask
  rw [agree.requests]
  have states : Agree A { s with requests := t.requests ++ [request] } { t with requests := t.requests ++ [request] } := by
    refine ⟨agree.entries, ?_⟩
    rw [← agree.rest]
  cases player t.requests request with
  | ok reply => exact ⟨rfl, states⟩
  | error error => exact ⟨rfl, states⟩

theorem related_updateStore {f : Store → Store}
    (same : ∀ store store' : Store, (∀ name, A name → store.entry name = store'.entry name) →
      ∀ name, A name → (f store).entry name = (f store').entry name) :
    Related (Agree A) Eq (updateStore f) (updateStore f) := by
  intro s t agree
  refine ⟨rfl, same s.store t.store agree.entries, ?_⟩
  rw [← agree.rest]

theorem related_update {f : State → State} (store : ∀ s, (f s).store = s.store)
    (rest : ∀ s store, { f s with store := store } = f { s with store := store }) :
    Related (Agree A) Eq (update f) (update f) := by
  intro s t agree
  refine ⟨rfl, fun name inA => ?_, ?_⟩
  · rw [store s, store t]
    exact agree.entries name inA
  · rw [store t, rest s t.store, agree.rest]

theorem related_setInteger (target : Name) (value : IntVar) :
    Related (Agree A) Eq (updateStore (·.setInteger target value)) (updateStore (·.setInteger target value)) :=
  related_updateStore fun _ _ agree name inA => Store.setInteger_congr target value (agree name inA)

theorem related_setBit (target : Name) (i : Nat) (bit : Bool) :
    Related (Agree A) Eq (updateStore (·.setBit target i bit)) (updateStore (·.setBit target i bit)) :=
  related_updateStore fun _ _ agree name inA => Store.setBit_congr target i bit (agree name inA)

theorem related_writeBits (target : Name) (start count : Nat) {source : BitsRef}
    (covered : ∀ name ∈ source.names, A name) :
    Related (Agree A) Eq (updateStore (·.writeBits target start count source))
      (updateStore (·.writeBits target start count source)) :=
  related_updateStore fun _ _ agree => Store.writeBits_congr target start count covered agree

variable {target : Name}

theorem related_booleanVar (inA : A target) : Related (Agree A) Eq (booleanVar target) (booleanVar target) := by
  refine related_lift fun s t agree => ?_
  obtain ⟨-, boolean, -⟩ := Entry.mk.inj (agree.entries target inA)
  rw [boolean]

theorem related_setItem (values : List Int) (idx value : Int) :
    Related (Agree A) Eq (setItem target values idx value) (setItem target values idx value) := by
  unfold setItem
  split
  · exact related_setInteger _ _
  · exact related_raise _

theorem related_setBitAt (idx value : Int) (inA : A target) :
    Related (Agree A) Eq (setBitAt target idx value) (setBitAt target idx value) := by
  refine related_bind_eq (related_booleanVar inA) fun bits => ?_
  split
  · exact related_setBit _ _ _
  · exact related_pure rfl

theorem related_setScalar (value : Int) (inA : A target) :
    Related (Agree A) Eq (setScalar target value) (setScalar target value) := by
  refine related_bind_eq (related_booleanVar inA) fun bits => ?_
  split
  · exact related_raise _
  · exact related_setBit _ _ _

theorem related_copyBits {source : BitsRef} (covered : ∀ name ∈ source.names, A name) (inA : A target) :
    Related (Agree A) Eq (copyBits target source) (copyBits target source) :=
  related_bind_eq (related_booleanVar inA) fun _ => related_writeBits _ _ _ covered

theorem related_setSubrange (high low : Int) {source : BitsRef} (covered : ∀ name ∈ source.names, A name)
    (inA : A target) : Related (Agree A) Eq (setSubrange target high low source) (setSubrange target high low source) := by
  refine related_bind_eq (related_booleanVar inA) fun bits => ?_
  split
  · exact related_writeBits _ _ _ covered
  · refine related_bind_eq (related_bitsOf covered) fun held => ?_
    exact related_writeBits _ _ _ nofun

theorem related_evalAll {init : List Expr} (covered : ∀ name ∈ init.flatMap Expr.names, A name) :
    Related (Agree A) Eq (init.mapM evalI) (init.mapM evalI) :=
  related_mapM fun e inInit => related_evalI fun name inNames =>
    covered name (List.mem_flatMap.mpr ⟨e, inInit, inNames⟩)

theorem related_execIntegerDecl {decl : IntegerDecl}
    (covered : ∀ name ∈ (decl.size.toList ++ decl.init.getD []).flatMap Expr.names, A name) :
    Related (Agree A) Eq (execIntegerDecl decl) (execIntegerDecl decl) := by
  obtain ⟨name, size, init⟩ := decl
  cases size with
  | some size =>
    refine related_bind_eq (related_evalI fun name inSize => covered name ?_) fun size => ?_
    · exact List.mem_flatMap.mpr ⟨size, List.mem_append_left _ List.mem_cons_self, inSize⟩
    · refine related_bind_eq (related_evalAll fun name inInit => covered name ?_) fun values => ?_
      · rw [List.flatMap_append]
        exact List.mem_append_right _ inInit
      · exact related_setInteger _ _
  | none =>
    match init with
    | some (first :: rest) =>
      refine related_bind_eq (related_evalI fun name inFirst => covered name ?_) fun value => related_setInteger _ _
      exact List.mem_flatMap.mpr ⟨first, List.mem_cons_self, inFirst⟩
    | some [] => exact related_setInteger _ _
    | none => exact related_setInteger _ _

theorem related_execBooleanDecl {decl : BooleanDecl}
    (covered : ∀ name ∈ (decl.size.toList ++ decl.init.toList).flatMap Expr.names, A name) :
    Related (Agree A) Eq (execBooleanDecl decl) (execBooleanDecl decl) := by
  have setBoolean (bits : Bits) : Related (Agree A) Eq (updateStore (·.setBoolean decl.name bits))
      (updateStore (·.setBoolean decl.name bits)) :=
    related_updateStore fun _ _ agree name inA => Store.setBoolean_congr _ bits (agree name inA)
  obtain ⟨name, size, init⟩ := decl
  cases size with
  | some size =>
    refine related_bind_eq (related_evalI fun name inSize => covered name ?_) fun size => ?_
    · exact List.mem_flatMap.mpr ⟨size, List.mem_append_left _ List.mem_cons_self, inSize⟩
    · split <;> exact setBoolean _
  | none =>
    refine related_bind_eq (related_updateStore fun _ _ agree name inA => Store.addScalar_congr _ (agree name inA))
      fun _ => ?_
    cases init with
    | none => exact setBoolean _
    | some init =>
      refine related_bind_eq (related_evalI fun name inInit => covered name ?_) fun value => setBoolean _
      exact List.mem_flatMap.mpr ⟨init, List.mem_append_right _ List.mem_cons_self, inInit⟩

theorem related_execDecl {decl : Decl}
    (covered : ∀ name ∈ decl.operands.flatMap Expr.names, A name) :
    Related (Agree A) Eq (execDecl decl) (execDecl decl) := by
  cases decl with
  | integer decl => exact related_execIntegerDecl covered
  | boolean decl => exact related_execBooleanDecl covered

theorem related_execAssign {index high low : Option Expr} {value : Expr}
    (covered : ∀ name ∈ (Stmt.assignStmt target index high low value).operands.flatMap Expr.names, A name)
    (inA : A target) :
    Related (Agree A) Eq (execAssign target index high low value) (execAssign target index high low value) := by
  have inOperands {e : Expr} (isOperand : e ∈ (Stmt.assignStmt target index high low value).operands) :
      ∀ name ∈ e.names, A name := fun name inNames => covered name (List.mem_flatMap.mpr ⟨e, isOperand, inNames⟩)
  have ofValue : ∀ name ∈ value.names, A name := inOperands (by simp [Stmt.operands, Stmt.walked])
  unfold execAssign
  split
  · refine related_bind_eq (related_evalI (inOperands (by simp [Stmt.operands, Stmt.walked]))) fun high => ?_
    refine related_bind_eq (related_evalI (inOperands (by simp [Stmt.operands, Stmt.walked]))) fun low => ?_
    refine related_bind (related_evalB ofValue) ?_
    rintro source _ ⟨rfl, inSource⟩
    exact related_setSubrange _ _ inSource inA
  · refine related_bind_eq (related_evalI (inOperands (by simp [Stmt.operands, Stmt.walked]))) fun idx => ?_
    refine related_bind related_readState fun s t agree => ?_
    obtain ⟨integer, boolean, -⟩ := Entry.mk.inj (agree.entries target inA)
    rw [integer, boolean]
    split
    · exact related_bind_eq (related_evalI ofValue) fun _ => related_setItem _ _ _
    · exact related_raise _
    · split
      · exact related_bind_eq (related_evalI ofValue) fun _ => related_setBitAt _ _ inA
      · exact related_raise _
  · refine related_bind related_readState fun s t agree => ?_
    obtain ⟨integer, boolean, scalar⟩ := Entry.mk.inj (agree.entries target inA)
    rw [integer, boolean, scalar]
    split
    · refine related_bind (related_evalB ofValue) ?_
      rintro source _ ⟨rfl, inSource⟩
      exact related_copyBits inSource inA
    · split
      · exact related_bind_eq (related_evalI ofValue) fun _ => related_setScalar _ inA
      · split
        · exact related_bind_eq (related_evalI ofValue) fun _ => related_raise _
        · exact related_bind_eq (related_evalI ofValue) fun _ => related_setInteger _ _
        · exact related_raise _

theorem related_storeBits {e : Expr} {source : BitsRef} (covered : ∀ name ∈ e.names, A name)
    (inSource : ∀ name ∈ source.names, A name) :
    Related (Agree A) Eq (storeBits e source) (storeBits e source) := by
  unfold storeBits
  split
  · have inA := covered _ List.mem_cons_self
    refine related_bind related_readState fun s t agree => ?_
    obtain ⟨-, boolean, -⟩ := Entry.mk.inj (agree.entries _ inA)
    rw [boolean]
    split
    · exact related_copyBits inSource inA
    · exact related_raise _
  · refine related_bind_eq (related_evalI fun name inHigh => covered name ?_) fun high => ?_
    · exact List.mem_cons_of_mem _ (List.mem_append_left _ inHigh)
    · refine related_bind_eq (related_evalI fun name inLow => covered name ?_) fun low => ?_
      · exact List.mem_cons_of_mem _ (List.mem_append_right _ inLow)
      · exact related_setSubrange _ _ inSource (covered _ List.mem_cons_self)
  · exact related_copyBits inSource (covered _ List.mem_cons_self)
  · exact related_raise _

theorem related_storeBoolResult {e : Expr} (value : Int) (covered : ∀ name ∈ e.names, A name) :
    Related (Agree A) Eq (storeBoolResult e value) (storeBoolResult e value) := by
  unfold storeBoolResult
  split
  · have inA := covered _ List.mem_cons_self
    refine related_bind related_readState fun s t agree => ?_
    obtain ⟨integer, -, scalar⟩ := Entry.mk.inj (agree.entries _ inA)
    rw [integer, scalar]
    split
    · exact related_setScalar _ inA
    · split
      · exact related_setInteger _ _
      · exact related_raise _
  · have inA := covered _ List.mem_cons_self
    refine related_bind_eq (related_evalI fun name inIndex => covered name (List.mem_cons_of_mem _ inIndex)) fun idx => ?_
    refine related_bind related_readState fun s t agree => ?_
    obtain ⟨integer, boolean, -⟩ := Entry.mk.inj (agree.entries _ inA)
    rw [integer, boolean]
    split
    · exact related_setBitAt _ _ inA
    · split
      · exact related_setItem _ _ _
      · exact related_raise _
      · exact related_raise _
  · exact related_raise _

theorem related_maskBits {mask : Option Expr} (length : Nat) (covered : ∀ name ∈ mask.toList.flatMap Expr.names, A name) :
    Related (Agree A) Eq (maskBits mask length) (maskBits mask length) := by
  cases mask with
  | none => exact related_pure rfl
  | some mask => exact related_readBits fun name inMask => covered name (by simpa using inMask)

theorem related_storeCaptured {capture compare mask result : Option Expr} (length : Nat) (reply : Bytes)
    (covered : ∀ e ∈ capture.toList ++ compare.toList ++ mask.toList ++ result.toList, ∀ name ∈ e.names, A name) :
    Related (Agree A) Eq (storeCaptured capture compare mask result length reply)
      (storeCaptured capture compare mask result length reply) := by
  refine related_bind_eq ?_ fun _ => ?_
  · cases capture with
    | none => exact related_pure rfl
    | some target => exact related_storeBits (covered target (by simp)) nofun
  · cases compare with
    | none => exact related_pure rfl
    | some compare =>
      refine related_bind (related_evalB (covered compare (by simp))) ?_
      rintro expected _ ⟨rfl, inExpected⟩
      refine related_bind_eq (related_bitsOf inExpected) fun expected => ?_
      refine related_bind_eq (related_maskBits length fun name inMask => ?_) fun mask => ?_
      · obtain ⟨mask, isMask, inMask⟩ := List.mem_flatMap.mp inMask
        exact covered mask (by simp [Option.mem_toList.mp isMask]) name inMask
      · cases result with
        | none => exact related_pure rfl
        | some target => exact related_storeBoolResult _ (covered target (by simp))

theorem related_execScan (player : Player) (isIr : Bool) {scan : ScanStmt}
    (covered : ∀ e ∈ scan.operands, ∀ name ∈ e.names, A name) :
    Related (Agree A) Eq (execScan player isIr scan) (execScan player isIr scan) := by
  refine related_bind_eq (related_evalI (covered _ (by simp [ScanStmt.operands]))) fun length => ?_
  refine related_bind (related_evalB (covered _ (by simp [ScanStmt.operands]))) ?_
  rintro tdi _ ⟨rfl, inTdi⟩
  refine related_bind_eq (related_bitsOf inTdi) fun tdi => ?_
  refine related_bind related_readState fun s t agree => ?_
  have same : s.preIr = t.preIr ∧ s.postIr = t.postIr ∧ s.preDr = t.preDr ∧ s.postDr = t.postDr := by
    rw [← agree.rest]
    exact ⟨rfl, rfl, rfl, rfl⟩
  rw [same.1, same.2.1, same.2.2.1, same.2.2.2]
  refine related_bind_eq (related_ask _ _) fun reply => ?_
  cases reply with
  | none => exact related_pure rfl
  | some reply =>
    refine related_storeCaptured _ _ fun e isOperand => covered e ?_
    simp only [ScanStmt.operands, List.append_assoc] at isOperand ⊢
    exact List.mem_append_right _ isOperand

theorem related_execVector (player : Player) {vector : VectorStmt}
    (covered : ∀ e ∈ vector.operands, ∀ name ∈ e.names, A name) :
    Related (Agree A) Eq (execVector player vector) (execVector player vector) := by
  refine related_bind (related_evalB (covered _ (by simp [VectorStmt.operands]))) ?_
  rintro dirVec _ ⟨rfl, inDir⟩
  refine related_bind (related_evalB (covered _ (by simp [VectorStmt.operands]))) ?_
  rintro inVec _ ⟨rfl, inIn⟩
  refine related_bind_eq (related_bitsOf inDir) fun dirBits => ?_
  refine related_bind_eq (related_bitsOf inIn) fun inBits => ?_
  refine related_bind_eq (related_ask _ _) fun reply => ?_
  cases reply with
  | none => exact related_pure rfl
  | some reply =>
    refine related_storeCaptured _ _ fun e isOperand => covered e ?_
    simp only [VectorStmt.operands, List.append_assoc] at isOperand ⊢
    exact List.mem_append_right _ isOperand

theorem related_padding {count : Expr} {data : Option Expr} (covered : ∀ e ∈ count :: data.toList, ∀ name ∈ e.names, A name) :
    Related (Agree A) Eq (padding count data) (padding count data) := by
  refine related_bind_eq (related_evalI (covered count List.mem_cons_self)) fun count => ?_
  cases data with
  | none => exact related_bind_eq (related_lift fun _ _ _ => rfl) fun _ => related_pure rfl
  | some data =>
    refine related_bind (related_evalB (covered data (by simp))) ?_
    rintro bits _ ⟨rfl, inBits⟩
    exact related_bind_eq (related_bitsOf inBits) fun _ => related_pure rfl

theorem related_evalPrintPart {part : PrintPart} (covered : ∀ e ∈ part.operand, ∀ name ∈ e.names, A name) :
    Related (Agree A) Eq (evalPrintPart part) (evalPrintPart part) := by
  unfold evalPrintPart
  split
  · exact related_pure rfl
  · refine related_bind_eq (related_evalI (covered (.funcCall .chr _) List.mem_cons_self)) fun val => ?_
    split
    · exact related_pure rfl
    · exact related_raise _
  · exact related_bind_eq (related_evalI (covered _ List.mem_cons_self)) fun _ => related_pure rfl

theorem related_evalExportValue {e : Expr} (covered : ∀ name ∈ e.names, A name) :
    Related (Agree A) Eq (evalExportValue e) (evalExportValue e) := by
  refine related_lift fun s t agree => ?_
  obtain ⟨sameInt, sameBits⟩ := eval_congr fun name inNames => agree.entries name (covered name inNames)
  have sameMap : (evalBits s.store e).map (fun ref => ExportValue.bytes (s.store.bits ref)) =
      (evalBits t.store e).map fun ref => ExportValue.bytes (t.store.bits ref) := by
    rw [sameBits]
    cases read : evalBits t.store e with
    | error error => rfl
    | ok ref =>
      refine congrArg (fun bits => Except.ok (ExportValue.bytes bits)) ?_
      exact Store.bits_congr fun name inRef => agree.entries name (covered name (evalBits_names read name inRef))
  rw [sameInt, sameMap]

theorem Agree.stack {s t : State} (agree : Agree A s t) : s.stack = t.stack := by rw [← agree.rest]

theorem Agree.forStack {s t : State} (agree : Agree A s t) : s.forStack = t.forStack := by rw [← agree.rest]

theorem related_execPop {index : Option Expr} (covered : ∀ e ∈ index.toList, ∀ name ∈ e.names, A name)
    (inA : A target) : Related (Agree A) Eq (execPop target index) (execPop target index) := by
  refine related_bind related_readState fun s t agree => ?_
  obtain ⟨-, -, scalar⟩ := Entry.mk.inj (agree.entries target inA)
  rw [agree.stack, scalar]
  split
  · exact related_raise _
  · refine related_bind_eq (related_update (fun _ => rfl) fun _ _ => rfl) fun _ => ?_
    cases index with
    | some index =>
      refine related_bind_eq (related_evalI (covered index (by simp))) fun idx => ?_
      refine related_bind related_readState fun s t agree => ?_
      obtain ⟨integer, -, -⟩ := Entry.mk.inj (agree.entries target inA)
      rw [integer]
      split
      · exact related_setItem _ _ _
      · exact related_raise _
      · exact related_raise _
    | none =>
      dsimp only
      split
      · split
        · exact related_setScalar _ inA
        · exact related_raise _
      · exact related_setInteger _ _

theorem related_execFor {start stop : Expr} {step : Option Expr} (pc : Nat)
    (covered : ∀ e ∈ [start, stop] ++ step.toList, ∀ name ∈ e.names, A name) :
    Related (Agree A) Eq (execFor target start stop step pc) (execFor target start stop step pc) := by
  refine related_bind_eq (related_evalI (covered start (by simp))) fun start => ?_
  refine related_bind_eq (related_evalI (covered stop (by simp))) fun stop => ?_
  refine related_bind_eq (related_evalOptional fun name inStep => ?_) fun step => ?_
  · obtain ⟨e, isStep, inNames⟩ := List.mem_flatMap.mp inStep
    exact covered e (List.mem_append_right _ isStep) name inNames
  · refine related_bind_eq (related_setInteger _ _) fun _ => ?_
    exact related_update (fun _ => rfl) fun _ _ => rfl

theorem related_execNext (pc : Nat) (inA : A target) :
    Related (Agree A) Eq (execNext target pc) (execNext target pc) := by
  refine related_bind related_readState fun s t agree => ?_
  obtain ⟨integer, -, -⟩ := Entry.mk.inj (agree.entries target inA)
  rw [agree.forStack, integer]
  split
  · exact related_raise _
  · split
    · exact related_raise _
    · split
      · split
        · exact related_bind_eq (related_update (fun _ => rfl) fun _ _ => rfl) fun _ => related_pure rfl
        · exact related_bind_eq (related_setInteger _ _) fun _ => related_pure rfl
      · exact related_raise _
      · exact related_raise _

theorem related_execPlain (player : Player) {stmt : Stmt} (covered : ∀ name ∈ stmt.mentions, A name) :
    Related (Agree A) Eq (execPlain player stmt) (execPlain player stmt) := by
  have operands : ∀ e ∈ stmt.operands, ∀ name ∈ e.names, A name := fun e isOperand name inNames =>
    covered name (List.mem_append_left _ (List.mem_flatMap.mpr ⟨e, isOperand, inNames⟩))
  have all : ∀ name ∈ stmt.operands.flatMap Expr.names, A name := fun name inNames =>
    covered name (List.mem_append_left _ inNames)
  have target {name : Name} (writes : stmt.writes = [name]) : A name :=
    covered name (List.mem_append_right _ (by rw [writes]; exact List.mem_singleton_self name))
  have optional {e : Option Expr} (isOperand : ∀ operand ∈ e.toList, operand ∈ stmt.operands) :
      Related (Agree A) Eq (evalOptional e) (evalOptional e) := by
    refine related_evalOptional fun name inNames => ?_
    obtain ⟨operand, isSome, inNames⟩ := List.mem_flatMap.mp inNames
    exact operands operand (isOperand operand isSome) name inNames
  have asks (request : Request) : Related (Agree A) Eq (do let _ ← ask player request) (do let _ ← ask player request) :=
    related_bind_eq (related_ask _ _) fun _ => related_pure rfl
  unfold execPlain
  split
  · exact related_execIntegerDecl all
  · exact related_execBooleanDecl all
  · exact related_execAssign all (target rfl)
  · refine related_bind_eq (related_evalI (operands _ (by simp [Stmt.operands, Stmt.walked]))) fun _ => ?_
    exact related_update (fun _ => rfl) fun _ _ => rfl
  · exact related_execPop operands (target rfl)
  · exact related_execScan player false operands
  · exact related_execScan player true operands
  · exact related_update (fun _ => rfl) fun _ _ => rfl
  · exact related_update (fun _ => rfl) fun _ _ => rfl
  · split
    · exact related_raise _
    · exact asks _
  · refine related_bind_eq (optional fun _ inCycles => List.mem_append_left _ inCycles) fun _ => ?_
    exact related_bind_eq (optional fun _ inUsecs => List.mem_append_right _ inUsecs) fun _ => asks _
  · refine related_bind_eq (optional fun _ inCycles => List.mem_append_left _ inCycles) fun _ => ?_
    exact related_bind_eq (optional fun _ inUsecs => List.mem_append_right _ inUsecs) fun _ => asks _
  · exact related_bind_eq (optional fun _ inValue => inValue) fun _ => asks _
  iterate 4
    · exact related_bind_eq (related_padding operands) fun _ => related_update (fun _ => rfl) fun _ _ => rfl
  · refine related_bind_eq (related_mapM fun part inParts => related_evalPrintPart fun e isOperand => ?_) fun _ => asks _
    exact operands e (List.mem_flatMap.mpr ⟨part, inParts, isOperand⟩)
  · exact related_bind_eq (related_evalExportValue (operands _ (by simp [Stmt.operands, Stmt.walked]))) fun _ => asks _
  · exact related_update (fun _ => rfl) fun _ _ => rfl
  · exact related_execVector player operands
  · exact related_raise _

/-- The dependencies of any statement but an `IF`. -/
theorem related_execStmt (player : Player) (proc : ProcedureDef) (pc : Nat) {stmt : Stmt}
    (notIf : ∀ condition thenStmt, stmt ≠ .ifStmt condition thenStmt) (covered : ∀ name ∈ stmt.mentions, A name) :
    Related (Agree A) Eq (execStmt player proc pc stmt) (execStmt player proc pc stmt) := by
  have operands : ∀ e ∈ stmt.operands, ∀ name ∈ e.names, A name := fun e isOperand name inNames =>
    covered name (List.mem_append_left _ (List.mem_flatMap.mpr ⟨e, isOperand, inNames⟩))
  have plain : Related (Agree A) Eq (do execPlain player stmt; return Control.next (pc + 1))
      (do execPlain player stmt; return Control.next (pc + 1)) :=
    related_bind_eq (related_execPlain player covered) fun _ => related_pure rfl
  cases stmt with
  | gotoStmt label =>
    rw [execStmt]
    split
    · exact related_pure rfl
    · exact related_raise _
  | callStmt procedure => exact related_pure rfl
  | exitStmt code =>
    refine related_bind_eq (related_evalI (operands code ?_)) fun _ => related_pure rfl
    exact List.mem_singleton_self code
  | ifStmt condition thenStmt => exact absurd rfl (notIf condition thenStmt)
  | forStmt var start stop step => exact related_bind_eq (related_execFor pc operands) fun _ => related_pure rfl
  | nextStmt var =>
    exact related_bind_eq (related_execNext pc (covered var List.mem_cons_self)) fun _ => related_pure rfl
  | _ => exact plain

end

/-! ### Overwriting a variable -/

/-- The target of a write to a whole variable. -/
def Stmt.whole : Stmt → Option Name
  | .assignStmt target none none _ _ => some target
  | .forStmt var _ _ _ => some var
  | .popStmt target none => some target
  | .integerDecl decl => some decl.name
  | .booleanDecl decl => some decl.name
  | _ => none

/-- The statement leaves the same in its target, whichever of the two entries it finds there. -/
def Stmt.Replaces (stmt : Stmt) (store : Store) (e e' : Entry) : Prop :=
  match stmt with
  | .assignStmt _ _ _ _ value =>
    (∃ a b, e = ⟨some (.scalar a), none, false⟩ ∧ e' = ⟨some (.scalar b), none, false⟩) ∨
    (∃ a b, e = ⟨none, some [a], true⟩ ∧ e' = ⟨none, some [b], true⟩) ∨
    (∃ a b, e = ⟨none, some a, false⟩ ∧ e' = ⟨none, some b, false⟩ ∧ a.length = b.length ∧
      ∀ ref, evalBits store value = .ok ref → a.length ≤ ref.length)
  | .popStmt _ _ =>
    (e.boolean = e'.boolean ∧ e.boolScalar = false ∧ e'.boolScalar = false) ∨
    (∃ a b, e = ⟨none, some [a], true⟩ ∧ e' = ⟨none, some [b], true⟩)
  | .forStmt _ _ _ _ => e.boolean = e'.boolean ∧ e.boolScalar = e'.boolScalar
  | .integerDecl _ => e.boolean = e'.boolean ∧ e.boolScalar = e'.boolScalar
  | .booleanDecl decl => e.integer = e'.integer ∧ (decl.size.isSome → e.boolScalar = e'.boolScalar)
  | _ => False

section

variable {A : Name → Prop} {name : Name} {s t : State}

theorem Store.writeBits_booleans {store : Store} {bits : Bits} {source : BitsRef} (held : store.booleans name = some bits)
    (other : name ∉ source.names) {count : Nat} (within : count ≤ bits.length) :
    (store.writeBits name 0 count source).booleans name =
      some ((List.range count).map (fun i => (store.bits source).getD i false) ++ bits.drop count) := by
  induction count with
  | zero => exact held
  | succ count ih =>
    have kept : (store.writeBits name 0 count source).bits source = store.bits source :=
      Store.bits_congr fun other inSource =>
        Store.writeBits_entry_ne 0 count source fun same => absurd (same ▸ inSource) ‹_›
    have unfolded : store.writeBits name 0 (count + 1) source =
        (store.writeBits name 0 count source).setBit name (0 + count)
          (((store.writeBits name 0 count source).bits source).getD count false) := by
      rw [Store.writeBits, List.range_succ, List.foldl_append]
      rfl
    rw [unfolded, Store.setBit, ih (by omega), kept]
    change Function.update _ name _ name = _
    rw [Function.update_self, List.range_succ, List.map_append, List.append_assoc]
    refine congrArg some ?_
    have split : bits.drop count = bits.get ⟨count, by omega⟩ :: bits.drop (count + 1) := by simp
    rw [split, List.set_append_right _ _ (by simp)]
    simp only [List.length_map, List.length_range, Nat.zero_add, Nat.sub_self, List.set_cons_zero, List.map_cons,
      List.map_nil, List.cons_append, List.nil_append]

theorem Store.writeBits_entry {store store' : Store} {bits bits' : Bits} {source : BitsRef}
    (held : store.entry name = ⟨none, some bits, false⟩) (held' : store'.entry name = ⟨none, some bits', false⟩)
    (length : bits.length = bits'.length) (other : name ∉ source.names) (same : store.bits source = store'.bits source) :
    (store.writeBits name 0 bits.length source).entry name = (store'.writeBits name 0 bits.length source).entry name := by
  have rest {store : Store} (count : Nat) :
      (store.writeBits name 0 count source).integers = store.integers ∧
        (store.writeBits name 0 count source).boolScalars = store.boolScalars := by
    unfold Store.writeBits
    induction List.range count generalizing store with
    | nil => exact ⟨rfl, rfl⟩
    | cons i rest ih =>
      rw [List.foldl_cons]
      refine ⟨ih.1.trans ?_, ih.2.trans ?_⟩ <;> unfold Store.setBit <;> split <;> rfl
  obtain ⟨integer, boolean, scalar⟩ := Entry.mk.inj held
  obtain ⟨integer', boolean', scalar'⟩ := Entry.mk.inj held'
  have written := Store.writeBits_booleans boolean other (Nat.le_refl _)
  have written' := Store.writeBits_booleans boolean' other (Nat.le_of_eq length)
  rw [Store.entry, Store.entry, (rest _).1, (rest _).1, (rest _).2, (rest _).2, written, written', integer, integer',
    scalar, scalar', same, List.drop_length, length, List.drop_length]

/-- Both return the same and leave agreement on `A`, or both raise the same. -/
def Joins (A : Name → Prop) {α : Type} (x y : EStateM.Result Error State α) : Prop :=
  match x, y with
  | .ok a s', .ok b t' => a = b ∧ Agree A s' t'
  | .error e s', .error f t' => e = f ∧ s'.requests = t'.requests
  | _, _ => False

/-- The names of `A` and one more. -/
def With (A : Name → Prop) (name : Name) (other : Name) : Prop := A other ∨ other = name

theorem Joins.bind_return {α β : Type} {x : Exec α} (joined : Joins (With A name) (x s) (x t)) (f : α → β) :
    Joins (With A name) ((do let a ← x; return f a) s) ((do let a ← x; return f a) t) := by
  change Joins (With A name) (EStateM.bind x (fun a => pure (f a)) s) (EStateM.bind x (fun a => pure (f a)) t)
  unfold EStateM.bind
  cases left : x s <;> cases right : x t <;> rw [left, right] at joined
  · exact ⟨congrArg f joined.1, joined.2⟩
  · exact joined
  · exact joined
  · exact joined

theorem Agree.joins_setInteger (agree : Agree A s t) (boolean : s.store.booleans name = t.store.booleans name)
    (scalar : s.store.boolScalars name = t.store.boolScalars name) (value : IntVar) :
    Agree (With A name) { s with store := s.store.setInteger name value }
      { t with store := t.store.setInteger name value } := by
  refine ⟨?_, ?_⟩
  · rintro other (inA | rfl)
    · exact Store.setInteger_congr name value (agree.entries other inA)
    · rw [Store.setInteger_entry, Store.setInteger_entry, boolean, scalar]
  · rw [← agree.rest]

theorem Agree.joins_setBoolean (agree : Agree A s t) (integer : s.store.integers name = t.store.integers name)
    (scalar : s.store.boolScalars name = t.store.boolScalars name) (bits : Bits) :
    Agree (With A name) { s with store := s.store.setBoolean name bits }
      { t with store := t.store.setBoolean name bits } := by
  refine ⟨?_, ?_⟩
  · rintro other (inA | rfl)
    · exact Store.setBoolean_congr name bits (agree.entries other inA)
    · rw [Store.setBoolean_entry, Store.setBoolean_entry, integer, scalar]
  · rw [← agree.rest]

theorem joins_bind_lift {α β : Type} {read : State → Except Error α} {f : α → Exec β} (agree : Agree A s t)
    (same : read s = read t) (rest : ∀ a, read s = .ok a → Joins (With A name) (f a s) (f a t)) :
    Joins (With A name) ((lift read >>= f) s) ((lift read >>= f) t) := by
  change Joins (With A name) (EStateM.bind (lift read) f s) (EStateM.bind (lift read) f t)
  simp only [EStateM.bind, lift, ← same]
  cases result : read s with
  | ok a => exact rest a result
  | error error => exact ⟨rfl, agree.requests⟩

theorem joins_bind_evalI {β : Type} {e : Expr} {f : Int → Exec β} (agree : Agree A s t)
    (covered : ∀ other ∈ e.names, A other) (rest : ∀ a, Joins (With A name) (f a s) (f a t)) :
    Joins (With A name) ((evalI e >>= f) s) ((evalI e >>= f) t) :=
  joins_bind_lift agree (eval_congr fun other inNames => agree.entries other (covered other inNames)).1
    fun a _ => rest a

theorem execFor_joins {start stop : Expr} {step : Option Expr} (pc : Nat) (agree : Agree A s t)
    (covered : ∀ e ∈ [start, stop] ++ step.toList, ∀ other ∈ e.names, A other)
    (boolean : s.store.booleans name = t.store.booleans name)
    (scalar : s.store.boolScalars name = t.store.boolScalars name) :
    Joins (With A name) (execFor name start stop step pc s) (execFor name start stop step pc t) := by
  have loops (stop : Int) (step : Option Int) (start : Int) :
      Agree (With A name)
        { s with store := s.store.setInteger name (.scalar start), forStack := ⟨name, stop, step.getD 1, pc + 1⟩ :: s.forStack }
        { t with store := t.store.setInteger name (.scalar start), forStack := ⟨name, stop, step.getD 1, pc + 1⟩ :: t.forStack } := by
    refine ⟨(agree.joins_setInteger boolean scalar (.scalar start)).entries, ?_⟩
    rw [← agree.rest]
  refine joins_bind_evalI agree (covered start (by simp)) fun start => ?_
  refine joins_bind_evalI agree (covered stop (by simp)) fun stop => ?_
  cases step with
  | none => exact ⟨rfl, loops stop none start⟩
  | some step =>
    rw [evalOptional, bind_assoc]
    exact joins_bind_evalI agree (covered step (by simp)) fun step => ⟨rfl, loops stop (some step) start⟩

theorem mapM_evalI (init : List Expr) : init.mapM evalI = lift fun s => init.mapM (evalInt s.store) := by
  induction init with
  | nil => rfl
  | cons e init ih =>
    rw [List.mapM_cons, ih]
    funext s
    change EStateM.bind (evalI e) _ s = _
    simp only [EStateM.bind, evalI, lift, List.mapM_cons]
    cases evalInt s.store e with
    | error error => rfl
    | ok value =>
      simp only [bind, EStateM.bind, lift]
      cases init.mapM (evalInt s.store) <;> rfl

theorem mapM_evalInt_congr {store store' : Store} {init : List Expr}
    (same : ∀ e ∈ init, evalInt store e = evalInt store' e) : init.mapM (evalInt store) = init.mapM (evalInt store') := by
  induction init with
  | nil => rfl
  | cons e init ih =>
    rw [List.mapM_cons, List.mapM_cons, same e List.mem_cons_self,
      ih fun other inRest => same other (List.mem_cons_of_mem e inRest)]

theorem execIntegerDecl_joins {decl : IntegerDecl} (agree : Agree A s t)
    (covered : ∀ e ∈ Decl.operands (.integer decl), ∀ other ∈ e.names, A other)
    (boolean : s.store.booleans decl.name = t.store.booleans decl.name)
    (scalar : s.store.boolScalars decl.name = t.store.boolScalars decl.name) :
    Joins (With A decl.name) (execIntegerDecl decl s) (execIntegerDecl decl t) := by
  have written (value : IntVar) := agree.joins_setInteger boolean scalar value
  obtain ⟨name, size, init⟩ := decl
  cases size with
  | some size =>
    refine joins_bind_evalI agree (covered size (by simp [Decl.operands])) fun size => ?_
    rw [mapM_evalI]
    refine joins_bind_lift agree ?_ fun values _ => ⟨rfl, written _⟩
    refine mapM_evalInt_congr fun e inInit => ?_
    refine (eval_congr fun other inNames => agree.entries other (covered e ?_ other inNames)).1
    exact List.mem_append_right _ inInit
  | none =>
    match init with
    | some (first :: rest) =>
      exact joins_bind_evalI agree (covered first (by simp [Decl.operands])) fun value => ⟨rfl, written _⟩
    | some [] => exact ⟨rfl, written _⟩
    | none => exact ⟨rfl, written _⟩

theorem execBooleanDecl_joins {decl : BooleanDecl} (agree : Agree A s t)
    (covered : ∀ e ∈ Decl.operands (.boolean decl), ∀ other ∈ e.names, A other)
    (integer : s.store.integers decl.name = t.store.integers decl.name)
    (scalar : decl.size.isSome → s.store.boolScalars decl.name = t.store.boolScalars decl.name) :
    Joins (With A decl.name) (execBooleanDecl decl s) (execBooleanDecl decl t) := by
  obtain ⟨name, size, init⟩ := decl
  cases size with
  | some size =>
    have written (bits : Bits) := agree.joins_setBoolean integer (scalar rfl) bits
    refine joins_bind_evalI agree (covered size (by simp [Decl.operands])) fun size => ?_
    dsimp only
    split
    · exact ⟨rfl, written _⟩
    · exact ⟨rfl, written _⟩
  | none =>
    have added : Agree A { s with store := s.store.addScalar name } { t with store := t.store.addScalar name } := by
      refine ⟨fun other inA => Store.addScalar_congr name (agree.entries other inA), ?_⟩
      rw [← agree.rest]
    have isScalar (store : Store) : (store.addScalar name).boolScalars name = true := Function.update_self ..
    have written (bits : Bits) := added.joins_setBoolean integer ((isScalar _).trans (isScalar _).symm) bits
    cases init with
    | none => exact ⟨rfl, written _⟩
    | some init =>
      exact joins_bind_evalI added (covered init (by simp [Decl.operands])) fun value => ⟨rfl, written _⟩

theorem Agree.joins_setScalar {a b : Bool} (agree : Agree A s t) (held : s.store.entry name = ⟨none, some [a], true⟩)
    (held' : t.store.entry name = ⟨none, some [b], true⟩) (value : Int) :
    Joins (With A name) (setScalar name value s) (setScalar name value t) := by
  obtain ⟨integer, boolean, scalar⟩ := Entry.mk.inj held
  obtain ⟨integer', boolean', scalar'⟩ := Entry.mk.inj held'
  rw [setScalar_eq boolean, setScalar_eq boolean']
  exact ⟨rfl, agree.joins_setBoolean (integer.trans integer'.symm) (scalar.trans scalar'.symm) _⟩

theorem execPop_joins (agree : Agree A s t)
    (replaces : (Stmt.popStmt name none).Replaces s.store (s.store.entry name) (t.store.entry name)) :
    Joins (With A name) (execPop name none s) (execPop name none t) := by
  cases stack : t.stack with
  | nil =>
    have stack' : s.stack = [] := agree.stack.trans stack
    simp only [execPop, bind, EStateM.bind, readState, stack, stack']
    exact ⟨rfl, agree.requests⟩
  | cons val rest =>
    have stack' : s.stack = val :: rest := agree.stack.trans stack
    have popped : Agree A { s with stack := rest } { t with stack := rest } := by
      refine ⟨agree.entries, ?_⟩
      rw [← agree.rest]
    simp only [execPop, bind, EStateM.bind, readState, update, stack, stack']
    rcases replaces with ⟨boolean, scalar, scalar'⟩ | ⟨a, b, held, held'⟩
    · simp only [Store.entry] at boolean scalar scalar'
      rw [scalar, scalar']
      exact ⟨rfl, popped.joins_setInteger boolean (scalar.trans scalar'.symm) _⟩
    · rw [(Entry.mk.inj held).2.2, (Entry.mk.inj held').2.2, if_pos rfl]
      split
      · exact popped.joins_setScalar held held' val
      · exact ⟨rfl, popped.requests⟩

theorem execAssign_joins {low : Option Expr} {value : Expr} (agree : Agree A s t)
    (covered : ∀ other ∈ value.names, A other) (apart : ¬ A name)
    (replaces : (Stmt.assignStmt name none none low value).Replaces s.store (s.store.entry name) (t.store.entry name)) :
    Joins (With A name) (execAssign name none none low value s) (execAssign name none none low value t) := by
  simp only [execAssign, bind, EStateM.bind, readState]
  rcases replaces with ⟨a, b, held, held'⟩ | ⟨a, b, held, held'⟩ | ⟨a, b, held, held', length, covers⟩
  · obtain ⟨integer, boolean, scalar⟩ := Entry.mk.inj held
    obtain ⟨integer', boolean', scalar'⟩ := Entry.mk.inj held'
    rw [integer, boolean, scalar, integer', boolean', scalar']
    exact joins_bind_evalI agree covered fun val =>
      ⟨rfl, agree.joins_setInteger (boolean.trans boolean'.symm) (scalar.trans scalar'.symm) _⟩
  · rw [(Entry.mk.inj held).2.2, (Entry.mk.inj held').2.2]
    simp only [Bool.true_eq_false, and_false, if_false, if_true]
    exact joins_bind_evalI agree covered fun val => agree.joins_setScalar held held' _
  · obtain ⟨integer, boolean, scalar⟩ := Entry.mk.inj held
    obtain ⟨integer', boolean', scalar'⟩ := Entry.mk.inj held'
    rw [boolean, scalar, boolean', scalar', if_pos ⟨rfl, rfl⟩, if_pos ⟨rfl, rfl⟩]
    refine joins_bind_lift agree (eval_congr fun other inNames => agree.entries other (covered other inNames)).2 ?_
    intro source read
    have inSource : ∀ other ∈ source.names, A other := fun other inRef => covered other (evalBits_names read other inRef)
    have copied : min source.length a.length = a.length := Nat.min_eq_right (covers source read)
    have copied' : min source.length b.length = a.length := length ▸ copied
    simp only [copyBits, booleanVar, lift, bind, EStateM.bind, boolean, boolean', copied, copied']
    refine ⟨rfl, ?_, ?_⟩
    · rintro other (inA | rfl)
      · exact Store.writeBits_congr name 0 _ inSource agree.entries other inA
      · refine Store.writeBits_entry held held' length (fun inRef => apart (inSource _ inRef)) ?_
        exact Store.bits_congr fun other inRef => agree.entries other (inSource other inRef)
    · rw [← agree.rest]

theorem Agree.joins {α : Type} {x : Exec α} (agree : Agree A s t) (inA : A name)
    (related : Related (Agree A) Eq x x) : Joins (With A name) (x s) (x t) := by
  have both := related s t agree
  unfold Joins
  cases left : x s <;> cases right : x t <;> rw [left, right] at both
  · refine ⟨both.1, ?_, both.2.rest⟩
    rintro other (inOther | rfl)
    · exact both.2.entries other inOther
    · exact both.2.entries other inA
  · exact both
  · exact both
  · exact ⟨both.1, both.2.requests⟩

/-- A statement that replaces a variable brings the states to agreement on it. -/
theorem execStmt_joins (player : Player) (proc : ProcedureDef) (pc : Nat) {stmt : Stmt} (agree : Agree A s t)
    (whole : stmt.whole = some name) (covered : ∀ e ∈ stmt.operands, ∀ other ∈ e.names, A other)
    (replaces : stmt.Replaces s.store (s.store.entry name) (t.store.entry name)) :
    Joins (With A name) (execStmt player proc pc stmt s) (execStmt player proc pc stmt t) := by
  cases stmt with
  | assignStmt target index high low value =>
    match index, high, whole with
    | none, none, whole =>
      cases whole
      have ofValue := covered value (by simp [Stmt.operands, Stmt.walked])
      refine Joins.bind_return (x := execPlain player (.assignStmt name none none low value)) ?_ _
      change Joins (With A name) (execAssign name none none low value s) (execAssign name none none low value t)
      by_cases inA : A name
      · refine agree.joins inA (related_execAssign (fun other inOperands => ?_) inA)
        obtain ⟨e, isOperand, inNames⟩ := List.mem_flatMap.mp inOperands
        exact covered e isOperand other inNames
      · exact execAssign_joins agree ofValue inA replaces
  | forStmt var start stop step =>
    cases whole
    exact Joins.bind_return (execFor_joins pc agree covered replaces.1 replaces.2) _
  | popStmt target index =>
    match index, whole with
    | none, whole =>
      cases whole
      exact Joins.bind_return (x := execPlain player (.popStmt name none)) (execPop_joins agree replaces) _
  | integerDecl decl =>
    cases whole
    exact Joins.bind_return (x := execPlain player (.integerDecl decl))
      (execIntegerDecl_joins agree covered replaces.1 replaces.2) _
  | booleanDecl decl =>
    cases whole
    exact Joins.bind_return (x := execPlain player (.booleanDecl decl))
      (execBooleanDecl_joins agree covered replaces.1 replaces.2) _
  | _ => cases whole

end

end Acrobe.Stapl
