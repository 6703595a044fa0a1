import Acrobe.Stapl.Simplify

/-!
# Emitted expressions

The transpiler prints a simplified expression as Python text. Here it becomes the tree that
Python parses from that text: a comparison printed to the left of another one joins its chain,
and the `+ 1` printed after the upper bound of a slice binds by precedence.
-/

namespace Acrobe.Stapl
open LittleEndian Acrobe.Storage

/-! ### Python expressions -/

/-- `bin` to the left of a comparison, where it is a comparison itself, is a chain. -/
inductive Py where
  | int (value : Int)
  | ref (name : Name)
  | index (name : Name) (index : Py)
  | slice (name : Name) (start stop : Py)
  | reversed (bits : Py)
  | toInt (operand : Py)
  | literal (data : Bytes) (bitCount : Nat)
  | word (operand : Py)
  | call (name : Func) (arg : Py)
  | unary (op : UnaryOp) (operand : Py)
  | bin (op : BinOp) (left right : Py)

/-- `_PRECEDENCE`. -/
def BinOp.precedence : BinOp → Nat
  | .or => 4
  | .and => 5
  | .eq | .ne | .lt | .gt | .le | .ge => 7
  | .bitOr => 8
  | .bitXor => 9
  | .bitAnd => 10
  | .shiftLeft | .shiftRight => 11
  | .add | .sub => 12
  | .mul | .div | .mod => 13

def UnaryOp.precedence : UnaryOp → Nat
  | .not => 6
  | .neg | .invert => 14

def Py.precedence : Py → Nat
  | .unary op _ => op.precedence
  | .bin op _ _ => op.precedence
  | _ => 15

/-- The text of an expression followed by `+ 1`. An operand in parentheses takes the sum whole. -/
def Py.plusOne : Py → Py
  | .unary .not operand =>
    .unary .not (if operand.precedence < 6 then .bin .add operand (.int 1) else operand.plusOne)
  | .bin op left right =>
    if 12 ≤ op.precedence then .bin .add (.bin op left right) (.int 1)
    else .bin op left
      (if right.precedence < op.precedence + 1 then .bin .add right (.int 1) else right.plusOne)
  | operand => .bin .add operand (.int 1)

/-! ### Emission -/

/-- `_exclusive_end` of a bound, next to its own text. -/
def exclusiveEnd (bound : Expr) (text : Py) : Py :=
  match bound, text with
  | .binOp .sub _ (.intLiteral 1), .bin _ left _ => left
  | .intLiteral value, _ => .int (value + 1)
  | _, text => text.plusOne

def isDescending (high low : Expr) : Bool :=
  match tryConstFold noConstants high, tryConstFold noConstants low with
  | some high, some low => high < low
  | _, _ => false

def subrangeRvalue (name : Name) (high low : Expr) (highText lowText : Py) : Py :=
  if isDescending high low then .reversed (.slice name highText (exclusiveEnd low lowText))
  else .slice name lowText (exclusiveEnd high highText)

/-- `_emit_int` of a simplified expression. The cases of `INT` are those of `_int_of_bits`, see
`emitInt_int`. -/
def emitInt (isBooleanArray : Name → Bool) : Expr → Py
  | .intLiteral value => .int value
  | .varRef name => .ref name
  | .arrayIndex name index => .index name (emitInt isBooleanArray index)
  | .arraySubrange name high low =>
    .toInt (subrangeRvalue name high low (emitInt isBooleanArray high) (emitInt isBooleanArray low))
  | .arrayWhole name => if isBooleanArray name then .toInt (.ref name) else .ref name
  | .unaryOp op operand => .unary op (emitInt isBooleanArray operand)
  | .binOp op left right => .bin op (emitInt isBooleanArray left) (emitInt isBooleanArray right)
  | .funcCall .int (.arraySubrange name high low) =>
    .toInt (subrangeRvalue name high low (emitInt isBooleanArray high) (emitInt isBooleanArray low))
  | .funcCall .int (.arrayWhole name) => .toInt (.ref name)
  | .funcCall .int (.varRef name) => if isBooleanArray name then .toInt (.ref name) else .ref name
  | .funcCall .int (.booleanLiteral data bitCount) => .toInt (.literal data bitCount)
  | .funcCall .int (.funcCall .bool arg) => .toInt (.word (emitInt isBooleanArray arg))
  | .funcCall .int arg => .toInt (.word (emitInt isBooleanArray arg))
  | .funcCall name arg => .call name (emitInt isBooleanArray arg)
  | .booleanLiteral data _ => .int (combine data)

section
variable (constants : Name → Option Int) (isBooleanArray : Name → Bool)

def intExpr (e : Expr) : Py := emitInt isBooleanArray (simplify constants e)

def subrangeExpr (name : Name) (high low : Expr) : Py :=
  subrangeRvalue name high low (intExpr constants isBooleanArray high) (intExpr constants isBooleanArray low)

def bitsExpr : Expr → Py
  | .varRef name => .ref name
  | .arraySubrange name high low => subrangeExpr constants isBooleanArray name high low
  | .arrayWhole name => .ref name
  | .booleanLiteral data bitCount => .literal data bitCount
  | .funcCall .bool arg => .word (intExpr constants isBooleanArray arg)
  | e => .word (intExpr constants isBooleanArray e)

/-- `_int_of_bits`. -/
def intOfBits : Expr → Py
  | .arraySubrange name high low => .toInt (subrangeExpr constants isBooleanArray name high low)
  | .arrayWhole name => .toInt (.ref name)
  | .varRef name => if isBooleanArray name then .toInt (.ref name) else .ref name
  | e => .toInt (bitsExpr constants isBooleanArray e)

end

theorem emitInt_int (constants : Name → Option Int) (isBooleanArray : Name → Bool) (arg : Expr) :
    intExpr constants isBooleanArray (.funcCall .int arg) =
      intOfBits constants isBooleanArray (simplify constants arg) := by
  have again := simplify_simplify constants arg
  rw [intExpr, simplify]
  generalize simplify constants arg = simplified at again ⊢
  have word {inner : Expr} (same : simplify constants inner = inner) :
      Py.toInt (.word (emitInt isBooleanArray inner)) = .toInt (.word (intExpr constants isBooleanArray inner)) := by
    rw [intExpr, same]
  cases simplified with
  | varRef name => rfl
  | arrayWhole name => rfl
  | booleanLiteral data bitCount => rfl
  | arraySubrange name high low =>
    rw [simplify, Expr.arraySubrange.injEq] at again
    rw [emitInt, intOfBits, subrangeExpr, intExpr, intExpr, again.2.1, again.2.2]
  | funcCall name inner =>
    cases name with
    | bool => exact word (Expr.funcCall.inj again).2
    | _ => exact word again
  | _ => exact word again

/-! ### Evaluation -/

inductive Value where
  | integer (value : Int)
  | integers (values : List Int)
  | boolean (value : Bool)
  | booleans (bits : Bits)

abbrev Valuation := Name → Option Value

/-- A list or a string. Where one occurs as an operand the interpreter raises, so its own
operators are left out. -/
inductive PyVal where
  | int (value : Int)
  | bits (bits : Bits)
  | other
  deriving DecidableEq

namespace PyVal

def asInt : PyVal → Except Error Int
  | .int value => .ok value
  | _ => .error .typeError

def truthy : PyVal → Except Error Bool
  | .int value => .ok (value != 0)
  | .bits held => .ok !held.isEmpty
  | .other => .error .typeError

def arith (op : BinOp) (a b : Int) : Except Error Int :=
  match op with
  | .add => .ok (a + b)
  | .sub => .ok (a - b)
  | .mul => .ok (a * b)
  | .div => if b = 0 then .error .zeroDivisionError else .ok (a.fdiv b)
  | .mod => if b = 0 then .error .zeroDivisionError else .ok (a.fmod b)
  | .shiftLeft => shiftLeft a b
  | .shiftRight => shiftRight a b
  | .bitAnd => .ok (Int.land a b)
  | .bitOr => .ok (Int.lor a b)
  | _ => .ok (Int.xor a b)

def compare (op : BinOp) : PyVal → PyVal → Except Error Bool
  | .int a, .int b => .ok (op.compare a b)
  | .bits a, .bits b =>
    match op with
    | .eq => .ok (a == b)
    | .ne => .ok (a != b)
    | _ => .error .typeError
  | _, _ => .error .typeError

end PyVal

/-- The attribute of the emitted class: a scalar Boolean is an integer there. -/
def Valuation.attribute (σ : Valuation) (name : Name) : Except Error PyVal :=
  match σ name with
  | some (.integer value) => .ok (.int value)
  | some (.integers _) => .ok .other
  | some (.boolean value) => .ok (.int (truth value))
  | some (.booleans bits) => .ok (.bits bits)
  | none => .error .nameError

/-- `self.NAME[idx]`: a negative index counts from the end. -/
def Valuation.item (σ : Valuation) (name : Name) (idx : Int) : Except Error PyVal :=
  let at? (length : Nat) : Int := if idx < 0 then idx + length else idx
  match σ name with
  | some (.integers values) =>
    if 0 ≤ at? values.length ∧ at? values.length < values.length then
      .ok (.int (values.getD (at? values.length).toNat 0))
    else .error .indexError
  | some (.booleans bits) =>
    if 0 ≤ at? bits.length ∧ at? bits.length < bits.length then
      .ok (.int (truth (bits.getD (at? bits.length).toNat false)))
    else .error .indexError
  | some _ => .error .typeError
  | none => .error .nameError

def Valuation.range (σ : Valuation) (name : Name) (start stop : Int) : Except Error PyVal :=
  match σ name with
  | some (.booleans bits) => .ok (.bits (sliceBits bits start stop))
  | some (.integers _) => .ok .other
  | some _ => .error .typeError
  | none => .error .nameError

/-- The value of an expression, and the operand that a comparison to its right is chained to,
`none` once the chain is false. -/
def Py.run (σ : Valuation) : Py → Except Error (PyVal × Option PyVal)
  | .int value => plain (.ok (.int value))
  | .ref name => plain (σ.attribute name)
  | .index name idx => plain do
    let idx ← (← idx.run σ).1.asInt
    σ.item name idx
  | .slice name start stop => plain do
    let start ← (← start.run σ).1.asInt
    let stop ← (← stop.run σ).1.asInt
    σ.range name start stop
  | .reversed operand => plain do
    match (← operand.run σ).1 with
    | .bits held => return .bits held.reverse
    | _ => .error .typeError
  | .toInt operand => plain do
    match (← operand.run σ).1 with
    | .int value => return .int value
    | .bits held => return .int (BitString.toNat held)
    | .other => .error .typeError
  | .literal data bitCount => plain (.ok (.bits (literalBits data bitCount)))
  | .word operand => plain do
    match (← operand.run σ).1 with
    | .int value => return .bits (wordBits value)
    | .bits held => return .bits held
    | .other => .error .typeError
  | .call .abs arg => plain do
    let value ← (← arg.run σ).1.asInt
    return .int value.natAbs
  | .call .chr arg => plain do
    let _ ← (← arg.run σ).1.asInt
    return .other
  | .call _ _ => .error .nameError
  | .unary .not operand => plain do
    let holds ← (← operand.run σ).1.truthy
    return .int (truth !holds)
  | .unary op operand => plain do
    let value ← (← operand.run σ).1.asInt
    return .int (foldUnary op value)
  | .bin .and left right => plain do
    let value := (← left.run σ).1
    if ← value.truthy then return (← right.run σ).1 else return value
  | .bin .or left right => plain do
    let value := (← left.run σ).1
    if ← value.truthy then return value else return (← right.run σ).1
  | .bin op left right =>
    if op.isCompare then do
      match (← left.run σ).2 with
      | none => return (.int 0, none)
      | some last =>
        let value := (← right.run σ).1
        if ← last.compare op value then return (.int 1, some value) else return (.int 0, none)
    else plain do
      let a ← (← left.run σ).1.asInt
      let b ← (← right.run σ).1.asInt
      return .int (← PyVal.arith op a b)
where
  plain (value : Except Error PyVal) : Except Error (PyVal × Option PyVal) :=
    value.map fun value => (value, some value)

def Py.eval (σ : Valuation) (e : Py) : Except Error PyVal := (e.run σ).map (·.1)

/-! ### Evaluating one node -/

def Py.isCompare : Py → Bool
  | .bin op _ _ => op.isCompare
  | _ => false

section
variable {σ : Valuation} {left right operand : Py} {a b value : Int}

theorem Py.eval_ok {e : Py} {result : PyVal} (same : e.eval σ = .ok result) :
    ∃ last, e.run σ = .ok (result, last) := by
  unfold Py.eval at same
  cases outcome : e.run σ with
  | error error => rw [outcome] at same; cases same
  | ok pair =>
    rw [outcome] at same
    cases same
    exact ⟨pair.2, rfl⟩

theorem Py.run_plain {e : Py} {result : PyVal} (notCompare : e.isCompare = false)
    (same : e.eval σ = .ok result) : e.run σ = .ok (result, some result) := by
  have plain (inner : Except Error PyVal) (outcome : (Py.run.plain inner).map (·.1) = .ok result) :
      Py.run.plain inner = .ok (result, some result) := by
    cases inner with
    | error error => cases outcome
    | ok held => cases outcome; rfl
  unfold Py.eval at same
  cases e with
  | call name arg => cases name <;> first | exact plain _ same | cases same
  | unary op operand => cases op <;> exact plain _ same
  | bin op left right => cases op <;> first | exact plain _ same | cases notCompare
  | _ => exact plain _ same

theorem Py.run_unary {op : UnaryOp} (notNot : op ≠ .not) : (Py.unary op operand).run σ = Py.run.plain (do
    let value ← (← operand.run σ).1.asInt
    return .int (foldUnary op value)) := by
  cases op <;> first | contradiction | rfl

theorem Py.run_arith {op : BinOp} (notCompare : op.isCompare = false) (notAnd : op ≠ .and) (notOr : op ≠ .or) :
    (Py.bin op left right).run σ = Py.run.plain (do
      let a ← (← left.run σ).1.asInt
      let b ← (← right.run σ).1.asInt
      return .int (← PyVal.arith op a b)) := by
  rw [Py.run, if_neg (by rw [notCompare]; exact Bool.false_ne_true)]
  · exact notAnd
  · exact notOr

theorem Py.run_and : (Py.bin .and left right).run σ = Py.run.plain (do
    let value := (← left.run σ).1
    if ← value.truthy then return (← right.run σ).1 else return value) := rfl

theorem Py.run_or : (Py.bin .or left right).run σ = Py.run.plain (do
    let value := (← left.run σ).1
    if ← value.truthy then return value else return (← right.run σ).1) := rfl

theorem Py.run_of_compare {op : BinOp} (isCompare : op.isCompare = true) : (Py.bin op left right).run σ = do
    match (← left.run σ).2 with
    | none => return (.int 0, none)
    | some last =>
      let value := (← right.run σ).1
      if ← last.compare op value then return (.int 1, some value) else return (.int 0, none) := by
  cases op <;> first | rfl | cases isCompare

theorem Py.eval_unary (op : UnaryOp) (inner : operand.eval σ = .ok (.int value)) :
    (Py.unary op operand).eval σ = .ok (.int (foldUnary op value)) := by
  obtain ⟨last, outcome⟩ := Py.eval_ok inner
  cases op with
  | not =>
    have negated : (!(value != 0)) = (value == 0) := by rw [bne, Bool.not_not]
    rw [Py.eval, show (Py.unary .not operand).run σ = Py.run.plain (do
      let holds ← (← operand.run σ).1.truthy
      return .int (truth !holds)) from rfl, outcome]
    exact congrArg (fun holds => Except.ok (PyVal.int (truth holds))) negated
  | _ =>
    rw [Py.eval, Py.run_unary (by rintro ⟨⟩), outcome]
    rfl

theorem Py.eval_arith {op : BinOp} (notCompare : op.isCompare = false) (notAnd : op ≠ .and) (notOr : op ≠ .or)
    (first : left.eval σ = .ok (.int a)) (second : right.eval σ = .ok (.int b)) :
    (Py.bin op left right).eval σ = (PyVal.arith op a b).map .int := by
  obtain ⟨_, leftOutcome⟩ := Py.eval_ok first
  obtain ⟨_, rightOutcome⟩ := Py.eval_ok second
  rw [Py.eval, Py.run_arith notCompare notAnd notOr, leftOutcome, rightOutcome]
  show Except.map _ (Py.run.plain (do return .int (← PyVal.arith op a b))) = _
  cases PyVal.arith op a b <;> rfl

theorem Py.eval_and (first : left.eval σ = .ok (.int a)) (second : right.eval σ = .ok (.int b)) :
    (Py.bin .and left right).eval σ = .ok (.int (if a = 0 then a else b)) := by
  obtain ⟨_, leftOutcome⟩ := Py.eval_ok first
  obtain ⟨_, rightOutcome⟩ := Py.eval_ok second
  rw [Py.eval, Py.run_and, leftOutcome, rightOutcome]
  by_cases zero : a = 0
  · subst zero; rfl
  · simp [PyVal.truthy, zero, Py.run.plain, Except.map, bind, Except.bind, pure, Except.pure]

theorem Py.eval_or (first : left.eval σ = .ok (.int a)) (second : right.eval σ = .ok (.int b)) :
    (Py.bin .or left right).eval σ = .ok (.int (if a = 0 then b else a)) := by
  obtain ⟨_, leftOutcome⟩ := Py.eval_ok first
  obtain ⟨_, rightOutcome⟩ := Py.eval_ok second
  rw [Py.eval, Py.run_or, leftOutcome, rightOutcome]
  by_cases zero : a = 0
  · subst zero; rfl
  · simp [PyVal.truthy, zero, Py.run.plain, Except.map, bind, Except.bind, pure, Except.pure]

theorem Py.eval_and_stopped (first : left.eval σ = .ok (.int 0)) : (Py.bin .and left right).eval σ = .ok (.int 0) := by
  obtain ⟨_, leftOutcome⟩ := Py.eval_ok first
  rw [Py.eval, Py.run_and, leftOutcome]
  rfl

theorem Py.eval_or_stopped (first : left.eval σ = .ok (.int a)) (nonzero : a ≠ 0) :
    (Py.bin .or left right).eval σ = .ok (.int a) := by
  obtain ⟨_, leftOutcome⟩ := Py.eval_ok first
  rw [Py.eval, Py.run_or, leftOutcome]
  simp [PyVal.truthy, nonzero, Py.run.plain, Except.map, bind, Except.bind, pure, Except.pure]

theorem Py.run_compare {op : BinOp} {first : PyVal} {last : Int} (isCompare : op.isCompare = true)
    (outcome : left.run σ = .ok (first, some (.int last))) (second : right.eval σ = .ok (.int b)) :
    (Py.bin op left right).run σ =
      .ok (.int (truth (op.compare last b)), if op.compare last b then some (.int b) else none) := by
  obtain ⟨_, rightOutcome⟩ := Py.eval_ok second
  rw [Py.run_of_compare isCompare, outcome, rightOutcome]
  show (do if ← (PyVal.int last).compare op (.int b) then _ else _) = _
  rw [PyVal.compare]
  cases op.compare last b <;> rfl

theorem Py.run_compare_false {op : BinOp} {first : PyVal} (isCompare : op.isCompare = true)
    (outcome : left.run σ = .ok (first, none)) : (Py.bin op left right).run σ = .ok (.int 0, none) := by
  rw [Py.run_of_compare isCompare, outcome]
  rfl

end

end Acrobe.Stapl
