import Acrobe.Stapl.EmitExpr

/-!
# Where an emitted expression keeps its value

`Preserved` says that the emitted Python computes the integer the interpreter computes.
`NodeOk` looks at one operator and the values of its operands. An expression is preserved at
all its operators exactly when each of them is in order. Operands that are simplified away, or
that Python does not come to, are left out.
-/

namespace Acrobe.Stapl
open LittleEndian Acrobe.Storage

/-! ### One valuation for both -/

namespace Valuation

def store (σ : Valuation) : Store where
  integers name :=
    match σ name with
    | some (.integer value) => some (.scalar value)
    | some (.integers values) => some (.array values)
    | _ => none
  booleans name :=
    match σ name with
    | some (.boolean value) => some [value]
    | some (.booleans bits) => some bits
    | _ => none
  boolScalars name :=
    match σ name with
    | some (.boolean _) => true
    | _ => false

def isBooleanArray (σ : Valuation) (name : Name) : Bool :=
  match σ name with
  | some (.booleans _) => true
  | _ => false

end Valuation

section
variable (constants : Name → Option Int) (σ : Valuation)

def emitted (e : Expr) : Except Error PyVal := (intExpr constants σ.isBooleanArray e).eval σ

/-- Where the interpreter gives a value, the emitted Python gives the same. -/
def Preserved (e : Expr) : Prop :=
  ∀ value, evalInt σ.store e = .ok value → emitted constants σ e = .ok (.int value)

def Expr.isCompare : Expr → Bool
  | .binOp op _ _ => op.isCompare
  | _ => false

/-- Whether the result looks at the left operand: `_simplify` drops it beside a literal that
decides. -/
def BinOp.takesLeft (op : BinOp) (sr : Expr) : Bool :=
  match op, sr.literal with
  | .and, some b => b != 0
  | .bitAnd, some b => b != 0
  | .mul, some b => b != 0
  | .or, some b => b == 0
  | _, _ => true

/-- Whether the result looks at the right operand, `a` being the value of the left one: Python
stops at `and`, `or` and a chain that is false. -/
def BinOp.takesRight (op : BinOp) (sl sr : Expr) (a : Int) : Bool :=
  match op with
  | .and => a != 0 || !op.takesLeft sr
  | .or => a == 0 || !op.takesLeft sr || sl.literal.isNone && sr.literal.isSome
  | .bitAnd => sl.literal != some 0 || !op.takesLeft sr
  | .mul => sl.literal != some 0 || !op.takesLeft sr
  | op => !(op.isCompare && sl.isCompare && a == 0)

/-- A property of an expression and of every integer operand below it that is looked at. -/
def Everywhere (holds : Expr → Prop) : Expr → Prop
  | .arrayIndex name index => holds (.arrayIndex name index) ∧ Everywhere holds index
  | .unaryOp op operand => holds (.unaryOp op operand) ∧ Everywhere holds operand
  | .binOp op left right => holds (.binOp op left right) ∧
      (op.takesLeft (simplify constants right) = true → Everywhere holds left) ∧
      ∀ a, evalInt σ.store left = .ok a →
        op.takesRight (simplify constants left) (simplify constants right) a = true → Everywhere holds right
  | .funcCall .abs arg => holds (.funcCall .abs arg) ∧ Everywhere holds arg
  | .funcCall .int (.arraySubrange name high low) =>
    holds (.funcCall .int (.arraySubrange name high low)) ∧ Everywhere holds high ∧ Everywhere holds low
  | .funcCall .int (.funcCall .bool arg) =>
    holds (.funcCall .int (.funcCall .bool arg)) ∧ Everywhere holds arg
  | .funcCall .int (.varRef name) => holds (.funcCall .int (.varRef name))
  | .funcCall .int (.arrayWhole name) => holds (.funcCall .int (.arrayWhole name))
  | .funcCall .int (.booleanLiteral data bitCount) => holds (.funcCall .int (.booleanLiteral data bitCount))
  | .funcCall .int arg => holds (.funcCall .int arg) ∧ Everywhere holds arg
  | e => holds e

/-! ### The condition at one operator -/

def IsBit (value : Int) : Prop := value = 0 ∨ value = 1

/-- Arithmetic stays within 32 bits, division loses nothing to rounding, and the operand that a
logical operator returns is 0 or 1. -/
def BinaryOk (op : BinOp) (leftLiteral rightLiteral : Bool) (a b : Int) : Prop :=
  match op with
  | .add => InRange (a + b)
  | .sub => InRange (a - b)
  | .mul => InRange (a * b)
  | .div => ∀ quotient, b ≠ 0 → DoubleDivision.truncated a b = some quotient →
      InRange (a.fdiv b) ∧ quotient = a.fdiv b
  | .shiftLeft => 0 ≤ b → InRange (a * 2 ^ b.toNat)
  | .shiftRight => 0 ≤ b → InRange (a / 2 ^ b.toNat)
  | .and =>
    match leftLiteral, rightLiteral with
    | true, true => True
    | false, true => b ≠ 0 → IsBit a
    | _, false => a ≠ 0 → IsBit b
  | .or =>
    match leftLiteral, rightLiteral with
    | true, true => True
    | false, true => b = 0 → IsBit a
    | true, false => a = 0 → IsBit b
    | false, false => a = 1 ∨ a = 0 ∧ IsBit b
  | _ => True

/-- The right operand of the comparison that an expression simplifies to. -/
def chainOperand : Expr → Option Expr
  | .binOp op left right =>
    if op.isCompare then some right
    else if (simplify constants left).literal.isSome then chainOperand right
    else chainOperand left
  | _ => none

/-- A comparison printed before this one takes it into its chain. -/
def ChainOk (op : BinOp) (left : Expr) (a b : Int) : Prop :=
  op.isCompare = true → (simplify constants left).isCompare = true →
    ∀ middle value, chainOperand constants left = some middle → evalInt σ.store middle = .ok value →
      op.compare a b = (a == 1 && op.compare value b)

/-- The index is in bounds, or the interpreter's 0 stands at the place a negative one wraps to. -/
def IndexOk (name : Name) (idx : Int) : Prop :=
  match σ name with
  | some (.integers values) => 0 ≤ idx ∧ idx < values.length ∨
      -values.length ≤ idx ∧ idx < 0 ∧ values.getD (idx + values.length).toNat 0 = 0
  | some (.booleans bits) => 0 ≤ idx ∧ idx < bits.length ∨
      -bits.length ≤ idx ∧ idx < 0 ∧ bits.getD (idx + bits.length).toNat false = false
  | some (.boolean _) => False
  | _ => True

def subrangeInt (bits : Bits) (high low : Int) : Int :=
  if low ≤ high then BitString.toNat (sliceBits bits low (high + 1))
  else BitString.toNat (sliceBits bits high (low + 1)).reverse

/-- The upper bound of the printed slice: one above the high index when its text binds at least
as tightly as `+`. -/
def IsStop (high : Expr) (highValue stop : Int) : Prop :=
  let text := intExpr constants σ.isBooleanArray high
  if 12 ≤ text.precedence then stop = highValue + 1
  else (exclusiveEnd (simplify constants high) text).eval σ = .ok (.int stop)

/-- A descending range is spelled out only between literals. -/
def SubrangeOk (name : Name) (high low : Expr) (highValue lowValue : Int) : Prop :=
  match σ name with
  | some (.booleans bits) =>
    isDescending (simplify constants high) (simplify constants low) = true ∨
      ∃ stop, IsStop constants σ high highValue stop ∧
        BitString.toNat (sliceBits bits lowValue stop) = subrangeInt bits highValue lowValue
  | some (.boolean _) => False
  | _ => True

/-- `INT` of an integer keeps 32 bits, the emitted text only where it builds a `BitString`. -/
def WordOk (arg : Expr) (value : Int) : Prop :=
  match simplify constants arg with
  | .varRef _ => 0 ≤ value ∧ value < 2 ^ 32
  | .booleanLiteral data bitCount => value % 2 ^ 32 = (combine data % 2 ^ bitCount : Nat)
  | _ => True

def NodeOk : Expr → Prop
  | .varRef name =>
    match constants name with
    | some constant => ∀ value, σ.store.readVar name = .ok value → value = constant
    | none => σ.isBooleanArray name = false
  | .arrayIndex name index => ∀ idx, evalInt σ.store index = .ok idx → IndexOk σ name idx
  | .unaryOp .invert operand => ∀ value, evalInt σ.store operand = .ok value → -2 ^ 32 ≤ value ∧ value < 0
  | .binOp op left right => ∀ a b, evalInt σ.store left = .ok a → evalInt σ.store right = .ok b →
      BinaryOk op (simplify constants left).literal.isSome (simplify constants right).literal.isSome a b ∧
        ChainOk constants σ op left a b
  | .funcCall .int (.varRef name) =>
    match constants name with
    | some constant => ∀ value, evalInt σ.store (.funcCall .int (.varRef name)) = .ok value →
        value = constant % 2 ^ 32
    | none => ∀ value, σ name = some (.integer value) → 0 ≤ value ∧ value < 2 ^ 32
  | .funcCall .int (.arraySubrange name high low) => ∀ highValue lowValue,
      evalInt σ.store high = .ok highValue → evalInt σ.store low = .ok lowValue →
        SubrangeOk constants σ name high low highValue lowValue
  | .funcCall .int (.arrayWhole _) => True
  | .funcCall .int (.booleanLiteral _ _) => True
  | .funcCall .int (.funcCall .bool _) => True
  | .funcCall .int arg => ∀ value, evalInt σ.store arg = .ok value → WordOk constants arg value
  | .booleanLiteral data bitCount => combine data < 2 ^ bitCount
  | _ => True

end

/-! ### Operators on simplified operands -/

theorem foldBinop_eq_arith {op : BinOp} (notCompare : op.isCompare = false) (notAnd : op ≠ .and)
    (notOr : op ≠ .or) (a b : Int) : foldBinop op a b = (PyVal.arith op a b).toOption := by
  cases op <;> first | contradiction | rfl | skip
  all_goals
    rw [foldBinop, PyVal.arith]
    split <;> rfl

theorem ldiff_zero (n : Nat) : Nat.ldiff n 0 = n := by
  apply Nat.eq_of_testBit_eq
  intro i
  rw [Nat.testBit_ldiff, Nat.zero_testBit, Bool.not_false, Bool.and_true]

theorem zero_ldiff (n : Nat) : Nat.ldiff 0 n = 0 := by
  apply Nat.eq_of_testBit_eq
  intro i
  rw [Nat.testBit_ldiff, Nat.zero_testBit, Bool.false_and]

theorem lor_zero_left (b : Int) : Int.lor 0 b = b := by
  cases b with
  | ofNat n => exact congrArg Int.ofNat (Nat.zero_or n)
  | negSucc n => exact congrArg Int.negSucc (ldiff_zero n)

theorem lor_zero_right (a : Int) : Int.lor a 0 = a := by
  cases a with
  | ofNat n => exact congrArg Int.ofNat (Nat.or_zero n)
  | negSucc n => exact congrArg Int.negSucc (ldiff_zero n)

theorem land_zero_left (b : Int) : Int.land 0 b = 0 := by
  cases b with
  | ofNat n => exact congrArg Int.ofNat (Nat.zero_and n)
  | negSucc n => exact congrArg Int.ofNat (zero_ldiff n)

theorem land_zero_right (a : Int) : Int.land a 0 = 0 := by
  cases a with
  | ofNat n => exact congrArg Int.ofNat (Nat.and_zero n)
  | negSucc n => exact congrArg Int.ofNat (zero_ldiff n)

section
variable {σ : Valuation} {isBooleanArray : Name → Bool} {sl sr : Expr} {a b value : Int}

theorem eval_literal (literal : sl.literal = some value) (first : (emitInt isBooleanArray sl).eval σ = .ok (.int a)) :
    a = value := by
  cases sl with
  | intLiteral held =>
    cases literal
    exact (PyVal.int.inj (Except.ok.inj first)).symm
  | _ => cases literal

theorem eval_simplifyUnary (op : UnaryOp) (first : (emitInt isBooleanArray sl).eval σ = .ok (.int a)) :
    (emitInt isBooleanArray (simplifyUnary op sl)).eval σ = .ok (.int (foldUnary op a)) := by
  unfold simplifyUnary
  split
  · rename_i value literal
    rw [eval_literal literal first]
    rfl
  · exact Py.eval_unary op first

theorem eval_simplifyBinop_arith {op : BinOp} (notCompare : op.isCompare = false) (notAnd : op ≠ .and)
    (notOr : op ≠ .or) (first : (emitInt isBooleanArray sl).eval σ = .ok (.int a))
    (second : (emitInt isBooleanArray sr).eval σ = .ok (.int b)) (result : PyVal.arith op a b = .ok value) :
    (emitInt isBooleanArray (simplifyBinop op sl sr)).eval σ = .ok (.int value) := by
  have kept : (emitInt isBooleanArray (.binOp op sl sr)).eval σ = .ok (.int value) := by
    rw [emitInt, Py.eval_arith notCompare notAnd notOr first second, result]
    rfl
  unfold simplifyBinop
  split
  · rename_i folded same
    obtain ⟨x, leftLiteral, rest⟩ := Option.bind_eq_some_iff.mp same
    obtain ⟨y, rightLiteral, folds⟩ := Option.bind_eq_some_iff.mp rest
    rw [← eval_literal leftLiteral first, ← eval_literal rightLiteral second,
      foldBinop_eq_arith notCompare notAnd notOr, result] at folds
    cases folds
    rfl
  · unfold applyIdentities
    split <;> first | contradiction | exact kept | skip
    · split_ifs with zeroLeft zeroRight
      · rw [eval_literal zeroLeft first] at result
        cases result
        rw [lor_zero_left]
        exact second
      · rw [eval_literal zeroRight second] at result
        cases result
        rw [lor_zero_right]
        exact first
      · exact kept
    · split_ifs with zero
      · rcases zero with zeroLeft | zeroRight
        · rw [eval_literal zeroLeft first] at result
          cases result
          rw [land_zero_left]
          rfl
        · rw [eval_literal zeroRight second] at result
          cases result
          rw [land_zero_right]
          rfl
      · exact kept
    · split_ifs with zeroLeft zeroRight
      · rw [eval_literal zeroLeft first] at result
        cases result
        rw [Int.zero_add]
        exact second
      · rw [eval_literal zeroRight second] at result
        cases result
        rw [Int.add_zero]
        exact first
      · exact kept
    · split_ifs with oneLeft oneRight zero
      · rw [eval_literal oneLeft first] at result
        cases result
        rw [Int.one_mul]
        exact second
      · rw [eval_literal oneRight second] at result
        cases result
        rw [Int.mul_one]
        exact first
      · rcases zero with zeroLeft | zeroRight
        · rw [eval_literal zeroLeft first] at result
          cases result
          rw [Int.zero_mul]
          rfl
        · rw [eval_literal zeroRight second] at result
          cases result
          rw [Int.mul_zero]
          rfl
      · exact kept

/-- What the emitted `&&` computes. -/
def andValue (leftLiteral rightLiteral : Bool) (a b : Int) : Int :=
  match leftLiteral, rightLiteral with
  | true, true => truth (a != 0 && b != 0)
  | false, true => if b = 0 then 0 else a
  | _, false => if a = 0 then 0 else b

/-- What the emitted `||` computes. -/
def orValue (leftLiteral rightLiteral : Bool) (a b : Int) : Int :=
  match leftLiteral, rightLiteral with
  | true, true => truth (a != 0 || b != 0)
  | false, true => if b = 0 then a else 1
  | true, false => if a = 0 then b else 1
  | false, false => if a = 0 then b else a

theorem eval_simplifyBinop_and (first : (emitInt isBooleanArray sl).eval σ = .ok (.int a))
    (second : (emitInt isBooleanArray sr).eval σ = .ok (.int b)) :
    (emitInt isBooleanArray (simplifyBinop .and sl sr)).eval σ =
      .ok (.int (andValue sl.literal.isSome sr.literal.isSome a b)) := by
  cases leftLiteral : sl.literal with
  | none =>
    cases rightLiteral : sr.literal with
    | none =>
      have kept := Py.eval_and first second
      simp only [simplifyBinop, applyIdentities, leftLiteral, rightLiteral, Option.bind_eq_bind, Option.bind_none]
      rw [emitInt, kept]
      by_cases zero : a = 0 <;> simp [andValue, zero]
    | some y =>
      have same := eval_literal rightLiteral second
      simp only [simplifyBinop, applyIdentities, leftLiteral, rightLiteral, Option.bind_eq_bind, Option.bind_none]
      by_cases zero : b = 0
      · simp [andValue, zero, ← same]
        rfl
      · simp [andValue, zero, ← same, first]
  | some x =>
    have sameLeft := eval_literal leftLiteral first
    cases rightLiteral : sr.literal with
    | none =>
      simp only [simplifyBinop, applyIdentities, leftLiteral, rightLiteral, Option.bind_eq_bind, Option.bind_none,
        Option.bind_some]
      by_cases zero : a = 0
      · simp [andValue, zero, ← sameLeft]
        rfl
      · simp [andValue, zero, ← sameLeft, second]
    | some y =>
      rw [eval_literal rightLiteral second, sameLeft]
      simp only [simplifyBinop, leftLiteral, rightLiteral, Option.bind_eq_bind, Option.bind_some]
      rfl

theorem eval_simplifyBinop_or (first : (emitInt isBooleanArray sl).eval σ = .ok (.int a))
    (second : (emitInt isBooleanArray sr).eval σ = .ok (.int b)) :
    (emitInt isBooleanArray (simplifyBinop .or sl sr)).eval σ =
      .ok (.int (orValue sl.literal.isSome sr.literal.isSome a b)) := by
  cases leftLiteral : sl.literal with
  | none =>
    cases rightLiteral : sr.literal with
    | none =>
      have kept := Py.eval_or first second
      simp only [simplifyBinop, applyIdentities, leftLiteral, rightLiteral, Option.bind_eq_bind, Option.bind_none]
      rw [emitInt, kept]
      rfl
    | some y =>
      have same := eval_literal rightLiteral second
      simp only [simplifyBinop, applyIdentities, leftLiteral, rightLiteral, Option.bind_eq_bind, Option.bind_none]
      by_cases zero : b = 0
      · simp [orValue, zero, ← same, first]
      · simp [orValue, zero, ← same]
        rfl
  | some x =>
    have sameLeft := eval_literal leftLiteral first
    cases rightLiteral : sr.literal with
    | none =>
      simp only [simplifyBinop, applyIdentities, leftLiteral, rightLiteral, Option.bind_eq_bind, Option.bind_none,
        Option.bind_some]
      by_cases zero : a = 0
      · simp [orValue, zero, ← sameLeft, second]
      · simp [orValue, zero, ← sameLeft]
        rfl
    | some y =>
      rw [eval_literal rightLiteral second, sameLeft]
      simp only [simplifyBinop, leftLiteral, rightLiteral, Option.bind_eq_bind, Option.bind_some]
      rfl

theorem isCompare_emitInt (isBooleanArray : Name → Bool) (e : Expr) :
    (emitInt isBooleanArray e).isCompare = e.isCompare := by
  cases e with
  | arrayWhole name => rw [emitInt]; split <;> rfl
  | funcCall name arg =>
    cases name with
    | int =>
      cases arg with
      | varRef name => rw [emitInt]; split <;> rfl
      | funcCall name arg => cases name <;> rfl
      | _ => rfl
    | _ => rfl
  | _ => rfl

theorem simplifyBinop_compare {op : BinOp} (isCompare : op.isCompare = true) (sl sr : Expr) :
    simplifyBinop op sl sr = .binOp op sl sr ∨ ∃ x y, sl.literal = some x ∧ sr.literal = some y ∧
      simplifyBinop op sl sr = .intLiteral (truth (op.compare x y)) := by
  unfold simplifyBinop
  cases leftLiteral : sl.literal with
  | none => left; cases op <;> first | contradiction | rfl
  | some x =>
    cases rightLiteral : sr.literal with
    | none => left; cases op <;> first | contradiction | rfl
    | some y => right; exact ⟨x, y, rfl, rfl, by cases op <;> first | contradiction | rfl⟩

theorem eval_compare_alone {op : BinOp} (isCompare : op.isCompare = true) (alone : sl.isCompare = false)
    (first : (emitInt isBooleanArray sl).eval σ = .ok (.int a))
    (second : (emitInt isBooleanArray sr).eval σ = .ok (.int b)) :
    (emitInt isBooleanArray (simplifyBinop op sl sr)).eval σ = .ok (.int (truth (op.compare a b))) := by
  rcases simplifyBinop_compare isCompare sl sr with same | ⟨x, y, leftLiteral, rightLiteral, same⟩
  · rw [← isCompare_emitInt isBooleanArray] at alone
    rw [same, emitInt, Py.eval, Py.run_compare isCompare (Py.run_plain alone first) second]
    rfl
  · rw [same, eval_literal leftLiteral first, eval_literal rightLiteral second]
    rfl

theorem run_compare_last {op : BinOp} {left right : Py} (isCompare : op.isCompare = true)
    (outcome : (Py.bin op left right).eval σ = .ok (.int a)) (second : right.eval σ = .ok (.int b)) :
    (Py.bin op left right).run σ = .ok (.int a, if a = 1 then some (.int b) else none) := by
  obtain ⟨_, rightOutcome⟩ := Py.eval_ok second
  rw [Py.eval, Py.run_of_compare isCompare, rightOutcome] at outcome
  rw [Py.run_of_compare isCompare, rightOutcome]
  cases reached : left.run σ with
  | error error => rw [reached] at outcome; cases outcome
  | ok pair =>
    rw [reached] at outcome
    obtain ⟨first, _ | last⟩ := pair
    · cases outcome
      rfl
    · change Except.map _ (do if ← last.compare op (.int b) then _ else _) = _ at outcome
      change (do if ← last.compare op (.int b) then _ else _) = _
      cases compared : last.compare op (.int b) with
      | error error => rw [compared] at outcome; cases outcome
      | ok holds =>
        rw [compared] at outcome
        cases holds <;> cases outcome <;> rfl

theorem run_compare_other {op : BinOp} {left right : Py} (isCompare : op.isCompare = true)
    (outcome : (Py.bin op left right).eval σ = .ok (.int a)) (other : a ≠ 1) :
    (Py.bin op left right).run σ = .ok (.int a, none) := by
  rw [Py.eval, Py.run_of_compare isCompare] at outcome
  rw [Py.run_of_compare isCompare]
  cases reached : left.run σ with
  | error error => rw [reached] at outcome; cases outcome
  | ok pair =>
    rw [reached] at outcome
    obtain ⟨first, _ | last⟩ := pair
    · cases outcome
      rfl
    · cases reachedRight : right.run σ with
      | error error => rw [reachedRight] at outcome; cases outcome
      | ok second =>
        rw [reachedRight] at outcome
        change Except.map _ (do if ← last.compare op second.1 then _ else _) = _ at outcome
        change (do if ← last.compare op second.1 then _ else _) = _
        cases compared : last.compare op second.1 with
        | error error => rw [compared] at outcome; cases outcome
        | ok holds =>
          rw [compared] at outcome
          cases holds <;> cases outcome
          · rfl
          · exact absurd rfl other

theorem eval_compare_chained {op inner : BinOp} {x y : Expr} {held : Int} (isCompare : op.isCompare = true)
    (innerCompare : inner.isCompare = true)
    (first : (emitInt isBooleanArray (.binOp inner x y)).eval σ = .ok (.int 1))
    (middle : (emitInt isBooleanArray y).eval σ = .ok (.int held))
    (second : (emitInt isBooleanArray sr).eval σ = .ok (.int b)) :
    (emitInt isBooleanArray (simplifyBinop op (.binOp inner x y) sr)).eval σ =
      .ok (.int (truth (op.compare held b))) := by
  have last := run_compare_last innerCompare first middle
  rcases simplifyBinop_compare isCompare (.binOp inner x y) sr with same | ⟨_, _, ⟨⟩, _⟩
  rw [if_pos rfl] at last
  rw [same, emitInt, emitInt, Py.eval, Py.run_compare isCompare last second]
  rfl

theorem eval_compare_stopped {op inner : BinOp} {x y : Expr} (isCompare : op.isCompare = true)
    (innerCompare : inner.isCompare = true)
    (first : (emitInt isBooleanArray (.binOp inner x y)).eval σ = .ok (.int a)) (other : a ≠ 1) :
    (emitInt isBooleanArray (simplifyBinop op (.binOp inner x y) sr)).eval σ = .ok (.int 0) := by
  have last := run_compare_other innerCompare first other
  rcases simplifyBinop_compare isCompare (.binOp inner x y) sr with same | ⟨_, _, ⟨⟩, _⟩
  rw [same, emitInt, emitInt, Py.eval, Py.run_compare_false isCompare last]
  rfl

/-! ### Operands that are dropped -/

/-- The value that a dropped operand leaves. -/
def BinOp.absorbed : BinOp → Int
  | .or => 1
  | _ => 0

theorem takesLeft_eq_false {op : BinOp} (dropped : op.takesLeft sr = false) :
    ∃ y, sr.literal = some y ∧ ((op = .and ∨ op = .bitAnd ∨ op = .mul) ∧ y = 0 ∨ op = .or ∧ y ≠ 0) := by
  cases literal : sr.literal with
  | none => cases op <;> simp [BinOp.takesLeft, literal] at dropped
  | some y => cases op <;> simp_all [BinOp.takesLeft]

theorem simplifyBinop_dropsLeft {op : BinOp} (dropped : op.takesLeft sr = false) :
    simplifyBinop op sl sr = .intLiteral op.absorbed := by
  obtain ⟨y, literal, ⟨rfl | rfl | rfl, rfl⟩ | ⟨rfl, nonzero⟩⟩ := takesLeft_eq_false dropped
  all_goals
    cases leftLiteral : sl.literal <;>
      simp_all [simplifyBinop, applyIdentities, foldBinop, BinOp.absorbed, truth, land_zero_right]

theorem evalBinop_dropsLeft {op : BinOp} (dropped : op.takesLeft sr = false)
    (second : (emitInt isBooleanArray sr).eval σ = .ok (.int b)) (leftLiteral : Bool) :
    evalBinop op a b = .ok op.absorbed ∧ BinaryOk op leftLiteral sr.literal.isSome a b := by
  obtain ⟨y, literal, decides⟩ := takesLeft_eq_false dropped
  obtain rfl := eval_literal literal second
  rw [literal]
  obtain ⟨rfl | rfl | rfl, rfl⟩ | ⟨rfl, nonzero⟩ := decides
  · cases leftLiteral <;> simp [evalBinop, BinOp.absorbed, truth, BinaryOk]
  · simp [evalBinop, BinOp.absorbed, BinaryOk, land_zero_right]
  · simp [evalBinop, BinOp.absorbed, BinaryOk, toSigned32, InRange]
  · cases leftLiteral <;> simp [evalBinop, BinOp.absorbed, truth, BinaryOk, nonzero]

end

/-! ### The operand of a chain -/

section
variable {constants : Name → Option Int} {σ : Valuation} {holds : Expr → Prop} {left right : Expr} {a b : Int}

theorem Everywhere.self {e : Expr} (everywhere : Everywhere constants σ holds e) : holds e := by
  unfold Everywhere at everywhere
  split at everywhere <;> first | exact everywhere.1 | exact everywhere

theorem chainOperand_spec {e : Expr} (isCompare : (simplify constants e).isCompare = true) :
    ∃ middle op x, chainOperand constants e = some middle ∧ op.isCompare = true ∧
      simplify constants e = .binOp op x (simplify constants middle) := by
  induction e with
  | binOp op left right ihLeft ihRight =>
    rw [simplify] at isCompare ⊢
    rw [chainOperand]
    by_cases compares : op.isCompare = true
    · rcases simplifyBinop_compare compares (simplify constants left) (simplify constants right) with
        same | ⟨_, _, _, _, same⟩
      · exact ⟨right, op, _, if_pos compares, compares, same⟩
      · rw [same] at isCompare
        cases isCompare
    · rw [if_neg compares]
      rcases simplifyBinop_cases op (simplify constants left) (simplify constants right) with
        ⟨_, same⟩ | same | ⟨literal, same⟩ | same <;> rw [same] at isCompare ⊢
      · cases isCompare
      · have noLiteral : (simplify constants left).literal.isSome = false := by
          cases simplified : simplify constants left with
          | intLiteral value => rw [simplified] at isCompare; cases isCompare
          | _ => rfl
        rw [noLiteral]
        exact ihLeft isCompare
      · rw [if_pos literal]
        exact ihRight isCompare
      · exact absurd isCompare compares
  | varRef name =>
    rw [simplify] at isCompare
    split at isCompare <;> cases isCompare
  | unaryOp op operand =>
    rw [simplify, simplifyUnary] at isCompare
    split at isCompare <;> cases isCompare
  | _ => cases isCompare

theorem evalInt_chainOperand {store : Store} {e middle : Expr} {value : Int}
    (evaluated : evalInt store e = .ok value) (found : chainOperand constants e = some middle) :
    ∃ held, evalInt store middle = .ok held := by
  induction e generalizing value with
  | binOp op left right ihLeft ihRight =>
    obtain ⟨a, b, first, second, _⟩ := evalInt_binOp evaluated
    rw [chainOperand] at found
    split_ifs at found
    · cases found
      exact ⟨b, second⟩
    · exact ihRight second found
    · exact ihLeft first found
  | _ => cases found

theorem emitted_stopped {op : BinOp} (isCompare : op.isCompare = true)
    (chained : (simplify constants left).isCompare = true) (first : emitted constants σ left = .ok (.int a))
    (other : a ≠ 1) : emitted constants σ (.binOp op left right) = .ok (.int 0) := by
  obtain ⟨middle, inner, x, -, innerCompare, simplified⟩ := chainOperand_spec chained
  rw [emitted, intExpr, simplified] at first
  rw [emitted, intExpr, simplify, simplified]
  exact eval_compare_stopped isCompare innerCompare first other

theorem takesRight_of_compare {op : BinOp} {sl sr : Expr} (isCompare : op.isCompare = true)
    (goesOn : sl.isCompare = true → a ≠ 0) : op.takesRight sl sr a = true := by
  cases chained : sl.isCompare <;> cases op <;> simp_all [BinOp.takesRight, BinOp.isCompare]

/-- What stands beside a literal is looked at where it is left as a comparison. -/
theorem takesRight_of_literal {op : BinOp} {sl sr : Expr} {x : Int} (literal : sl.literal = some x)
    (notCompare : op.isCompare = false) (isCompare : (simplifyBinop op sl sr).isCompare = true) :
    op.takesRight sl sr x = true := by
  by_contra dropped
  cases rightLiteral : sr.literal with
  | none =>
    cases op <;> simp_all [BinOp.takesRight, simplifyBinop, applyIdentities, Expr.isCompare]
  | some y =>
    cases op <;> simp_all [BinOp.takesRight, simplifyBinop, foldBinop, Expr.isCompare]

/-- A chain that is true has looked at its last operand. -/
theorem Everywhere.chainOperand {e middle : Expr} {value : Int}
    (everywhere : Everywhere constants σ (Preserved constants σ) e) (evaluated : evalInt σ.store e = .ok value)
    (one : emitted constants σ e = .ok (.int 1)) (isCompare : (simplify constants e).isCompare = true)
    (found : chainOperand constants e = some middle) : Preserved constants σ middle := by
  induction e generalizing value with
  | binOp op left right ihLeft ihRight =>
    obtain ⟨_, takesLeft, takesRight⟩ := everywhere
    obtain ⟨a, b, first, second, _⟩ := evalInt_binOp evaluated
    have keptLeft : op.takesLeft (simplify constants right) = true := by
      by_contra dropped
      rw [simplify, simplifyBinop_dropsLeft (Bool.eq_false_iff.mpr dropped)] at isCompare
      cases isCompare
    have leftEmitted := (takesLeft keptLeft).self a first
    rw [Stapl.chainOperand] at found
    split_ifs at found with compares literal
    · cases found
      refine (takesRight a first (takesRight_of_compare compares ?_)).self
      rintro chained rfl
      rw [emitted_stopped compares chained leftEmitted (by decide)] at one
      cases one
    · obtain ⟨x, literal⟩ := Option.isSome_iff_exists.mp literal
      rw [simplify] at isCompare
      have kept := takesRight_of_literal literal (Bool.eq_false_iff.mpr compares) isCompare
      rw [← eval_literal literal leftEmitted] at kept
      have same : simplifyBinop op (simplify constants left) (simplify constants right) = simplify constants right := by
        rcases simplifyBinop_cases op (simplify constants left) (simplify constants right) with
          ⟨_, same⟩ | same | ⟨_, same⟩ | same
        · rw [same] at isCompare
          cases isCompare
        · rw [same] at isCompare
          cases simplified : simplify constants left with
          | binOp => rw [simplified] at literal; cases literal
          | _ => rw [simplified] at isCompare; cases isCompare
        · exact same
        · rw [same] at isCompare
          exact absurd isCompare compares
      rw [emitted, intExpr, simplify, same] at one
      rw [same] at isCompare
      exact ihRight (takesRight a first kept) second one isCompare found
    · have same : simplifyBinop op (simplify constants left) (simplify constants right) = simplify constants left := by
        rw [simplify] at isCompare
        rcases simplifyBinop_cases op (simplify constants left) (simplify constants right) with
          ⟨_, same⟩ | same | ⟨isLiteral, _⟩ | same
        · rw [same] at isCompare
          cases isCompare
        · exact same
        · exact absurd isLiteral literal
        · rw [same] at isCompare
          exact absurd isCompare compares
      rw [emitted, intExpr, simplify, same] at one
      rw [simplify, same] at isCompare
      exact ihLeft (takesLeft keptLeft) first one isCompare found
  | _ => cases found

end

/-! ### Operators -/

theorem toSigned32_near {value other : Int} (near : (value - other).natAbs ≤ 2) (same : toSigned32 value = other) :
    value = other := by
  unfold toSigned32 at same
  split at same <;> omega

theorem truth_eq_iff (p q : Bool) : truth p = truth q ↔ p = q := by
  cases p <;> cases q <;> decide

theorem quotient_eq_floor {a b quotient : Int} (result : DoubleDivision.truncated a b = some quotient) :
    toSigned32 quotient = a.fdiv b ↔ InRange (a.fdiv b) ∧ quotient = a.fdiv b := by
  constructor
  · intro same
    have range := toSigned32_inRange quotient
    rw [same] at range
    have near := DoubleDivision.truncated_near_floor result (by unfold InRange at range; omega)
    exact ⟨range, toSigned32_near near same⟩
  · rintro ⟨range, rfl⟩
    exact (toSigned32_eq_iff _).mpr range

theorem andValue_eq_iff (leftLiteral rightLiteral : Bool) (a b : Int) :
    truth (a != 0 && b != 0) = andValue leftLiteral rightLiteral a b ↔
      BinaryOk .and leftLiteral rightLiteral a b := by
  unfold andValue BinaryOk IsBit truth
  by_cases first : a = 0 <;> by_cases second : b = 0 <;> cases leftLiteral <;> cases rightLiteral <;>
    simp [first, second] <;> omega

theorem orValue_eq_iff (leftLiteral rightLiteral : Bool) (a b : Int) :
    truth (a != 0 || b != 0) = orValue leftLiteral rightLiteral a b ↔
      BinaryOk .or leftLiteral rightLiteral a b := by
  unfold orValue BinaryOk IsBit truth
  by_cases first : a = 0 <;> by_cases second : b = 0 <;> cases leftLiteral <;> cases rightLiteral <;>
    simp [first, second] <;> omega

section
variable {constants : Name → Option Int} {σ : Valuation} {left right : Expr} {a b : Int}

theorem results_iff {result : Except Error Int} {outcome : Except Error PyVal} {value : Int}
    (known : outcome = .ok (.int value)) :
    (∀ v, result = .ok v → outcome = .ok (.int v)) ↔ ∀ v, result = .ok v → v = value := by
  rw [known]
  constructor
  · intro same v evaluated
    exact (PyVal.int.inj (Except.ok.inj (same v evaluated))).symm
  · intro same v evaluated
    rw [same v evaluated]

theorem wrapped_iff {result : Except Error Int} {outcome : Except Error PyVal} {value : Int}
    (known : outcome = .ok (.int value)) (same : result = .ok (toSigned32 value)) :
    (∀ v, result = .ok v → outcome = .ok (.int v)) ↔ InRange value := by
  rw [results_iff known, same, ← toSigned32_eq_iff]
  exact ⟨fun agree => agree _ rfl, fun agree v evaluated => (Except.ok.inj evaluated).symm.trans agree⟩

theorem exact_iff {result : Except Error Int} {outcome : Except Error PyVal} {value : Int}
    (known : outcome = .ok (.int value)) (same : result = .ok value) :
    (∀ v, result = .ok v → outcome = .ok (.int v)) ↔ True := by
  rw [results_iff known, same]
  exact ⟨fun _ => trivial, fun _ v evaluated => (Except.ok.inj evaluated).symm⟩

theorem raised_iff {result : Except Error Int} {outcome : Except Error PyVal} {error : Error}
    (same : result = .error error) : (∀ v, result = .ok v → outcome = .ok (.int v)) ↔ True := by
  rw [same]
  exact ⟨fun _ => trivial, fun _ v evaluated => by cases evaluated⟩

theorem binary_arith_iff {op : BinOp} (notCompare : op.isCompare = false) (notAnd : op ≠ .and) (notOr : op ≠ .or)
    (first : emitted constants σ left = .ok (.int a)) (second : emitted constants σ right = .ok (.int b)) :
    (∀ v, evalBinop op a b = .ok v → emitted constants σ (.binOp op left right) = .ok (.int v)) ↔
      BinaryOk op (simplify constants left).literal.isSome (simplify constants right).literal.isSome a b := by
  have known {value : Int} (result : PyVal.arith op a b = .ok value) :
      emitted constants σ (.binOp op left right) = .ok (.int value) :=
    eval_simplifyBinop_arith notCompare notAnd notOr first second result
  cases op with
  | add => exact wrapped_iff (known rfl) rfl
  | sub => exact wrapped_iff (known rfl) rfl
  | mul => exact wrapped_iff (known rfl) rfl
  | bitAnd => exact exact_iff (known rfl) rfl
  | bitOr => exact exact_iff (known rfl) rfl
  | bitXor => exact exact_iff (known rfl) rfl
  | mod =>
    by_cases zero : b = 0
    · exact raised_iff (if_pos zero)
    · exact exact_iff (known (if_neg zero)) (if_neg zero)
  | shiftLeft =>
    by_cases negative : b < 0
    · rw [raised_iff (by rw [evalBinop, shiftLeft, if_pos negative]; rfl)]
      exact ⟨fun _ low => absurd low (by omega), fun _ => trivial⟩
    · rw [wrapped_iff (known (if_neg negative)) (by rw [evalBinop, shiftLeft, if_neg negative]; rfl)]
      exact ⟨fun range _ => range, fun range => range (by omega)⟩
  | shiftRight =>
    by_cases negative : b < 0
    · rw [raised_iff (by rw [evalBinop, shiftRight, if_pos negative]; rfl)]
      exact ⟨fun _ low => absurd low (by omega), fun _ => trivial⟩
    · rw [wrapped_iff (known (if_neg negative)) (by rw [evalBinop, shiftRight, if_neg negative]; rfl)]
      exact ⟨fun range _ => range, fun range => range (by omega)⟩
  | div =>
    by_cases zero : b = 0
    · have raised : evalBinop .div a b = .error (.staplRuntimeError "Division by zero") := if_pos zero
      rw [raised_iff raised]
      exact ⟨fun _ quotient nonzero => absurd zero nonzero, fun _ => trivial⟩
    · rw [results_iff (known (if_neg zero)), evalBinop, if_neg zero]
      cases divided : DoubleDivision.truncated a b with
      | none =>
        constructor
        · intro _ quotient _ result
          rw [divided] at result
          cases result
        · rintro _ v ⟨⟩
      | some quotient =>
        have same := quotient_eq_floor divided
        constructor
        · intro agree other _ result
          rw [divided] at result
          cases result
          exact same.mp (agree _ rfl)
        · intro ok v evaluated
          cases evaluated
          exact same.mpr (ok quotient zero divided)
  | and => exact absurd rfl notAnd
  | or => exact absurd rfl notOr
  | _ => cases notCompare

theorem chainOk_of_not_compare {op : BinOp} (notCompare : op.isCompare = false) :
    ChainOk constants σ op left a b := by
  intro isCompare
  rw [notCompare] at isCompare
  cases isCompare

/-- The right operand is not looked at: the left one has decided. -/
theorem dropsRight_iff {op : BinOp} (notCompare : op.isCompare = false)
    (keptLeft : op.takesLeft (simplify constants right) = true)
    (dropped : op.takesRight (simplify constants left) (simplify constants right) a = false)
    (first : emitted constants σ left = .ok (.int a)) :
    (∀ v, evalBinop op a b = .ok v → emitted constants σ (.binOp op left right) = .ok (.int v)) ↔
      BinaryOk op (simplify constants left).literal.isSome (simplify constants right).literal.isSome a b := by
  have text : emitted constants σ (.binOp op left right) =
      (emitInt σ.isBooleanArray (simplifyBinop op (simplify constants left) (simplify constants right))).eval σ := rfl
  rw [emitted, intExpr] at first
  rw [text]
  generalize simplify constants left = sl at dropped first ⊢
  generalize simplify constants right = sr at keptLeft dropped ⊢
  cases op <;> simp only [BinOp.takesRight, keptLeft, Bool.not_true, Bool.or_false, notCompare, Bool.false_and,
    Bool.not_false, Bool.true_eq_false, bne_eq_false_iff_eq, Bool.or_eq_false_iff, beq_eq_false_iff_ne] at dropped
  case and =>
    subst dropped
    have known : (emitInt σ.isBooleanArray (simplifyBinop .and sl sr)).eval σ = .ok (.int 0) := by
      cases leftLiteral : sl.literal with
      | some x =>
        obtain rfl := eval_literal leftLiteral first
        cases rightLiteral : sr.literal <;> simp [simplifyBinop, applyIdentities, foldBinop, leftLiteral, rightLiteral] <;> rfl
      | none =>
        cases rightLiteral : sr.literal with
        | none => simp [simplifyBinop, applyIdentities, leftLiteral, rightLiteral, emitInt, Py.eval_and_stopped first]
        | some y =>
          have nonzero : y ≠ 0 := by simpa [BinOp.takesLeft, rightLiteral] using keptLeft
          simp [simplifyBinop, applyIdentities, leftLiteral, rightLiteral, nonzero, first]
    rw [exact_iff known (show evalBinop .and 0 b = .ok 0 from rfl), true_iff]
    cases sl.literal <;> cases sr.literal <;> simp [BinaryOk, IsBit]
  case or =>
    obtain ⟨nonzero, literals⟩ := dropped
    have result : evalBinop .or a b = .ok 1 := by simp [evalBinop, truth, nonzero]
    cases leftLiteral : sl.literal with
    | some x =>
      obtain rfl := eval_literal leftLiteral first
      have known : (emitInt σ.isBooleanArray (simplifyBinop .or sl sr)).eval σ = .ok (.int 1) := by
        cases rightLiteral : sr.literal <;>
          simp [simplifyBinop, applyIdentities, foldBinop, leftLiteral, rightLiteral, nonzero, truth] <;> rfl
      rw [exact_iff known result, true_iff]
      cases sr.literal <;> simp [BinaryOk, nonzero]
    | none =>
      rw [leftLiteral] at literals
      cases rightLiteral : sr.literal with
      | some y => rw [rightLiteral] at literals; cases literals
      | none =>
        have known : (emitInt σ.isBooleanArray (simplifyBinop .or sl sr)).eval σ = .ok (.int a) := by
          simp [simplifyBinop, applyIdentities, leftLiteral, rightLiteral, emitInt, Py.eval_or_stopped first nonzero]
        rw [results_iff known, result]
        simp [BinaryOk, nonzero, eq_comm]
  case bitAnd =>
    have zero := eval_literal dropped first
    subst zero
    have known : (emitInt σ.isBooleanArray (simplifyBinop .bitAnd sl sr)).eval σ = .ok (.int 0) := by
      cases rightLiteral : sr.literal <;>
        simp [simplifyBinop, applyIdentities, foldBinop, dropped, rightLiteral, land_zero_left] <;> rfl
    rw [exact_iff known (by rw [evalBinop, land_zero_left]), true_iff]
    trivial
  case mul =>
    have zero := eval_literal dropped first
    subst zero
    have known : (emitInt σ.isBooleanArray (simplifyBinop .mul sl sr)).eval σ = .ok (.int 0) := by
      cases rightLiteral : sr.literal with
      | none => simp [simplifyBinop, applyIdentities, dropped, rightLiteral]; rfl
      | some y => simp [simplifyBinop, foldBinop, dropped, rightLiteral]; rfl
    rw [exact_iff known (by simp [evalBinop, toSigned32]), true_iff]
    simp [BinaryOk, InRange]

/-- One binary operator whose operands are preserved as far as they are looked at. -/
theorem binOp_iff {op : BinOp} (evaluated : evalInt σ.store left = .ok a) (rightValue : evalInt σ.store right = .ok b)
    (preserved : op.takesLeft (simplify constants right) = true → Everywhere constants σ (Preserved constants σ) left)
    (kept : op.takesRight (simplify constants left) (simplify constants right) a = true → Preserved constants σ right) :
    (∀ v, evalBinop op a b = .ok v → emitted constants σ (.binOp op left right) = .ok (.int v)) ↔
      BinaryOk op (simplify constants left).literal.isSome (simplify constants right).literal.isSome a b ∧
        ChainOk constants σ op left a b := by
  by_cases isCompare : op.isCompare = true
  · have result : evalBinop op a b = .ok (truth (op.compare a b)) := by
      cases op <;> first | rfl | cases isCompare
    have noBound : BinaryOk op (simplify constants left).literal.isSome
        (simplify constants right).literal.isSome a b := by
      cases op <;> trivial
    have everywhere := preserved (by cases op <;> first | rfl | cases isCompare)
    have first := everywhere.self a evaluated
    by_cases chained : (simplify constants left).isCompare = true
    · obtain ⟨middle, inner, x, found, innerCompare, simplified⟩ := chainOperand_spec chained
      obtain ⟨held, middleValue⟩ := evalInt_chainOperand evaluated found
      have known : emitted constants σ (.binOp op left right) =
          .ok (.int (truth (a == 1 && op.compare held b))) := by
        by_cases one : a = 1
        · subst one
          have middleEmitted := everywhere.chainOperand evaluated first chained found held middleValue
          have second := kept (takesRight_of_compare isCompare fun _ => one_ne_zero) b rightValue
          rw [emitted, intExpr, simplified] at first
          rw [emitted, intExpr, simplify, simplified]
          exact eval_compare_chained isCompare innerCompare first middleEmitted second
        · rw [emitted_stopped isCompare chained first one, beq_false_of_ne one]
          rfl
      rw [results_iff known, result]
      constructor
      · intro agree
        refine ⟨noBound, fun _ _ other value otherFound otherValue => ?_⟩
        rw [found] at otherFound
        cases otherFound
        rw [middleValue] at otherValue
        cases otherValue
        exact (truth_eq_iff _ _).mp (agree _ rfl)
      · rintro ⟨_, chain⟩ v same
        cases same
        exact (truth_eq_iff _ _).mpr (chain isCompare chained middle held found middleValue)
    · have second := kept (takesRight_of_compare isCompare fun compares => absurd compares chained) b rightValue
      have known : emitted constants σ (.binOp op left right) = .ok (.int (truth (op.compare a b))) :=
        eval_compare_alone isCompare (Bool.eq_false_iff.mpr chained) first second
      rw [exact_iff known result]
      exact ⟨fun _ => ⟨noBound, fun _ compares => absurd compares chained⟩, fun _ => trivial⟩
  · have notCompare := Bool.eq_false_iff.mpr isCompare
    have chain : ChainOk constants σ op left a b := chainOk_of_not_compare notCompare
    rw [and_iff_left chain]
    by_cases keptLeft : op.takesLeft (simplify constants right) = true
    · have first := (preserved keptLeft).self a evaluated
      by_cases keptRight : op.takesRight (simplify constants left) (simplify constants right) a = true
      · have second := kept keptRight b rightValue
        by_cases isAnd : op = .and
        · subst isAnd
          have known : emitted constants σ (.binOp .and left right) = _ := eval_simplifyBinop_and first second
          rw [results_iff known, ← andValue_eq_iff]
          exact ⟨fun agree => agree _ rfl, fun agree v same => (Except.ok.inj same).symm.trans agree⟩
        · by_cases isOr : op = .or
          · subst isOr
            have known : emitted constants σ (.binOp .or left right) = _ := eval_simplifyBinop_or first second
            rw [results_iff known, ← orValue_eq_iff]
            exact ⟨fun agree => agree _ rfl, fun agree v same => (Except.ok.inj same).symm.trans agree⟩
          · exact binary_arith_iff notCompare isAnd isOr first second
      · exact dropsRight_iff notCompare keptLeft (Bool.eq_false_iff.mpr keptRight) first
    · have dropped := Bool.eq_false_iff.mpr keptLeft
      have second := kept (by obtain ⟨y, literal, ⟨rfl | rfl | rfl, rfl⟩ | ⟨rfl, nonzero⟩⟩ := takesLeft_eq_false dropped <;>
        simp [BinOp.takesRight, dropped]) b rightValue
      obtain ⟨result, ok⟩ := @evalBinop_dropsLeft σ σ.isBooleanArray (simplify constants right) a b op dropped second
        (simplify constants left).literal.isSome
      have known : emitted constants σ (.binOp op left right) = .ok (.int op.absorbed) := by
        rw [emitted, intExpr, simplify, simplifyBinop_dropsLeft dropped]
        rfl
      rw [exact_iff known result, true_iff]
      exact ok

end

end Acrobe.Stapl
