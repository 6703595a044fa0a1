import Acrobe.Stapl.Evaluate

/-!
# Simplifying expressions

The transpiler folds constant expressions and applies algebraic identities before it emits an
expression. The folding computes with unbounded integers.
-/

namespace Acrobe.Stapl

/-! ### Folding -/

def foldUnary : UnaryOp → Int → Int
  | .neg, v => -v
  | .invert, v => -v - 1
  | .not, v => truth (v == 0)

/-- The operators of `_try_const_fold`. A negative shift count, where Python raises a
`ValueError` and the transpiler stops, is not folded. -/
def foldBinop (op : BinOp) (lv rv : Int) : Option Int :=
  match op with
  | .add => some (lv + rv)
  | .sub => some (lv - rv)
  | .mul => some (lv * rv)
  | .div => if rv = 0 then none else some (lv.fdiv rv)
  | .mod => if rv = 0 then none else some (lv.fmod rv)
  | .shiftLeft => (shiftLeft lv rv).toOption
  | .shiftRight => (shiftRight lv rv).toOption
  | .bitAnd => some (Int.land lv rv)
  | .bitOr => some (Int.lor lv rv)
  | .bitXor => some (Int.xor lv rv)
  | .and => some (truth (lv != 0 && rv != 0))
  | .or => some (truth (lv != 0 || rv != 0))
  | op => some (truth (op.compare lv rv))

/-- `_try_const_fold`. -/
def tryConstFold (constants : Name → Option Int) : Expr → Option Int
  | .intLiteral value => some value
  | .varRef name => constants name
  | .unaryOp op operand => (tryConstFold constants operand).map (foldUnary op)
  | .binOp op left right => do
    let lv ← tryConstFold constants left
    let rv ← tryConstFold constants right
    foldBinop op lv rv
  | _ => none

def noConstants : Name → Option Int := fun _ => none

/-! ### Simplification -/

def Expr.literal : Expr → Option Int
  | .intLiteral value => some value
  | _ => none

def simplifyUnary (op : UnaryOp) (s : Expr) : Expr :=
  match s.literal with
  | some value => .intLiteral (foldUnary op value)
  | none => .unaryOp op s

/-- The algebraic identities of `_simplify`. -/
def applyIdentities (op : BinOp) (sl sr : Expr) : Expr :=
  match op, sl.literal, sr.literal with
  | .or, some a, _ => if a ≠ 0 then .intLiteral 1 else sr
  | .or, none, some b => if b ≠ 0 then .intLiteral 1 else sl
  | .and, some a, _ => if a ≠ 0 then sr else .intLiteral 0
  | .and, none, some b => if b ≠ 0 then sl else .intLiteral 0
  | .bitOr, a, b => if a = some 0 then sr else if b = some 0 then sl else .binOp .bitOr sl sr
  | .bitAnd, a, b => if a = some 0 ∨ b = some 0 then .intLiteral 0 else .binOp .bitAnd sl sr
  | .add, a, b => if a = some 0 then sr else if b = some 0 then sl else .binOp .add sl sr
  | .mul, a, b =>
    if a = some 1 then sr else if b = some 1 then sl
    else if a = some 0 ∨ b = some 0 then .intLiteral 0 else .binOp .mul sl sr
  | op, _, _ => .binOp op sl sr

def simplifyBinop (op : BinOp) (sl sr : Expr) : Expr :=
  match (do foldBinop op (← sl.literal) (← sr.literal)) with
  | some value => .intLiteral value
  | none => applyIdentities op sl sr

/-- `_simplify`. -/
def simplify (constants : Name → Option Int) : Expr → Expr
  | .varRef name =>
    match constants name with
    | some value => .intLiteral value
    | none => .varRef name
  | .unaryOp op operand => simplifyUnary op (simplify constants operand)
  | .binOp op left right => simplifyBinop op (simplify constants left) (simplify constants right)
  | .funcCall name arg => .funcCall name (simplify constants arg)
  | .arrayIndex name index => .arrayIndex name (simplify constants index)
  | .arraySubrange name high low => .arraySubrange name (simplify constants high) (simplify constants low)
  | .intLiteral value => .intLiteral value
  | .arrayWhole name => .arrayWhole name
  | .booleanLiteral data bitCount => .booleanLiteral data bitCount

theorem simplifyBinop_cases (op : BinOp) (sl sr : Expr) :
    (∃ value, simplifyBinop op sl sr = .intLiteral value) ∨ simplifyBinop op sl sr = sl ∨
      sl.literal.isSome = true ∧ simplifyBinop op sl sr = sr ∨ simplifyBinop op sl sr = .binOp op sl sr := by
  unfold simplifyBinop
  split
  · exact Or.inl ⟨_, rfl⟩
  · unfold applyIdentities
    split <;> (try split_ifs) <;> simp_all

theorem simplify_simplify (constants : Name → Option Int) (e : Expr) :
    simplify constants (simplify constants e) = simplify constants e := by
  induction e with
  | intLiteral value => rfl
  | arrayWhole name => rfl
  | booleanLiteral data bitCount => rfl
  | varRef name =>
    rw [simplify]
    cases known : constants name with
    | some value => rfl
    | none => rw [simplify, known]
  | arrayIndex name index ih => rw [simplify, simplify, ih]
  | arraySubrange name high low ihHigh ihLow => rw [simplify, simplify, ihHigh, ihLow]
  | funcCall name arg ih => rw [simplify, simplify, ih]
  | unaryOp op operand ih =>
    rw [simplify, simplifyUnary]
    cases same : (simplify constants operand).literal with
    | some value => rfl
    | none => rw [simplify, ih, simplifyUnary, same]
  | binOp op left right ihLeft ihRight =>
    rw [simplify]
    rcases simplifyBinop_cases op (simplify constants left) (simplify constants right) with
      ⟨value, same⟩ | same | ⟨-, same⟩ | same <;> rw [same]
    · rfl
    · exact ihLeft
    · exact ihRight
    · rw [simplify, ihLeft, ihRight, same]

theorem literal_of_tryConstFold {constants : Name → Option Int} {e : Expr} {value : Int}
    (folded : tryConstFold noConstants (simplify constants e) = some value) :
    simplify constants e = .intLiteral value := by
  induction e generalizing value with
  | intLiteral literal => exact congrArg Expr.intLiteral (Option.some.inj folded)
  | arrayWhole name => cases folded
  | booleanLiteral data bitCount => cases folded
  | arrayIndex name index => cases folded
  | arraySubrange name high low => cases folded
  | funcCall name arg => cases folded
  | varRef name =>
    rw [simplify] at folded ⊢
    cases known : constants name with
    | some literal =>
      rw [known] at folded
      exact congrArg Expr.intLiteral (Option.some.inj folded)
    | none =>
      rw [known] at folded
      cases folded
  | unaryOp op operand ih =>
    rw [simplify, simplifyUnary] at folded ⊢
    cases same : (simplify constants operand).literal with
    | some literal =>
      rw [same] at folded
      exact congrArg Expr.intLiteral (Option.some.inj folded)
    | none =>
      rw [same] at folded
      obtain ⟨inner, innerFolded, _⟩ := Option.map_eq_some_iff.mp folded
      rw [ih innerFolded] at same
      cases same
  | binOp op left right ihLeft ihRight =>
    rw [simplify] at folded ⊢
    rcases simplifyBinop_cases op (simplify constants left) (simplify constants right) with
      ⟨literal, same⟩ | same | ⟨-, same⟩ | same <;> rw [same] at folded ⊢
    · exact congrArg Expr.intLiteral (Option.some.inj folded)
    · exact ihLeft folded
    · exact ihRight folded
    · obtain ⟨lv, leftFolded, rest⟩ := Option.bind_eq_some_iff.mp folded
      obtain ⟨rv, rightFolded, result⟩ := Option.bind_eq_some_iff.mp rest
      rw [ihLeft leftFolded, ihRight rightFolded, simplifyBinop] at same
      simp only [Expr.literal, Option.bind_eq_bind, Option.bind_some, result] at same
      cases same

end Acrobe.Stapl
