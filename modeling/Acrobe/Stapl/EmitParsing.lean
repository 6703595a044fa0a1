import Acrobe.Stapl.EmitText

/-!
# Reading emitted expressions

The tree that Python reads in an emitted expression, next to the tree that is meant. They are the same where no
comparison is the left operand of another one and the bounds of slices that end one later bind as tightly as a sum.
-/

namespace Acrobe.Stapl
open LittleEndian Acrobe.Storage Python

/-! ### Precedence -/

theorem UnaryOp.precedence_py (op : UnaryOp) : op.precedence = op.py.level + 4 := by cases op <;> rfl

theorem BinOp.precedence_py (op : BinOp) : op.precedence = op.py.level + 4 := by cases op <;> rfl

/-- The level of the rule for the text of an expression. -/
def Expr.level : Expr → Nat
  | .unaryOp op _ => op.py.level
  | .binOp op _ _ => op.py.level
  | .intLiteral _ | .booleanLiteral _ _ => 10
  | _ => 11

def Expr.isBinary : Expr → Bool
  | .binOp _ _ _ => true
  | _ => false

def Expr.isComparison : Expr → Bool
  | .binOp op _ _ => op.py.isCompare
  | _ => false

theorem Expr.level_le (e : Expr) : e.level ≤ 11 := by
  cases e with
  | unaryOp op _ => exact Nat.le_of_lt op.py.level_lt
  | binOp op _ _ => exact Nat.le_of_lt (Nat.lt_succ_of_lt op.py.level_lt)
  | intLiteral _ | booleanLiteral _ _ => exact Nat.le_succ 10
  | _ => exact Nat.le_refl 11

/-! ### Integers -/

def intTree (value : Int) : Tree := if value < 0 then .unary .neg (.number value.natAbs) else .number value.natAbs

def memberTree (className member : Name) : Tree := .field (.name className.toList) member.toList

def flagsPositiveTree (value : Int) (bdef : BitfieldDef) : Option Tree :=
  match takeFlags bdef.masks value with
  | ([], _) => none
  | (flag :: flags, remaining) =>
    some ((flags.map (memberTree bdef.className) ++ if remaining ≠ 0 then [intTree remaining] else []).foldl
      (.binary .bitOr) (memberTree bdef.className flag))

def flagsTree (value : Int) (bdef : BitfieldDef) : Tree :=
  if value = 0 then .number 0
  else if value < 0 then
    match flagsPositiveTree (-value - 1) bdef with
    | some inv => .unary .invert inv
    | none => intTree value
  else (flagsPositiveTree value bdef).getD (intTree value)

def typedTree (value : Int) : Option TypeHint → Tree
  | some (.enum edef) =>
    match edef.values.lookup value with
    | some member => memberTree edef.className member
    | none => intTree value
  | some (.bitfield bdef) => flagsTree value bdef
  | none => intTree value

/-! ### Expressions -/

def callTree (func : List Char) (arg : Tree) : Tree := .call (.name func) arg

def bitStringTree (data : Tree) (length : Nat) : Tree := .callTwo (.name bitStringName) data (.number length)

def addOne (tree : Tree) : Tree := .binary .add tree (.number 1)

def subrangeTree (arr : Tree) (descending : Bool) (high low highEnd lowEnd : Tree) : Tree :=
  if descending then .callNone (.field (.slice arr high lowEnd) reversedName) else .slice arr low highEnd

/-- Read, a comparison chains to one on its left. -/
def joinTrees (asRead : Bool) (op : Python.BinaryOp) (left : Expr) (leftTree rightTree : Tree) : Tree :=
  if asRead then op.join left.isComparison leftTree rightTree else .binary op leftTree rightTree

namespace ExprEmitter
variable (em : ExprEmitter)

def refTree (name : Name) : Tree :=
  if name ∈ em.localVars then .name name.toList else .field (.name selfName) name.toList

mutual
def tree (asRead : Bool) : Expr → Option TypeHint → Tree
  | .intLiteral value, hint => typedTree value hint
  | .varRef name, _ => em.refTree name
  | .arrayIndex name index, _ => .subscript (em.refTree name) (tree asRead index none)
  | .arraySubrange name high low, _ =>
    callTree intName (subrangeTree (em.refTree name) (isDescending high low)
      (tree asRead high none) (tree asRead low none)
      (treeEnd asRead high (plusOne asRead high none (tree asRead high none)))
      (treeEnd asRead low (plusOne asRead low none (tree asRead low none))))
  | .arrayWhole name, _ => if em.isBooleanArray name then callTree intName (em.refTree name) else em.refTree name
  | .unaryOp op operand, _ => .unary op.py (tree asRead operand none)
  | .binOp op left right, hint =>
    joinTrees asRead op.py left (tree asRead left (em.childHint op left right hint))
      (tree asRead right (em.childHint op left right hint))
  | .funcCall .abs arg, _ => callTree absName (tree asRead arg none)
  | .funcCall .int arg, _ => treeOfBits asRead arg (tree asRead arg none)
  | .funcCall .chr arg, _ => callTree chrName (tree asRead arg none)
  | .funcCall .bool arg, _ => callTree boolName (tree asRead arg none)
  | .booleanLiteral data _, _ => intTree (combine data)

/-- The exclusive end of a slice, next to the sum of the bound and one. -/
def treeEnd (asRead : Bool) : Expr → Tree → Tree
  | .binOp .sub left (.intLiteral 1), _ => tree asRead left none
  | .intLiteral value, _ => intTree (value + 1)
  | _, sum => sum

def treeOfBits (asRead : Bool) : Expr → Tree → Tree
  | .arraySubrange name high low, _ =>
    callTree intName (subrangeTree (em.refTree name) (isDescending high low)
      (tree asRead high none) (tree asRead low none)
      (treeEnd asRead high (plusOne asRead high none (tree asRead high none)))
      (treeEnd asRead low (plusOne asRead low none (tree asRead low none))))
  | .arrayWhole name, _ => callTree intName (em.refTree name)
  | .varRef name, _ => if em.isBooleanArray name then callTree intName (em.refTree name) else em.refTree name
  | .booleanLiteral data bitCount, _ => callTree intName (bitStringTree (.bytes data) bitCount)
  | .funcCall .bool arg, _ => callTree intName (bitStringTree (tree asRead arg none) 32)
  | _, operand => callTree intName (bitStringTree operand 32)

/-- `+ 1` behind an expression. Read, it goes to the last operand of a looser operator. -/
def plusOne (asRead : Bool) : Expr → Option TypeHint → Tree → Tree
  | .unaryOp .not operand, _, whole =>
    if asRead then
      .unary .not (if operand.level < 2 then addOne (tree asRead operand none)
        else plusOne asRead operand none (tree asRead operand none))
    else addOne whole
  | .binOp op left right, hint, whole =>
    if asRead && op.py.level < 8 then
      joinTrees asRead op.py left (tree asRead left (em.childHint op left right hint))
        (if right.level < op.py.level + 1 then addOne (tree asRead right (em.childHint op left right hint))
          else plusOne asRead right (em.childHint op left right hint)
            (tree asRead right (em.childHint op left right hint)))
    else addOne whole
  | _, _, whole => addOne whole
end

def meaning (e : Expr) (hint : Option TypeHint) : Tree := em.tree false (simplify em.constants e) hint

end ExprEmitter

/-- No comparison is the left operand of another one, and a bound that `+ 1` is written behind binds as tightly as
a sum. -/
def Expr.Keeps : Expr → Prop
  | .arrayIndex _ index => index.Keeps
  | .arraySubrange _ high low =>
    8 ≤ (if isDescending high low then low.level else high.level) ∧ high.Keeps ∧ low.Keeps
  | .unaryOp _ operand => operand.Keeps
  | .binOp op left right => ¬(op.py.isCompare = true ∧ left.isComparison = true) ∧ left.Keeps ∧ right.Keeps
  | .funcCall _ arg => arg.Keeps
  | _ => True

/-! ### Printed integers -/

theorem spelled_intText (value : Int) : Spelled 10 false (intText value) (intTree value) := by
  unfold intText intTree
  split
  · exact .neg ((Spelled.number _).climb (by decide) (by decide))
  · exact (Spelled.number _).climb (by decide) (by decide)

theorem spelled_hexText {value : Int} (large : 255 < value.natAbs) :
    Spelled 10 false (if 0 ≤ value then '0' :: 'x' :: upperHex value.natAbs else '-' :: '0' :: 'x' :: upperHex value.natAbs)
      (intTree value) := by
  have digits := (Spelled.hex (Nat.zero_lt_of_lt large)).climb (Nat.lt_succ_self 10) (Nat.le_refl 11)
  unfold intTree
  by_cases negative : value < 0
  · rw [if_neg (by omega), if_pos negative]
    exact .neg digits
  · rw [if_pos (by omega), if_neg negative]
    exact digits

theorem spelled_fmtInt (value : Int) : Spelled 10 false (fmtInt value) (intTree value) := by
  unfold fmtInt
  split
  · exact spelled_hexText ‹_›
  · exact spelled_intText value

theorem spelled_remaining (value : Int) : Spelled 10 false (remainingText value) (intTree value) := by
  unfold remainingText
  split
  · rename_i large
    have digits := @spelled_hexText value (by omega)
    rwa [if_pos (by omega)] at digits
  · exact spelled_intText value

/-! ### Printed flags -/

theorem spelled_member {className member : Name} (legal : (memberTree className member).Legal) :
    Spelled 11 false (memberText className member) (memberTree className member) := by
  obtain ⟨first, second⟩ := (Tree.legal_field _ _).mp legal
  exact .field ((Tree.legal_name _).mp first) second

theorem intercalate_cons_cons (sep first second : List Char) (texts : List (List Char)) :
    List.intercalate sep (first :: second :: texts) = List.intercalate sep ((first ++ (sep ++ second)) :: texts) := by
  cases texts <;> simp [List.intercalate]

theorem spelled_bars {first : List Char} {tree : Tree} {joined : Bool} {texts : List (List Char)} {trees : List Tree}
    (start : Spelled 4 joined first tree) (rest : List.Forall₂ (Spelled 5 false) texts trees) :
    ∃ joined, Spelled 4 joined (List.intercalate [' ', '|', ' '] (first :: texts)) (trees.foldl (.binary .bitOr) tree) := by
  induction rest generalizing first tree joined with
  | nil => exact ⟨joined, by simpa [List.intercalate] using start⟩
  | cons second _ ih =>
    rw [intercalate_cons_cons]
    exact ih (@Spelled.binary _ _ _ _ .bitOr start _ _ second)

theorem legal_bars {tree : Tree} {trees : List Tree} :
    (trees.foldl (.binary .bitOr) tree).Legal ↔ tree.Legal ∧ ∀ other ∈ trees, other.Legal := by
  induction trees generalizing tree with
  | nil => simp
  | cons other trees ih => simp [ih, and_assoc]

theorem spelled_members {className : Name} {flags : List Name}
    (legal : ∀ other ∈ flags.map (memberTree className), other.Legal) :
    List.Forall₂ (Spelled 5 false) (flags.map (memberText className)) (flags.map (memberTree className)) := by
  induction flags with
  | nil => exact .nil
  | cons flag flags ih =>
    have first := spelled_member (legal _ List.mem_cons_self)
    exact .cons (first.climb (by decide) (by decide)) (ih fun other member => legal other (List.mem_cons_of_mem _ member))

theorem spelled_flagsPositive (value : Int) (bdef : BitfieldDef) :
    Option.Rel (fun text tree => tree.Legal → Spelled 11 false text tree) (fmtFlagsPositive value bdef)
      (flagsPositiveTree value bdef) := by
  unfold fmtFlagsPositive flagsPositiveTree
  obtain ⟨flags, remaining⟩ := takeFlags bdef.masks value
  cases flags with
  | nil => exact .none
  | cons flag flags =>
    simp only [reduceCtorEq, if_false, List.map_cons, List.cons_append]
    apply Option.Rel.some
    intro legal
    obtain ⟨first, others⟩ := legal_bars.mp legal
    have start := spelled_member first
    by_cases alone : flags = [] ∧ remaining = 0
    · obtain ⟨rfl, rfl⟩ := alone
      simpa [List.intercalate] using start
    · have rest : List.Forall₂ (Spelled 5 false) (if remaining ≠ 0 then [remainingText remaining] else [])
          (if remaining ≠ 0 then [intTree remaining] else []) := by
        by_cases exhausted : remaining = 0
        · simp [exhausted]
        · have last := (spelled_remaining remaining).climb (@Nat.le_add_left 6 4) (by decide)
          simpa [exhausted] using last
      have several : 1 < (memberText bdef.className flag :: (flags.map (memberText bdef.className) ++
          if remaining ≠ 0 then [remainingText remaining] else [])).length := by
        by_cases exhausted : remaining = 0
        · have more : flags ≠ [] := fun none => alone ⟨none, exhausted⟩
          simpa [exhausted, List.length_pos_iff] using more
        · simp [exhausted]
      have members := spelled_members fun other member => others other (List.mem_append_left _ member)
      obtain ⟨joined, bars⟩ := spelled_bars (start.climb (by decide) (by decide)) (List.rel_append members rest)
      rw [if_pos several]
      exact .paren (bars.climb (by decide) (by decide))

theorem spelled_flags (value : Int) (bdef : BitfieldDef) (legal : (flagsTree value bdef).Legal) :
    Spelled 10 false (fmtFlags value bdef) (flagsTree value bdef) := by
  unfold fmtFlags flagsTree at *
  split_ifs with zero negative
  · exact (Spelled.number 0).climb (by decide) (by decide)
  · rw [if_neg zero, if_pos negative] at legal
    have inv := spelled_flagsPositive (-value - 1) bdef
    generalize fmtFlagsPositive (-value - 1) bdef = text at inv ⊢
    generalize flagsPositiveTree (-value - 1) bdef = tree at inv legal ⊢
    cases inv with
    | none => exact spelled_fmtInt value
    | some spelled =>
      have flags := spelled ((Tree.legal_unary _ _).mp legal)
      dsimp only
      split_ifs
      · exact .invert ((Spelled.paren (flags.climb (by decide) (by decide))).climb (by decide) (by decide))
      · exact .invert (flags.climb (by decide) (by decide))
  · rw [if_neg zero, if_neg negative] at legal
    have positive := spelled_flagsPositive value bdef
    generalize fmtFlagsPositive value bdef = text at positive ⊢
    generalize flagsPositiveTree value bdef = tree at positive legal ⊢
    cases positive with
    | none => exact spelled_fmtInt value
    | some spelled => exact (spelled legal).climb (by decide) (by decide)

theorem spelled_typed (value : Int) (hint : Option TypeHint) (legal : (typedTree value hint).Legal) :
    Spelled 10 false (fmtTypedInt value hint) (typedTree value hint) := by
  unfold fmtTypedInt typedTree at *
  cases hint with
  | none => exact spelled_fmtInt value
  | some hint =>
    cases hint with
    | bitfield bdef => exact spelled_flags value bdef legal
    | enum edef =>
      dsimp only at legal ⊢
      cases found : edef.values.lookup value with
      | none => exact spelled_fmtInt value
      | some member =>
        rw [found] at legal
        exact (spelled_member legal).climb (by decide) (by decide)

end Acrobe.Stapl
