import Acrobe.Stapl.EmitStructure
import Acrobe.Stapl.SimplifySound

/-!
# The Python trees of emitted expressions

The tree that an expression is emitted to is the one that Python reads in its text, where no variable has a
configured type and none is local.
-/

namespace Acrobe.Stapl
open LittleEndian Acrobe.Storage Python

theorem BinOp.isCompare_py (op : BinOp) : op.py.isCompare = op.isCompare := by cases op <;> rfl

/-! ### Trees -/

def Func.py : Func → List Char
  | .abs => absName
  | .int => intName
  | .chr => chrName
  | .bool => boolName

def attributeTree (name : Name) : Tree := .field (.name selfName) name.toList

def Py.tree : Py → Tree
  | .int value => intTree value
  | .ref name => attributeTree name
  | .index name at_ => .subscript (attributeTree name) at_.tree
  | .slice name start stop => .slice (attributeTree name) start.tree stop.tree
  | .reversed bits => .callNone (.field bits.tree reversedName)
  | .toInt operand => callTree intName operand.tree
  | .literal data bitCount => bitStringTree (.bytes data) bitCount
  | .word operand => bitStringTree operand.tree 32
  | .call name arg => callTree name.py arg.tree
  | .unary op operand => .unary op.py operand.tree
  | .bin op left right => op.py.join left.isCompare left.tree right.tree

theorem isCompare_text (isBooleanArray : Name → Bool) (e : Expr) :
    (emitInt isBooleanArray e).isCompare = e.isComparison := by
  unfold emitInt
  split <;> (try split_ifs) <;> first | rfl | exact (BinOp.isCompare_py _).symm

theorem precedence_text (isBooleanArray : Name → Bool) (e : Expr) {k : Nat} (small : k ≤ 10) :
    (emitInt isBooleanArray e).precedence < k + 4 ↔ e.level < k := by
  have primary (text : Py) (same : text.precedence = 15) (level : 10 ≤ e.level) :
      text.precedence < k + 4 ↔ e.level < k := by omega
  unfold emitInt
  split <;> (try split_ifs) <;>
    first
    | exact primary _ rfl (by simp [Expr.level])
    | simp [Py.precedence, Expr.level, UnaryOp.precedence_py, BinOp.precedence_py]

/-! ### Emission -/

namespace ExprEmitter

/-- No variable is local or has a configured type. -/
structure Untyped (em : ExprEmitter) : Prop where
  attributes : em.localVars = []
  enums : em.enums = []
  bitfields : em.bitfields = []

variable {em : ExprEmitter}

theorem Untyped.ref (untyped : em.Untyped) (name : Name) : em.refTree name = attributeTree name := by
  rw [refTree, untyped.attributes, if_neg List.not_mem_nil]
  rfl

theorem Untyped.hint (untyped : em.Untyped) (op : BinOp) (left right : Expr) : em.childHint op left right none = none := by
  have none_ (name : Name) : em.typeForVar name = none := by
    simp [typeForVar, untyped.enums, untyped.bitfields]
  have infer (e : Expr) : em.inferType e = none := by
    cases e <;> first | exact none_ _ | rfl
  cases op <;> simp [childHint, infer]

theorem tree_add {text : Py} (plain : text.plusOne = .bin .add text (.int 1)) : text.plusOne.tree = addOne text.tree := by
  rw [plain]
  rfl

/-- The emitted tree of an expression, with one added to it, and where it is a bound or its bits are made an
integer. -/
structure Reads (em : ExprEmitter) (e : Expr) : Prop where
  text : (Stapl.emitInt em.isBooleanArray e).tree = em.tree true e none
  sum : (Stapl.emitInt em.isBooleanArray e).plusOne.tree = em.plusOne true e none (em.tree true e none)
  stop : (Stapl.exclusiveEnd e (Stapl.emitInt em.isBooleanArray e)).tree =
    em.treeEnd true e (em.plusOne true e none (em.tree true e none))
  bits : (Stapl.emitInt em.isBooleanArray (.funcCall .int e)).tree = em.treeOfBits true e (em.tree true e none)

theorem reads_subrange (untyped : em.Untyped) {name : Name} {high low : Expr} (first : em.Reads high)
    (second : em.Reads low) :
    (Stapl.emitInt em.isBooleanArray (.arraySubrange name high low)).tree = em.tree true (.arraySubrange name high low) none := by
  rw [Stapl.emitInt, tree, Py.tree, subrangeRvalue, subrangeTree, untyped.ref]
  split
  · rw [Py.tree, Py.tree, first.text, second.stop]
  · rw [Py.tree, first.stop, second.text]

theorem reads_unary (op : UnaryOp) {operand : Expr} (inner : em.Reads operand) :
    (Stapl.emitInt em.isBooleanArray (.unaryOp op operand)).plusOne.tree =
      em.plusOne true (.unaryOp op operand) none (em.tree true (.unaryOp op operand) none) := by
  have loose := precedence_text em.isBooleanArray operand (by decide : 2 ≤ 10)
  rw [Stapl.emitInt, tree]
  cases op with
  | not =>
    rw [Py.plusOne, plusOne, Py.tree, if_pos rfl]
    split <;> rename_i below
    · rw [if_pos (loose.mp below)]
      exact congrArg (fun operand => Tree.unary .not (addOne operand)) inner.text
    · rw [if_neg fun level => below (loose.mpr level), inner.sum]
      rfl
  | _ => exact congrArg (fun operand => addOne (Tree.unary _ operand)) inner.text

theorem reads_binary (untyped : em.Untyped) (op : BinOp) {left right : Expr} (first : em.Reads left) (second : em.Reads right) :
    (Stapl.emitInt em.isBooleanArray (.binOp op left right)).tree = em.tree true (.binOp op left right) none := by
  rw [Stapl.emitInt, tree, Py.tree, untyped.hint, first.text, second.text, isCompare_text]
  rfl

theorem reads_binary_sum (untyped : em.Untyped) (op : BinOp) {left right : Expr} (first : em.Reads left)
    (second : em.Reads right) :
    (Stapl.emitInt em.isBooleanArray (.binOp op left right)).plusOne.tree =
      em.plusOne true (.binOp op left right) none (em.tree true (.binOp op left right) none) := by
  have text := reads_binary untyped op first second
  have level := op.precedence_py
  rw [Stapl.emitInt] at text ⊢
  rw [Py.plusOne, plusOne, Bool.true_and]
  split <;> rename_i tight
  · rw [if_neg (by simpa using (by omega : 8 ≤ op.py.level))]
    exact congrArg addOne text
  · have loose : op.py.level < 8 := by omega
    have below := precedence_text em.isBooleanArray right (by omega : op.py.level + 1 ≤ 10)
    rw [if_pos (decide_eq_true loose), Py.tree, untyped.hint, first.text, isCompare_text, level, Nat.add_right_comm]
    split <;> rename_i outer
    · rw [if_pos (below.mp outer)]
      exact congrArg (fun operand => joinTrees true op.py left _ (addOne operand)) second.text
    · rw [if_neg fun inner => outer (below.mpr inner), second.sum]
      rfl

theorem reads (untyped : em.Untyped) (e : Expr) : em.Reads e := by
  induction e with
  | intLiteral value => exact ⟨rfl, rfl, rfl, rfl⟩
  | booleanLiteral data bitCount => exact ⟨rfl, rfl, rfl, rfl⟩
  | varRef name =>
    have text := (untyped.ref name).symm
    refine ⟨text, congrArg addOne text, congrArg addOne text, ?_⟩
    rw [Stapl.emitInt, treeOfBits, untyped.ref]
    split <;> rfl
  | arrayWhole name =>
    have text : (Stapl.emitInt em.isBooleanArray (.arrayWhole name)).tree = em.tree true (.arrayWhole name) none := by
      rw [Stapl.emitInt, tree, untyped.ref]
      split <;> rfl
    have sum : (Stapl.emitInt em.isBooleanArray (.arrayWhole name)).plusOne.tree =
        em.plusOne true (.arrayWhole name) none (em.tree true (.arrayWhole name) none) := by
      rw [← text, Stapl.emitInt]
      split <;> rfl
    exact ⟨text, sum, sum, congrArg (callTree intName) (untyped.ref name).symm⟩
  | arrayIndex name index ih =>
    have text : (Stapl.emitInt em.isBooleanArray (.arrayIndex name index)).tree = em.tree true (.arrayIndex name index) none := by
      rw [Stapl.emitInt, tree, Py.tree, untyped.ref, ih.text]
    exact ⟨text, congrArg addOne text, congrArg addOne text, congrArg (fun word => callTree intName (bitStringTree word 32)) text⟩
  | arraySubrange name high low ihHigh ihLow =>
    have text := @reads_subrange em untyped name high low ihHigh ihLow
    exact ⟨text, congrArg addOne text, congrArg addOne text, text⟩
  | unaryOp op operand ih =>
    have text : (Stapl.emitInt em.isBooleanArray (.unaryOp op operand)).tree = em.tree true (.unaryOp op operand) none := by
      rw [Stapl.emitInt, tree, Py.tree, ih.text]
    have sum := reads_unary op ih
    exact ⟨text, sum, sum, congrArg (fun word => callTree intName (bitStringTree word 32)) text⟩
  | binOp op left right ihLeft ihRight =>
    have text := reads_binary untyped op ihLeft ihRight
    have sum := reads_binary_sum untyped op ihLeft ihRight
    refine ⟨text, sum, ?_, congrArg (fun word => callTree intName (bitStringTree word 32)) text⟩
    by_cases special : op = .sub ∧ right = .intLiteral 1
    · obtain ⟨rfl, rfl⟩ := special
      exact ihLeft.text
    · have plain (text : Py) : Stapl.exclusiveEnd (.binOp op left right) text = text.plusOne := by
        rw [Stapl.exclusiveEnd]
        · exact fun value => by rintro ⟨⟩
        · intro operand _ _ _ same
          obtain ⟨rfl, -, rfl⟩ := by simpa using same
          exact fun _ => special ⟨rfl, rfl⟩
      rw [plain, treeEnd_binary em special]
      exact sum
  | funcCall name arg ih =>
    have text : (Stapl.emitInt em.isBooleanArray (.funcCall name arg)).tree = em.tree true (.funcCall name arg) none := by
      cases name with
      | int => exact ih.bits
      | abs => exact congrArg (callTree absName) ih.text
      | chr => exact congrArg (callTree chrName) ih.text
      | bool => exact congrArg (callTree boolName) ih.text
    have plain : (Stapl.emitInt em.isBooleanArray (.funcCall name arg)).plusOne =
        .bin .add (Stapl.emitInt em.isBooleanArray (.funcCall name arg)) (.int 1) := by
      unfold Stapl.emitInt
      split <;> (try split_ifs) <;> first | rfl | simp_all
    have sum := (tree_add plain).trans (congrArg addOne text)
    refine ⟨text, sum, sum, ?_⟩
    cases name with
    | bool => exact congrArg (fun word => callTree intName (bitStringTree word 32)) ih.text
    | _ => exact congrArg (fun word => callTree intName (bitStringTree word 32)) text

/-- What the transpiler is modelled to emit is what Python reads in its text. -/
theorem denotes_intExpr (untyped : em.Untyped) {e : Expr} (legal : (em.meaning e none).Legal) :
    Denotes (em.intExpr e none) (Stapl.intExpr em.constants em.isBooleanArray e).tree := by
  rw [Stapl.intExpr, (reads untyped _).text]
  exact denotes_read em legal

/-- The one expression that Python reads in the text gives the value that the interpreter gives, where every operator
is in order. -/
theorem text_evaluates (untyped : em.Untyped) {e : Expr} (legal : (em.meaning e none).Legal) {σ : Valuation}
    (typed : em.isBooleanArray = σ.isBooleanArray) (inOrder : InOrder em.constants σ e) {value : Int}
    (evaluated : evalInt σ.store e = .ok value) :
    ∃ text : Py, (∀ tree, Denotes (em.intExpr e none) tree ↔ tree = text.tree) ∧ text.eval σ = .ok (.int value) := by
  have read := denotes_intExpr untyped legal
  refine ⟨_, fun tree => ⟨fun other => other.unique read, fun same => same ▸ read⟩, ?_⟩
  rw [typed]
  exact inOrder.preserved value evaluated

/-- `self.a + 1` where `a` is 4. -/
theorem sum_evaluates :
    let σ : Valuation := fun name => if name = "a" then some (.integer 4) else none
    ∃ text : Py, (∀ tree, Denotes (plain.intExpr (.binOp .add (.varRef "a") (.intLiteral 1)) none) tree ↔ tree = text.tree) ∧
      text.eval σ = .ok (.int 5) := by
  intro σ
  have inOrder : InOrder plain.constants σ (.binOp .add (.varRef "a") (.intLiteral 1)) := by
    refine fun _ => ⟨fun a b first second => ?_, fun _ => rfl, fun _ _ _ => trivial⟩
    cases first
    cases second
    exact ⟨⟨by decide, by decide⟩, nofun⟩
  refine text_evaluates ⟨rfl, rfl, rfl⟩ ?_ (funext fun name => ?_) inOrder (by decide)
  · change ∀ name ∈ [['s', 'e', 'l', 'f'], ['a']], Python.IsName name
    simp only [List.forall_mem_cons]
    exact ⟨⟨nofun, List.all_eq_true.mp rfl, by simp, by decide⟩,
      ⟨nofun, List.all_eq_true.mp rfl, by simp, by decide⟩, nofun⟩
  · unfold plain Valuation.isBooleanArray
    dsimp only [σ]
    split_ifs <;> rfl

end ExprEmitter

end Acrobe.Stapl
