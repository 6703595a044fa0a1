import Acrobe.Stapl.EmitParsing

/-!
# The structure of emitted expressions

Every emitted text is printed for the level of its outermost operator, with the tree that Python reads there. This
goes by induction on the expression, for its text, for the text with `+ 1` behind it, and for the two places where
an operand is written in another way.
-/

namespace Acrobe.Stapl
open LittleEndian Acrobe.Storage Python

theorem spelled_call {func arg : List Char} {joined : Bool} {tree : Tree} (legal : Python.IsName func)
    (spelled : Spelled 0 joined arg tree) : Spelled 11 false (callText func arg) (callTree func tree) :=
  .call legal spelled

theorem spelled_bitString {data : List Char} {joined : Bool} {tree : Tree} (legal : Python.IsName bitStringName)
    (spelled : Spelled 0 joined data tree) (length : Nat) :
    Spelled 11 false (bitStringText data length) (bitStringTree tree length) :=
  .callTwo legal spelled ((Spelled.number length).climb (by decide) (by decide))

theorem spelled_addOne {text : List Char} {joined : Bool} {k : Nat} {tree : Tree} (spelled : Spelled k joined text tree)
    (tight : 8 ≤ k) (top : k ≤ 11) : Spelled 8 true (plusOneText text) (addOne tree) :=
  @Spelled.binary _ _ _ _ .add (spelled.operand tight top) _ _ ((Spelled.number 1).climb (by decide) (by decide))

namespace ExprEmitter
variable (em : ExprEmitter)

theorem spelled_ref {name : Name} (legal : (em.refTree name).Legal) : Spelled 11 false (em.ref name) (em.refTree name) := by
  unfold refTree ref at *
  split at legal <;> rename_i scope
  · rw [if_pos scope, if_pos scope]
    exact .name ((Tree.legal_name _).mp legal)
  · rw [if_neg scope, if_neg scope]
    obtain ⟨first, second⟩ := (Tree.legal_field _ _).mp legal
    exact .field ((Tree.legal_name _).mp first) second

/-! ### Operands -/

section
variable (op : UnaryOp) (bop : BinOp) (operand left right : Expr) (hint : Option TypeHint)

theorem emitInt_unary : em.emitInt (.unaryOp op operand) 0 hint = op.pyText ++ em.emitInt operand (op.py.level + 4) none := by
  rw [emitInt, op.precedence_py]
  rfl

theorem emitInt_binary :
    em.emitInt (.binOp bop left right) 0 hint =
      em.emitInt left (bop.py.level + 4) (em.childHint bop left right hint) ++ ' ' :: (bop.py.text ++ ' ' ::
        em.emitInt right (bop.py.level + 1 + 4) (em.childHint bop left right hint)) := by
  rw [emitInt, bop.precedence_py, Nat.add_right_comm]
  rfl

end

theorem emitInt_parens (e : Expr) (k : Nat) (hint : Option TypeHint) (small : k ≤ 10) :
    em.emitInt e (k + 4) hint = if e.level < k then '(' :: (em.emitInt e 0 hint ++ [')']) else em.emitInt e 0 hint := by
  cases e with
  | unaryOp op operand =>
    rw [emitInt_unary, emitInt, op.precedence_py, parens, Expr.level]
    simp only [Nat.add_lt_add_iff_right]
  | binOp op left right =>
    rw [emitInt_binary, emitInt, op.precedence_py, parens, Expr.level]
    simp only [Nat.add_lt_add_iff_right, Nat.add_right_comm]
  | intLiteral _ | booleanLiteral _ _ => exact (if_neg (Nat.not_lt.mpr small)).symm
  | funcCall name arg => cases name <;> exact (if_neg (Nat.not_lt.mpr (Nat.le_succ_of_le small))).symm
  | _ => exact (if_neg (Nat.not_lt.mpr (Nat.le_succ_of_le small))).symm

/-- The text of the expression spells its tree, also with `+ 1` behind it. -/
structure Prints (e : Expr) : Prop where
  text : ∀ hint, (em.tree false e hint).Legal → Spelled e.level e.isBinary (em.emitInt e 0 hint) (em.tree true e hint)
  sum : ∀ hint, (em.tree false e hint).Legal → ∃ joined,
    Spelled (min e.level 8) joined (plusOneText (em.emitInt e 0 hint)) (em.plusOne true e hint (em.tree true e hint))

section
variable {em} {e : Expr} {k : Nat} {hint : Option TypeHint}

theorem Prints.operand (prints : em.Prints e) (small : k ≤ 10) (legal : (em.tree false e hint).Legal) :
    Spelled k (e.isBinary && k == e.level) (em.emitInt e (k + 4) hint) (em.tree true e hint) := by
  have text := prints.text hint legal
  rw [emitInt_parens em e k hint small]
  split
  · rename_i loose
    rw [beq_false_of_ne (Nat.ne_of_gt loose), Bool.and_false]
    have inner := text.operand (Nat.zero_le _) e.level_le
    exact inner.paren.climb (Nat.lt_succ_of_le small) (Nat.le_refl 11)
  · rename_i tight
    exact text.operand (Nat.not_lt.mp tight) e.level_le

theorem Prints.operandSum (prints : em.Prints e) (small : k ≤ 8) (legal : (em.tree false e hint).Legal) :
    ∃ joined, Spelled k joined (plusOneText (em.emitInt e (k + 4) hint))
      (if e.level < k then addOne (em.tree true e hint) else em.plusOne true e hint (em.tree true e hint)) := by
  rw [emitInt_parens em e k hint (Nat.le_trans small (by decide))]
  split
  · have inner := ((prints.text hint legal).operand (Nat.zero_le _) e.level_le).paren
    exact ⟨_, (spelled_addOne inner (by decide) (by decide)).operand small (by decide)⟩
  · rename_i tight
    obtain ⟨joined, sum⟩ := prints.sum hint legal
    exact ⟨_, sum.operand (by omega) (by omega)⟩

/-- Where the operators of an expression are tight, `+ 1` adds to all of it. -/
theorem plusOne_tight {asRead : Bool} {whole : Tree} (tight : 8 ≤ e.level) :
    em.plusOne asRead e hint whole = addOne whole := by
  cases e with
  | unaryOp op operand =>
    cases op with
    | not => exact absurd tight (by decide : ¬8 ≤ 2)
    | _ => rfl
  | binOp op left right =>
    have level : ¬op.py.level < 8 := Nat.not_lt.mpr tight
    rw [plusOne, decide_eq_false level, Bool.and_false, if_neg Bool.false_ne_true]
  | _ => rfl

theorem Prints.of_tight (tight : 8 ≤ e.level)
    (text : ∀ hint, (em.tree false e hint).Legal →
      Spelled e.level e.isBinary (em.emitInt e 0 hint) (em.tree true e hint)) : em.Prints e where
  text := text
  sum hint legal := by
    rw [plusOne_tight tight, Nat.min_eq_right tight]
    exact ⟨_, spelled_addOne (text hint legal) tight e.level_le⟩

end

/-! ### Every expression -/

/-- An expression where it is a bound, and where its bits are made an integer. -/
structure PrintsAll (e : Expr) : Prop extends em.Prints e where
  stop : (em.treeEnd false e (em.plusOne false e none (em.tree false e none))).Legal → ∃ joined,
    Spelled 0 joined (em.exclusiveEnd e (em.emitInt e 0 none))
      (em.treeEnd true e (em.plusOne true e none (em.tree true e none)))
  bits : (em.treeOfBits false e (em.tree false e none)).Legal →
    Spelled 11 false (em.intOfBits e (em.emitInt e 0 none)) (em.treeOfBits true e (em.tree true e none))

theorem plusOne_meant (e : Expr) (hint : Option TypeHint) (whole : Tree) : em.plusOne false e hint whole = addOne whole := by
  cases e with
  | unaryOp op operand => cases op <;> rfl
  | binOp op left right => rw [plusOne, Bool.false_and, if_neg Bool.false_ne_true]
  | _ => rfl

@[simp] theorem legal_addOne (tree : Tree) : (addOne tree).Legal ↔ tree.Legal := by simp [addOne]

@[simp] theorem legal_callTree (func : List Char) (arg : Tree) : (callTree func arg).Legal ↔ Python.IsName func ∧ arg.Legal := by
  simp [callTree]

@[simp] theorem legal_bitString (data : Tree) (length : Nat) :
    (bitStringTree data length).Legal ↔ Python.IsName bitStringName ∧ data.Legal := by
  simp [bitStringTree]

section
variable {op : BinOp} {left right : Expr} (plain : ¬(op = .sub ∧ right = .intLiteral 1))
include plain

theorem exclusiveEnd_binary (text : List Char) : em.exclusiveEnd (.binOp op left right) text = plusOneText text := by
  rw [exclusiveEnd]
  · intro other same
    obtain ⟨rfl, -, rfl⟩ := by simpa using same
    exact plain ⟨rfl, rfl⟩
  · intro value same
    cases same

theorem treeEnd_binary (asRead : Bool) (sum : Tree) : em.treeEnd asRead (.binOp op left right) sum = sum := by
  rw [treeEnd]
  · intro other same
    obtain ⟨rfl, -, rfl⟩ := by simpa using same
    exact plain ⟨rfl, rfl⟩
  · intro value same
    cases same

end

theorem Prints.stop {e : Expr} (prints : em.Prints e) (legal : (em.plusOne false e none (em.tree false e none)).Legal) :
    ∃ joined, Spelled 0 joined (plusOneText (em.emitInt e 0 none)) (em.plusOne true e none (em.tree true e none)) := by
  rw [plusOne_meant, legal_addOne] at legal
  obtain ⟨joined, sum⟩ := prints.sum none legal
  exact ⟨_, sum.operand (Nat.zero_le _) (by omega)⟩

theorem Prints.bits {e : Expr} (prints : em.Prints e)
    (legal : (callTree intName (bitStringTree (em.tree false e none) 32)).Legal) :
    Spelled 11 false (callText intName (bitStringText (em.emitInt e 0 none) 32))
      (callTree intName (bitStringTree (em.tree true e none) 32)) := by
  obtain ⟨func, inner, tree⟩ := by simpa using legal
  have word := (prints.text none tree).operand (Nat.zero_le _) e.level_le
  exact spelled_call func ((spelled_bitString inner word 32).operand (Nat.zero_le _) (Nat.le_refl 11))

theorem spelled_arraySubrange {name : Name} {high low : Expr} (first : em.PrintsAll high) (second : em.PrintsAll low)
    (hint : Option TypeHint) (legal : (em.tree false (.arraySubrange name high low) hint).Legal) :
    Spelled 11 false (em.emitInt (.arraySubrange name high low) 0 hint)
      (em.tree true (.arraySubrange name high low) hint) := by
  obtain ⟨func, legal⟩ := (legal_callTree _ _).mp (by rwa [tree] at legal)
  rw [tree, emitInt]
  unfold subrangeText subrangeTree at *
  split at legal <;> rename_i descending
  · obtain ⟨⟨arr, highLegal, lowEnd⟩, method⟩ := by simpa using legal
    obtain ⟨joined, stop⟩ := second.stop lowEnd
    have start := (first.text none highLegal).operand (Nat.zero_le _) high.level_le
    have slice := (spelled_ref em arr).sliceMethod start stop method
    rw [if_pos descending, if_pos descending]
    exact spelled_call func (slice.operand (Nat.zero_le _) (Nat.le_refl 11))
  · obtain ⟨arr, lowLegal, highEnd⟩ := by simpa using legal
    obtain ⟨joined, stop⟩ := first.stop highEnd
    have start := (second.text none lowLegal).operand (Nat.zero_le _) low.level_le
    have slice := (spelled_ref em arr).slice start stop
    rw [if_neg descending, if_neg descending]
    exact spelled_call func (slice.operand (Nat.zero_le _) (Nat.le_refl 11))

/-! ### Operators -/

theorem prints_unary (op : UnaryOp) {operand : Expr} (inner : em.Prints operand) : em.Prints (.unaryOp op operand) := by
  have text (hint : Option TypeHint) (legal : (em.tree false (.unaryOp op operand) hint).Legal) :
      Spelled op.py.level false (em.emitInt (.unaryOp op operand) 0 hint) (em.tree true (.unaryOp op operand) hint) := by
    rw [tree, Tree.legal_unary] at legal
    have spelled := inner.operand (Nat.le_of_lt_succ op.py.level_lt) legal
    rw [emitInt_unary, tree]
    cases op with
    | not => exact spelled.not
    | neg => exact spelled.neg
    | invert => exact spelled.invert
  cases op with
  | not =>
    refine ⟨text, fun hint legal => ?_⟩
    rw [tree, Tree.legal_unary] at legal
    obtain ⟨joined, sum⟩ := inner.operandSum (by decide : 2 ≤ 8) legal
    rw [emitInt_unary, plusOne, if_pos rfl]
    exact ⟨false, sum.not⟩
  | neg => exact .of_tight (by decide : 8 ≤ 10) text
  | invert => exact .of_tight (by decide : 8 ≤ 10) text

theorem join_operand (op : BinOp) (left : Expr) (leftTree rightTree : Tree) :
    op.py.join (left.isBinary && op.py.level == left.level) leftTree rightTree =
      joinTrees true op.py left leftTree rightTree := by
  unfold joinTrees Python.BinaryOp.join
  rw [if_pos rfl]
  cases compare : op.py.isCompare with
  | false => rfl
  | true =>
    have level : op.py.level = 3 := by simpa [Python.BinaryOp.isCompare] using compare
    cases left with
    | binOp other _ _ =>
      have same : (op.py.level == other.py.level) = other.py.isCompare := by rw [level, Python.BinaryOp.isCompare, Bool.beq_comm]
      rw [Expr.isBinary, Expr.level, Expr.isComparison, Bool.true_and, same]
    | _ => rfl

theorem prints_binary (op : BinOp) {left right : Expr} (first : em.Prints left) (second : em.Prints right) :
    em.Prints (.binOp op left right) := by
  have bound := op.py.level_lt
  have text (hint : Option TypeHint) (legal : (em.tree false (.binOp op left right) hint).Legal) :
      Spelled op.py.level true (em.emitInt (.binOp op left right) 0 hint) (em.tree true (.binOp op left right) hint) := by
    rw [tree, joinTrees, if_neg Bool.false_ne_true, Tree.legal_binary] at legal
    have front := first.operand (Nat.le_of_lt bound) legal.1
    have back := second.operand (Nat.succ_le_of_lt bound) legal.2
    rw [emitInt_binary, tree, ← join_operand]
    exact front.binary back
  by_cases tight : 8 ≤ op.py.level
  · exact .of_tight tight text
  · have loose : op.py.level < 8 := Nat.not_le.mp tight
    refine ⟨text, fun hint legal => ?_⟩
    rw [tree, joinTrees, if_neg Bool.false_ne_true, Tree.legal_binary] at legal
    have front := first.operand (Nat.le_of_lt bound) legal.1
    obtain ⟨joined, back⟩ := second.operandSum (Nat.succ_le_of_lt loose) legal.2
    rw [emitInt_binary, plusOne, decide_eq_true loose, Bool.true_and, if_pos rfl, ← join_operand,
      Expr.level, Nat.min_eq_left (Nat.le_of_lt loose)]
    exact ⟨true, by simpa [plusOneText] using front.binary back⟩

theorem printsAll (e : Expr) : em.PrintsAll e := by
  induction e with
  | intLiteral value =>
    have prints : em.Prints (.intLiteral value) := .of_tight (by decide : 8 ≤ 10) fun hint legal =>
      spelled_typed value hint legal
    exact {
      toPrints := prints
      stop := fun _ => ⟨_, (spelled_fmtInt (value + 1)).climb (by decide) (by decide)⟩
      bits := prints.bits }
  | booleanLiteral data bitCount =>
    have prints : em.Prints (.booleanLiteral data bitCount) := .of_tight (by decide : 8 ≤ 10) fun _ _ =>
      spelled_fmtInt (combine data)
    refine ⟨prints, prints.stop, fun legal => ?_⟩
    obtain ⟨func, inner⟩ := by simpa [treeOfBits] using legal
    have bits := spelled_bitString inner ((Spelled.bytes data).operand (Nat.zero_le _) (Nat.le_refl 11)) bitCount
    exact spelled_call func (bits.operand (Nat.zero_le _) (Nat.le_refl 11))
  | varRef name =>
    have prints : em.Prints (.varRef name) := .of_tight (by decide : 8 ≤ 11) fun _ legal => spelled_ref em legal
    refine ⟨prints, prints.stop, fun legal => ?_⟩
    rw [treeOfBits] at legal ⊢
    rw [intOfBits]
    split at legal <;> rename_i array
    · obtain ⟨func, legal⟩ := (legal_callTree _ _).mp legal
      rw [if_pos array, if_pos array]
      exact spelled_call func ((spelled_ref em legal).operand (Nat.zero_le _) (Nat.le_refl 11))
    · rw [if_neg array, if_neg array]
      exact spelled_ref em legal
  | arrayWhole name =>
    have whole (legal : (callTree intName (em.refTree name)).Legal) :
        Spelled 11 false (callText intName (em.ref name)) (callTree intName (em.refTree name)) := by
      obtain ⟨func, legal⟩ := (legal_callTree _ _).mp legal
      exact spelled_call func ((spelled_ref em legal).operand (Nat.zero_le _) (Nat.le_refl 11))
    have prints : em.Prints (.arrayWhole name) := by
      refine .of_tight (by decide : 8 ≤ 11) fun _ legal => ?_
      rw [tree] at legal ⊢
      rw [emitInt]
      split at legal <;> rename_i array
      · rw [if_pos array, if_pos array]
        exact whole legal
      · rw [if_neg array, if_neg array]
        exact spelled_ref em legal
    exact ⟨prints, prints.stop, whole⟩
  | arrayIndex name index ih =>
    have prints : em.Prints (.arrayIndex name index) := by
      refine .of_tight (by decide : 8 ≤ 11) fun _ legal => ?_
      rw [tree, Tree.legal_subscript] at legal
      exact (spelled_ref em legal.1).subscript ((ih.text none legal.2).operand (Nat.zero_le _) index.level_le)
    exact ⟨prints, prints.stop, prints.bits⟩
  | arraySubrange name high low ihHigh ihLow =>
    have prints : em.Prints (.arraySubrange name high low) := .of_tight (by decide : 8 ≤ 11) fun hint legal =>
      spelled_arraySubrange em ihHigh ihLow hint legal
    exact ⟨prints, prints.stop, spelled_arraySubrange em ihHigh ihLow none⟩
  | unaryOp op operand ih =>
    have prints := prints_unary em op ih.toPrints
    exact ⟨prints, prints.stop, prints.bits⟩
  | binOp op left right ihLeft ihRight =>
    have prints := prints_binary em op ihLeft.toPrints ihRight.toPrints
    refine ⟨prints, fun legal => ?_, prints.bits⟩
    by_cases special : op = .sub ∧ right = .intLiteral 1
    · obtain ⟨rfl, rfl⟩ := special
      exact ⟨_, (ihLeft.text none legal).operand (Nat.zero_le _) left.level_le⟩
    · rw [treeEnd_binary em special] at legal ⊢
      rw [exclusiveEnd_binary em special]
      exact prints.stop em legal
  | funcCall name arg ih =>
    have call (func : List Char) (legal : (callTree func (em.tree false arg none)).Legal) :
        Spelled 11 false (callText func (em.emitInt arg 0 none)) (callTree func (em.tree true arg none)) := by
      obtain ⟨func, legal⟩ := (legal_callTree _ _).mp legal
      exact spelled_call func ((ih.text none legal).operand (Nat.zero_le _) arg.level_le)
    have prints : em.Prints (.funcCall name arg) := by
      refine .of_tight (by decide : 8 ≤ 11) fun _ legal => ?_
      cases name with
      | abs => exact call absName legal
      | int => exact ih.bits legal
      | chr => exact call chrName legal
      | bool => exact call boolName legal
    refine ⟨prints, prints.stop, ?_⟩
    cases name with
    | bool => exact ih.toPrints.bits
    | _ => exact prints.bits

/-! ### Where the tree that is read is the one that is meant -/

theorem plusOne_loose {e : Expr} (loose : e.level < 8) (hint : Option TypeHint) (whole other : Tree) :
    em.plusOne true e hint whole ≠ addOne other := by
  cases e with
  | unaryOp op operand =>
    cases op with
    | not => exact nofun
    | _ => exact absurd loose (by decide : ¬10 < 8)
  | binOp op left right =>
    have below : op.py.level < 8 := loose
    rw [plusOne, decide_eq_true below, Bool.true_and, if_pos rfl]
    unfold joinTrees Python.BinaryOp.join addOne
    rw [if_pos rfl]
    split
    · exact nofun
    · intro same
      have add := (Tree.binary.inj same).1
      rw [Expr.level, add] at loose
      exact absurd loose (by decide)
  | intLiteral _ | booleanLiteral _ _ => exact absurd loose (by decide : ¬10 < 8)
  | _ => exact absurd loose (by decide : ¬11 < 8)

theorem joinTrees_eq_iff (op : BinOp) (left : Expr) (a b a' b' : Tree) :
    joinTrees true op.py left a b = joinTrees false op.py left a' b' ↔
      ¬(op.py.isCompare = true ∧ left.isComparison = true) ∧ a = a' ∧ b = b' := by
  unfold joinTrees Python.BinaryOp.join
  by_cases chained : op.py.isCompare = true ∧ left.isComparison = true
  · simp [chained]
  · have plain : (op.py.isCompare && left.isComparison) = false := by simpa using chained
    simp [plain, chained]

/-- The tree that is read is the tree that is meant exactly where the structure is kept. -/
structure Agrees (e : Expr) : Prop where
  text : ∀ hint, em.tree true e hint = em.tree false e hint ↔ e.Keeps
  stop : em.treeEnd true e (em.plusOne true e none (em.tree true e none)) =
    em.treeEnd false e (em.plusOne false e none (em.tree false e none)) ↔ 8 ≤ e.level ∧ e.Keeps
  bits : em.treeOfBits true e (em.tree true e none) = em.treeOfBits false e (em.tree false e none) ↔ e.Keeps

theorem plusOne_eq_iff {e : Expr} (text : em.tree true e none = em.tree false e none ↔ e.Keeps) :
    em.plusOne true e none (em.tree true e none) = em.plusOne false e none (em.tree false e none) ↔
      8 ≤ e.level ∧ e.Keeps := by
  rw [plusOne_meant]
  by_cases tight : 8 ≤ e.level
  · rw [plusOne_tight tight, ← text]
    simp [addOne, tight]
  · simp [tight, plusOne_loose em (Nat.not_le.mp tight)]

theorem word_eq_iff {e : Expr} (text : em.tree true e none = em.tree false e none ↔ e.Keeps) :
    callTree intName (bitStringTree (em.tree true e none) 32) =
      callTree intName (bitStringTree (em.tree false e none) 32) ↔ e.Keeps := by
  rw [← text]
  simp [callTree, bitStringTree]

theorem Agrees.of_text {e : Expr} (text : ∀ hint, em.tree true e hint = em.tree false e hint ↔ e.Keeps)
    (stop : ∀ asRead sum, em.treeEnd asRead e sum = sum)
    (bits : ∀ asRead operand, em.treeOfBits asRead e operand = callTree intName (bitStringTree operand 32)) :
    em.Agrees e where
  text := text
  stop := by
    rw [stop, stop]
    exact plusOne_eq_iff em (text none)
  bits := by
    rw [bits, bits]
    exact word_eq_iff em (text none)

theorem arraySubrange_eq_iff {name : Name} {high low : Expr} (first : em.Agrees high) (second : em.Agrees low)
    (hint : Option TypeHint) :
    em.tree true (.arraySubrange name high low) hint = em.tree false (.arraySubrange name high low) hint ↔
      (Expr.arraySubrange name high low).Keeps := by
  rw [tree, tree, Expr.Keeps]
  unfold subrangeTree
  cases isDescending high low with
  | true =>
    have start := first.text none
    have stop := second.stop
    simp only [callTree, if_pos, Tree.call.injEq, Tree.callNone.injEq, Tree.field.injEq, Tree.slice.injEq, start, stop,
      true_and, and_true]
    tauto
  | false =>
    have start := second.text none
    have stop := first.stop
    simp only [callTree, if_false, Bool.false_eq_true, Tree.call.injEq, Tree.slice.injEq, start, stop, true_and]
    tauto

theorem agrees (e : Expr) : em.Agrees e := by
  induction e with
  | intLiteral value =>
    have text (hint : Option TypeHint) :
        em.tree true (.intLiteral value) hint = em.tree false (.intLiteral value) hint ↔ (Expr.intLiteral value).Keeps := by
      simp [tree, Expr.Keeps]
    exact ⟨text, by simp [treeEnd, Expr.level, Expr.Keeps], word_eq_iff em (text none)⟩
  | booleanLiteral data bitCount =>
    have text (hint : Option TypeHint) : em.tree true (.booleanLiteral data bitCount) hint =
        em.tree false (.booleanLiteral data bitCount) hint ↔ (Expr.booleanLiteral data bitCount).Keeps := by
      simp [tree, Expr.Keeps]
    exact ⟨text, plusOne_eq_iff em (text none), by simp [treeOfBits, Expr.Keeps]⟩
  | varRef name =>
    have text (hint : Option TypeHint) :
        em.tree true (.varRef name) hint = em.tree false (.varRef name) hint ↔ (Expr.varRef name).Keeps := by
      simp [tree, Expr.Keeps]
    exact ⟨text, plusOne_eq_iff em (text none), by simp [treeOfBits, Expr.Keeps]⟩
  | arrayWhole name =>
    have text (hint : Option TypeHint) :
        em.tree true (.arrayWhole name) hint = em.tree false (.arrayWhole name) hint ↔ (Expr.arrayWhole name).Keeps := by
      simp [tree, Expr.Keeps]
    exact ⟨text, plusOne_eq_iff em (text none), by simp [treeOfBits, Expr.Keeps]⟩
  | arrayIndex name index ih => exact .of_text em (by simp [tree, Expr.Keeps, ih.text]) (fun _ _ => rfl) fun _ _ => rfl
  | arraySubrange name high low ihHigh ihLow =>
    have text := @arraySubrange_eq_iff em name high low ihHigh ihLow
    exact ⟨text, plusOne_eq_iff em (text none), text none⟩
  | unaryOp op operand ih => exact .of_text em (by simp [tree, Expr.Keeps, ih.text]) (fun _ _ => rfl) fun _ _ => rfl
  | binOp op left right ihLeft ihRight =>
    have text (hint : Option TypeHint) : em.tree true (.binOp op left right) hint =
        em.tree false (.binOp op left right) hint ↔ (Expr.binOp op left right).Keeps := by
      rw [tree, tree, Expr.Keeps, joinTrees_eq_iff, ihLeft.text, ihRight.text]
    refine ⟨text, ?_, word_eq_iff em (text none)⟩
    by_cases special : op = .sub ∧ right = .intLiteral 1
    · obtain ⟨rfl, rfl⟩ := special
      have keeps : (Expr.binOp .sub left (.intLiteral 1)).Keeps ↔ left.Keeps := by
        simp [Expr.Keeps, BinOp.py, Python.BinaryOp.isCompare, Python.BinaryOp.level]
      rw [treeEnd, treeEnd, keeps, ihLeft.text]
      exact (and_iff_right (Nat.le_refl 8)).symm
    · rw [treeEnd_binary em special, treeEnd_binary em special]
      exact plusOne_eq_iff em (text none)
  | funcCall name arg ih =>
    have text (hint : Option TypeHint) : em.tree true (.funcCall name arg) hint =
        em.tree false (.funcCall name arg) hint ↔ (Expr.funcCall name arg).Keeps := by
      cases name with
      | int => exact ih.bits
      | _ => simp [tree, callTree, Expr.Keeps, ih.text]
    refine ⟨text, plusOne_eq_iff em (text none), ?_⟩
    cases name with
    | bool => exact word_eq_iff em (ih.text none)
    | _ => exact word_eq_iff em (text none)

theorem denotes_read {e : Expr} {hint : Option TypeHint} (legal : (em.meaning e hint).Legal) :
    Denotes (em.intExpr e hint) (em.tree true (simplify em.constants e) hint) :=
  ((em.printsAll _).text hint legal).denotes (Expr.level_le _)

/-- The emitted text denotes the tree of the simplified expression exactly where that keeps its structure and all names
in it are names of Python. -/
theorem denotes_iff (e : Expr) (hint : Option TypeHint) :
    Denotes (em.intExpr e hint) (em.meaning e hint) ↔
      (simplify em.constants e).Keeps ∧ ∀ name ∈ (em.meaning e hint).names, Python.IsName name := by
  constructor
  · intro denotes
    have legal := denotes.legal
    exact ⟨((em.agrees _).text hint).mp ((denotes_read em legal).unique denotes), legal⟩
  · rintro ⟨keeps, legal⟩
    have read := denotes_read em legal
    rwa [((em.agrees _).text hint).mpr keeps] at read

/-! ### A chain -/

/-- No configured types, and no constants. -/
def plain : ExprEmitter where
  constants := noConstants
  isBooleanArray _ := false
  localVars := []
  enums := []
  bitfields := []

/-- `(a < b) < c`. -/
def nested : Expr := .binOp .lt (.binOp .lt (.varRef "a") (.varRef "b")) (.varRef "c")

example : plain.intExpr nested none = "self.a < self.b < self.c".toList := by decide

theorem chain_not_kept : ¬Denotes (plain.intExpr nested none) (plain.meaning nested none) := by
  intro meant
  have read := (denotes_read plain meant.legal).unique meant
  exact absurd read (by decide)

end ExprEmitter

end Acrobe.Stapl
