import Acrobe.Lib.PythonGrammar

/-!
# Printing Python expressions

What a text printed for one level may stand next to. The rules compose: an operator between two printed texts is a
printed text again, with the tree that the grammar gives it.
-/

namespace Python

/-! ### Tokens of a phrase -/

/-- The tokens do not begin with a prefix looser than the level. -/
def Opens (k : Nat) (toks : List Token) : Prop :=
  ∃ tok rest, toks = tok :: rest ∧ tok ≠ .sign .closeParen ∧ ∀ op : UnaryOp, op.level < k → tok ≠ op.token

/-- Nothing of the level or a tighter one follows. -/
def Stops (k : Nat) (rest : List Token) : Prop := ∀ tok ∈ rest.head?, ∀ j, k ≤ j → ¬tok.Continues j

/-- The tokens are a phrase of the level with the tree, also where more operators of the level follow. -/
structure Spells (k : Nat) (joined : Bool) (toks : List Token) (tree : Tree) : Prop where
  opens : Opens k toks
  reads : ∀ rest out final, Stops (k + 1) rest → Reads (.rest k joined tree) rest out final →
    Reads (.level k) (toks ++ rest) out final

theorem stops_nil (k : Nat) : Stops k [] := nofun

theorem stops_closer {tok : Token} (closer : ∀ j, ¬tok.Continues j) (k : Nat) (rest : List Token) : Stops k (tok :: rest) := by
  intro other first j _
  cases first
  exact closer j

theorem not_continues {tok : Token} (operator : ∀ op : BinaryOp, op.token ≠ tok) (trails : tok.trails = false) (k : Nat) :
    ¬tok.Continues k := by
  rintro (⟨op, -, same⟩ | ⟨-, trailing⟩)
  · exact operator op same
  · rw [trails] at trailing
    cases trailing

theorem closeParen_ends (k : Nat) : ¬(Token.sign .closeParen).Continues k :=
  not_continues (fun op => by cases op <;> nofun) rfl k

theorem closeBracket_ends (k : Nat) : ¬(Token.sign .closeBracket).Continues k :=
  not_continues (fun op => by cases op <;> nofun) rfl k

theorem colon_ends (k : Nat) : ¬(Token.sign .colon).Continues k :=
  not_continues (fun op => by cases op <;> nofun) rfl k

theorem comma_ends (k : Nat) : ¬(Token.sign .comma).Continues k :=
  not_continues (fun op => by cases op <;> nofun) rfl k

theorem stops_operator (op : BinaryOp) (rest : List Token) : Stops (op.level + 1) (op.token :: rest) := by
  rintro tok first j above (⟨other, level, same⟩ | ⟨-, trailing⟩)
  · cases first
    cases BinaryOp.token_injective same
    omega
  · cases first
    rw [op.not_trails] at trailing
    cases trailing

theorem stops_top (rest : List Token) : Stops 12 rest := by
  rintro tok - j above (⟨op, level, -⟩ | ⟨same, -⟩)
  · have := op.level_lt
    omega
  · omega

theorem Stops.unary {op : UnaryOp} {rest : List Token} (stops : Stops (op.level + 1) rest) : Stops op.level rest := by
  intro tok first j above
  rcases Nat.eq_or_lt_of_le above with rfl | higher
  · rintro (⟨other, level, -⟩ | ⟨same, -⟩)
    · cases op <;> cases other <;> cases level
    · cases op <;> cases same
  · exact stops tok first j higher

theorem Stops.mono {k j : Nat} {rest : List Token} (stops : Stops k rest) (le : k ≤ j) : Stops j rest :=
  fun tok first i above => stops tok first i (Nat.le_trans le above)

theorem Opens.mono {k j : Nat} {toks : List Token} (opens : Opens k toks) (le : j ≤ k) : Opens j toks := by
  obtain ⟨tok, rest, shape, some_, plain⟩ := opens
  exact ⟨tok, rest, shape, some_, fun op below => plain op (Nat.lt_of_lt_of_le below le)⟩

theorem Opens.append {k : Nat} {toks : List Token} (opens : Opens k toks) (more : List Token) : Opens k (toks ++ more) := by
  obtain ⟨tok, rest, rfl, some_, plain⟩ := opens
  exact ⟨tok, rest ++ more, rfl, some_, plain⟩

theorem Opens.not_closeParen {k : Nat} {toks : List Token} (opens : Opens k toks) :
    toks.head? ≠ some (.sign .closeParen) := by
  obtain ⟨tok, rest, rfl, some_, -⟩ := opens
  exact fun same => some_ (Option.some.inj same)

namespace Spells
variable {k : Nat} {joined : Bool} {toks : List Token} {tree : Tree}

theorem full (spells : Spells k joined toks tree) {rest : List Token} (stops : Stops k rest) :
    Reads (.level k) (toks ++ rest) tree rest :=
  spells.reads rest tree rest (stops.mono (Nat.le_succ k)) (.stop fun tok first => stops tok first k (Nat.le_refl k))

theorem lift (spells : Spells (k + 1) joined toks tree) (below : k < 11) : Spells k false toks tree := by
  refine ⟨spells.opens.mono (Nat.le_succ k), fun rest out final stops more => .descend below ?_ (spells.full stops) more⟩
  obtain ⟨tok, others, rfl, -, plain⟩ := spells.opens
  intro op level same
  exact plain op (by omega) (Option.some.inj same)

theorem climb {j : Nat} (spells : Spells j joined toks tree) (below : k < j) (top : j ≤ 11) : Spells k false toks tree := by
  induction j generalizing joined with
  | zero => omega
  | succ j ih =>
    have lower := spells.lift (by omega)
    by_cases same : k = j
    · rw [same]
      exact lower
    · exact ih lower (by omega) (by omega)

theorem leaf {tok : Token} (leaf : tok.leaf = some tree) : Spells 11 false [tok] tree := by
  refine ⟨⟨tok, [], rfl, ?_, ?_⟩, fun rest out final _ more => .leaf leaf more⟩
  · rintro rfl
    cases leaf
  · rintro op - rfl
    cases op <;> cases leaf

theorem paren (spells : Spells 0 joined toks tree) :
    Spells 11 false (.sign .openParen :: (toks ++ [.sign .closeParen])) tree := by
  refine ⟨⟨_, _, rfl, nofun, fun op _ => by cases op <;> nofun⟩, fun rest out final _ more => ?_⟩
  rw [List.cons_append, List.append_assoc]
  exact .paren (spells.full (stops_closer closeParen_ends 0 _)) more

theorem field (spells : Spells 11 false toks tree) (name : List Char) :
    Spells 11 false (toks ++ [.sign .dot, .name name]) (.field tree name) := by
  refine ⟨spells.opens.append _, fun rest out final _ more => ?_⟩
  rw [List.append_assoc]
  exact spells.reads _ _ _ (stops_top _) (.field more)

theorem subscript (spells : Spells 11 false toks tree) {inner : List Token} {index : Tree}
    (within : Spells 0 joined inner index) :
    Spells 11 false (toks ++ .sign .openBracket :: (inner ++ [.sign .closeBracket])) (.subscript tree index) := by
  refine ⟨spells.opens.append _, fun rest out final _ more => ?_⟩
  rw [List.append_assoc, List.cons_append, List.append_assoc]
  exact spells.reads _ _ _ (stops_top _) (.subscript (within.full (stops_closer closeBracket_ends 0 _)) more)

theorem slice (spells : Spells 11 false toks tree) {first second : List Token} {lower upper : Tree} {again : Bool}
    (low : Spells 0 joined first lower) (high : Spells 0 again second upper) :
    Spells 11 false (toks ++ .sign .openBracket :: (first ++ .sign .colon :: (second ++ [.sign .closeBracket])))
      (.slice tree lower upper) := by
  refine ⟨spells.opens.append _, fun rest out final _ more => ?_⟩
  rw [List.append_assoc, List.cons_append, List.append_assoc, List.cons_append, List.append_assoc]
  exact spells.reads _ _ _ (stops_top _) (.slice (low.full (stops_closer colon_ends 0 _))
    (high.full (stops_closer closeBracket_ends 0 _)) more)

theorem callNone (spells : Spells 11 false toks tree) :
    Spells 11 false (toks ++ [.sign .openParen, .sign .closeParen]) (.callNone tree) := by
  refine ⟨spells.opens.append _, fun rest out final _ more => ?_⟩
  rw [List.append_assoc]
  exact spells.reads _ _ _ (stops_top _) (.callNone more)

theorem call (spells : Spells 11 false toks tree) {inner : List Token} {arg : Tree}
    (within : Spells 0 joined inner arg) :
    Spells 11 false (toks ++ .sign .openParen :: (inner ++ [.sign .closeParen])) (.call tree arg) := by
  refine ⟨spells.opens.append _, fun rest out final _ more => ?_⟩
  rw [List.append_assoc, List.cons_append, List.append_assoc]
  exact spells.reads _ _ _ (stops_top _) (.call (within.opens.append _).not_closeParen
    (within.full (stops_closer closeParen_ends 0 _)) more)

theorem callTwo (spells : Spells 11 false toks tree) {first second : List Token} {arg other : Tree} {again : Bool}
    (left : Spells 0 joined first arg) (right : Spells 0 again second other) :
    Spells 11 false (toks ++ .sign .openParen :: (first ++ .sign .comma :: (second ++ [.sign .closeParen])))
      (.callTwo tree arg other) := by
  refine ⟨spells.opens.append _, fun rest out final _ more => ?_⟩
  rw [List.append_assoc, List.cons_append, List.append_assoc, List.cons_append, List.append_assoc]
  exact spells.reads _ _ _ (stops_top _) (.callTwo (left.opens.append _).not_closeParen
    (left.full (stops_closer comma_ends 0 _)) (right.full (stops_closer closeParen_ends 0 _)) more)

theorem unary {op : UnaryOp} (spells : Spells op.level joined toks tree) (again : Bool) :
    Spells op.level again (op.token :: toks) (.unary op tree) := by
  refine ⟨⟨_, _, rfl, by cases op <;> nofun, ?_⟩, fun rest out final stops more => ?_⟩
  · intro other below same
    cases UnaryOp.token_injective same
    exact Nat.lt_irrefl _ below
  · have ends : Stops op.level rest := stops.unary
    obtain ⟨rfl, rfl⟩ := more.unique (.stop fun tok first => ends tok first _ (Nat.le_refl _))
    exact .unary rfl rfl (spells.full ends)

theorem binary {op : BinaryOp} (left : Spells op.level joined toks tree) {more : List Token} {right : Tree} {again : Bool}
    (second : Spells (op.level + 1) again more right) :
    Spells op.level true (toks ++ op.token :: more) (op.join joined tree right) := by
  refine ⟨left.opens.append _, fun rest out final stops after => ?_⟩
  rw [List.append_assoc, List.cons_append]
  exact left.reads _ _ _ (stops_operator op _) (.join rfl rfl (second.full stops) after)

end Spells

/-! ### Printed texts -/

/-- The text is printed for the level: read as tokens that spell the tree there. -/
def Spelled (k : Nat) (joined : Bool) (text : List Char) (tree : Tree) : Prop :=
  ∃ toks, Lexes text toks ∧ Spells k joined toks tree

def BinaryOp.text : BinaryOp → List Char
  | .or => ['o', 'r']
  | .and => ['a', 'n', 'd']
  | .eq => ['=', '=']
  | .ne => ['!', '=']
  | .lt => ['<']
  | .gt => ['>']
  | .le => ['<', '=']
  | .ge => ['>', '=']
  | .bitOr => ['|']
  | .bitXor => ['^']
  | .bitAnd => ['&']
  | .shiftLeft => ['<', '<']
  | .shiftRight => ['>', '>']
  | .add => ['+']
  | .sub => ['-']
  | .mul => ['*']
  | .floorDiv => ['/', '/']
  | .mod => ['%']

theorem BinaryOp.token_text (op : BinaryOp) (cs : List Char) :
    Python.token (op.text ++ ' ' :: cs) = some (op.token, ' ' :: cs) := by
  cases op <;> rfl

theorem Lexes.operator {op : BinaryOp} {text : List Char} {toks : List Token} (lexes : Lexes text toks) :
    Lexes (' ' :: (op.text ++ ' ' :: text)) (op.token :: toks) := by
  refine Lexes.space fun rest more breaks lexed => ?_
  rw [List.append_assoc]
  exact .token (op.token_text _) (.space (lexes rest more breaks lexed))

theorem Lexes.openParen {text : List Char} {toks : List Token} (lexes : Lexes text toks) :
    Lexes ('(' :: text) (.sign .openParen :: toks) := lexes.sign fun _ => rfl

theorem Lexes.closeParen {text : List Char} {toks : List Token} (lexes : Lexes text toks) :
    Lexes (')' :: text) (.sign .closeParen :: toks) := lexes.sign fun _ => rfl

theorem Lexes.openBracket {text : List Char} {toks : List Token} (lexes : Lexes text toks) :
    Lexes ('[' :: text) (.sign .openBracket :: toks) := lexes.sign fun _ => rfl

theorem Lexes.closeBracket {text : List Char} {toks : List Token} (lexes : Lexes text toks) :
    Lexes (']' :: text) (.sign .closeBracket :: toks) := lexes.sign fun _ => rfl

theorem Lexes.colon {text : List Char} {toks : List Token} (lexes : Lexes text toks) :
    Lexes (':' :: text) (.sign .colon :: toks) := lexes.sign fun _ => rfl

theorem Lexes.comma {text : List Char} {toks : List Token} (lexes : Lexes text toks) :
    Lexes (',' :: text) (.sign .comma :: toks) := lexes.sign fun _ => rfl

theorem Lexes.dot {text : List Char} {toks : List Token} (lexes : Lexes text toks) :
    Lexes ('.' :: text) (.sign .dot :: toks) := lexes.sign fun _ => rfl

namespace Spelled
variable {k : Nat} {joined again : Bool} {text : List Char} {tree : Tree}

theorem climb {j : Nat} (spelled : Spelled j joined text tree) (below : k < j) (top : j ≤ 11) : Spelled k false text tree := by
  obtain ⟨toks, lexes, spells⟩ := spelled
  exact ⟨toks, lexes, spells.climb below top⟩

theorem operand {j : Nat} (spelled : Spelled j joined text tree) (le : k ≤ j) (top : j ≤ 11) :
    Spelled k (joined && k == j) text tree := by
  rcases Nat.eq_or_lt_of_le le with rfl | below
  · rwa [beq_self_eq_true, Bool.and_true]
  · rw [beq_false_of_ne (Nat.ne_of_lt below), Bool.and_false]
    exact spelled.climb below top

theorem name {name : List Char} (legal : IsName name) : Spelled 11 false name (.name name) :=
  ⟨_, legal.lexes, .leaf rfl⟩

theorem number (value : Nat) : Spelled 11 false (decimal value) (.number value) := ⟨_, lexes_decimal value, .leaf rfl⟩

theorem hex {value : Nat} (positive : 0 < value) : Spelled 11 false ('0' :: 'x' :: upperHex value) (.number value) :=
  ⟨_, lexes_hex positive, .leaf rfl⟩

theorem bytes (data : List UInt8) : Spelled 11 false (reprBytes data) (.bytes data) := ⟨_, lexes_bytes data, .leaf rfl⟩

theorem field {value name : List Char} (first : IsName value) (second : IsName name) :
    Spelled 11 false (value ++ '.' :: name) (.field (.name value) name) :=
  ⟨_, first.lexes_dot second.lexes, (Spells.leaf rfl).field name⟩

theorem paren (spelled : Spelled 0 joined text tree) : Spelled 11 false ('(' :: (text ++ [')'])) tree := by
  obtain ⟨toks, lexes, spells⟩ := spelled
  exact ⟨_, (lexes.append lexes_nil.closeParen (breaks_cons (by decide) _)).openParen, spells.paren⟩

theorem subscript (spelled : Spelled 11 false text tree) {inner : List Char} {index : Tree}
    (within : Spelled 0 joined inner index) :
    Spelled 11 false (text ++ '[' :: (inner ++ [']'])) (.subscript tree index) := by
  obtain ⟨toks, lexes, spells⟩ := spelled
  obtain ⟨others, read, index⟩ := within
  have bracket := (read.append lexes_nil.closeBracket (breaks_cons (by decide) _)).openBracket
  exact ⟨_, lexes.append bracket (breaks_cons (by decide) _), spells.subscript index⟩

theorem slice (spelled : Spelled 11 false text tree) {low high : List Char} {lower upper : Tree}
    (first : Spelled 0 joined low lower) (second : Spelled 0 again high upper) :
    Spelled 11 false (text ++ '[' :: (low ++ ':' :: (high ++ [']']))) (.slice tree lower upper) := by
  obtain ⟨toks, lexes, spells⟩ := spelled
  obtain ⟨lows, readLow, lowSpells⟩ := first
  obtain ⟨highs, readHigh, highSpells⟩ := second
  have back := (readHigh.append lexes_nil.closeBracket (breaks_cons (by decide) _)).colon
  have bracket := (readLow.append back (breaks_cons (by decide) _)).openBracket
  exact ⟨_, lexes.append bracket (breaks_cons (by decide) _), spells.slice lowSpells highSpells⟩

theorem sliceMethod (spelled : Spelled 11 false text tree) {low high method : List Char} {lower upper : Tree}
    (first : Spelled 0 joined low lower) (second : Spelled 0 again high upper) (legal : IsName method) :
    Spelled 11 false (text ++ '[' :: (low ++ ':' :: (high ++ ']' :: '.' :: (method ++ ['(', ')']))))
      (.callNone (.field (.slice tree lower upper) method)) := by
  obtain ⟨toks, lexes, spells⟩ := spelled
  obtain ⟨lows, readLow, lowSpells⟩ := first
  obtain ⟨highs, readHigh, highSpells⟩ := second
  have call := (legal.lexes.append lexes_nil.closeParen.openParen (breaks_cons (by decide) _)).dot.closeBracket
  have back := (readHigh.append call (breaks_cons (by decide) _)).colon
  have bracket := (readLow.append back (breaks_cons (by decide) _)).openBracket
  have whole := ((spells.slice lowSpells highSpells).field method).callNone
  refine ⟨_, lexes.append bracket (breaks_cons (by decide) _), ?_⟩
  simpa only [List.append_assoc, List.cons_append, List.nil_append] using whole

theorem call {func : List Char} (legal : IsName func) (spelled : Spelled 0 joined text tree) :
    Spelled 11 false (func ++ '(' :: (text ++ [')'])) (.call (.name func) tree) := by
  obtain ⟨toks, lexes, spells⟩ := spelled
  have inside := (lexes.append lexes_nil.closeParen (breaks_cons (by decide) _)).openParen
  exact ⟨_, legal.lexes.append inside (breaks_cons (by decide) _), (Spells.leaf rfl).call spells⟩

theorem callTwo {func : List Char} (legal : IsName func) (first : Spelled 0 joined text tree) {more : List Char}
    {other : Tree} (second : Spelled 0 again more other) :
    Spelled 11 false (func ++ '(' :: (text ++ ',' :: ' ' :: (more ++ [')']))) (.callTwo (.name func) tree other) := by
  obtain ⟨toks, lexes, spells⟩ := first
  obtain ⟨others, readMore, otherSpells⟩ := second
  have back := (readMore.append lexes_nil.closeParen (breaks_cons (by decide) _)).space.comma
  have inside := (lexes.append back (breaks_cons (by decide) _)).openParen
  exact ⟨_, legal.lexes.append inside (breaks_cons (by decide) _), (Spells.leaf rfl).callTwo spells otherSpells⟩

theorem neg (spelled : Spelled 10 joined text tree) : Spelled 10 false ('-' :: text) (.unary .neg tree) := by
  obtain ⟨toks, lexes, spells⟩ := spelled
  exact ⟨_, lexes.sign fun _ => rfl, @Spells.unary _ _ _ .neg spells false⟩

theorem invert (spelled : Spelled 10 joined text tree) : Spelled 10 false ('~' :: text) (.unary .invert tree) := by
  obtain ⟨toks, lexes, spells⟩ := spelled
  exact ⟨_, lexes.sign fun _ => rfl, @Spells.unary _ _ _ .invert spells false⟩

theorem not (spelled : Spelled 2 joined text tree) :
    Spelled 2 false ('n' :: 'o' :: 't' :: ' ' :: text) (.unary .not tree) := by
  obtain ⟨toks, lexes, spells⟩ := spelled
  refine ⟨_, fun rest more breaks lexed => ?_, @Spells.unary _ _ _ .not spells false⟩
  exact .token rfl (.space (lexes rest more breaks lexed))

theorem binary {op : BinaryOp} (left : Spelled op.level joined text tree) {more : List Char} {right : Tree}
    (second : Spelled (op.level + 1) again more right) :
    Spelled op.level true (text ++ ' ' :: (op.text ++ ' ' :: more)) (op.join joined tree right) := by
  obtain ⟨toks, lexes, spells⟩ := left
  obtain ⟨others, read, operand⟩ := second
  exact ⟨_, lexes.append read.operator (breaks_cons (by decide) _), spells.binary operand⟩

theorem denotes (spelled : Spelled k joined text tree) (top : k ≤ 11) : Denotes text tree := by
  obtain ⟨toks, lexes, spells⟩ := spelled
  refine ⟨toks, lexes.lexed, ?_⟩
  rcases Nat.eq_zero_or_pos k with rfl | positive
  · have whole := spells.full (stops_nil 0)
    rwa [List.append_nil] at whole
  · have whole := (spells.climb positive top).full (stops_nil 0)
    rwa [List.append_nil] at whole

end Spelled

/-! ### What a text cannot mean -/

namespace Tree
variable (word : List Char) (tree other more : Tree)

@[simp] theorem legal_name : (name word).Legal ↔ IsName word := by simp [Legal, names]

@[simp] theorem legal_number (value : Nat) : (number value).Legal := by simp [Legal, names]

@[simp] theorem legal_bytes (data : List UInt8) : (bytes data).Legal := by simp [Legal, names]

@[simp] theorem legal_field : (field tree word).Legal ↔ tree.Legal ∧ IsName word := by
  simp [Legal, names, or_imp, forall_and]

@[simp] theorem legal_subscript : (subscript tree other).Legal ↔ tree.Legal ∧ other.Legal := by
  simp [Legal, names, or_imp, forall_and]

@[simp] theorem legal_slice : (slice tree other more).Legal ↔ tree.Legal ∧ other.Legal ∧ more.Legal := by
  simp [Legal, names, or_imp, forall_and]

@[simp] theorem legal_callNone : (callNone tree).Legal ↔ tree.Legal := by simp [Legal, names]

@[simp] theorem legal_call : (call tree other).Legal ↔ tree.Legal ∧ other.Legal := by
  simp [Legal, names, or_imp, forall_and]

@[simp] theorem legal_callTwo : (callTwo tree other more).Legal ↔ tree.Legal ∧ other.Legal ∧ more.Legal := by
  simp [Legal, names, or_imp, forall_and]

@[simp] theorem legal_unary (op : UnaryOp) : (unary op tree).Legal ↔ tree.Legal := by simp [Legal, names]

@[simp] theorem legal_binary (op : BinaryOp) : (binary op tree other).Legal ↔ tree.Legal ∧ other.Legal := by
  simp [Legal, names, or_imp, forall_and]

end Tree

theorem Denotes.unique {text : List Char} {tree other : Tree} (first : Denotes text tree) (second : Denotes text other) :
    tree = other := by
  obtain ⟨toks, lexed, reads⟩ := first
  obtain ⟨others, lexed', reads'⟩ := second
  cases lexed.unique lexed'
  exact (reads.unique reads').1

theorem Denotes.legal {text : List Char} {tree : Tree} (denotes : Denotes text tree) : tree.Legal := by
  obtain ⟨toks, lexed, reads⟩ := denotes
  intro name member
  have same : tree.names ++ [] = [] ++ Python.names toks := reads.names
  rw [List.append_nil, List.nil_append] at same
  rw [same] at member
  exact lexed.names name (mem_names.mp member)

end Python
