import Acrobe.Lib.PythonTokens

/-!
# The grammar of Python expressions

The levels of binary operators, comparisons and prefixes down to the primaries, each rule as the reference has it:
operators of one level group from the left, and a comparison behind a comparison chains.
-/

namespace Python

/-! ### Operators -/

inductive UnaryOp where
  | not
  | neg
  | invert
  deriving DecidableEq

inductive BinaryOp where
  | or | and
  | eq | ne | lt | gt | le | ge
  | bitOr | bitXor | bitAnd
  | shiftLeft | shiftRight
  | add | sub
  | mul | floorDiv | mod
  deriving DecidableEq

/-- From the loosest to the tightest; primaries have level 11. -/
def BinaryOp.level : BinaryOp → Nat
  | .or => 0
  | .and => 1
  | .eq | .ne | .lt | .gt | .le | .ge => 3
  | .bitOr => 4
  | .bitXor => 5
  | .bitAnd => 6
  | .shiftLeft | .shiftRight => 7
  | .add | .sub => 8
  | .mul | .floorDiv | .mod => 9

def UnaryOp.level : UnaryOp → Nat
  | .not => 2
  | .neg | .invert => 10

def BinaryOp.token : BinaryOp → Token
  | .or => .keyword ['o', 'r']
  | .and => .keyword ['a', 'n', 'd']
  | .eq => .sign .equal
  | .ne => .sign .notEqual
  | .lt => .sign .less
  | .gt => .sign .greater
  | .le => .sign .lessEqual
  | .ge => .sign .greaterEqual
  | .bitOr => .sign .bar
  | .bitXor => .sign .caret
  | .bitAnd => .sign .ampersand
  | .shiftLeft => .sign .shiftLeft
  | .shiftRight => .sign .shiftRight
  | .add => .sign .plus
  | .sub => .sign .minus
  | .mul => .sign .star
  | .floorDiv => .sign .doubleSlash
  | .mod => .sign .percent

def UnaryOp.token : UnaryOp → Token
  | .not => .keyword ['n', 'o', 't']
  | .neg => .sign .minus
  | .invert => .sign .tilde

def BinaryOp.isCompare (op : BinaryOp) : Bool := op.level == 3

/-! ### Trees -/

inductive Tree where
  | name (name : List Char)
  | number (value : Nat)
  | bytes (data : List UInt8)
  | field (value : Tree) (name : List Char)
  | subscript (value index : Tree)
  | slice (value lower upper : Tree)
  | callNone (func : Tree)
  | call (func arg : Tree)
  | callTwo (func first second : Tree)
  | unary (op : UnaryOp) (operand : Tree)
  | binary (op : BinaryOp) (left right : Tree)
  /-- A comparison whose first operand is the last one of `left`. -/
  | chain (op : BinaryOp) (left right : Tree)
  deriving DecidableEq

def Tree.names : Tree → List (List Char)
  | .name word => [word]
  | .number _ | .bytes _ => []
  | .field value word => value.names ++ [word]
  | .subscript value index => value.names ++ index.names
  | .slice value lower upper => value.names ++ (lower.names ++ upper.names)
  | .callNone func => func.names
  | .call func arg => func.names ++ arg.names
  | .callTwo func first second => func.names ++ (first.names ++ second.names)
  | .unary _ operand => operand.names
  | .binary _ left right | .chain _ left right => left.names ++ right.names

/-- The names are names of Python. -/
def Tree.Legal (tree : Tree) : Prop := ∀ name ∈ tree.names, IsName name

/-- `left op right`, where `left` is `joined` if it is made of operators of this level. -/
def BinaryOp.join (op : BinaryOp) (joined : Bool) (left right : Tree) : Tree :=
  if op.isCompare && joined then .chain op left right else .binary op left right

/-! ### Rules -/

def Token.leaf : Token → Option Tree
  | .name word => some (.name word)
  | .number value => some (.number value)
  | .bytes data => some (.bytes data)
  | _ => none

def Token.trails : Token → Bool
  | .sign .dot | .sign .openBracket | .sign .openParen => true
  | _ => false

/-- Behind a phrase of the level, the token belongs to it. -/
def Token.Continues (tok : Token) (k : Nat) : Prop :=
  (∃ op : BinaryOp, op.level = k ∧ op.token = tok) ∨ (k = 11 ∧ tok.trails = true)

/-- A phrase of a level, or what may follow the `tree` that was read of it. -/
inductive Goal where
  | level (k : Nat)
  | rest (k : Nat) (joined : Bool) (tree : Tree)

/-- What is read from the front of the tokens, and the tokens behind it. -/
inductive Reads : Goal → List Token → Tree → List Token → Prop where
  | unary {k : Nat} {op : UnaryOp} {tok : Token} {toks rest : List Token} {operand : Tree} (level : op.level = k)
      (head : tok = op.token) (inner : Reads (.level k) toks operand rest) :
      Reads (.level k) (tok :: toks) (.unary op operand) rest
  | descend {k : Nat} {toks middle rest : List Token} {tree out : Tree} (below : k < 11)
      (plain : ∀ op : UnaryOp, op.level = k → toks.head? ≠ some op.token)
      (first : Reads (.level (k + 1)) toks tree middle) (more : Reads (.rest k false tree) middle out rest) :
      Reads (.level k) toks out rest
  | stop {k : Nat} {joined : Bool} {tree : Tree} {toks : List Token} (ends : ∀ tok ∈ toks.head?, ¬tok.Continues k) :
      Reads (.rest k joined tree) toks tree toks
  | join {k : Nat} {op : BinaryOp} {tok : Token} {joined : Bool} {left right out : Tree} {toks middle rest : List Token}
      (level : op.level = k) (head : tok = op.token) (second : Reads (.level (k + 1)) toks right middle)
      (more : Reads (.rest k true (op.join joined left right)) middle out rest) :
      Reads (.rest k joined left) (tok :: toks) out rest
  | leaf {tok : Token} {tree out : Tree} {toks rest : List Token} (leaf : tok.leaf = some tree)
      (more : Reads (.rest 11 false tree) toks out rest) : Reads (.level 11) (tok :: toks) out rest
  | paren {tree out : Tree} {toks middle rest : List Token}
      (inner : Reads (.level 0) toks tree (.sign .closeParen :: middle))
      (more : Reads (.rest 11 false tree) middle out rest) : Reads (.level 11) (.sign .openParen :: toks) out rest
  | field {joined : Bool} {tree out : Tree} {name : List Char} {toks rest : List Token}
      (more : Reads (.rest 11 false (.field tree name)) toks out rest) :
      Reads (.rest 11 joined tree) (.sign .dot :: .name name :: toks) out rest
  | subscript {joined : Bool} {tree index out : Tree} {toks middle rest : List Token}
      (inner : Reads (.level 0) toks index (.sign .closeBracket :: middle))
      (more : Reads (.rest 11 false (.subscript tree index)) middle out rest) :
      Reads (.rest 11 joined tree) (.sign .openBracket :: toks) out rest
  | slice {joined : Bool} {tree lower upper out : Tree} {toks between middle rest : List Token}
      (first : Reads (.level 0) toks lower (.sign .colon :: between))
      (second : Reads (.level 0) between upper (.sign .closeBracket :: middle))
      (more : Reads (.rest 11 false (.slice tree lower upper)) middle out rest) :
      Reads (.rest 11 joined tree) (.sign .openBracket :: toks) out rest
  | callNone {joined : Bool} {tree out : Tree} {toks rest : List Token}
      (more : Reads (.rest 11 false (.callNone tree)) toks out rest) :
      Reads (.rest 11 joined tree) (.sign .openParen :: .sign .closeParen :: toks) out rest
  | call {joined : Bool} {tree arg out : Tree} {toks middle rest : List Token}
      (some : toks.head? ≠ some (.sign .closeParen))
      (inner : Reads (.level 0) toks arg (.sign .closeParen :: middle))
      (more : Reads (.rest 11 false (.call tree arg)) middle out rest) :
      Reads (.rest 11 joined tree) (.sign .openParen :: toks) out rest
  | callTwo {joined : Bool} {tree arg other out : Tree} {toks between middle rest : List Token}
      (some : toks.head? ≠ some (.sign .closeParen))
      (first : Reads (.level 0) toks arg (.sign .comma :: between))
      (second : Reads (.level 0) between other (.sign .closeParen :: middle))
      (more : Reads (.rest 11 false (.callTwo tree arg other)) middle out rest) :
      Reads (.rest 11 joined tree) (.sign .openParen :: toks) out rest

/-- The text is an expression, and the tree is what it means. -/
def Denotes (text : List Char) (tree : Tree) : Prop := ∃ toks, Lexed text toks ∧ Reads (.level 0) toks tree []

/-! ### A text has one tree -/

theorem BinaryOp.token_injective {op other : BinaryOp} (same : op.token = other.token) : op = other := by
  cases op <;> cases other <;> first | rfl | cases same

theorem UnaryOp.token_injective {op other : UnaryOp} (same : op.token = other.token) : op = other := by
  cases op <;> cases other <;> first | rfl | cases same

theorem BinaryOp.level_lt (op : BinaryOp) : op.level < 10 := by cases op <;> decide

theorem UnaryOp.level_lt (op : UnaryOp) : op.level < 11 := by cases op <;> decide

theorem BinaryOp.level_ne {op : BinaryOp} : op.level ≠ 11 := by
  have := op.level_lt
  omega

theorem UnaryOp.level_ne {op : UnaryOp} : op.level ≠ 11 := by
  have := op.level_lt
  omega

theorem BinaryOp.not_trails (op : BinaryOp) : op.token.trails = false := by cases op <;> rfl

theorem Reads.unique {goal : Goal} {toks rest other : List Token} {tree another : Tree} (first : Reads goal toks tree rest)
    (second : Reads goal toks another other) : tree = another ∧ rest = other := by
  induction first generalizing another other with
  | unary level head _ ih =>
    cases second with
    | unary _ head' inner' =>
      obtain rfl := UnaryOp.token_injective (head.symm.trans head')
      obtain ⟨rfl, rfl⟩ := ih inner'
      exact ⟨rfl, rfl⟩
    | descend _ plain _ _ => exact absurd (congrArg some head) (plain _ level)
    | leaf _ _ => exact absurd level UnaryOp.level_ne
    | paren _ _ => exact absurd level UnaryOp.level_ne
  | descend below plain _ _ ihFirst ihMore =>
    cases second with
    | unary level head _ => exact absurd (congrArg some head) (plain _ level)
    | descend _ _ first' more' =>
      obtain ⟨rfl, rfl⟩ := ihFirst first'
      exact ihMore more'
    | leaf _ _ => omega
    | paren _ _ => omega
  | stop ends =>
    cases second with
    | stop _ => exact ⟨rfl, rfl⟩
    | join level head _ _ => exact absurd (.inl ⟨_, level, head.symm⟩) (ends _ rfl)
    | field _ => exact absurd (.inr ⟨rfl, rfl⟩) (ends _ rfl)
    | subscript _ _ => exact absurd (.inr ⟨rfl, rfl⟩) (ends _ rfl)
    | slice _ _ _ => exact absurd (.inr ⟨rfl, rfl⟩) (ends _ rfl)
    | callNone _ => exact absurd (.inr ⟨rfl, rfl⟩) (ends _ rfl)
    | call _ _ _ => exact absurd (.inr ⟨rfl, rfl⟩) (ends _ rfl)
    | callTwo _ _ _ _ => exact absurd (.inr ⟨rfl, rfl⟩) (ends _ rfl)
  | join level head _ _ ihSecond ihMore =>
    cases second with
    | stop ends => exact absurd (.inl ⟨_, level, head.symm⟩) (ends _ rfl)
    | join _ head' second' more' =>
      obtain rfl := BinaryOp.token_injective (head.symm.trans head')
      obtain ⟨rfl, rfl⟩ := ihSecond second'
      exact ihMore more'
    | _ => exact absurd level BinaryOp.level_ne
  | leaf leaf _ ih =>
    cases second with
    | unary level _ _ => exact absurd level UnaryOp.level_ne
    | descend below _ _ _ => omega
    | leaf leaf' more' =>
      obtain rfl := Option.some.inj (leaf.symm.trans leaf')
      exact ih more'
    | paren _ _ => cases leaf
  | paren _ _ ihInner ihMore =>
    cases second with
    | unary level _ _ => exact absurd level UnaryOp.level_ne
    | descend below _ _ _ => omega
    | leaf leaf _ => cases leaf
    | paren inner' more' =>
      obtain ⟨rfl, same⟩ := ihInner inner'
      obtain rfl := List.tail_eq_of_cons_eq same
      exact ihMore more'
  | field _ ih =>
    cases second with
    | stop ends => exact absurd (.inr ⟨rfl, rfl⟩) (ends _ rfl)
    | join level _ _ _ => exact absurd level BinaryOp.level_ne
    | field more' => exact ih more'
  | subscript _ _ ihInner ihMore =>
    cases second with
    | stop ends => exact absurd (.inr ⟨rfl, rfl⟩) (ends _ rfl)
    | join level _ _ _ => exact absurd level BinaryOp.level_ne
    | subscript inner' more' =>
      obtain ⟨rfl, same⟩ := ihInner inner'
      obtain rfl := List.tail_eq_of_cons_eq same
      exact ihMore more'
    | slice first' _ _ =>
      obtain ⟨-, same⟩ := ihInner first'
      cases List.head_eq_of_cons_eq same
  | slice _ _ _ ihFirst ihSecond ihMore =>
    cases second with
    | stop ends => exact absurd (.inr ⟨rfl, rfl⟩) (ends _ rfl)
    | join level _ _ _ => exact absurd level BinaryOp.level_ne
    | subscript inner' _ =>
      obtain ⟨-, same⟩ := ihFirst inner'
      cases List.head_eq_of_cons_eq same
    | slice first' second' more' =>
      obtain ⟨rfl, same⟩ := ihFirst first'
      obtain rfl := List.tail_eq_of_cons_eq same
      obtain ⟨rfl, same⟩ := ihSecond second'
      obtain rfl := List.tail_eq_of_cons_eq same
      exact ihMore more'
  | callNone _ ih =>
    cases second with
    | stop ends => exact absurd (.inr ⟨rfl, rfl⟩) (ends _ rfl)
    | join level _ _ _ => exact absurd level BinaryOp.level_ne
    | callNone more' => exact ih more'
    | call some_ _ _ => exact absurd rfl some_
    | callTwo some_ _ _ _ => exact absurd rfl some_
  | call some_ _ _ ihInner ihMore =>
    cases second with
    | stop ends => exact absurd (.inr ⟨rfl, rfl⟩) (ends _ rfl)
    | join level _ _ _ => exact absurd level BinaryOp.level_ne
    | callNone _ => exact absurd rfl some_
    | call _ inner' more' =>
      obtain ⟨rfl, same⟩ := ihInner inner'
      obtain rfl := List.tail_eq_of_cons_eq same
      exact ihMore more'
    | callTwo _ first' _ _ =>
      obtain ⟨-, same⟩ := ihInner first'
      cases List.head_eq_of_cons_eq same
  | callTwo some_ _ _ _ ihFirst ihSecond ihMore =>
    cases second with
    | stop ends => exact absurd (.inr ⟨rfl, rfl⟩) (ends _ rfl)
    | join level _ _ _ => exact absurd level BinaryOp.level_ne
    | callNone _ => exact absurd rfl some_
    | call _ inner' _ =>
      obtain ⟨-, same⟩ := ihFirst inner'
      cases List.head_eq_of_cons_eq same
    | callTwo _ first' second' more' =>
      obtain ⟨rfl, same⟩ := ihFirst first'
      obtain rfl := List.tail_eq_of_cons_eq same
      obtain ⟨rfl, same⟩ := ihSecond second'
      obtain rfl := List.tail_eq_of_cons_eq same
      exact ihMore more'

/-! ### The names of a tree are those of its tokens -/

def Token.word : Token → Option (List Char)
  | .name word => some word
  | _ => none

def names (toks : List Token) : List (List Char) := toks.filterMap Token.word

/-- The names of the tree that a goal starts from. -/
def Goal.names : Goal → List (List Char)
  | .level _ => []
  | .rest _ _ tree => tree.names

theorem mem_names {word : List Char} {toks : List Token} : word ∈ names toks ↔ .name word ∈ toks := by
  unfold names
  rw [List.mem_filterMap]
  constructor
  · rintro ⟨tok, member, same⟩
    cases tok <;> cases same
    exact member
  · exact fun member => ⟨_, member, rfl⟩

theorem names_sign (sign : Sign) (toks : List Token) : names (.sign sign :: toks) = names toks := rfl

theorem BinaryOp.names_token (op : BinaryOp) (toks : List Token) : Python.names (op.token :: toks) = Python.names toks := by
  cases op <;> rfl

theorem UnaryOp.names_token (op : UnaryOp) (toks : List Token) : Python.names (op.token :: toks) = Python.names toks := by
  cases op <;> rfl

theorem Token.names_leaf {tok : Token} {tree : Tree} (leaf : tok.leaf = some tree) (toks : List Token) :
    Python.names (tok :: toks) = tree.names ++ Python.names toks := by
  cases tok <;> cases leaf <;> rfl

theorem BinaryOp.names_join (op : BinaryOp) (joined : Bool) (left right : Tree) :
    (op.join joined left right).names = left.names ++ right.names := by
  unfold join
  split <;> rw [Tree.names]

theorem Reads.names {goal : Goal} {toks rest : List Token} {tree : Tree} (reads : Reads goal toks tree rest) :
    tree.names ++ Python.names rest = goal.names ++ Python.names toks := by
  induction reads with
  | unary _ head _ ih => rw [head, UnaryOp.names_token, Tree.names, ih]
  | descend _ _ _ _ ihFirst ihMore => exact ihMore.trans ihFirst
  | stop _ => rfl
  | join _ head _ _ ihSecond ihMore =>
    rw [ihMore, head, BinaryOp.names_token, Goal.names, BinaryOp.names_join, List.append_assoc, ihSecond]
    rfl
  | leaf leaf _ ih => rw [ih, Token.names_leaf leaf]; rfl
  | paren _ _ ihInner ihMore =>
    rw [names_sign] at ihInner ⊢
    exact ihMore.trans ihInner
  | field _ ih => rw [ih, Goal.names, Tree.names, List.append_assoc]; rfl
  | subscript _ _ ihInner ihMore =>
    rw [names_sign] at ihInner ⊢
    rw [ihMore, Goal.names, Tree.names, List.append_assoc, ihInner]
    rfl
  | slice _ _ _ ihFirst ihSecond ihMore =>
    rw [names_sign] at ihFirst ihSecond ⊢
    rw [ihMore, Goal.names, Tree.names, List.append_assoc, List.append_assoc, ihSecond]
    exact congrArg _ ihFirst
  | callNone _ ih => rw [ih]; rfl
  | call _ _ _ ihInner ihMore =>
    rw [names_sign] at ihInner ⊢
    rw [ihMore, Goal.names, Tree.names, List.append_assoc, ihInner]
    rfl
  | callTwo _ _ _ _ ihFirst ihSecond ihMore =>
    rw [names_sign] at ihFirst ihSecond ⊢
    rw [ihMore, Goal.names, Tree.names, List.append_assoc, List.append_assoc, ihSecond]
    exact congrArg _ ihFirst

end Python
