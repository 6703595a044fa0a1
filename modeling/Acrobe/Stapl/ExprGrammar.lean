import Acrobe.Stapl.ExprParser

/-!
# The grammar of expressions

`Spells p e text` says that `text` writes the expression `e` where an operator of precedence `p` or
tighter is expected. Blanks and redundant parentheses are free. The parser reads every such text
back to its expression.
-/

namespace Acrobe.Stapl
open LittleEndian Acrobe.Storage

/-- Blanks between two tokens. -/
structure Gap where
  text : Text
  blank : ∀ c ∈ text, isBlank c = true

def Gap.none : Gap := ⟨[], fun _ member => (List.not_mem_nil member).elim⟩

def IsName (name : Text) : Prop :=
  (∃ c ∈ name.head?, (c.isAlpha || c == '_') = true) ∧ ∀ c ∈ name, isIdent c = true

instance (name : Text) : Decidable (IsName name) :=
  decidable_of_iff ((name.head?.any fun c => c.isAlpha || c == '_') = true ∧ name.all isIdent = true) <| by
    rw [IsName, List.all_eq_true, Option.any_eq_true]
    rfl

/-- The content of a Boolean literal, which ends in a digit if it has one. -/
def IsContent (digit : Char → Bool) (content : Text) : Prop :=
  (∀ c ∈ content, digit c = true) ∧ ∀ c ∈ content.getLast?, isBlank c = false

inductive Spells : Nat → Expr → Text → Prop where
  | binOp {p : Nat} {op : BinOp} {left right : Expr} {leftText rightText : Text} (before after : Gap)
      (tight : p ≤ op.prec) (spellsLeft : Spells op.prec left leftText)
      (spellsRight : Spells (op.prec + 1) right rightText) :
      Spells p (.binOp op left right) (leftText ++ (before.text ++ (op.text ++ (after.text ++ rightText))))
  | unaryOp {p : Nat} {op : UnaryOp} {operand : Expr} {text : Text} (gap : Gap)
      (spells : Spells 11 operand text) : Spells p (.unaryOp op operand) (op.text :: (gap.text ++ text))
  | paren {p : Nat} {e : Expr} {text : Text} (before after : Gap) (spells : Spells 0 e text) :
      Spells p e ('(' :: (before.text ++ (text ++ (after.text ++ [')']))))
  | intLiteral {p : Nat} {digits : Text} (some : digits ≠ []) (decimal : ∀ c ∈ digits, c.isDigit = true) :
      Spells p (.intLiteral (Nat.ofDigitChars 10 digits 0 : Nat)) digits
  | binaryLiteral {p : Nat} {content : Text} (legal : IsContent isBinary content) :
      Spells p (parseBinaryLiteral content) ('#' :: content)
  | hexLiteral {p : Nat} {content : Text} (legal : IsContent isHex content) :
      Spells p (parseHexLiteral content) ('$' :: content)
  | acaLiteral {p : Nat} {content : Text} {e : Expr} (legal : IsContent isAca content)
      (decodes : parseAcaLiteral content = .ok e) : Spells p e ('@' :: content)
  | varRef {p : Nat} {name : Text} (legal : IsName name) : Spells p (.varRef (String.ofList name)) name
  | arrayWhole {p : Nat} {name : Text} (before inside : Gap) (legal : IsName name) :
      Spells p (.arrayWhole (String.ofList name)) (name ++ (before.text ++ '[' :: (inside.text ++ [']'])))
  | arrayIndex {p : Nat} {name : Text} {index : Expr} {text : Text} (before first last : Gap) (legal : IsName name)
      (spells : Spells 0 index text) :
      Spells p (.arrayIndex (String.ofList name) index)
        (name ++ (before.text ++ '[' :: (first.text ++ (text ++ (last.text ++ [']'])))))
  | arraySubrange {p : Nat} {name : Text} {high low : Expr} {highText lowText : Text}
      (before first middle second last : Gap) (legal : IsName name)
      (spellsHigh : Spells 0 high highText) (spellsLow : Spells 0 low lowText) :
      Spells p (.arraySubrange (String.ofList name) high low)
        (name ++ (before.text ++ '[' :: (first.text ++ (highText ++ (middle.text ++ '.' :: '.' ::
          (second.text ++ (lowText ++ (last.text ++ [']']))))))))
  | funcCall {p : Nat} {func : Func} {word text : Text} {arg : Expr} (before first last : Gap)
      (plain : func ≠ .chr) (legal : IsName word) (named : upper word = func.text) (spells : Spells 0 arg text) :
      Spells p (.funcCall func arg) (word ++ (before.text ++ '(' :: (first.text ++ (text ++ (last.text ++ [')'])))))
  | chr {p : Nat} {word text : Text} {arg : Expr} (before middle first last : Gap)
      (legal : IsName word) (named : upper word = Func.chr.text) (spells : Spells 0 arg text) :
      Spells p (.funcCall .chr arg) (word ++ (before.text ++ '$' :: (middle.text ++ '(' ::
        (first.text ++ (text ++ (last.text ++ [')']))))))

/-! ### Characters -/

def delimiters : List Char := ['=', '!', '<', '>', '&', '|', '^', '+', '-', '*', '/', '%', ')', ']', '.']

/-- What an expression can start with. -/
def startsOperand (c : Char) : Bool := isIdent c || c ∈ ['#', '$', '@', '(', '~', '!', '-']

theorem not_isIdent_of_isBlank {c : Char} (blank : isBlank c = true) : isIdent c = false := by
  simp only [isBlank, Bool.or_eq_true, beq_iff_eq] at blank
  rcases blank with rfl | rfl <;> rfl

theorem not_isBlank_of_startsOperand {c : Char} (starts : startsOperand c = true) : isBlank c = false := by
  by_contra blank
  simp only [isBlank, Bool.not_eq_false, Bool.or_eq_true, beq_iff_eq] at blank
  rcases blank with rfl | rfl <;> exact absurd starts (by decide)

theorem not_isBlank_of_delimiter {c : Char} (delimiter : c ∈ delimiters) : isBlank c = false := by
  have all : delimiters.all (fun d => !isBlank d) = true := rfl
  simpa using List.all_eq_true.mp all c delimiter

theorem not_isIdent_of_delimiter {c : Char} (delimiter : c ∈ delimiters) : isIdent c = false := by
  have all : delimiters.all (fun d => !isIdent d) = true := rfl
  simpa using List.all_eq_true.mp all c delimiter

theorem startsOperand_of_isIdent {c : Char} (ident : isIdent c = true) : startsOperand c = true := by
  rw [startsOperand, ident, Bool.true_or]

theorem takeWhile_stop {p : Char → Bool} {front rest : Text} (all : ∀ c ∈ front, p c = true)
    (stop : ∀ c ∈ rest.head?, p c = false) : (front ++ rest).takeWhile p = front := by
  rw [List.takeWhile_append_of_pos all]
  cases rest with
  | nil => exact List.append_nil front
  | cons c rest => rw [List.takeWhile_cons_of_neg (by simp [stop c rfl]), List.append_nil]

theorem dropWhile_stop {p : Char → Bool} {front rest : Text} (all : ∀ c ∈ front, p c = true)
    (stop : ∀ c ∈ rest.head?, p c = false) : (front ++ rest).dropWhile p = rest := by
  rw [List.dropWhile_append_of_pos all]
  cases rest with
  | nil => rfl
  | cons c rest => exact List.dropWhile_cons_of_neg (by simp [stop c rfl])

@[simp] theorem skipWs_gap (gap : Gap) (rest : Text) : skipWs (gap.text ++ rest) = skipWs rest :=
  List.dropWhile_append_of_pos gap.blank

theorem skipWs_cons {c : Char} (solid : isBlank c = false) (rest : Text) : skipWs (c :: rest) = c :: rest :=
  List.dropWhile_cons_of_neg (by simp [solid])

@[simp] theorem skipWs_skipWs (text : Text) : skipWs (skipWs text) = skipWs text :=
  List.dropWhile_idempotent _ _

theorem Gap.head_blank (gap : Gap) {rest : Text} {c : Char} (read : (gap.text ++ rest).head? = some c) :
    isBlank c = true ∨ gap.text = [] ∧ rest.head? = some c := by
  cases spaces : gap.text with
  | nil => exact .inr ⟨rfl, by simpa [spaces] using read⟩
  | cons d blanks =>
    simp only [spaces, List.cons_append, List.head?_cons, Option.some.injEq] at read
    exact .inl (gap.blank c (by simp [spaces, read]))

/-! ### What trailing an expression -/

/-- The text after an expression goes on with a delimiter, and an operator there binds no tighter
than `p`. -/
structure Trailing (p : Nat) (rest : Text) : Prop where
  delimited : ∀ c ∈ (skipWs rest).head?, c ∈ delimiters
  loose : ∀ op, peekOperator (skipWs rest) = some op → op.prec ≤ p

theorem Trailing.head {p : Nat} {rest : Text} (trailing : Trailing p rest) {c : Char} (read : rest.head? = some c) :
    isBlank c = true ∨ c ∈ delimiters := by
  by_cases blank : isBlank c = true
  · exact .inl blank
  · refine .inr (trailing.delimited c ?_)
    cases rest with
    | nil => cases read
    | cons d rest =>
      cases read
      rw [skipWs_cons (by simpa using blank)]
      rfl

theorem Trailing.not_isIdent {p : Nat} {rest : Text} (trailing : Trailing p rest) :
    ∀ c ∈ rest.head?, isIdent c = false := by
  intro c read
  rcases trailing.head read with blank | delimiter
  · exact not_isIdent_of_isBlank blank
  · exact not_isIdent_of_delimiter delimiter

theorem trailing_close (gap : Gap) {c : Char} (close : c ∈ [')', ']', '.']) (rest : Text) :
    Trailing 0 (gap.text ++ c :: rest) := by
  have inside : c ∈ delimiters := by
    have all : [')', ']', '.'].all (fun d => decide (d ∈ delimiters)) = true := rfl
    simpa using List.all_eq_true.mp all c close
  have skipped : skipWs (gap.text ++ c :: rest) = c :: rest := by
    rw [skipWs_gap, skipWs_cons (not_isBlank_of_delimiter inside)]
  refine ⟨fun d read => ?_, fun op read => ?_⟩
  · rw [skipped] at read
    cases read
    exact inside
  · rw [skipped] at read
    simp only [List.mem_cons, List.not_mem_nil, or_false] at close
    rcases close with rfl | rfl | rfl <;> cases read

theorem trailing_nil : Trailing 0 [] := ⟨fun _ read => (Option.not_mem_none _ read).elim, fun _ read => nomatch read⟩

/-! ### The last token -/

/-- What an expression ends in. -/
inductive Last where
  | bracket | number | binary | hex | aca
  | name (word : Text)

/-- The token does not go on in the text behind it. A name goes on in a bracket, the name of a
function in the parenthesis or the sign that belongs to it. -/
def Last.EndsBefore : Last → Text → Prop
  | .bracket, _ => True
  | .number, rest => ∀ c ∈ rest.head?, c.isDigit = false
  | .binary, rest => ∀ c ∈ rest.takeWhile isBinary, isBlank c = true
  | .hex, rest => ∀ c ∈ rest.takeWhile isHex, isBlank c = true
  | .aca, rest => ∀ c ∈ rest.takeWhile isAca, isBlank c = true
  | .name word, rest =>
    (∀ c ∈ rest.head?, isIdent c = false) ∧ callOpens (upper word) (skipWs rest) = none ∧
      ¬(upper word = Func.chr.text ∧ (skipWs rest).head? = some '$') ∧ (skipWs rest).head? ≠ some '['

/-- `Spells` with the token that the text ends in. -/
inductive SpellsTo : Nat → Expr → Text → Last → Prop where
  | binOp {p : Nat} {op : BinOp} {left right : Expr} {leftText rightText : Text} {first last : Last}
      (before after : Gap) (tight : p ≤ op.prec) (spellsLeft : SpellsTo op.prec left leftText first)
      (spellsRight : SpellsTo (op.prec + 1) right rightText last) :
      SpellsTo p (.binOp op left right) (leftText ++ (before.text ++ (op.text ++ (after.text ++ rightText)))) last
  | unaryOp {p : Nat} {op : UnaryOp} {operand : Expr} {text : Text} {last : Last} (gap : Gap)
      (spells : SpellsTo 11 operand text last) : SpellsTo p (.unaryOp op operand) (op.text :: (gap.text ++ text)) last
  | paren {p : Nat} {e : Expr} {text : Text} {inner : Last} (before after : Gap) (spells : SpellsTo 0 e text inner) :
      SpellsTo p e ('(' :: (before.text ++ (text ++ (after.text ++ [')'])))) .bracket
  | intLiteral {p : Nat} {digits : Text} (some : digits ≠ []) (decimal : ∀ c ∈ digits, c.isDigit = true) :
      SpellsTo p (.intLiteral (Nat.ofDigitChars 10 digits 0 : Nat)) digits .number
  | binaryLiteral {p : Nat} {content : Text} (legal : IsContent isBinary content) :
      SpellsTo p (parseBinaryLiteral content) ('#' :: content) .binary
  | hexLiteral {p : Nat} {content : Text} (legal : IsContent isHex content) :
      SpellsTo p (parseHexLiteral content) ('$' :: content) .hex
  | acaLiteral {p : Nat} {content : Text} {e : Expr} (legal : IsContent isAca content)
      (decodes : parseAcaLiteral content = .ok e) : SpellsTo p e ('@' :: content) .aca
  | varRef {p : Nat} {name : Text} (legal : IsName name) :
      SpellsTo p (.varRef (String.ofList name)) name (.name name)
  | arrayWhole {p : Nat} {name : Text} (before inside : Gap) (legal : IsName name) :
      SpellsTo p (.arrayWhole (String.ofList name)) (name ++ (before.text ++ '[' :: (inside.text ++ [']']))) .bracket
  | arrayIndex {p : Nat} {name : Text} {index : Expr} {text : Text} {inner : Last} (before first last : Gap)
      (legal : IsName name) (spells : SpellsTo 0 index text inner) :
      SpellsTo p (.arrayIndex (String.ofList name) index)
        (name ++ (before.text ++ '[' :: (first.text ++ (text ++ (last.text ++ [']']))))) .bracket
  | arraySubrange {p : Nat} {name : Text} {high low : Expr} {highText lowText : Text} {highLast lowLast : Last}
      (before first middle second last : Gap) (legal : IsName name)
      (spellsHigh : SpellsTo 0 high highText highLast) (spellsLow : SpellsTo 0 low lowText lowLast) :
      SpellsTo p (.arraySubrange (String.ofList name) high low)
        (name ++ (before.text ++ '[' :: (first.text ++ (highText ++ (middle.text ++ '.' :: '.' ::
          (second.text ++ (lowText ++ (last.text ++ [']'])))))))) .bracket
  | funcCall {p : Nat} {func : Func} {word text : Text} {arg : Expr} {inner : Last} (before first last : Gap)
      (plain : func ≠ .chr) (legal : IsName word) (named : upper word = func.text)
      (spells : SpellsTo 0 arg text inner) :
      SpellsTo p (.funcCall func arg)
        (word ++ (before.text ++ '(' :: (first.text ++ (text ++ (last.text ++ [')']))))) .bracket
  | chr {p : Nat} {word text : Text} {arg : Expr} {inner : Last} (before middle first last : Gap)
      (legal : IsName word) (named : upper word = Func.chr.text) (spells : SpellsTo 0 arg text inner) :
      SpellsTo p (.funcCall .chr arg) (word ++ (before.text ++ '$' :: (middle.text ++ '(' ::
        (first.text ++ (text ++ (last.text ++ [')'])))))) .bracket

theorem SpellsTo.spells {p : Nat} {e : Expr} {text : Text} {last : Last} (spells : SpellsTo p e text last) :
    Spells p e text := by
  induction spells with
  | binOp before after tight spellsLeft spellsRight ihLeft ihRight => exact .binOp before after tight ihLeft ihRight
  | unaryOp gap spells ih => exact .unaryOp gap ih
  | paren before after spells ih => exact .paren before after ih
  | intLiteral some decimal => exact .intLiteral some decimal
  | binaryLiteral legal => exact .binaryLiteral legal
  | hexLiteral legal => exact .hexLiteral legal
  | acaLiteral legal decodes => exact .acaLiteral legal decodes
  | varRef legal => exact .varRef legal
  | arrayWhole before inside legal => exact .arrayWhole before inside legal
  | arrayIndex before first last legal spells ih => exact .arrayIndex before first last legal ih
  | arraySubrange before first middle second last legal spellsHigh spellsLow ihHigh ihLow =>
    exact .arraySubrange before first middle second last legal ihHigh ihLow
  | funcCall before first last plain legal named spells ih => exact .funcCall before first last plain legal named ih
  | chr before middle first last legal named spells ih => exact .chr before middle first last legal named ih

theorem Spells.last_token {p : Nat} {e : Expr} {text : Text} (spells : Spells p e text) :
    ∃ last, SpellsTo p e text last := by
  induction spells with
  | binOp before after tight spellsLeft spellsRight ihLeft ihRight =>
    obtain ⟨first, left⟩ := ihLeft
    obtain ⟨last, right⟩ := ihRight
    exact ⟨last, .binOp before after tight left right⟩
  | unaryOp gap spells ih =>
    obtain ⟨last, operand⟩ := ih
    exact ⟨last, .unaryOp gap operand⟩
  | paren before after spells ih =>
    obtain ⟨inner, spells⟩ := ih
    exact ⟨_, .paren before after spells⟩
  | intLiteral some decimal => exact ⟨_, .intLiteral some decimal⟩
  | binaryLiteral legal => exact ⟨_, .binaryLiteral legal⟩
  | hexLiteral legal => exact ⟨_, .hexLiteral legal⟩
  | acaLiteral legal decodes => exact ⟨_, .acaLiteral legal decodes⟩
  | varRef legal => exact ⟨_, .varRef legal⟩
  | arrayWhole before inside legal => exact ⟨_, .arrayWhole before inside legal⟩
  | arrayIndex before first last legal spells ih =>
    obtain ⟨inner, index⟩ := ih
    exact ⟨_, .arrayIndex before first last legal index⟩
  | arraySubrange before first middle second last legal spellsHigh spellsLow ihHigh ihLow =>
    obtain ⟨highLast, high⟩ := ihHigh
    obtain ⟨lowLast, low⟩ := ihLow
    exact ⟨_, .arraySubrange before first middle second last legal high low⟩
  | funcCall before first last plain legal named spells ih =>
    obtain ⟨inner, arg⟩ := ih
    exact ⟨_, .funcCall before first last plain legal named arg⟩
  | chr before middle first last legal named spells ih =>
    obtain ⟨inner, arg⟩ := ih
    exact ⟨_, .chr before middle first last legal named arg⟩

/-- The last token ends before the text, and an operator there binds no tighter than `p`. -/
structure Ended (p : Nat) (last : Last) (rest : Text) : Prop where
  ends : last.EndsBefore rest
  loose : ∀ op, peekOperator (skipWs rest) = some op → op.prec ≤ p

theorem Ended.mono {p q : Nat} {last : Last} {rest : Text} (ended : Ended p last rest) (le : p ≤ q) :
    Ended q last rest := ⟨ended.ends, fun op read => (ended.loose op read).trans le⟩

theorem delimited_digits {digit : Char → Bool} (outside : delimiters.all (fun c => !digit c) = true) {rest : Text}
    (delimited : ∀ c ∈ (skipWs rest).head?, c ∈ delimiters) : ∀ c ∈ rest.takeWhile digit, isBlank c = true := by
  induction rest with
  | nil => exact fun _ member => (List.not_mem_nil member).elim
  | cons c rest ih =>
    by_cases read : digit c = true
    · have blank : isBlank c = true := by
        by_contra solid
        rw [skipWs_cons (by simpa using solid)] at delimited
        have other := List.all_eq_true.mp outside c (delimited c rfl)
        exact absurd read (by simpa using other)
      have skipped : skipWs (c :: rest) = skipWs rest := List.dropWhile_cons_of_pos blank
      rw [skipped] at delimited
      rw [List.takeWhile_cons_of_pos read]
      exact List.forall_mem_cons.mpr ⟨blank, ih delimited⟩
    · rw [List.takeWhile_cons_of_neg read]
      exact fun _ member => (List.not_mem_nil member).elim

theorem Trailing.ended {p : Nat} {rest : Text} (trailing : Trailing p rest) {last : Last} : Ended p last rest := by
  refine ⟨?_, trailing.loose⟩
  cases last with
  | bracket => exact True.intro
  | number =>
    intro c read
    have word := trailing.not_isIdent c read
    simp only [isIdent, Char.isAlphanum, Bool.or_eq_false_iff] at word
    exact word.1.2
  | binary => exact delimited_digits rfl trailing.delimited
  | hex => exact delimited_digits rfl trailing.delimited
  | aca => exact delimited_digits rfl trailing.delimited
  | name word =>
    have plain {c : Char} (other : c ∉ delimiters) : (skipWs rest).head? ≠ some c := fun read =>
      other (trailing.delimited c read)
    refine ⟨trailing.not_isIdent, ?_, fun chr => plain (by decide) chr.2, plain (by decide)⟩
    rw [callOpens, if_neg (plain (by decide))]

theorem peekOperator_text (op : BinOp) {text : Text}
    (next : ∃ c ∈ text.head?, isBlank c = true ∨ startsOperand c = true) :
    peekOperator (op.text ++ text) = some op := by
  obtain ⟨c, read, starts⟩ := next
  have other : c ∉ ['=', '<', '>', '&', '|'] := by
    intro member
    have all : ['=', '<', '>', '&', '|'].all (fun d => !isBlank d && !startsOperand d) = true := rfl
    have neither := List.all_eq_true.mp all c member
    simp only [Bool.and_eq_true, Bool.not_eq_true'] at neither
    rcases starts with blank | starts
    · exact absurd blank (by simp [neither.1])
    · exact absurd starts (by simp [neither.2])
  obtain ⟨rest, rfl⟩ : ∃ rest, text = c :: rest := by
    cases text with
    | nil => cases read
    | cons d rest => exact ⟨rest, by cases read; rfl⟩
  simp only [List.mem_cons, List.not_mem_nil, or_false, not_or] at other
  obtain ⟨equal, less, greater, ampersand, bar⟩ := other
  have differs {d : Char} (other : ¬c = d) : (d == c) = false := beq_false_of_ne (Ne.symm other)
  cases op <;>
    simp [peekOperator, operators, List.find?, BinOp.text, List.isPrefixOf, differs equal, differs less,
      differs greater, differs ampersand, differs bar]

/-! ### The start of an expression -/

theorem head_append {front rest : Text} {c : Char} (read : front.head? = some c) :
    (front ++ rest).head? = some c := by
  cases front with
  | nil => cases read
  | cons d front => exact read

theorem IsName.head {name : Text} (legal : IsName name) : ∃ c ∈ name.head?, startsOperand c = true := by
  obtain ⟨⟨c, read, letter⟩, all⟩ := legal
  exact ⟨c, read, startsOperand_of_isIdent (all c (List.mem_of_mem_head? read))⟩

theorem Spells.head {p : Nat} {e : Expr} {text : Text} (spells : Spells p e text) :
    ∃ c ∈ text.head?, startsOperand c = true := by
  have named {name : Text} (legal : IsName name) (rest : Text) :
      ∃ c ∈ (name ++ rest).head?, startsOperand c = true := by
    obtain ⟨c, read, starts⟩ := legal.head
    exact ⟨c, head_append read, starts⟩
  induction spells with
  | binOp before after tight spellsLeft spellsRight ihLeft ihRight =>
    obtain ⟨c, read, starts⟩ := ihLeft
    exact ⟨c, head_append read, starts⟩
  | @unaryOp p op operand text gap spells ih => exact ⟨op.text, rfl, by cases op <;> rfl⟩
  | paren before after spells ih => exact ⟨'(', rfl, rfl⟩
  | @intLiteral p digits some decimal =>
    obtain ⟨c, rest, rfl⟩ := List.exists_cons_of_ne_nil some
    refine ⟨c, rfl, startsOperand_of_isIdent ?_⟩
    rw [isIdent, Char.isAlphanum, decimal c List.mem_cons_self, Bool.or_true, Bool.true_or]
  | binaryLiteral legal => exact ⟨'#', rfl, rfl⟩
  | hexLiteral legal => exact ⟨'$', rfl, rfl⟩
  | acaLiteral legal decodes => exact ⟨'@', rfl, rfl⟩
  | varRef legal => exact legal.head
  | arrayWhole before inside legal => exact named legal _
  | arrayIndex before first last legal spells ih => exact named legal _
  | arraySubrange before first middle second last legal spellsHigh spellsLow ihHigh ihLow => exact named legal _
  | funcCall before first last plain legal word spells ih => exact named legal _
  | chr before middle first last legal word spells ih => exact named legal _

/-! ### Steps of the parser -/

theorem parseUnary_skipWs (fuel : Nat) {text other : Text} (same : skipWs text = skipWs other) :
    parseUnary fuel text = parseUnary fuel other := by
  cases fuel with
  | zero => rfl
  | succ fuel => rw [parseUnary, parseUnary, same]

theorem parseExprFrom_skipWs (fuel minPrec : Nat) {text other : Text} (same : skipWs text = skipWs other) :
    parseExprFrom fuel minPrec text = parseExprFrom fuel minPrec other := by
  cases fuel with
  | zero => rfl
  | succ fuel => rw [parseExprFrom, parseExprFrom, parseUnary_skipWs fuel same]

theorem parseOperators_skipWs (fuel minPrec : Nat) (left : Expr) {text other : Text}
    (same : skipWs text = skipWs other) :
    parseOperators fuel minPrec left text = parseOperators fuel minPrec left other := by
  cases fuel with
  | zero => rfl
  | succ fuel => rw [parseOperators, parseOperators, same]

/-- The loop ends at a looser operator, and where there is none. -/
theorem parseOperators_stop {fuel minPrec : Nat} (left : Expr) {rest : Text}
    (loose : ∀ op, peekOperator (skipWs rest) = some op → op.prec < minPrec) :
    parseOperators (fuel + 1) minPrec left rest = .ok (left, skipWs rest) := by
  rw [parseOperators]
  split
  · rfl
  · next op read => rw [if_pos (loose op read)]

theorem parseUnary_primary {c : Char} (starts : startsOperand c = true) (plain : c ∉ ['~', '!', '-']) (fuel : Nat)
    (rest : Text) : parseUnary (fuel + 1) (c :: rest) = parsePrimary fuel (c :: rest) := by
  simp only [List.mem_cons, List.not_mem_nil, or_false, not_or] at plain
  obtain ⟨tilde, bang, minus⟩ := plain
  rw [parseUnary, skipWs_cons (not_isBlank_of_startsOperand starts)]
  simp only [tilde, bang, minus, false_and, if_false]

/-- An operand is read whole, whatever follows its last token. -/
def ParsesUnary (e : Expr) (text : Text) (last : Last) : Prop :=
  ∀ fuel rest, last.EndsBefore rest → 4 * (text.length + rest.length) + 3 ≤ fuel →
    ∃ after, skipWs after = skipWs rest ∧ parseUnary fuel (text ++ rest) = .ok (e, after)

/-- An expression is read whole, and the loop goes on with it behind it. -/
def Parses (p : Nat) (e : Expr) (text : Text) (last : Last) : Prop :=
  ∀ fuel minPrec rest, minPrec ≤ p → Ended p last rest → 4 * (text.length + rest.length) + 4 ≤ fuel →
    ∃ left, 4 * rest.length + 1 ≤ left ∧
      parseExprFrom fuel minPrec (text ++ rest) = parseOperators left minPrec e rest

theorem ParsesUnary.parses {e : Expr} {text : Text} {last : Last} (parses : ParsesUnary e text last) (p : Nat) :
    Parses p e text last := by
  intro fuel minPrec rest _ ended enough
  obtain ⟨fuel, rfl⟩ : ∃ n, fuel = n + 1 := ⟨fuel - 1, by omega⟩
  obtain ⟨after, same, read⟩ := parses fuel rest ended.ends (by omega)
  refine ⟨fuel, by omega, ?_⟩
  rw [parseExprFrom, read]
  exact parseOperators_skipWs fuel minPrec e same

theorem Parses.closed {e : Expr} {text : Text} {last : Last} (parses : Parses 0 e text last) (before : Gap)
    (fuel : Nat) {rest : Text} (ended : Ended 0 last rest) (enough : 4 * (text.length + rest.length) + 4 ≤ fuel) :
    parseExprFrom fuel 0 (before.text ++ (text ++ rest)) = .ok (e, skipWs rest) := by
  obtain ⟨left, more, read⟩ := parses fuel 0 rest (Nat.le_refl 0) ended enough
  have skipped : skipWs (before.text ++ (text ++ rest)) = skipWs (text ++ rest) := skipWs_gap before _
  obtain ⟨left, rfl⟩ : ∃ n, left = n + 1 := ⟨left - 1, by omega⟩
  have noOperator : ∀ op, peekOperator (skipWs rest) = some op → op.prec < 0 := by
    intro op found
    have loose := ended.loose op found
    cases op <;> cases loose
  rw [parseExprFrom_skipWs fuel 0 skipped, read, parseOperators_stop e noOperator]

theorem Parses.upTo {e : Expr} {text : Text} {last : Last} (parses : Parses 0 e text last) (before after : Gap) {c : Char}
    (close : c ∈ [')', ']', '.']) {fuel : Nat} {rest : Text}
    (enough : 4 * (text.length + (after.text.length + (rest.length + 1))) + 4 ≤ fuel) :
    parseExprFrom fuel 0 (before.text ++ (text ++ (after.text ++ c :: rest))) = .ok (e, c :: rest) := by
  have solid : isBlank c = false := by
    rcases List.mem_cons.mp close with rfl | close
    · rfl
    · rcases List.mem_cons.mp close with rfl | close
      · rfl
      · rw [List.mem_singleton.mp close]
        rfl
  rw [parses.closed before fuel (trailing_close after close rest).ended
    (by rw [List.length_append, List.length_cons]; exact enough), skipWs_gap, skipWs_cons solid]

theorem Parses.binOp {p : Nat} {op : BinOp} {left right : Expr} {leftText rightText : Text} {first last : Last}
    (before after : Gap) (tight : p ≤ op.prec) (spellsRight : Spells (op.prec + 1) right rightText)
    (parsesLeft : Parses op.prec left leftText first) (parsesRight : Parses (op.prec + 1) right rightText last) :
    Parses p (.binOp op left right) (leftText ++ (before.text ++ (op.text ++ (after.text ++ rightText)))) last := by
  intro fuel minPrec rest low ended enough
  have one : 1 ≤ op.text.length := by cases op <;> decide
  simp only [List.length_append] at enough
  obtain ⟨c, read, starts⟩ := spellsRight.head
  have next : ∃ c ∈ (after.text ++ (rightText ++ rest)).head?, isBlank c = true ∨ startsOperand c = true := by
    cases spaces : after.text with
    | nil => exact ⟨c, by rw [List.nil_append]; exact head_append read, .inr starts⟩
    | cons d blanks => exact ⟨d, rfl, .inl (after.blank d (by rw [spaces]; exact List.mem_cons_self))⟩
  have peeked := peekOperator_text op next
  have start : skipWs (before.text ++ (op.text ++ (after.text ++ (rightText ++ rest)))) =
      op.text ++ (after.text ++ (rightText ++ rest)) := by
    rw [skipWs_gap]
    cases op <;> exact skipWs_cons rfl _
  -- the left operand is followed by the operator, which the loop takes
  have trailingLeft : Trailing op.prec (before.text ++ (op.text ++ (after.text ++ (rightText ++ rest)))) := by
    refine ⟨fun d found => ?_, fun other found => ?_⟩
    · rw [start] at found
      cases op <;> cases found <;> simp [delimiters]
    · rw [start, peeked] at found
      cases found
      exact Nat.le_refl _
  obtain ⟨first, more, readLeft⟩ := parsesLeft fuel minPrec _ (low.trans tight) trailingLeft.ended
    (by simp only [List.length_append]; omega)
  simp only [List.length_append] at more
  obtain ⟨first, rfl⟩ : ∃ n, first = n + 1 := ⟨first - 1, by omega⟩
  -- the right operand ends before an operator that is not tighter than this one
  obtain ⟨second, bound, readRight⟩ := parsesRight first (op.prec + 1) rest (Nat.le_refl _)
    (ended.mono (by omega)) (by omega)
  obtain ⟨second, rfl⟩ : ∃ n, second = n + 1 := ⟨second - 1, by omega⟩
  have stops : parseOperators (second + 1) (op.prec + 1) right rest = .ok (right, skipWs rest) :=
    parseOperators_stop right fun other found => Nat.lt_succ_of_le ((ended.loose other found).trans tight)
  refine ⟨first, by omega, ?_⟩
  calc
    parseExprFrom fuel minPrec
        ((leftText ++ (before.text ++ (op.text ++ (after.text ++ rightText)))) ++ rest)
      = parseOperators (first + 1) minPrec left (before.text ++ (op.text ++ (after.text ++ (rightText ++ rest)))) := by
        rw [← readLeft]
        simp only [List.append_assoc]
    _ = parseOperators first minPrec (.binOp op left right) (skipWs rest) := by
        rw [parseOperators, start, peeked]
        simp only [if_neg (Nat.not_lt.mpr (low.trans tight)), List.drop_left]
        rw [parseExprFrom_skipWs first (op.prec + 1) (skipWs_gap after _), readRight, stops]
        rfl
    _ = parseOperators first minPrec (.binOp op left right) rest :=
        parseOperators_skipWs first minPrec _ (skipWs_skipWs rest)

theorem ParsesUnary.unaryOp {op : UnaryOp} {operand : Expr} {text : Text} {last : Last} (gap : Gap)
    (spells : Spells 11 operand text) (parses : ParsesUnary operand text last) :
    ParsesUnary (.unaryOp op operand) (op.text :: (gap.text ++ text)) last := by
  intro fuel rest ends enough
  simp only [List.length_cons, List.length_append] at enough
  obtain ⟨fuel, rfl⟩ : ∃ n, fuel = n + 1 := ⟨fuel - 1, by omega⟩
  obtain ⟨after, same, read⟩ := parses fuel rest ends (by omega)
  have solid : isBlank op.text = false := by cases op <;> rfl
  -- `!=` is no unary operator
  have next : (gap.text ++ (text ++ rest)).head? ≠ some '=' := by
    intro found
    rcases gap.head_blank found with blank | ⟨-, found⟩
    · exact absurd blank (by decide)
    · obtain ⟨c, first, starts⟩ := spells.head
      rw [head_append first] at found
      cases found
      exact absurd starts (by decide)
  refine ⟨after, same, ?_⟩
  rw [List.cons_append, List.append_assoc, parseUnary, skipWs_cons solid]
  rw [← parseUnary_skipWs fuel (skipWs_gap gap _)] at read
  cases op with
  | invert => simp only [UnaryOp.text, if_true, read, Except.map]
  | not =>
    dsimp only [UnaryOp.text]
    rw [if_neg (by decide), if_pos ⟨rfl, next⟩, read]
    rfl
  | neg => simp [UnaryOp.text, read, Except.map]

theorem ParsesUnary.of_primary {e : Expr} {c : Char} {text : Text} {last : Last} (starts : startsOperand c = true)
    (plain : c ∉ ['~', '!', '-'])
    (read : ∀ fuel rest, last.EndsBefore rest → 4 * (text.length + 1 + rest.length) + 2 ≤ fuel →
      ∃ after, skipWs after = skipWs rest ∧ parsePrimary fuel (c :: (text ++ rest)) = .ok (e, after)) :
    ParsesUnary e (c :: text) last := by
  intro fuel rest ends enough
  simp only [List.length_cons] at enough
  obtain ⟨fuel, rfl⟩ : ∃ n, fuel = n + 1 := ⟨fuel - 1, by omega⟩
  rw [List.cons_append, parseUnary_primary starts plain]
  exact read fuel rest ends (by omega)

theorem ParsesUnary.paren {e : Expr} {text : Text} {inner : Last} (before after : Gap) (parses : Parses 0 e text inner) :
    ParsesUnary e ('(' :: (before.text ++ (text ++ (after.text ++ [')'])))) .bracket := by
  refine .of_primary rfl (by decide) fun fuel rest ends enough => ?_
  simp only [List.length_append, List.length_singleton] at enough
  obtain ⟨fuel, rfl⟩ : ∃ n, fuel = n + 1 := ⟨fuel - 1, by omega⟩
  have inner : parseExprFrom fuel 0 (before.text ++ (text ++ (after.text ++ ')' :: rest))) = .ok (e, ')' :: rest) := by
    exact parses.upTo before after (by decide) (by omega)
  refine ⟨rest, rfl, ?_⟩
  rw [parsePrimary, skipWs_cons rfl]
  simp only [List.append_assoc, List.singleton_append, if_true]
  rw [inner]
  rfl

theorem ParsesUnary.intLiteral {digits : Text} (some : digits ≠ []) (decimal : ∀ c ∈ digits, c.isDigit = true) :
    ParsesUnary (.intLiteral (Nat.ofDigitChars 10 digits 0 : Nat)) digits .number := by
  obtain ⟨c, digits, rfl⟩ := List.exists_cons_of_ne_nil some
  have digit := decimal c List.mem_cons_self
  have ident : isIdent c = true := by rw [isIdent, Char.isAlphanum, digit, Bool.or_true, Bool.true_or]
  refine .of_primary (startsOperand_of_isIdent ident) ?_ fun fuel rest stop enough => ?_
  · intro member
    have all : ['~', '!', '-'].all (fun d => !isIdent d) = true := rfl
    exact absurd ident (by simpa using List.all_eq_true.mp all c member)
  obtain ⟨fuel, rfl⟩ : ∃ n, fuel = n + 1 := ⟨fuel - 1, by omega⟩
  have paren : c ≠ '(' := by rintro rfl; exact absurd digit (by decide)
  refine ⟨rest, rfl, ?_⟩
  rw [parsePrimary, skipWs_cons (not_isBlank_of_startsOperand (startsOperand_of_isIdent ident))]
  simp only [paren, digit, if_true, if_false]
  rw [parseNumber, ← List.cons_append, takeWhile_stop decimal stop, dropWhile_stop decimal stop]

theorem isSpace_of_isBlank {c : Char} (blank : isBlank c = true) : isSpace c = true := by
  simp only [isBlank, Bool.or_eq_true, beq_iff_eq] at blank
  rcases blank with rfl | rfl <;> rfl

theorem content_stop {digit : Char → Bool} {content : Text} (legal : IsContent digit content) {rest : Text}
    (blanks : ∀ c ∈ rest.takeWhile digit, isBlank c = true) :
    squeeze ((content ++ rest).takeWhile digit) = squeeze content ∧
      skipWs ((content ++ rest).dropWhile digit) = skipWs rest := by
  have nothing : squeeze (rest.takeWhile digit) = [] :=
    List.filter_eq_nil_iff.mpr fun c member => by simp [isSpace_of_isBlank (blanks c member)]
  have skipped := skipWs_gap ⟨rest.takeWhile digit, blanks⟩ (rest.dropWhile digit)
  rw [List.takeWhile_append_dropWhile] at skipped
  rw [List.takeWhile_append_of_pos legal.1, List.dropWhile_append_of_pos legal.1]
  refine ⟨?_, skipped.symm⟩
  rw [squeeze, List.filter_append, ← squeeze, ← squeeze, nothing, List.append_nil]

theorem ParsesUnary.binaryLiteral {content : Text} (legal : IsContent isBinary content) :
    ParsesUnary (parseBinaryLiteral content) ('#' :: content) .binary := by
  refine .of_primary rfl (by decide) fun fuel rest ends enough => ?_
  obtain ⟨fuel, rfl⟩ : ∃ n, fuel = n + 1 := ⟨fuel - 1, by omega⟩
  obtain ⟨value, after⟩ := content_stop legal ends
  refine ⟨_, after, ?_⟩
  rw [parsePrimary, skipWs_cons rfl]
  simp only [parseBooleanLiteral, parseBinaryLiteral, value]
  rfl

theorem ParsesUnary.hexLiteral {content : Text} (legal : IsContent isHex content) :
    ParsesUnary (parseHexLiteral content) ('$' :: content) .hex := by
  refine .of_primary rfl (by decide) fun fuel rest ends enough => ?_
  obtain ⟨fuel, rfl⟩ : ∃ n, fuel = n + 1 := ⟨fuel - 1, by omega⟩
  obtain ⟨value, after⟩ := content_stop legal ends
  refine ⟨_, after, ?_⟩
  rw [parsePrimary, skipWs_cons rfl]
  simp only [parseBooleanLiteral, parseHexLiteral, value]
  rfl

theorem ParsesUnary.acaLiteral {content : Text} {e : Expr} (legal : IsContent isAca content)
    (decodes : parseAcaLiteral content = .ok e) : ParsesUnary e ('@' :: content) .aca := by
  refine .of_primary rfl (by decide) fun fuel rest ends enough => ?_
  obtain ⟨fuel, rfl⟩ : ∃ n, fuel = n + 1 := ⟨fuel - 1, by omega⟩
  obtain ⟨value, after⟩ := content_stop legal ends
  have same : parseAcaLiteral ((content ++ rest).takeWhile isAca) = .ok e := by
    rw [← decodes, parseAcaLiteral, parseAcaLiteral, value]
  refine ⟨_, after, ?_⟩
  rw [parsePrimary, skipWs_cons rfl]
  simp only [parseBooleanLiteral, same]
  rfl

/-! ### Names -/

theorem not_isDigit_of_letter {c : Char} (letter : (c.isAlpha || c == '_') = true) : c.isDigit = false := by
  by_contra digit
  rw [Bool.not_eq_false, Char.isDigit_iff_toNat] at digit
  simp only [Char.isAlpha, Char.isUpper, Char.isLower, Bool.or_eq_true, Bool.and_eq_true, decide_eq_true_eq, ge_iff_le,
    UInt32.le_iff_toNat_le, beq_iff_eq] at letter
  rcases letter with (⟨low, -⟩ | ⟨low, -⟩) | rfl
  · exact absurd (low.trans digit.2) (by decide)
  · exact absurd (low.trans digit.2) (by decide)
  · exact absurd digit.2 (by decide)

theorem ParsesUnary.of_name {e : Expr} {name text : Text} {last : Last} (legal : IsName name)
    (read : ∀ fuel rest, last.EndsBefore rest → 4 * (name.length + text.length + rest.length) + 1 ≤ fuel →
      ∃ after, skipWs after = skipWs rest ∧ parseIdentifier fuel (name ++ (text ++ rest)) = .ok (e, after)) :
    ParsesUnary e (name ++ text) last := by
  obtain ⟨⟨c, first, letter⟩, all⟩ := legal
  obtain ⟨name, rfl⟩ : ∃ rest, name = c :: rest := by
    cases name with
    | nil => cases first
    | cons d name => exact ⟨name, by cases first; rfl⟩
  have ident := all c List.mem_cons_self
  have apart {d : Char} (other : isIdent d = false) : c ≠ d := by
    rintro rfl
    exact absurd ident (by simp [other])
  have digit : c.isDigit = false := not_isDigit_of_letter letter
  refine @ParsesUnary.of_primary _ _ (name ++ text) _ (startsOperand_of_isIdent ident) ?_
    fun fuel rest ends enough => ?_
  · simp only [List.mem_cons, List.not_mem_nil, or_false, not_or]
    exact ⟨apart rfl, apart rfl, apart rfl⟩
  simp only [List.length_append] at enough
  obtain ⟨fuel, rfl⟩ : ∃ n, fuel = n + 1 := ⟨fuel - 1, by omega⟩
  obtain ⟨after, same, found⟩ := read fuel rest ends (by simp only [List.length_cons]; omega)
  refine ⟨after, same, ?_⟩
  rw [parsePrimary, skipWs_cons (not_isBlank_of_startsOperand (startsOperand_of_isIdent ident))]
  simp only [apart (d := '(') rfl, apart (d := '#') rfl, apart (d := '$') rfl, apart (d := '@') rfl, digit, if_false,
    Bool.false_eq_true, or_self]
  rw [if_pos (by simpa using letter), List.append_assoc]
  exact found

theorem Gap.not_isIdent (gap : Gap) {c : Char} (mark : isIdent c = false) (rest : Text) :
    ∀ d ∈ (gap.text ++ c :: rest).head?, isIdent d = false := by
  intro d read
  rcases gap.head_blank read with blank | ⟨-, read⟩
  · exact not_isIdent_of_isBlank blank
  · cases read
    exact mark

theorem ParsesUnary.varRef {name : Text} (legal : IsName name) :
    ParsesUnary (.varRef (String.ofList name)) name (.name name) := by
  have whole := @ParsesUnary.of_name (.varRef (String.ofList name)) name [] (.name name) legal ?_
  · rwa [List.append_nil] at whole
  rintro fuel rest ⟨stop, call, chr, bracket⟩ enough
  obtain ⟨fuel, rfl⟩ : ∃ n, fuel = n + 1 := ⟨fuel - 1, by omega⟩
  refine ⟨skipWs rest, skipWs_skipWs rest, ?_⟩
  rw [List.nil_append, parseIdentifier]
  simp only [takeWhile_stop legal.2 stop, dropWhile_stop legal.2 stop, call, if_neg chr, if_neg bracket]

theorem parseIdentifier_bracket {name : Text} (legal : IsName name) (before inside : Gap) (fuel : Nat) (rest : Text)
    (solid : ∀ c ∈ rest.head?, isBlank c = false) :
    parseIdentifier (fuel + 1) (name ++ (before.text ++ '[' :: (inside.text ++ rest))) =
      if rest.head? = some ']' then .ok (.arrayWhole (String.ofList name), rest.tail)
      else do
        let (first, rest) ← parseExprFrom fuel 0 rest
        let rest := skipWs rest
        if ['.', '.'].isPrefixOf rest then do
          let (second, rest) ← parseExprFrom fuel 0 (rest.drop 2)
          let rest ← require ']' "Missing ] in subrange" (skipWs rest)
          return (.arraySubrange (String.ofList name) first second, rest)
        else do
          let rest ← require ']' "Missing ] in array index" rest
          return (.arrayIndex (String.ofList name) first, rest) := by
  have stop := before.not_isIdent (c := '[') rfl (inside.text ++ rest)
  have skipped : skipWs rest = rest := by
    cases rest with
    | nil => rfl
    | cons c rest => exact skipWs_cons (solid c rfl) rest
  rw [parseIdentifier]
  simp only [takeWhile_stop legal.2 stop, dropWhile_stop legal.2 stop, skipWs_gap, skipWs_cons (c := '[') rfl]
  rw [callOpens, if_neg (by simp)]
  simp [skipped]

theorem ParsesUnary.arrayWhole {name : Text} (before inside : Gap) (legal : IsName name) :
    ParsesUnary (.arrayWhole (String.ofList name)) (name ++ (before.text ++ '[' :: (inside.text ++ [']'])))
      .bracket := by
  refine .of_name legal fun fuel rest ends enough => ⟨rest, rfl, ?_⟩
  obtain ⟨fuel, rfl⟩ : ∃ n, fuel = n + 1 := ⟨fuel - 1, by omega⟩
  have read := parseIdentifier_bracket legal before inside fuel (']' :: rest) (by rintro c ⟨⟩; rfl)
  rw [List.head?_cons, if_pos rfl, List.tail_cons] at read
  simpa only [List.append_assoc, List.cons_append, List.nil_append] using read

section

variable {name : Text} (legal : IsName name)

include legal

theorem ParsesUnary.arrayIndex {index : Expr} {text : Text} {inner : Last} (before first last : Gap)
    (spells : Spells 0 index text) (parses : Parses 0 index text inner) :
    ParsesUnary (.arrayIndex (String.ofList name) index)
      (name ++ (before.text ++ '[' :: (first.text ++ (text ++ (last.text ++ [']']))))) .bracket := by
  refine .of_name legal fun fuel rest ends enough => ⟨rest, rfl, ?_⟩
  obtain ⟨fuel, rfl⟩ : ∃ n, fuel = n + 1 := ⟨fuel - 1, by omega⟩
  simp only [List.length_append, List.length_cons, List.length_nil] at enough
  obtain ⟨c, head, starts⟩ := spells.head
  have inner : parseExprFrom fuel 0 (text ++ (last.text ++ ']' :: rest)) = .ok (index, ']' :: rest) := by
    exact parses.upTo .none last (by decide) (by omega)
  have read := parseIdentifier_bracket legal before first fuel (text ++ (last.text ++ ']' :: rest)) ?_
  · rw [if_neg (by rw [head_append head]; rintro ⟨⟩; exact absurd starts (by decide)), inner] at read
    simp only [List.append_assoc, List.cons_append, List.nil_append]
    exact read
  · intro d found
    rw [head_append head] at found
    cases found
    exact not_isBlank_of_startsOperand starts

theorem ParsesUnary.arraySubrange {high low : Expr} {highText lowText : Text} {highLast lowLast : Last}
    (before first middle second last : Gap) (spellsHigh : Spells 0 high highText)
    (parsesHigh : Parses 0 high highText highLast) (parsesLow : Parses 0 low lowText lowLast) :
    ParsesUnary (.arraySubrange (String.ofList name) high low)
      (name ++ (before.text ++ '[' :: (first.text ++ (highText ++ (middle.text ++ '.' :: '.' ::
        (second.text ++ (lowText ++ (last.text ++ [']'])))))))) .bracket := by
  refine .of_name legal fun fuel rest ends enough => ⟨rest, rfl, ?_⟩
  obtain ⟨fuel, rfl⟩ : ∃ n, fuel = n + 1 := ⟨fuel - 1, by omega⟩
  simp only [List.length_append, List.length_cons, List.length_nil] at enough
  obtain ⟨c, head, starts⟩ := spellsHigh.head
  have readHigh : parseExprFrom fuel 0 (highText ++ (middle.text ++ '.' :: '.' :: (second.text ++ (lowText ++
      (last.text ++ ']' :: rest))))) =
        .ok (high, '.' :: '.' :: (second.text ++ (lowText ++ (last.text ++ ']' :: rest)))) := by
    exact parsesHigh.upTo .none middle (by decide) (by simp only [List.length_append, List.length_cons]; omega)
  have readLow :
      parseExprFrom fuel 0 (second.text ++ (lowText ++ (last.text ++ ']' :: rest))) = .ok (low, ']' :: rest) := by
    exact parsesLow.upTo second last (by decide) (by omega)
  have read := parseIdentifier_bracket legal before first fuel (highText ++ (middle.text ++ '.' :: '.' ::
    (second.text ++ (lowText ++ (last.text ++ ']' :: rest))))) ?_
  · rw [if_neg (by rw [head_append head]; rintro ⟨⟩; exact absurd starts (by decide)), readHigh] at read
    simp only [List.append_assoc, List.cons_append, List.nil_append]
    rw [read]
    show (do
      let (second, rest) ← parseExprFrom fuel 0 (second.text ++ (lowText ++ (last.text ++ ']' :: rest)))
      let rest ← require ']' "Missing ] in subrange" (skipWs rest)
      return (Expr.arraySubrange (String.ofList name) high second, rest)) = _
    rw [readLow]
    rfl
  · intro d found
    rw [head_append head] at found
    cases found
    exact not_isBlank_of_startsOperand starts

theorem ParsesUnary.funcCall {func : Func} {arg : Expr} {text : Text} {inner : Last} (before first last : Gap)
    (plain : func ≠ .chr) (named : upper name = func.text) (parses : Parses 0 arg text inner) :
    ParsesUnary (.funcCall func arg)
      (name ++ (before.text ++ '(' :: (first.text ++ (text ++ (last.text ++ [')']))))) .bracket := by
  refine .of_name legal fun fuel rest ends enough => ⟨rest, rfl, ?_⟩
  obtain ⟨fuel, rfl⟩ : ∃ n, fuel = n + 1 := ⟨fuel - 1, by omega⟩
  simp only [List.length_append, List.length_cons, List.length_nil] at enough
  have inner : parseExprFrom fuel 0 (first.text ++ (text ++ (last.text ++ ')' :: rest))) = .ok (arg, ')' :: rest) := by
    exact parses.upTo first last (by decide) (by omega)
  have called : calledFunc (upper name) = some func := by
    rw [named]
    cases func <;> first | rfl | exact absurd rfl plain
  have stop := before.not_isIdent (c := '(') rfl (first.text ++ (text ++ (last.text ++ ')' :: rest)))
  simp only [List.append_assoc, List.cons_append, List.nil_append]
  rw [parseIdentifier]
  simp only [takeWhile_stop legal.2 stop, dropWhile_stop legal.2 stop, skipWs_gap, skipWs_cons (c := '(') rfl]
  rw [callOpens, if_pos (by rfl), called]
  simp only [List.tail_cons, inner]
  rfl

theorem ParsesUnary.chr {arg : Expr} {text : Text} {inner : Last} (before middle first last : Gap)
    (named : upper name = Func.chr.text) (parses : Parses 0 arg text inner) :
    ParsesUnary (.funcCall .chr arg) (name ++ (before.text ++ '$' :: (middle.text ++ '(' ::
      (first.text ++ (text ++ (last.text ++ [')'])))))) .bracket := by
  refine .of_name legal fun fuel rest ends enough => ⟨rest, rfl, ?_⟩
  obtain ⟨fuel, rfl⟩ : ∃ n, fuel = n + 1 := ⟨fuel - 1, by omega⟩
  simp only [List.length_append, List.length_cons, List.length_nil] at enough
  have inner : parseExprFrom fuel 0 (first.text ++ (text ++ (last.text ++ ')' :: rest))) = .ok (arg, ')' :: rest) := by
    exact parses.upTo first last (by decide) (by omega)
  have stop := before.not_isIdent (c := '$') rfl
    (middle.text ++ '(' :: (first.text ++ (text ++ (last.text ++ ')' :: rest))))
  simp only [List.append_assoc, List.cons_append, List.nil_append]
  rw [parseIdentifier]
  simp only [takeWhile_stop legal.2 stop, dropWhile_stop legal.2 stop, skipWs_gap, skipWs_cons (c := '$') rfl]
  rw [callOpens, if_neg (by simp)]
  simp only [named, List.head?_cons, and_self, if_true, List.tail_cons, skipWs_gap, skipWs_cons (c := '(') rfl, require]
  show (do
    let (arg, rest) ← parseExprFrom fuel 0 (first.text ++ (text ++ (last.text ++ ')' :: rest)))
    let rest ← require ')' "Missing ) after CHR$()" (skipWs rest)
    return (Expr.funcCall .chr arg, rest)) = _
  rw [inner]
  rfl

end

/-! ### Every spelling is read back -/

theorem SpellsTo.parses {p : Nat} {e : Expr} {text : Text} {last : Last} (spells : SpellsTo p e text last) :
    Parses p e text last ∧ (10 < p → ParsesUnary e text last) := by
  have operand {p : Nat} {e : Expr} {text : Text} {last : Last} (read : ParsesUnary e text last) :
      Parses p e text last ∧ (10 < p → ParsesUnary e text last) := ⟨read.parses p, fun _ => read⟩
  induction spells with
  | @binOp p op left right leftText rightText first last before after tight spellsLeft spellsRight ihLeft ihRight =>
    refine ⟨.binOp before after tight spellsRight.spells ihLeft.1 ihRight.1, fun above => ?_⟩
    have most : op.prec ≤ 10 := by cases op <;> decide
    omega
  | unaryOp gap spells ih => exact operand (.unaryOp gap spells.spells (ih.2 (by decide)))
  | paren before after spells ih => exact operand (.paren before after ih.1)
  | intLiteral some decimal => exact operand (.intLiteral some decimal)
  | binaryLiteral legal => exact operand (.binaryLiteral legal)
  | hexLiteral legal => exact operand (.hexLiteral legal)
  | acaLiteral legal decodes => exact operand (.acaLiteral legal decodes)
  | varRef legal => exact operand (.varRef legal)
  | arrayWhole before inside legal => exact operand (.arrayWhole before inside legal)
  | arrayIndex before first last legal spells ih =>
    exact operand (.arrayIndex legal before first last spells.spells ih.1)
  | arraySubrange before first middle second last legal spellsHigh spellsLow ihHigh ihLow =>
    exact operand (.arraySubrange legal before first middle second last spellsHigh.spells ihHigh.1 ihLow.1)
  | funcCall before first last plain legal named spells ih =>
    exact operand (.funcCall legal before first last plain named ih.1)
  | chr before middle first last legal named spells ih =>
    exact operand (.chr legal before middle first last named ih.1)

theorem SpellsTo.read {e : Expr} {text rest : Text} {last : Last} (spells : SpellsTo 0 e text last)
    (ended : Ended 0 last rest) {fuel : Nat} (enough : 4 * (text.length + rest.length) + 4 ≤ fuel) :
    parseExprFrom fuel 0 (text ++ rest) = .ok (e, skipWs rest) :=
  spells.parses.1.closed .none fuel ended enough

theorem code_of_isSpace {c : Char} (space : isSpace c = true) : c.toNat ≤ 32 := by
  simp only [isSpace, Bool.or_eq_true, Bool.and_eq_true, beq_iff_eq, decide_eq_true_eq] at space
  rcases space with (rfl | ⟨-, high⟩) | ⟨-, high⟩
  · decide
  · omega
  · omega

theorem code_of_isIdent {c : Char} (ident : isIdent c = true) : 48 ≤ c.toNat := by
  simp only [isIdent, Char.isAlphanum, Char.isAlpha, Char.isUpper, Char.isLower, Bool.or_eq_true, Bool.and_eq_true,
    decide_eq_true_eq, ge_iff_le, UInt32.le_iff_toNat_le, Char.isDigit_iff_toNat, beq_iff_eq] at ident
  rcases ident with ((⟨low, -⟩ | ⟨low, -⟩) | ⟨low, -⟩) | rfl
  · exact le_trans (by decide) low
  · exact le_trans (by decide) low
  · exact le_trans (by decide) low
  · decide

theorem not_isSpace_of_isIdent {c : Char} (ident : isIdent c = true) : isSpace c = false := by
  by_contra space
  have high := code_of_isSpace (by simpa using space)
  have low := code_of_isIdent ident
  omega

theorem not_isSpace_of_startsOperand {c : Char} (starts : startsOperand c = true) : isSpace c = false := by
  simp only [startsOperand, Bool.or_eq_true, decide_eq_true_eq] at starts
  rcases starts with ident | mark
  · exact not_isSpace_of_isIdent ident
  · have all : ['#', '$', '@', '(', '~', '!', '-'].all (fun d => !isSpace d) = true := rfl
    simpa using List.all_eq_true.mp all c mark

theorem IsContent.last {digit : Char → Bool} {content : Text} (legal : IsContent digit content) {mark : Char}
    (marked : isSpace mark = false) (digits : ∀ c, digit c = true → isBlank c = false → isSpace c = false) :
    ∃ c ∈ (mark :: content).getLast?, isSpace c = false := by
  cases last : content.getLast? with
  | none =>
    rw [List.getLast?_eq_none_iff] at last
    subst last
    exact ⟨mark, rfl, marked⟩
  | some c =>
    refine ⟨c, ?_, digits c (legal.1 c (List.mem_of_getLast? last)) (legal.2 c last)⟩
    rw [List.getLast?_cons, last]
    rfl

theorem getLast_append {front text : Text} {c : Char} (read : text.getLast? = some c) :
    (front ++ text).getLast? = some c := by
  rw [List.getLast?_append, read]
  rfl

theorem isHex_solid {c : Char} (digit : isHex c = true) (solid : isBlank c = false) : isSpace c = false := by
  by_contra space
  have high := code_of_isSpace (by simpa using space)
  simp only [isHex, solid, Bool.or_false, Bool.or_eq_true, Bool.and_eq_true, decide_eq_true_eq,
    Char.isDigit_iff_toNat, Char.le_def, UInt32.le_iff_toNat_le] at digit
  rcases digit with (⟨low, -⟩ | ⟨low, -⟩) | ⟨low, -⟩
  · exact absurd (low.trans high) (by decide)
  · exact absurd (low.trans high) (by decide)
  · exact absurd (low.trans high) (by decide)

theorem Spells.last {p : Nat} {e : Expr} {text : Text} (spells : Spells p e text) :
    ∃ c ∈ text.getLast?, isSpace c = false := by
  have ends (front : Text) {c : Char} (solid : isSpace c = false) :
      ∃ d ∈ (front ++ [c]).getLast?, isSpace d = false := ⟨c, List.getLast?_concat, solid⟩
  have word {text : Text} (some : text ≠ []) (all : ∀ c ∈ text, isIdent c = true) :
      ∃ c ∈ text.getLast?, isSpace c = false :=
    ⟨text.getLast some, List.getLast?_eq_some_getLast some, not_isSpace_of_isIdent (all _ (List.getLast_mem some))⟩
  induction spells with
  | binOp before after tight spellsLeft spellsRight ihLeft ihRight =>
    obtain ⟨c, read, solid⟩ := ihRight
    exact ⟨c, getLast_append (getLast_append (getLast_append (getLast_append read))), solid⟩
  | @unaryOp p op operand text gap spells ih =>
    obtain ⟨c, read, solid⟩ := ih
    exact ⟨c, @getLast_append [op.text] _ _ (getLast_append read), solid⟩
  | @paren p e text before after spells ih =>
    have shape := ends ('(' :: (before.text ++ (text ++ after.text))) (c := ')') rfl
    simpa only [List.append_assoc, List.cons_append] using shape
  | intLiteral some decimal =>
    exact word some fun c member => by rw [isIdent, Char.isAlphanum, decimal c member, Bool.or_true, Bool.true_or]
  | binaryLiteral legal =>
    refine legal.last rfl fun c digit solid => ?_
    simp only [isBinary, solid, Bool.or_false, Bool.or_eq_true, beq_iff_eq] at digit
    rcases digit with rfl | rfl <;> rfl
  | hexLiteral legal => exact legal.last rfl fun c => isHex_solid
  | acaLiteral legal decodes =>
    refine legal.last rfl fun c digit solid => ?_
    simp only [isAca, Bool.or_eq_true, beq_iff_eq] at digit
    rcases digit with ident | rfl
    · exact not_isSpace_of_isIdent (by simpa [isIdent] using ident)
    · rfl
  | varRef legal =>
    obtain ⟨⟨c, read, -⟩, all⟩ := legal
    exact word (by rintro rfl; cases read) all
  | @arrayWhole p name before inside legal =>
    have shape := ends (name ++ (before.text ++ '[' :: inside.text)) (c := ']') rfl
    simpa only [List.append_assoc, List.cons_append] using shape
  | @arrayIndex p name index text before first last legal spells ih =>
    have shape := ends (name ++ (before.text ++ '[' :: (first.text ++ (text ++ last.text)))) (c := ']') rfl
    simpa only [List.append_assoc, List.cons_append] using shape
  | @arraySubrange p name high low highText lowText before first middle second last legal spellsHigh spellsLow ihHigh
      ihLow =>
    have shape := ends (name ++ (before.text ++ '[' :: (first.text ++ (highText ++ (middle.text ++ '.' :: '.' ::
      (second.text ++ (lowText ++ last.text))))))) (c := ']') rfl
    simpa only [List.append_assoc, List.cons_append] using shape
  | @funcCall p func word text arg before first last plain legal named spells ih =>
    have shape := ends (word ++ (before.text ++ '(' :: (first.text ++ (text ++ last.text)))) (c := ')') rfl
    simpa only [List.append_assoc, List.cons_append] using shape
  | @chr p word text arg before middle first last legal named spells ih =>
    have shape := ends (word ++ (before.text ++ '$' :: (middle.text ++ '(' :: (first.text ++ (text ++
      last.text))))) (c := ')') rfl
    simpa only [List.append_assoc, List.cons_append] using shape

theorem strip_around (before text after : Text) (first : ∃ c ∈ text.head?, isSpace c = false)
    (last : ∃ c ∈ text.getLast?, isSpace c = false) (spaceBefore : ∀ c ∈ before, isSpace c = true)
    (spaceAfter : ∀ c ∈ after, isSpace c = true) : strip (before ++ (text ++ after)) = text := by
  obtain ⟨c, head, solidHead⟩ := first
  obtain ⟨d, tail, solidTail⟩ := last
  have stop : ∀ e ∈ (text ++ after).head?, isSpace e = false := by
    intro e read
    rw [head_append head] at read
    cases read
    exact solidHead
  have stopBack : ∀ e ∈ text.reverse.head?, isSpace e = false := by
    intro e read
    rw [List.head?_reverse, tail] at read
    cases read
    exact solidTail
  rw [strip, dropWhile_stop spaceBefore stop, List.rdropWhile, List.reverse_append,
    dropWhile_stop (fun e member => spaceAfter e (List.mem_reverse.mp member)) stopBack, List.reverse_reverse]

/-- `parse_expr` reads a text of the grammar back to its expression, whitespace around it or not. -/
theorem parseExpr_spells {e : Expr} {text : Text} (spells : Spells 0 e text) (before after : Text)
    (spaceBefore : ∀ c ∈ before, isSpace c = true) (spaceAfter : ∀ c ∈ after, isSpace c = true) :
    parseExpr (before ++ (text ++ after)) = .ok e := by
  obtain ⟨c, read, starts⟩ := spells.head
  have some : text ≠ [] := by rintro rfl; cases read
  have stripped : strip (before ++ (text ++ after)) = text :=
    strip_around _ _ _ ⟨c, read, not_isSpace_of_startsOperand starts⟩ spells.last spaceBefore spaceAfter
  obtain ⟨last, ending⟩ := spells.last_token
  have whole : parseExprFrom (enoughFuel text) 0 (text ++ []) = .ok (e, []) :=
    ending.read trailing_nil.ended (by rw [enoughFuel]; simp only [List.length_nil]; omega)
  rw [List.append_nil] at whole
  rw [parseExpr, stripped, if_neg some, whole]
  rfl

end Acrobe.Stapl
