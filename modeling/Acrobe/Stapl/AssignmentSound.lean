import Acrobe.Stapl.Assignment

/-!
# Which statements are read as assignments

A statement that assigns to a name is read as that assignment unless a method answers to its first
word, the name goes on from a keyword, or a sub-range stands where the bounds are split.
-/

namespace Acrobe.Stapl
open LittleEndian Acrobe.Storage

/-! ### The two dots -/

def Expr.hasSubrange : Expr → Bool
  | .intLiteral _ | .booleanLiteral _ _ | .varRef _ | .arrayWhole _ => false
  | .arrayIndex _ index => index.hasSubrange
  | .arraySubrange _ _ _ => true
  | .funcCall _ arg => arg.hasSubrange
  | .unaryOp _ operand => operand.hasSubrange
  | .binOp _ left right => left.hasSubrange || right.hasSubrange

theorem isName_dot {name : Text} (legal : IsName name) : '.' ∉ name := fun member =>
  absurd (legal.2 '.' member) (by decide)

theorem gap_dot (gap : Gap) : '.' ∉ gap.text := fun member => absurd (gap.blank '.' member) (by decide)

theorem parseAcaLiteral_booleanLiteral {content : Text} {e : Expr} (decodes : parseAcaLiteral content = .ok e) :
    e.hasSubrange = false := by
  rw [parseAcaLiteral] at decodes
  obtain ⟨header, -, decodes⟩ := Exceptional.except_bind_ok decodes
  obtain ⟨data, -, decodes⟩ := Exceptional.except_bind_ok decodes
  cases decodes
  rfl

/-- Dots are written for sub-ranges only. -/
theorem Spells.no_dot {p : Nat} {e : Expr} {text : Text} (spells : Spells p e text) (flat : e.hasSubrange = false) :
    '.' ∉ text := by
  induction spells with
  | @binOp p op left right leftText rightText before after tight spellsLeft spellsRight ihLeft ihRight =>
    simp only [Expr.hasSubrange, Bool.or_eq_false_iff] at flat
    have operator : '.' ∉ op.text := by cases op <;> decide
    simp [ihLeft flat.1, ihRight flat.2, gap_dot, operator]
  | @unaryOp p op operand text gap spells ih =>
    have operator : '.' ≠ op.text := by cases op <;> decide
    simp [ih flat, gap_dot, operator]
  | paren before after spells ih => simp [ih flat, gap_dot]
  | intLiteral some decimal => exact fun member => absurd (decimal '.' member) (by decide)
  | binaryLiteral legal => simpa using fun member => absurd (legal.1 '.' member) (by decide)
  | hexLiteral legal => simpa using fun member => absurd (legal.1 '.' member) (by decide)
  | acaLiteral legal decodes => simpa using fun member => absurd (legal.1 '.' member) (by decide)
  | varRef legal => exact isName_dot legal
  | arrayWhole before inside legal => simp [isName_dot legal, gap_dot]
  | arrayIndex before first last legal spells ih => simp [isName_dot legal, gap_dot, ih flat]
  | arraySubrange before first middle second last legal spellsHigh spellsLow ihHigh ihLow => cases flat
  | funcCall before first last plain legal named spells ih => simp [isName_dot legal, gap_dot, ih flat]
  | chr before middle first last legal named spells ih => simp [isName_dot legal, gap_dot, ih flat]

def Dots (text : Text) : Prop := ['.', '.'] <:+: text

theorem Dots.left {front : Text} (dots : Dots front) (back : Text) : Dots (front ++ back) :=
  dots.trans (List.prefix_append front back).isInfix

theorem Dots.right {back : Text} (dots : Dots back) (front : Text) : Dots (front ++ back) :=
  dots.trans (List.suffix_append front back).isInfix

theorem Spells.dots {p : Nat} {e : Expr} {text : Text} (spells : Spells p e text) (ranged : e.hasSubrange = true) :
    Dots text := by
  induction spells with
  | binOp before after tight spellsLeft spellsRight ihLeft ihRight =>
    rcases Bool.or_eq_true _ _ |>.mp ranged with left | right
    · exact (ihLeft left).left _
    · exact ((((ihRight right).right _).right _).right _).right _
  | unaryOp gap spells ih => exact ((ih ranged).right _).right [_]
  | paren before after spells ih => exact (((ih ranged).left _).right _).right [_]
  | intLiteral some decimal => cases ranged
  | binaryLiteral legal => cases ranged
  | hexLiteral legal => cases ranged
  | acaLiteral legal decodes => exact absurd ranged (by simp [parseAcaLiteral_booleanLiteral decodes])
  | varRef legal => cases ranged
  | arrayWhole before inside legal => cases ranged
  | arrayIndex before first last legal spells ih => exact (((((ih ranged).left _).right _).right [_]).right _).right _
  | arraySubrange before first middle second last legal spellsHigh spellsLow ihHigh ihLow =>
    have here (rest : Text) : Dots ('.' :: '.' :: rest) := (List.prefix_append ['.', '.'] rest).isInfix
    exact ((((((here _).right _).right _).right _).right [_]).right _).right _
  | funcCall before first last plain legal named spells ih =>
    exact (((((ih ranged).left _).right _).right [_]).right _).right _
  | chr before middle first last legal named spells ih =>
    exact (((((((ih ranged).left _).right _).right [_]).right _).right [_]).right _).right _

theorem splitDots_cons {c : Char} {rest : Text} (apart : ¬(c = '.' ∧ rest.head? = some '.')) :
    splitDots (c :: rest) = (splitDots rest).map fun (front, back) => (c :: front, back) := by
  rw [splitDots]
  rintro back rfl rfl
  exact apart ⟨rfl, rfl⟩

theorem splitDots_none {text : Text} (plain : '.' ∉ text) : splitDots text = none := by
  induction text with
  | nil => rfl
  | cons c rest ih =>
    simp only [List.mem_cons, not_or] at plain
    rw [splitDots_cons fun dots => plain.1 dots.1.symm, ih plain.2, Option.map_none]

theorem splitDots_front {front : Text} (plain : '.' ∉ front) (back : Text) :
    splitDots (front ++ '.' :: '.' :: back) = some (front, back) := by
  induction front with
  | nil => rfl
  | cons c front ih =>
    simp only [List.mem_cons, not_or] at plain
    rw [List.cons_append, splitDots_cons fun dots => plain.1 dots.1.symm, ih plain.2, Option.map_some]

theorem splitDots_some {text front back : Text} (split : splitDots text = some (front, back)) :
    text = front ++ '.' :: '.' :: back := by
  induction text generalizing front with
  | nil => cases split
  | cons c rest ih =>
    by_cases dots : c = '.' ∧ rest.head? = some '.'
    · obtain ⟨rfl, head⟩ := dots
      rw [← List.cons_head?_tail head] at split ⊢
      cases split
      rfl
    · rw [splitDots_cons dots] at split
      obtain ⟨⟨first, last⟩, found, same⟩ := Option.map_eq_some_iff.mp split
      cases same
      rw [ih found, List.cons_append]

theorem not_dots_nil : ¬Dots [] := fun dots => absurd (List.infix_nil.mp dots) (by decide)

theorem splitDots_first {text front back : Text} (split : splitDots text = some (front, back)) : ¬Dots front := by
  induction text generalizing front with
  | nil => cases split
  | cons c rest ih =>
    by_cases dots : c = '.' ∧ rest.head? = some '.'
    · obtain ⟨rfl, head⟩ := dots
      rw [← List.cons_head?_tail head] at split
      cases split
      exact not_dots_nil
    · rw [splitDots_cons dots] at split
      obtain ⟨⟨first, last⟩, found, same⟩ := Option.map_eq_some_iff.mp split
      cases same
      intro inside
      rcases List.infix_cons_iff.mp inside with ⟨more, same⟩ | later
      · cases same
        rw [splitDots_some found] at dots
        exact dots ⟨rfl, rfl⟩
      · exact ih found later

theorem splitDots_of_dots {text : Text} (dots : Dots text) : ∃ front back, splitDots text = some (front, back) := by
  obtain ⟨before, after, rfl⟩ := dots
  rw [List.append_assoc]
  induction before with
  | nil => exact ⟨[], after, rfl⟩
  | cons c before ih =>
    obtain ⟨front, back, split⟩ := ih
    by_cases both : c = '.' ∧ (before ++ (['.', '.'] ++ after)).head? = some '.'
    · refine ⟨[], (before ++ (['.', '.'] ++ after)).tail, ?_⟩
      rw [List.cons_append, ← List.cons_head?_tail both.2, both.1]
      rfl
    · exact ⟨c :: front, back, by rw [List.cons_append, splitDots_cons both, split, Option.map_some]⟩

theorem dots_of_parseExpr {text : Text} {e : Expr} (ran : parseExpr text = .ok e) (ranged : e.hasSubrange = true) :
    Dots text := by
  obtain ⟨rest, before, after, front, shape, spells⟩ := spells_of_parseExpr ran
  have inside : Dots (strip text) := by
    rw [shape]
    exact ((spells.dots ranged).left _).right _
  exact inside.trans ((List.rdropWhile_prefix ..).isInfix.trans (List.dropWhile_suffix _).isInfix)

/-! ### Finding the sign of the assignment -/

/-- Characters that neither quote nor bracket. -/
def isPlain (c : Char) : Bool := !(c == doubleQuote || c == '(' || c == '[' || c == ')' || c == ']')

theorem findEqFrom_cons (i : Nat) (depth : Int) (prev : Option Char) (c : Char) (rest : Text) :
    findEqFrom i depth false prev (c :: rest) =
      if c = doubleQuote then findEqFrom (i + 1) depth true (some c) rest
      else if c = '(' ∨ c = '[' then findEqFrom (i + 1) (depth + 1) false (some c) rest
      else if c = ')' ∨ c = ']' then findEqFrom (i + 1) (depth - 1) false (some c) rest
      else if c = '=' ∧ depth = 0 then
        if rest.head? = some '=' then findEqFrom (i + 2) depth false (some '=') rest.tail
        else if prev = some '!' ∨ prev = some '<' ∨ prev = some '>' then findEqFrom (i + 1) depth false (some c) rest
        else some i
      else findEqFrom (i + 1) depth false (some c) rest := by
  by_cases twice : rest.head? = some '='
  · rw [← List.cons_head?_tail twice]
    rfl
  · rw [findEqFrom]
    · simp only [Bool.false_eq_true, twice, if_false]
    · rintro more rfl
      exact twice rfl

theorem findEqFrom_plain {c : Char} (plain : isPlain c = true) {depth : Int} (inside : ¬(c = '=' ∧ depth = 0)) (i : Nat)
    (prev : Option Char) (rest : Text) :
    findEqFrom i depth false prev (c :: rest) = findEqFrom (i + 1) depth false (some c) rest := by
  simp only [isPlain, Bool.not_eq_true', Bool.or_eq_false_iff, beq_eq_false_iff_ne, ne_eq] at plain
  obtain ⟨⟨⟨⟨quote, round⟩, square⟩, roundClose⟩, squareClose⟩ := plain
  rw [findEqFrom_cons]
  simp only [quote, round, square, roundClose, squareClose, inside, or_self, if_false]

/-- Inside of brackets the text is passed over. -/
def Passes (text : Text) : Prop :=
  ∀ (i : Nat) (depth : Int) (prev : Option Char) (rest : Text), 0 < depth →
    ∃ last, findEqFrom i depth false prev (text ++ rest) = findEqFrom (i + text.length) depth false last rest

theorem Passes.append {front back : Text} (first : Passes front) (second : Passes back) : Passes (front ++ back) := by
  intro i depth prev rest inside
  obtain ⟨middle, passed⟩ := first i depth prev (back ++ rest) inside
  obtain ⟨last, rest⟩ := second (i + front.length) depth middle rest inside
  exact ⟨last, by rw [List.append_assoc, passed, rest, List.length_append, Nat.add_assoc]⟩

theorem passes_plain {text : Text} (plain : ∀ c ∈ text, isPlain c = true) : Passes text := by
  induction text with
  | nil => exact fun i depth prev rest inside => ⟨prev, rfl⟩
  | cons c text ih =>
    intro i depth prev rest inside
    have plainRest : ∀ d ∈ text, isPlain d = true := fun d member => plain d (List.mem_cons_of_mem c member)
    obtain ⟨last, passed⟩ := ih plainRest (i + 1) depth (some c) rest inside
    refine ⟨last, ?_⟩
    rw [List.cons_append, findEqFrom_plain (plain c List.mem_cons_self) (fun both => by omega), passed,
      List.length_cons, Nat.add_assoc, Nat.add_comm 1]

theorem findEqFrom_brackets {first last : Char} (opens : first = '(' ∨ first = '[') (closes : last = ')' ∨ last = ']')
    {text : Text} (inner : Passes text) (i : Nat) {depth : Int} (inside : 0 ≤ depth) (prev : Option Char)
    (rest : Text) :
    findEqFrom i depth false prev (first :: (text ++ last :: rest)) =
      findEqFrom (i + (text.length + 2)) depth false (some last) rest := by
  obtain ⟨middle, passed⟩ := inner (i + 1) (depth + 1) (some first) (last :: rest) (by omega)
  have opened : findEqFrom i depth false prev (first :: (text ++ last :: rest)) =
      findEqFrom (i + 1) (depth + 1) false (some first) (text ++ last :: rest) := by
    rw [findEqFrom_cons]
    rcases opens with rfl | rfl <;> rfl
  have closed (j : Nat) : findEqFrom j (depth + 1) false middle (last :: rest) =
      findEqFrom (j + 1) depth false (some last) rest := by
    rw [findEqFrom_cons]
    rcases closes with rfl | rfl <;> simp [doubleQuote]
  rw [opened, passed, closed]
  congr 1
  omega

theorem passes_brackets {first last : Char} (opens : first = '(' ∨ first = '[') (closes : last = ')' ∨ last = ']')
    {text : Text} (inner : Passes text) : Passes (first :: (text ++ [last])) := by
  intro i depth prev rest inside
  refine ⟨some last, ?_⟩
  simpa only [List.cons_append, List.append_assoc, List.nil_append, List.length_cons, List.length_append,
    List.length_nil] using findEqFrom_brackets opens closes inner i (by omega) prev rest

theorem isPlain_of_isBlank {c : Char} (blank : isBlank c = true) : isPlain c = true := by
  simp only [isBlank, Bool.or_eq_true, beq_iff_eq] at blank
  rcases blank with rfl | rfl <;> rfl

theorem isPlain_of (digit : Char → Bool)
    (outside : [doubleQuote, '(', '[', ')', ']'].all (fun c => !digit c) = true) {c : Char} (read : digit c = true) :
    isPlain c = true := by
  by_contra special
  simp only [isPlain, Bool.not_eq_true', Bool.not_eq_false, Bool.or_eq_true, beq_iff_eq] at special
  have member : c ∈ [doubleQuote, '(', '[', ')', ']'] := by simpa [or_assoc] using special
  exact absurd read (by simpa using List.all_eq_true.mp outside c member)

theorem passes_gap (gap : Gap) : Passes gap.text := passes_plain fun c member => isPlain_of_isBlank (gap.blank c member)

theorem passes_name {name : Text} (legal : IsName name) : Passes name :=
  passes_plain fun c member => isPlain_of isIdent rfl (legal.2 c member)

theorem passes_cons {c : Char} (plain : isPlain c = true) {text : Text} (passes : Passes text) : Passes (c :: text) :=
  have single : Passes [c] := passes_plain fun _ member => by rwa [List.mem_singleton.mp member]
  single.append passes

theorem Spells.passes {p : Nat} {e : Expr} {text : Text} (spells : Spells p e text) : Passes text := by
  induction spells with
  | @binOp p op left right leftText rightText before after tight spellsLeft spellsRight ihLeft ihRight =>
    have operator : Passes op.text := passes_plain (List.all_eq_true.mp (by cases op <;> rfl))
    exact ihLeft.append ((passes_gap before).append (operator.append ((passes_gap after).append ihRight)))
  | @unaryOp p op operand text gap spells ih =>
    exact passes_cons (by cases op <;> rfl) ((passes_gap gap).append ih)
  | paren before after spells ih =>
    have inner := (passes_gap before).append (ih.append (passes_gap after))
    simpa only [List.append_assoc] using passes_brackets (.inl rfl) (.inl rfl) inner
  | intLiteral some decimal => exact passes_plain fun c member => isPlain_of Char.isDigit rfl (decimal c member)
  | binaryLiteral legal =>
    exact passes_cons rfl (passes_plain fun c member => isPlain_of isBinary rfl (legal.1 c member))
  | hexLiteral legal => exact passes_cons rfl (passes_plain fun c member => isPlain_of isHex rfl (legal.1 c member))
  | acaLiteral legal decodes =>
    exact passes_cons rfl (passes_plain fun c member => isPlain_of isAca rfl (legal.1 c member))
  | varRef legal => exact passes_name legal
  | arrayWhole before inside legal =>
    have brackets := passes_brackets (.inr rfl) (.inr rfl) (passes_gap inside)
    exact (passes_name legal).append ((passes_gap before).append brackets)
  | arrayIndex before first last legal spells ih =>
    have inner := (passes_gap first).append (ih.append (passes_gap last))
    have brackets := passes_brackets (.inr rfl) (.inr rfl) inner
    simpa only [List.append_assoc] using (passes_name legal).append ((passes_gap before).append brackets)
  | arraySubrange before first middle second last legal spellsHigh spellsLow ihHigh ihLow =>
    have low := passes_cons (c := '.') rfl (passes_cons (c := '.') rfl
      ((passes_gap second).append (ihLow.append (passes_gap last))))
    have inner := (passes_gap first).append (ihHigh.append ((passes_gap middle).append low))
    have brackets := passes_brackets (.inr rfl) (.inr rfl) inner
    simpa only [List.append_assoc, List.cons_append] using
      (passes_name legal).append ((passes_gap before).append brackets)
  | funcCall before first last plain legal named spells ih =>
    have inner := (passes_gap first).append (ih.append (passes_gap last))
    have brackets := passes_brackets (.inl rfl) (.inl rfl) inner
    simpa only [List.append_assoc] using (passes_name legal).append ((passes_gap before).append brackets)
  | chr before middle first last legal named spells ih =>
    have inner := (passes_gap first).append (ih.append (passes_gap last))
    have brackets := (passes_gap middle).append (passes_brackets (.inl rfl) (.inl rfl) inner)
    simpa only [List.append_assoc] using
      (passes_name legal).append ((passes_gap before).append (passes_cons (c := '$') rfl brackets))

/-! ### The left-hand side -/

/-- What an assignment is made to: a name, `a[]`, `a[i]` or `a[h..l]`. -/
inductive LhsForm where
  | name
  | whole
  | index (place : Expr)
  | subrange (high low : Expr)
  deriving DecidableEq

def LhsForm.assign (form : LhsForm) (name : Text) (value : Expr) : Parsed :=
  match form with
  | .name | .whole => .assignStmt (String.ofList name) none none none value
  | .index place => .assignStmt (String.ofList name) (some place) none none value
  | .subrange high low => .assignStmt (String.ofList name) none (some high) (some low) value

/-- No sub-range stands before the dots that the bounds are split at. -/
def LhsForm.Flat : LhsForm → Prop
  | .name | .whole => True
  | .index place => place.hasSubrange = false
  | .subrange high _ => high.hasSubrange = false

/-- The text between the brackets. -/
inductive SpellsInner : LhsForm → Text → Prop where
  | whole (gap : Gap) : SpellsInner .whole gap.text
  | index {place : Expr} {text : Text} (first last : Gap) (spells : Spells 0 place text) :
      SpellsInner (.index place) (first.text ++ (text ++ last.text))
  | subrange {high low : Expr} {highText lowText : Text} (first middle second last : Gap)
      (spellsHigh : Spells 0 high highText) (spellsLow : Spells 0 low lowText) :
      SpellsInner (.subrange high low)
        (first.text ++ ((highText ++ (middle.text ++ '.' :: '.' :: (second.text ++ lowText))) ++ last.text))

inductive SpellsBrackets : LhsForm → Text → Prop where
  | none : SpellsBrackets .name []
  | brackets {form : LhsForm} {inner : Text} (spells : SpellsInner form inner) :
      SpellsBrackets form ('[' :: (inner ++ [']']))

theorem SpellsInner.passes {form : LhsForm} {inner : Text} (spells : SpellsInner form inner) : Passes inner := by
  cases spells with
  | whole gap => exact passes_gap gap
  | index first last spells => exact (passes_gap first).append (spells.passes.append (passes_gap last))
  | subrange first middle second last spellsHigh spellsLow =>
    have low := passes_cons (c := '.') rfl (passes_cons (c := '.') rfl ((passes_gap second).append spellsLow.passes))
    exact (passes_gap first).append
      ((spellsHigh.passes.append ((passes_gap middle).append low)).append (passes_gap last))

/-- No comparison ends here. -/
def Calm (prev : Option Char) : Prop := ¬(prev = some '!' ∨ prev = some '<' ∨ prev = some '>')

def isCalm (c : Char) : Bool := isPlain c && !(c == '=' || c == '!' || c == '<' || c == '>')

theorem findEqFrom_calm {text : Text} (calm : ∀ c ∈ text, isCalm c = true) {prev : Option Char} (before : Calm prev)
    (i : Nat) (rest : Text) :
    ∃ last, Calm last ∧ findEqFrom i 0 false prev (text ++ rest) = findEqFrom (i + text.length) 0 false last rest := by
  induction text generalizing prev i with
  | nil => exact ⟨prev, before, rfl⟩
  | cons c text ih =>
    have this := calm c List.mem_cons_self
    simp only [isCalm, Bool.and_eq_true, Bool.not_eq_true', Bool.or_eq_false_iff, beq_eq_false_iff_ne, ne_eq] at this
    obtain ⟨plain, ⟨⟨equal, bang⟩, less⟩, greater⟩ := this
    have quiet : Calm (some c) := by simp [Calm, bang, less, greater]
    obtain ⟨last, after, passed⟩ := ih (fun d member => calm d (List.mem_cons_of_mem c member)) quiet (i + 1)
    refine ⟨last, after, ?_⟩
    rw [List.cons_append, findEqFrom_plain plain (fun both => equal both.1), passed, List.length_cons, Nat.add_assoc,
      Nat.add_comm 1]

theorem calm_gap (gap : Gap) : ∀ c ∈ gap.text, isCalm c = true := by
  intro c member
  have blank := gap.blank c member
  simp only [isBlank, Bool.or_eq_true, beq_iff_eq] at blank
  rcases blank with rfl | rfl <;> rfl

theorem calm_name {name : Text} (legal : IsName name) : ∀ c ∈ name, isCalm c = true := by
  intro c member
  have ident := legal.2 c member
  by_contra special
  have member : c ∈ [doubleQuote, '(', '[', ')', ']', '=', '!', '<', '>'] := by
    simp only [isCalm, isPlain, Bool.and_eq_true, Bool.not_eq_true', not_and_or, Bool.not_eq_false, Bool.or_eq_true,
      beq_iff_eq] at special
    simpa [or_assoc] using special
  have all : [doubleQuote, '(', '[', ')', ']', '=', '!', '<', '>'].all (fun d => !isIdent d) = true := rfl
  exact absurd ident (by simpa using List.all_eq_true.mp all c member)

theorem findAssignmentEq_lhs {name : Text} (legal : IsName name) (before after : Gap) {form : LhsForm} {brackets : Text}
    (spells : SpellsBrackets form brackets) {rhs : Text} (single : rhs.head? ≠ some '=') :
    findAssignmentEq (name ++ (before.text ++ (brackets ++ (after.text ++ '=' :: rhs)))) =
      some (name ++ (before.text ++ (brackets ++ after.text))).length := by
  have quiet : Calm none := by simp [Calm]
  obtain ⟨first, calm, named⟩ := findEqFrom_calm (calm_name legal) quiet 0
    (before.text ++ (brackets ++ (after.text ++ '=' :: rhs)))
  obtain ⟨second, calm, gapped⟩ := findEqFrom_calm (calm_gap before) calm (0 + name.length)
    (brackets ++ (after.text ++ '=' :: rhs))
  have bracketed (i : Nat) : ∃ third, Calm third ∧
      findEqFrom i 0 false second (brackets ++ (after.text ++ '=' :: rhs)) =
        findEqFrom (i + brackets.length) 0 false third (after.text ++ '=' :: rhs) := by
    cases spells with
    | none => exact ⟨second, calm, rfl⟩
    | @brackets _ inner spells =>
      refine ⟨some ']', by simp [Calm], ?_⟩
      simpa only [List.cons_append, List.append_assoc, List.nil_append, List.length_cons, List.length_append,
        List.length_nil] using findEqFrom_brackets (.inr rfl) (.inr rfl) spells.passes i (Int.le_refl 0) second _
  obtain ⟨third, calm, closed⟩ := bracketed (0 + name.length + before.text.length)
  obtain ⟨last, calm, found⟩ := findEqFrom_calm (calm_gap after) calm
    (0 + name.length + before.text.length + brackets.length) ('=' :: rhs)
  rw [findAssignmentEq, named, gapped, closed, found, findEqFrom_cons]
  simp only [Calm] at calm
  simp [single, calm, doubleQuote]
  omega

theorem space_gap (gap : Gap) : ∀ c ∈ gap.text, isSpace c = true := fun c member =>
  isSpace_of_isBlank (gap.blank c member)

theorem IsName.ends {name : Text} (legal : IsName name) :
    (∃ c ∈ name.head?, isSpace c = false) ∧ ∃ c ∈ name.getLast?, isSpace c = false := by
  obtain ⟨c, read, starts⟩ := legal.head
  exact ⟨⟨c, read, not_isSpace_of_startsOperand starts⟩, (Spells.varRef (p := 0) legal).last⟩

theorem strip_name {name : Text} (legal : IsName name) (gap : Gap) : strip (name ++ gap.text) = name :=
  strip_around [] _ _ legal.ends.1 legal.ends.2 (fun _ member => (List.not_mem_nil member).elim) (space_gap gap)

theorem parseLhs_name {name : Text} (legal : IsName name) (gap : Gap) :
    parseLhs (name ++ gap.text) = .ok ⟨String.ofList name, none, none, none⟩ := by
  have plain : '[' ∉ name := fun member => absurd (legal.2 _ member) (by decide)
  rw [parseLhs, strip_name legal gap, if_pos plain]
  rfl

theorem parseLhs_brackets {name : Text} (legal : IsName name) (before after : Gap) (inner : Text) :
    parseLhs (name ++ (before.text ++ ('[' :: (inner ++ [']']) ++ after.text))) =
      if strip inner = [] then .ok ⟨String.ofList name, none, none, none⟩
      else
        match splitDots (strip inner) with
        | some (highText, lowText) => do
          let high ← parseExpr highText
          let low ← parseExpr lowText
          return ⟨String.ofList name, none, some high, some low⟩
        | none => do
          let index ← parseExpr (strip inner)
          return ⟨String.ofList name, some index, none, none⟩ := by
  have stripped : strip (name ++ (before.text ++ ('[' :: (inner ++ [']']) ++ after.text))) =
      name ++ before.text ++ '[' :: (inner ++ [']']) := by
    obtain ⟨c, read, solid⟩ := legal.ends.1
    have around := strip_around [] (name ++ before.text ++ '[' :: (inner ++ [']'])) after.text
      ⟨c, head_append (head_append read), solid⟩
      ⟨']', @getLast_append (name ++ before.text) _ _ (@getLast_append ('[' :: inner) _ _ rfl), rfl⟩
      (fun _ member => (List.not_mem_nil member).elim) (space_gap after)
    simpa only [List.nil_append, List.append_assoc] using around
  have apart : ∀ c ∈ name ++ before.text, (c != '[') = true := by
    intro c member
    rw [bne_iff_ne]
    rintro rfl
    rcases List.mem_append.mp member with member | member
    · exact absurd (legal.2 _ member) (by decide)
    · exact absurd (before.blank _ member) (by decide)
  have stop : ∀ c ∈ ('[' :: (inner ++ [']'])).head?, (c != '[') = false := by
    rintro c ⟨⟩
    rfl
  have behind : ((inner ++ [']']).rdropWhile fun c => c != ']').dropLast = inner := by
    rw [List.rdropWhile_concat_neg _ _ _ (by decide), List.dropLast_concat]
  rw [parseLhs, stripped, if_neg (by simp), if_neg (by simp), takeWhile_stop apart stop, dropWhile_stop apart stop,
    strip_name legal before, List.tail_cons]
  dsimp only
  rw [behind]
  rfl

theorem strip_subrange {high low : Expr} {highText lowText : Text} (first middle second last : Gap)
    (spellsHigh : Spells 0 high highText) (spellsLow : Spells 0 low lowText) :
    strip (first.text ++ ((highText ++ (middle.text ++ '.' :: '.' :: (second.text ++ lowText))) ++ last.text)) =
      highText ++ middle.text ++ '.' :: '.' :: (second.text ++ lowText) := by
  obtain ⟨c, read, starts⟩ := spellsHigh.head
  obtain ⟨d, ends, solid⟩ := spellsLow.last
  rw [List.append_assoc highText middle.text]
  refine strip_around _ _ _ ⟨c, head_append read, not_isSpace_of_startsOperand starts⟩ ⟨d, ?_, solid⟩ (space_gap first)
    (space_gap last)
  exact getLast_append (getLast_append (@getLast_append ['.', '.'] _ _ (getLast_append ends)))

theorem parseLhs_inner {name : Text} (legal : IsName name) (before after : Gap) {form : LhsForm} {inner : Text}
    (spells : SpellsInner form inner) (flat : form.Flat) :
    ∃ target, parseLhs (name ++ (before.text ++ ('[' :: (inner ++ [']']) ++ after.text))) = .ok target ∧
      ∀ value, .assignStmt target.name target.index target.high target.low value = form.assign name value := by
  rw [parseLhs_brackets legal before after inner]
  cases spells with
  | whole gap =>
    have empty : strip gap.text = [] := by
      rw [strip, List.dropWhile_eq_nil_iff.mpr (space_gap gap)]
      rfl
    exact ⟨_, if_pos empty, fun value => rfl⟩
  | @index place text first last spells =>
    obtain ⟨c, read, starts⟩ := spells.head
    have stripped : strip (first.text ++ (text ++ last.text)) = text :=
      strip_around _ _ _ ⟨c, read, not_isSpace_of_startsOperand starts⟩ spells.last (space_gap first) (space_gap last)
    have parsed : parseExpr text = .ok place := by
      simpa using parseExpr_spells spells [] [] (by simp) (by simp)
    have some : text ≠ [] := by rintro rfl; cases read
    refine ⟨⟨String.ofList name, .some place, none, none⟩, ?_, fun value => rfl⟩
    rw [stripped, if_neg some, splitDots_none (spells.no_dot flat), parsed]
    rfl
  | @subrange high low highText lowText first middle second last spellsHigh spellsLow =>
    have some : highText ++ middle.text ++ '.' :: '.' :: (second.text ++ lowText) ≠ [] := by simp
    have plain : '.' ∉ highText ++ middle.text := by simp [spellsHigh.no_dot flat, gap_dot]
    have parsedHigh : parseExpr (highText ++ middle.text) = .ok high :=
      parseExpr_spells spellsHigh [] _ (by simp) (space_gap middle)
    have parsedLow : parseExpr (second.text ++ lowText) = .ok low := by
      simpa using parseExpr_spells spellsLow _ [] (space_gap second) (by simp)
    refine ⟨⟨String.ofList name, none, .some high, .some low⟩, ?_, fun value => rfl⟩
    rw [strip_subrange first middle second last spellsHigh spellsLow, if_neg some, splitDots_front plain]
    dsimp only
    rw [parsedHigh, parsedLow]
    rfl

/-- A sub-range in the way of the split is never read back. -/
theorem parseLhs_ranged {name : Text} (legal : IsName name) (before after : Gap) {form : LhsForm} {inner : Text}
    (spells : SpellsInner form inner) (ranged : ¬form.Flat) {target : Target}
    (ran : parseLhs (name ++ (before.text ++ ('[' :: (inner ++ [']']) ++ after.text))) = .ok target)
    (value other : Expr) :
    .assignStmt target.name target.index target.high target.low other ≠ form.assign name value := by
  rw [parseLhs_brackets legal before after inner] at ran
  cases spells with
  | whole gap => exact absurd trivial ranged
  | @index place text first last spells =>
    obtain ⟨c, read, starts⟩ := spells.head
    have stripped : strip (first.text ++ (text ++ last.text)) = text :=
      strip_around _ _ _ ⟨c, read, not_isSpace_of_startsOperand starts⟩ spells.last (space_gap first) (space_gap last)
    have some : text ≠ [] := by rintro rfl; cases read
    obtain ⟨front, back, split⟩ := splitDots_of_dots (spells.dots (by simpa [LhsForm.Flat] using ranged))
    rw [stripped, if_neg some, split] at ran
    obtain ⟨high, -, ran⟩ := Exceptional.except_bind_ok ran
    obtain ⟨low, -, ran⟩ := Exceptional.except_bind_ok ran
    cases ran
    rintro ⟨⟩
  | @subrange high low highText lowText first middle second last spellsHigh spellsLow =>
    have inside : high.hasSubrange = true := by simpa [LhsForm.Flat] using ranged
    have some : highText ++ middle.text ++ '.' :: '.' :: (second.text ++ lowText) ≠ [] := by simp
    obtain ⟨front, back, split⟩ :
        ∃ front back,
          splitDots (highText ++ middle.text ++ '.' :: '.' :: (second.text ++ lowText)) = .some (front, back) :=
      splitDots_of_dots (((spellsHigh.dots inside).left _).left _)
    rw [strip_subrange first middle second last spellsHigh spellsLow, if_neg some, split] at ran
    obtain ⟨parsed, read, ran⟩ := Exceptional.except_bind_ok ran
    obtain ⟨low, -, ran⟩ := Exceptional.except_bind_ok ran
    cases ran
    intro same
    cases same
    exact splitDots_first split (dots_of_parseExpr read inside)

/-- An assignment is read whole from its text exactly when its bounds are split in the right place. -/
theorem parseAssignText_iff (line : Nat) {name : Text} (legal : IsName name) (before after : Gap) {form : LhsForm}
    {brackets rhs : Text} (spells : SpellsBrackets form brackets) {value : Expr} (read : parseExpr rhs = .ok value)
    (single : rhs.head? ≠ some '=') :
    parseAssignText line (name ++ (before.text ++ (brackets ++ (after.text ++ '=' :: rhs)))) =
      .ok (form.assign name value) ↔ form.Flat := by
  have shape : name ++ (before.text ++ (brackets ++ (after.text ++ '=' :: rhs))) =
      (name ++ (before.text ++ (brackets ++ after.text))) ++ '=' :: rhs := by
    simp only [List.append_assoc]
  have behind : (name ++ (before.text ++ (brackets ++ (after.text ++ '=' :: rhs)))).drop
      ((name ++ (before.text ++ (brackets ++ after.text))).length + 1) = rhs := by
    rw [shape, ← List.drop_drop, List.drop_left, List.drop_succ_cons, List.drop_zero]
  rw [parseAssignText, findAssignmentEq_lhs legal before after spells single]
  dsimp only
  rw [behind, shape, List.take_left, read]
  have left : (∃ target, parseLhs (name ++ (before.text ++ (brackets ++ after.text))) = .ok target ∧
      .assignStmt target.name target.index target.high target.low value = form.assign name value) ↔ form.Flat := by
    cases spells with
    | none =>
      exact ⟨fun _ => trivial, fun _ => ⟨⟨String.ofList name, .none, .none, .none⟩,
        parseLhs_name legal (before.append after), rfl⟩⟩
    | @brackets _ inner spells =>
      refine ⟨fun ⟨target, ran, same⟩ => ?_, fun flat => ?_⟩
      · by_contra ranged
        exact parseLhs_ranged legal before after spells ranged ran value value same
      · obtain ⟨target, ran, same⟩ := parseLhs_inner legal before after spells flat
        exact ⟨target, ran, same value⟩
  rw [← left]
  constructor
  · intro ran
    obtain ⟨target, found, ran⟩ := Exceptional.except_bind_ok ran
    exact ⟨target, found, Except.ok.inj ran⟩
  · rintro ⟨target, found, same⟩
    rw [found, ← same]
    rfl

/-! ### Dispatch -/

/-- No method answers to the first word, and the name does not go on from a keyword. `behind` is the
text behind the name. -/
def Clear (name behind : Text) : Prop :=
  keywordStart (upper name) = none ∧
    (methodNamed (upper name) = none ∨ ∀ c ∈ behind.head?, isBlank c = false)

instance (name behind : Text) : Decidable (Clear name behind) :=
  have : Decidable (∀ c ∈ behind.head?, isBlank c = false) :=
    decidable_of_iff (behind.head?.all (fun c => !isBlank c) = true) (by simp [Option.all_eq_true])
  inferInstanceAs (Decidable (_ ∧ (_ ∨ _)))

theorem methodNamed_mark {front rest : Text} {c : Char} (mark : c = '[' ∨ c = '=') :
    methodNamed (upper (front ++ c :: rest)) = none := by
  rw [methodNamed, List.find?_eq_none]
  intro method _ same
  have word : method.name.toList.all isIdent = true := by cases method <;> rfl
  have inside : c ∈ method.name.toList := by
    rw [beq_iff_eq.mp same, upper, lower, List.map_map, List.map_append, List.map_cons]
    rcases mark with rfl | rfl <;> exact List.mem_append_right _ List.mem_cons_self
  have ident := List.all_eq_true.mp word c inside
  rcases mark with rfl | rfl <;> exact absurd ident (by decide)

theorem findSome?_congr {α β : Type} {f g : α → Option β} {l : List α} (same : ∀ a ∈ l, f a = g a) :
    l.findSome? f = l.findSome? g := by
  induction l with
  | nil => rfl
  | cons a l ih =>
    rw [List.findSome?_cons, List.findSome?_cons, same a List.mem_cons_self,
      ih fun b member => same b (List.mem_cons_of_mem a member)]

theorem keywordStart_mark {front rest : Text} {c : Char} (mark : c = '[' ∨ c = '=') (other : front ∉ keywords) :
    keywordStart (front ++ c :: rest) = keywordStart front := by
  refine findSome?_congr fun kw member => if_congr ⟨fun ⟨starts, _⟩ => ?_, fun ⟨starts, shorter⟩ => ?_⟩ rfl rfl
  · obtain ⟨more, shape⟩ := List.isPrefixOf_iff_prefix.mp starts
    have letters : keywords.all (fun kw => kw.all isIdent) = true := by decide
    have word := List.all_eq_true.mp (List.all_eq_true.mp letters kw member)
    rcases List.append_eq_append_iff.mp shape with ⟨more, rfl, -⟩ | ⟨more, rfl, goesOn⟩
    · refine ⟨List.isPrefixOf_iff_prefix.mpr (List.prefix_append _ _), ?_⟩
      cases more with
      | nil => exact absurd (by rwa [List.append_nil]) other
      | cons d more => simp
    · cases more with
      | nil => exact absurd (by rwa [List.append_nil] at member) other
      | cons d more =>
        cases goesOn
        have ident := word c (List.mem_append_right _ List.mem_cons_self)
        rcases mark with rfl | rfl <;> exact absurd ident (by decide)
  · have whole : kw <+: front ++ c :: rest := (List.isPrefixOf_iff_prefix.mp starts).trans (List.prefix_append _ _)
    refine ⟨List.isPrefixOf_iff_prefix.mpr whole, ?_⟩
    rw [List.length_append]
    omega

theorem strip_cons {c : Char} (solid : isSpace c = false) (text : Text) :
    ∃ front, strip (c :: text) = c :: front ∧ front <+: text := by
  have started : (c :: text).dropWhile isSpace = c :: text := List.dropWhile_cons_of_neg (by simp [solid])
  have front : (c :: text).rdropWhile isSpace <+: c :: text := List.rdropWhile_prefix ..
  rw [strip, started]
  cases shape : (c :: text).rdropWhile isSpace with
  | nil =>
    have all := List.rdropWhile_eq_nil_iff.mp shape c List.mem_cons_self
    exact absurd all (by simp [solid])
  | cons d rest =>
    rw [shape] at front
    obtain ⟨rfl, behind⟩ := List.cons_prefix_cons.mp front
    exact ⟨rest, rfl, behind⟩

theorem le_findEqFrom {text : Text} {i : Nat} {depth : Int} {inString : Bool} {prev : Option Char} {found : Nat}
    (ran : findEqFrom i depth inString prev text = some found) : i ≤ found := by
  fun_induction findEqFrom i depth inString prev text <;> first
    | cases ran <;> exact Nat.le_refl _
    | rename_i ih
      have later := ih ran
      omega

theorem parseLhs_bracket {text : Text} {target : Target} (ran : parseLhs ('[' :: text) = .ok target) :
    target.name = "" := by
  obtain ⟨front, stripped, -⟩ := strip_cons (c := '[') rfl text
  have nameless : String.ofList (strip (('[' :: front).takeWhile fun c => c != '[')) = "" := rfl
  rw [parseLhs, stripped, if_neg (by simp)] at ran
  split at ran
  · cases ran
  dsimp only at ran
  split at ran
  · cases ran
    exact nameless
  split at ran
  · obtain ⟨high, -, ran⟩ := Exceptional.except_bind_ok ran
    obtain ⟨low, -, ran⟩ := Exceptional.except_bind_ok ran
    cases ran
    exact nameless
  · obtain ⟨index, -, ran⟩ := Exceptional.except_bind_ok ran
    cases ran
    exact nameless

theorem parseAssignText_nameless (line : Nat) {c : Char} {text : Text}
    (mark : c = '[' ∨ c = '=' ∧ text.head? ≠ some '=') {name : Text} (legal : IsName name) (form : LhsForm)
    (value : Expr) : parseAssignText line (c :: text) ≠ .ok (form.assign name value) := by
  intro ran
  have nameless : ∃ target : Target, target.name = "" ∧ ∃ other : Expr,
      Parsed.assignStmt target.name target.index target.high target.low other = form.assign name value := by
    rw [parseAssignText] at ran
    split at ran
    · cases ran
    next eqPos found =>
      obtain ⟨target, read, ran⟩ := Exceptional.except_bind_ok ran
      obtain ⟨other, -, ran⟩ := Exceptional.except_bind_ok ran
      refine ⟨target, ?_, other, Except.ok.inj ran⟩
      rcases mark with rfl | ⟨rfl, single⟩
      · rw [findAssignmentEq, findEqFrom_cons] at found
        have later := le_findEqFrom (by simpa [doubleQuote] using found)
        obtain ⟨eqPos, rfl⟩ : ∃ n, eqPos = n + 1 := ⟨eqPos - 1, by omega⟩
        exact parseLhs_bracket (by simpa using read)
      · rw [findAssignmentEq, findEqFrom_cons] at found
        simp [single, doubleQuote] at found
        subst found
        cases read
        rfl
  obtain ⟨target, empty, other, same⟩ := nameless
  have names : target.name = String.ofList name := by
    cases form <;> exact (Parsed.assignStmt.inj same).1
  obtain ⟨⟨c, read, -⟩, -⟩ := legal
  rw [empty, ← String.ofList_nil, String.ofList_inj] at names
  rw [← names] at read
  cases read

theorem firstWord_name {name : Text} (legal : IsName name) (behind : Text) :
    firstWord (name ++ behind) = name ++ behind.takeWhile (fun c => !isSpace c) ∧
      afterWord (name ++ behind) = strip (behind.dropWhile fun c => !isSpace c) := by
  have solid : ∀ c ∈ name, (!isSpace c) = true := fun c member => by
    rw [not_isSpace_of_isIdent (legal.2 c member)]
    rfl
  obtain ⟨⟨c, read, space⟩, -⟩ := legal.ends
  have started : (name ++ behind).dropWhile isSpace = name ++ behind := by
    cases name with
    | nil => cases read
    | cons d name =>
      cases read
      exact List.dropWhile_cons_of_neg (by simp [space])
  rw [firstWord, afterWord, started, List.takeWhile_append_of_pos solid, List.dropWhile_append_of_pos solid]
  exact ⟨rfl, rfl⟩

theorem keywordStart_method {keyword : Text} {method : Method} {length : Nat}
    (starts : keywordStart keyword = some (method, length)) :
    method ≠ .statementText ∧ method ≠ .inlineStatement ∧ method ≠ .assignText := by
  obtain ⟨kw, member, found⟩ := List.exists_of_findSome?_eq_some starts
  split at found
  · obtain ⟨named, answers, same⟩ := Option.map_eq_some_iff.mp found
    cases same
    have all : keywords.all (fun kw => decide (methodNamed kw ≠ some .statementText ∧
        methodNamed kw ≠ some .inlineStatement ∧ methodNamed kw ≠ some .assignText)) = true := by decide
    have these := of_decide_eq_true (List.all_eq_true.mp all kw member)
    rw [answers] at these
    exact ⟨fun same => these.1 (congrArg some same), fun same => these.2.1 (congrArg some same),
      fun same => these.2.2 (congrArg some same)⟩
  · cases found

theorem dispatch_other {statementText inlineStatement : Text → Except ParseError Parsed} {line : Nat} {method : Method}
    (statement : method ≠ .statementText) (inline : method ≠ .inlineStatement) (assign : method ≠ .assignText)
    (rest : Text) : dispatch statementText inlineStatement line method rest = .ok (.other method rest) := by
  cases method <;> first | rfl | exact absurd rfl statement | exact absurd rfl inline | exact absurd rfl assign

theorem other_ne_assign (method : Method) (rest name : Text) (form : LhsForm) (value : Expr) :
    (.ok (.other method rest) : Except ParseError Parsed) ≠ .ok (form.assign name value) := by
  cases form <;> rintro ⟨⟩

theorem parseStatementText_nameless (line : Nat) {c : Char} {text : Text}
    (mark : c = '[' ∨ c = '=' ∧ text.head? ≠ some '=') {name : Text} (legal : IsName name) (form : LhsForm)
    (value : Expr) (fuel : Nat) :
    parseStatementText line fuel (c :: text) ≠ .ok (form.assign name value) ∧
      parseInlineStatement line fuel (c :: text) ≠ .ok (form.assign name value) := by
  have marked : c = '[' ∨ c = '=' := mark.imp_right And.left
  have solid : isSpace c = false := by rcases marked with rfl | rfl <;> rfl
  have word : firstWord (c :: text) = [] ++ c :: text.takeWhile (fun d => !isSpace d) := by
    rw [firstWord, List.dropWhile_cons_of_neg (by simp [solid]), List.takeWhile_cons_of_pos (by simp [solid]),
      List.nil_append]
  have upperWord : upper ([] ++ c :: text.takeWhile (fun d => !isSpace d)) =
      [] ++ c :: upper (text.takeWhile fun d => !isSpace d) := by
    rcases marked with rfl | rfl <;> rfl
  have noMethod : methodNamed (upper ([] ++ c :: text.takeWhile fun d => !isSpace d)) = none := methodNamed_mark marked
  have noKeyword : keywordStart (upper ([] ++ c :: text.takeWhile fun d => !isSpace d)) = none := by
    rw [upperWord, keywordStart_mark marked (by decide)]
    decide
  have assign := parseAssignText_nameless line mark legal form value
  cases fuel with
  | zero => exact ⟨nofun, nofun⟩
  | succ fuel =>
    rw [parseStatementText, parseInlineStatement, word, if_neg (by simp), if_neg (by simp)]
    dsimp only
    rw [noMethod, noKeyword]
    dsimp only
    constructor <;> split <;> first | exact assign | exact nofun

section

variable (line fuel : Nat) {text : Text} (nonempty : firstWord text ≠ [])

include nonempty

theorem parseStatementText_assign (equals : '=' ∈ text) (noMethod : methodNamed (upper (firstWord text)) = none)
    (noKeyword : keywordStart (upper (firstWord text)) = none) :
    parseStatementText line (fuel + 1) text = parseAssignText line text := by
  rw [parseStatementText, if_neg nonempty]
  dsimp only
  rw [noMethod, noKeyword]
  exact if_pos equals

theorem parseStatementText_keyword (noMethod : methodNamed (upper (firstWord text)) = none) {found : Method × Nat}
    (keyword : keywordStart (upper (firstWord text)) = .some found) :
    parseStatementText line (fuel + 1) text = .ok (.other found.1 (strip (text.drop found.2))) := by
  obtain ⟨statement, inline, assign⟩ := keywordStart_method keyword
  rw [parseStatementText, if_neg nonempty]
  dsimp only
  rw [noMethod, keyword]
  exact dispatch_other statement inline assign _

theorem parseStatementText_method {method : Method} (answers : methodNamed (upper (firstWord text)) = .some method) :
    parseStatementText line (fuel + 1) text =
      dispatch (parseStatementText line fuel) (parseInlineStatement line fuel) line method (afterWord text) := by
  rw [parseStatementText, if_neg nonempty]
  dsimp only
  rw [answers]

end

theorem SpellsBrackets.mark {form : LhsForm} {brackets : Text} (spells : SpellsBrackets form brackets)
    (before after : Gap) {rhs : Text} (single : rhs.head? ≠ some '=') :
    ∃ (gap : Gap) (c : Char) (more : Text),
      before.text ++ (brackets ++ (after.text ++ '=' :: rhs)) = gap.text ++ c :: more ∧
      (c = '[' ∨ c = '=' ∧ more.head? ≠ some '=') := by
  cases spells with
  | none => exact ⟨before.append after, '=', rhs, by rw [Gap.append, List.append_assoc]; rfl, .inr ⟨rfl, single⟩⟩
  | @brackets _ inner spells => exact ⟨before, '[', _, rfl, .inl rfl⟩

theorem single_of_parseExpr {rhs : Text} {value : Expr} (read : parseExpr rhs = .ok value) : rhs.head? ≠ some '=' := by
  intro head
  obtain ⟨rest, before, after, front, shape, spells⟩ := spells_of_parseExpr read
  obtain ⟨text, stripped, -⟩ := strip_cons (c := '=') rfl rhs.tail
  rw [List.cons_head?_tail head] at stripped
  rw [stripped] at shape
  obtain ⟨c, first, starts⟩ := spells.head
  have found : (before.text ++ (front ++ (after.text ++ rest))).head? = some '=' := by rw [← shape]; rfl
  rcases before.head_blank found with blank | ⟨-, found⟩
  · exact absurd blank (by decide)
  · rw [head_append first] at found
    cases found
    exact absurd starts (by decide)

/-- A statement that assigns to a name is read as that assignment exactly when no method answers to
its first word, the name does not go on from a keyword, and the bounds are split in the right
place. -/
theorem parseStatement_iff (line : Nat) {name : Text} (legal : IsName name) (other : upper name ∉ keywords)
    (before after : Gap) {form : LhsForm} {brackets rhs : Text} (spells : SpellsBrackets form brackets) {value : Expr}
    (read : parseExpr rhs = .ok value) :
    parseStatement line (name ++ (before.text ++ (brackets ++ (after.text ++ '=' :: rhs)))) =
        .ok (form.assign name value) ↔
      Clear name (before.text ++ (brackets ++ (after.text ++ '=' :: rhs))) ∧ form.Flat := by
  have single := single_of_parseExpr read
  have assigns := parseAssignText_iff line legal before after spells read single
  obtain ⟨gap, c, more, shape, mark⟩ := spells.mark before after single
  have equals : '=' ∈ name ++ (before.text ++ (brackets ++ (after.text ++ '=' :: rhs))) := by simp
  rw [shape] at assigns equals ⊢
  obtain ⟨word, rest⟩ := firstWord_name legal (gap.text ++ c :: more)
  have nonempty : firstWord (name ++ (gap.text ++ c :: more)) ≠ [] := by
    obtain ⟨d, first, -⟩ := legal.ends.1
    rw [word]
    rintro empty
    rw [(List.append_eq_nil_iff.mp empty).1] at first
    cases first
  rw [parseStatement]
  generalize fuelled : (name ++ (gap.text ++ c :: more)).length = fuel
  -- where no method answers, only a keyword can be in the way
  have byKeyword (noMethod : methodNamed (upper (firstWord (name ++ (gap.text ++ c :: more)))) = none)
      (keyword : keywordStart (upper (firstWord (name ++ (gap.text ++ c :: more)))) = keywordStart (upper name))
      (clear : methodNamed (upper name) = none ∨ ∀ d ∈ (gap.text ++ c :: more).head?, isBlank d = false) :
      parseStatementText line (fuel + 1) (name ++ (gap.text ++ c :: more)) = .ok (form.assign name value) ↔
        Clear name (gap.text ++ c :: more) ∧ form.Flat := by
    cases starts : keywordStart (upper name) with
    | none =>
      rw [parseStatementText_assign line fuel nonempty equals noMethod (keyword.trans starts), assigns]
      exact ⟨fun flat => ⟨⟨starts, clear⟩, flat⟩, And.right⟩
    | some found =>
      rw [parseStatementText_keyword line fuel nonempty noMethod (keyword.trans starts)]
      refine ⟨fun ran => absurd ran (other_ne_assign _ _ _ _ _), fun both => ?_⟩
      obtain ⟨holds, -⟩ := both
      rw [holds.1] at starts
      cases starts
  have marked : c = '[' ∨ c = '=' := mark.imp_right And.left
  have solid : isSpace c = false ∧ isBlank c = false := by rcases marked with rfl | rfl <;> exact ⟨rfl, rfl⟩
  cases blanks : gap.text with
  | nil =>
    -- the first word goes on behind the name
    rw [blanks, List.nil_append] at byKeyword word
    have goesOn : firstWord (name ++ c :: more) = name ++ c :: more.takeWhile (fun d => !isSpace d) := by
      rw [word, List.takeWhile_cons_of_pos (by simp [solid.1])]
    have upperWord : upper (name ++ c :: more.takeWhile fun d => !isSpace d) =
        upper name ++ c :: upper (more.takeWhile fun d => !isSpace d) := by
      rw [upper, List.map_append, List.map_cons]
      rcases marked with rfl | rfl <;> rfl
    refine byKeyword ?_ ?_ (.inr ?_)
    · rw [goesOn, methodNamed_mark marked]
    · rw [goesOn, upperWord, keywordStart_mark marked other]
    · rintro d ⟨⟩
      exact solid.2
  | cons d ds =>
    have blank := gap.blank d (by rw [blanks]; exact List.mem_cons_self)
    have space := isSpace_of_isBlank blank
    have alone : firstWord (name ++ (gap.text ++ c :: more)) = name := by
      rw [word, blanks, List.cons_append, List.takeWhile_cons_of_neg (by simp [space]), List.append_nil]
    rw [← blanks]
    cases answers : methodNamed (upper name) with
    | none => exact byKeyword (by rw [alone, answers]) (by rw [alone]) (.inl answers)
    | some method =>
      obtain ⟨front, stripped, begins⟩ := strip_cons solid.1 more
      have after : afterWord (name ++ (gap.text ++ c :: more)) = c :: front := by
        rw [rest, blanks, List.cons_append, List.dropWhile_cons_of_neg (by simp [space]), ← List.cons_append, ← blanks,
          ← stripped, strip, strip, List.dropWhile_append_of_pos (space_gap gap)]
      have markedFront : c = '[' ∨ c = '=' ∧ front.head? ≠ some '=' := by
        refine mark.imp_right fun alone => ⟨alone.1, fun head => alone.2 ?_⟩
        obtain ⟨tail, rfl⟩ := begins
        exact head_append head
      have nameless := parseStatementText_nameless line markedFront legal form value fuel
      rw [parseStatementText_method line fuel nonempty (by rw [alone, answers]), after]
      refine ⟨fun ran => ?_, fun both => ?_⟩
      · by_cases statement : method = .statementText
        · subst statement
          exact absurd ran nameless.1
        by_cases inline : method = .inlineStatement
        · subst inline
          exact absurd ran nameless.2
        by_cases assign : method = .assignText
        · subst assign
          exact absurd ran (parseAssignText_nameless _ markedFront legal form value)
        rw [dispatch_other statement inline assign] at ran
        exact absurd ran (other_ne_assign _ _ _ _ _)
      · rcases both.1.2 with none | apart
        · rw [none] at answers
          cases answers
        · exact absurd blank (by simp [apart d (by rw [blanks]; rfl)])

theorem parseStatement_indexed :
    parseStatement 1 ['n', '[', '2', ']', '=', '5'] =
      .ok (.assignStmt "n" (some (.intLiteral 2)) none none (.intLiteral 5)) :=
  (@parseStatement_iff 1 ['n'] (by decide) (by decide) .none .none _ _ ['5']
    (.brackets (.index .none .none (@Spells.intLiteral 0 ['2'] (by decide) (by simp)))) _
    (by decide)).mpr ⟨by decide, rfl⟩

theorem next_idx_is_next :
    IsName "next_idx".toList ∧ upper "next_idx".toList ∉ keywords ∧ parseExpr "5".toList = .ok (.intLiteral 5) ∧
      parseStatement 1 "next_idx = 5".toList = .ok (.other .next "_idx = 5".toList) := by
  decide

end Acrobe.Stapl
