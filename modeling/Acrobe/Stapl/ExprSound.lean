import Acrobe.Lib.Exceptional
import Acrobe.Stapl.ExprPrinter

/-!
# What the parser accepts

Whatever the parser reads is a text of the grammar, so that the grammar is all it accepts.
-/

namespace Acrobe.Stapl
open LittleEndian Acrobe.Storage Exceptional

/-- `text` is `e`, blanks around it, and `rest`. -/
def Reads (p : Nat) (e : Expr) (text rest : Text) : Prop :=
  ∃ (before after : Gap) (front : Text), text = before.text ++ (front ++ (after.text ++ rest)) ∧ Spells p e front

/-- No operator of precedence `p` or tighter comes next. -/
def Stops (p : Nat) (rest : Text) : Prop := ∀ op, peekOperator (skipWs rest) = some op → op.prec < p

/-- `Reads` with the last token of the expression, which ends there. -/
def ReadsTo (p : Nat) (e : Expr) (text rest : Text) : Prop :=
  ∃ (before after : Gap) (front : Text) (last : Last), text = before.text ++ (front ++ (after.text ++ rest)) ∧
    SpellsTo p e front last ∧ last.EndsBefore (after.text ++ rest)

theorem ReadsTo.reads {p : Nat} {e : Expr} {text rest : Text} (reads : ReadsTo p e text rest) : Reads p e text rest := by
  obtain ⟨before, after, front, last, shape, spells, -⟩ := reads
  exact ⟨before, after, front, shape, spells.spells⟩

theorem SpellsTo.mono {p q : Nat} {e : Expr} {text : Text} {last : Last} (spells : SpellsTo q e text last)
    (le : p ≤ q) : SpellsTo p e text last := by
  cases spells with
  | binOp before after tight spellsLeft spellsRight => exact .binOp before after (le.trans tight) spellsLeft spellsRight
  | unaryOp gap spells => exact .unaryOp gap spells
  | paren before after spells => exact .paren before after spells
  | intLiteral some decimal => exact .intLiteral some decimal
  | binaryLiteral legal => exact .binaryLiteral legal
  | hexLiteral legal => exact .hexLiteral legal
  | acaLiteral legal decodes => exact .acaLiteral legal decodes
  | varRef legal => exact .varRef legal
  | arrayWhole before inside legal => exact .arrayWhole before inside legal
  | arrayIndex before first last legal spells => exact .arrayIndex before first last legal spells
  | arraySubrange before first middle second last legal spellsHigh spellsLow =>
    exact .arraySubrange before first middle second last legal spellsHigh spellsLow
  | funcCall before first last plain legal named spells =>
    exact .funcCall before first last plain legal named spells
  | chr before middle first last legal named spells => exact .chr before middle first last legal named spells

theorem exists_gap (text : Text) : ∃ gap : Gap, text = gap.text ++ skipWs text :=
  ⟨⟨text.takeWhile isBlank, fun _ member => List.mem_takeWhile_imp member⟩, List.takeWhile_append_dropWhile.symm⟩

def Gap.append (first second : Gap) : Gap :=
  ⟨first.text ++ second.text, fun c member => (List.mem_append.mp member).elim (first.blank c) (second.blank c)⟩

theorem ReadsTo.behind {p : Nat} {e : Expr} {text rest : Text} (reads : ReadsTo p e text rest) (gap : Gap) :
    ReadsTo p e (gap.text ++ text) rest := by
  obtain ⟨before, after, front, last, rfl, spells, ends⟩ := reads
  exact ⟨gap.append before, after, front, last, (List.append_assoc _ _ _).symm, spells, ends⟩

theorem ReadsTo.skip {p : Nat} {e : Expr} {text rest : Text} (reads : ReadsTo p e text rest) :
    ReadsTo p e text (skipWs rest) := by
  obtain ⟨before, after, front, last, rfl, spells, ends⟩ := reads
  obtain ⟨gap, split⟩ := exists_gap rest
  have same : (after.append gap).text ++ skipWs rest = after.text ++ rest := by
    rw [Gap.append, List.append_assoc, ← split]
  exact ⟨before, after.append gap, front, last, by rw [same], spells, by rwa [same]⟩

theorem ReadsTo.of_bracket {p : Nat} {e : Expr} {front : Text} (rest : Text) (spells : SpellsTo p e front .bracket) :
    ReadsTo p e (front ++ rest) rest := ⟨.none, .none, front, .bracket, rfl, spells, True.intro⟩

theorem require_ok {c : Char} {message : String} {text rest : Text} (ran : require c message text = .ok rest) :
    text = c :: rest := by
  cases text with
  | nil => cases ran
  | cons d text =>
    rw [require] at ran
    split at ran
    · next same =>
      cases ran
      rw [same]
    · cases ran

theorem head_dropWhile (p : Char → Bool) (text : Text) : ∀ c ∈ (text.dropWhile p).head?, p c = false := by
  intro c read
  have kept := List.head?_dropWhile_not p text
  rw [read] at kept
  simpa using kept

theorem squeeze_append (front back : Text) : squeeze (front ++ back) = squeeze front ++ squeeze back :=
  List.filter_append ..

theorem isIdent_of_letter {c : Char} (letter : c.isAlpha = true ∨ c = '_') : isIdent c = true := by
  rw [isIdent, Char.isAlphanum]
  rcases letter with alpha | rfl
  · rw [alpha, Bool.true_or, Bool.true_or]
  · rfl

theorem exists_content (text : Text) :
    ∃ (content : Text) (gap : Gap), text = content ++ gap.text ∧ ∀ c ∈ content.getLast?, isBlank c = false := by
  refine ⟨text.rdropWhile isBlank, ⟨text.rtakeWhile isBlank, fun c member => List.mem_rtakeWhile_imp member⟩,
    List.rdropWhile_append_rtakeWhile.symm, fun c last => ?_⟩
  obtain ⟨some, rfl⟩ := List.mem_getLast?_eq_getLast last
  simpa using List.rdropWhile_last_not isBlank text some

theorem reads_literal {digit : Char → Bool} {mark : Char} {text : Text} {e : Expr} {last : Last}
    (spells : ∀ content, squeeze content = squeeze (text.takeWhile digit) → IsContent digit content →
      SpellsTo 11 e (mark :: content) last)
    (ends : ∀ rest, (∀ c ∈ rest.takeWhile digit, isBlank c = true) → last.EndsBefore rest) :
    ReadsTo 11 e (mark :: text) (text.dropWhile digit) := by
  obtain ⟨content, gap, split, solid⟩ := exists_content (text.takeWhile digit)
  have whole : text = content ++ (gap.text ++ text.dropWhile digit) := by
    rw [← List.append_assoc, ← split, List.takeWhile_append_dropWhile]
  have nothing : squeeze gap.text = [] :=
    List.filter_eq_nil_iff.mpr fun c member => by simp [isSpace_of_isBlank (gap.blank c member)]
  have taken {c : Char} (member : c ∈ content ++ gap.text) : digit c = true :=
    List.mem_takeWhile_imp (l := text) (split ▸ member)
  refine ⟨.none, gap, mark :: content, last, congrArg (mark :: ·) whole, spells content ?_ ⟨fun c member =>
    taken (List.mem_append_left _ member), solid⟩, ends _ ?_⟩
  · rw [split, squeeze_append, nothing, List.append_nil]
  · rw [List.takeWhile_append_of_pos fun c member => taken (List.mem_append_right _ member)]
    have stopped : (text.dropWhile digit).takeWhile digit = [] := by
      rw [List.takeWhile_eq_nil_iff]
      intro some
      exact List.dropWhile_get_zero_not digit text some
    rw [stopped, List.append_nil]
    exact gap.blank

theorem reads_booleanLiteral {mark : Char} (marked : mark = '#' ∨ mark = '$' ∨ mark = '@') {text rest : Text} {e : Expr}
    (ran : parseBooleanLiteral mark text = .ok (e, rest)) : ReadsTo 11 e (mark :: text) rest := by
  rw [parseBooleanLiteral] at ran
  rcases marked with rfl | rfl | rfl
  · rw [if_pos rfl] at ran
    cases ran
    refine @reads_literal _ _ _ _ .binary (fun content same legal => ?_) fun rest blanks => blanks
    rw [parseBinaryLiteral, ← same]
    exact .binaryLiteral legal
  · rw [if_neg (by decide), if_pos rfl] at ran
    cases ran
    refine @reads_literal _ _ _ _ .hex (fun content same legal => ?_) fun rest blanks => blanks
    rw [parseHexLiteral, ← same]
    exact .hexLiteral legal
  · rw [if_neg (by decide), if_neg (by decide)] at ran
    obtain ⟨value, decodes, same⟩ := except_map_ok ran
    cases same
    refine @reads_literal _ _ _ _ .aca (fun content same legal => .acaLiteral legal ?_) fun rest blanks => blanks
    rw [← decodes, parseAcaLiteral, parseAcaLiteral, same]

theorem callOpens_some {nameUpper rest : Text} {func : Func} (opens : callOpens nameUpper rest = some func) :
    (∃ inner, rest = '(' :: inner) ∧ func ≠ .chr ∧ nameUpper = func.text := by
  rw [callOpens] at opens
  split at opens
  · next head =>
    have member := List.mem_of_find?_eq_some opens
    have named := List.find?_some opens
    refine ⟨⟨rest.tail, (List.cons_head?_tail head).symm⟩, ?_, (beq_iff_eq.mp named).symm⟩
    rintro rfl
    simp at member
  · cases opens

theorem peekOperator_front {op : BinOp} {text : Text} (read : peekOperator text = some op) :
    text = op.text ++ text.drop op.text.length := by
  have front := List.find?_some read
  obtain ⟨rest, rfl⟩ := List.isPrefixOf_iff_prefix.mp front
  rw [List.drop_left]

theorem prec_le (op : BinOp) : op.prec ≤ 10 := by cases op <;> decide

/-! ### What one call reads, given the calls it makes -/

structure Sound (fuel : Nat) : Prop where
  expr {minPrec : Nat} {text rest : Text} {e : Expr} (low : minPrec ≤ 11)
    (ran : parseExprFrom fuel minPrec text = .ok (e, rest)) :
    ReadsTo minPrec e text rest ∧ Stops minPrec rest
  operators {minPrec : Nat} {left e : Expr} {text rest front : Text} {last : Last}
    (ran : parseOperators fuel minPrec left text = .ok (e, rest)) (spells : SpellsTo minPrec left front last)
    (ends : last.EndsBefore text)
    (under : ∀ op, peekOperator (skipWs text) = some op → SpellsTo op.prec left front last) :
    (∃ (more : Text) (after : Gap) (final : Last), text = more ++ (after.text ++ rest) ∧
      SpellsTo minPrec e (front ++ more) final ∧ final.EndsBefore (after.text ++ rest)) ∧ Stops minPrec rest
  unary {text rest : Text} {e : Expr} (ran : parseUnary fuel text = .ok (e, rest)) : ReadsTo 11 e text rest
  primary {text rest : Text} {e : Expr} (ran : parsePrimary fuel text = .ok (e, rest)) : ReadsTo 11 e text rest
  identifier {text rest : Text} {e : Expr} (letter : ∃ c ∈ text.head?, (c.isAlpha || c == '_') = true)
    (ran : parseIdentifier fuel text = .ok (e, rest)) : ReadsTo 11 e text rest

section

variable {fuel : Nat} (sound : Sound fuel)

include sound

theorem Sound.expr_succ {minPrec : Nat} {text rest : Text} {e : Expr} (low : minPrec ≤ 11)
    (ran : parseExprFrom (fuel + 1) minPrec text = .ok (e, rest)) :
    ReadsTo minPrec e text rest ∧ Stops minPrec rest := by
  rw [parseExprFrom] at ran
  obtain ⟨⟨left, middle⟩, first, ran⟩ := except_bind_ok ran
  obtain ⟨before, after, front, last, shape, spells, ends⟩ := sound.unary first
  dsimp only at ran
  rw [← parseOperators_skipWs fuel minPrec left (skipWs_gap after middle)] at ran
  obtain ⟨⟨more, behind, final, goesOn, whole, ending⟩, stops⟩ := sound.operators ran (spells.mono low) ends
    fun op _ => spells.mono ((prec_le op).trans (by decide))
  refine ⟨⟨before, behind, front ++ more, final, ?_, whole, ending⟩, stops⟩
  rw [shape, goesOn, List.append_assoc]

theorem Sound.operators_succ {minPrec : Nat} {left e : Expr} {text rest front : Text} {last : Last}
    (ran : parseOperators (fuel + 1) minPrec left text = .ok (e, rest)) (spells : SpellsTo minPrec left front last)
    (ends : last.EndsBefore text)
    (under : ∀ op, peekOperator (skipWs text) = some op → SpellsTo op.prec left front last) :
    (∃ (more : Text) (after : Gap) (final : Last), text = more ++ (after.text ++ rest) ∧
      SpellsTo minPrec e (front ++ more) final ∧ final.EndsBefore (after.text ++ rest)) ∧ Stops minPrec rest := by
  obtain ⟨gap, split⟩ := exists_gap text
  have stopped (loose : ∀ op, peekOperator (skipWs text) = some op → op.prec < minPrec)
      (same : (Except.ok (left, skipWs text) : Except ParseError (Expr × Text)) = .ok (e, rest)) :
      (∃ (more : Text) (after : Gap) (final : Last), text = more ++ (after.text ++ rest) ∧
        SpellsTo minPrec e (front ++ more) final ∧ final.EndsBefore (after.text ++ rest)) ∧ Stops minPrec rest := by
    cases same
    refine ⟨⟨[], gap, last, split, by rwa [List.append_nil], split ▸ ends⟩, fun op read => loose op ?_⟩
    rwa [skipWs_skipWs] at read
  rw [parseOperators] at ran
  split at ran
  · next none => exact stopped (by rw [none]; rintro _ ⟨⟩) ran
  · next op found =>
    split at ran
    · next loose =>
      refine stopped (fun other read => ?_) ran
      rw [found] at read
      cases read
      exact loose
    · next tight =>
      obtain ⟨⟨right, middle⟩, second, ran⟩ := except_bind_ok ran
      obtain ⟨⟨before, after, rightText, rightLast, shape, spellsRight, rightEnds⟩, stops⟩ :=
        sound.expr (Nat.succ_le_succ (prec_le op)) second
      have opened := peekOperator_front found
      dsimp only at ran
      rw [← parseOperators_skipWs fuel minPrec _ (skipWs_gap after middle)] at ran
      have grown {p : Nat} (fits : p ≤ op.prec) := SpellsTo.binOp gap before fits (under op found) spellsRight
      obtain ⟨⟨more, behind, final, goesOn, whole, ending⟩, last⟩ :=
        sound.operators ran (grown (Nat.not_lt.mp tight)) rightEnds
          fun other read => grown (Nat.le_of_lt_succ (stops other (by rwa [skipWs_gap] at read)))
      refine ⟨⟨gap.text ++ (op.text ++ (before.text ++ rightText)) ++ more, behind, final, ?_, ?_, ending⟩, last⟩
      · rw [split, opened, shape, goesOn]
        simp only [List.append_assoc]
      · simpa only [List.append_assoc] using whole

theorem Sound.unary_succ {text rest : Text} {e : Expr} (ran : parseUnary (fuel + 1) text = .ok (e, rest)) :
    ReadsTo 11 e text rest := by
  obtain ⟨gap, split⟩ := exists_gap text
  rw [parseUnary] at ran
  split at ran
  · cases ran
  · next c text' shape =>
    rw [shape] at split
    have applied (op : UnaryOp) (mark : c = op.text)
        (ran : ((parseUnary fuel text').map fun read => (.unaryOp op read.1, read.2)) = .ok (e, rest)) :
        ReadsTo 11 e text rest := by
      obtain ⟨⟨operand, middle⟩, read, same⟩ := except_map_ok ran
      cases same
      obtain ⟨before, after, front, last, shape, spells, ends⟩ := sound.unary read
      refine ⟨gap, after, op.text :: (before.text ++ front), last, ?_, .unaryOp before spells, ends⟩
      rw [split, mark, shape]
      simp only [List.append_assoc, List.cons_append]
    split at ran
    · next mark => exact applied .invert mark ran
    split at ran
    · next mark => exact applied .not mark.1 ran
    split at ran
    · next mark => exact applied .neg mark ran
    rw [split]
    exact (sound.primary ran).behind gap

theorem Sound.primary_succ {text rest : Text} {e : Expr} (ran : parsePrimary (fuel + 1) text = .ok (e, rest)) :
    ReadsTo 11 e text rest := by
  obtain ⟨gap, split⟩ := exists_gap text
  rw [parsePrimary] at ran
  split at ran
  · cases ran
  next c text' shape =>
    rw [split, shape]
    refine ReadsTo.behind ?_ gap
    split at ran
    · next mark =>
      obtain ⟨⟨inner, middle⟩, read, ran⟩ := except_bind_ok ran
      dsimp only at ran
      split at ran
      · next rest' close =>
        cases ran
        have reads := (sound.expr (by decide) read).1.skip
        rw [close] at reads
        obtain ⟨before, after, front, last, shape, spells, -⟩ := reads
        have whole := ReadsTo.of_bracket rest (@SpellsTo.paren 11 _ _ _ before after spells)
        rw [mark, shape]
        simpa only [List.append_assoc, List.cons_append, List.nil_append] using whole
      · cases ran
    split at ran
    · next digit =>
      cases ran
      have some : (c :: text').takeWhile Char.isDigit ≠ [] := by
        rw [List.takeWhile_cons_of_pos digit]
        exact List.cons_ne_nil _ _
      exact ⟨.none, .none, _, .number, List.takeWhile_append_dropWhile.symm,
        .intLiteral some fun _ member => List.mem_takeWhile_imp member, head_dropWhile _ _⟩
    split at ran
    · next mark => exact reads_booleanLiteral mark ran
    split at ran
    · next letter => exact sound.identifier ⟨c, rfl, by simpa using letter⟩ ran
    · cases ran

theorem Sound.inner {p : Nat} {c : Char} {e : Expr} {text middle rest : Text} {message : String} (low : p ≤ 11)
    (read : parseExprFrom fuel p text = .ok (e, middle)) (close : require c message (skipWs middle) = .ok rest) :
    ReadsTo p e text (c :: rest) := by
  have reads := (sound.expr low read).1.skip
  rwa [require_ok close] at reads

theorem Sound.identifier_succ {text rest : Text} {e : Expr}
    (letter : ∃ c ∈ text.head?, (c.isAlpha || c == '_') = true)
    (ran : parseIdentifier (fuel + 1) text = .ok (e, rest)) : ReadsTo 11 e text rest := by
  obtain ⟨gap, behind⟩ := exists_gap (text.dropWhile isIdent)
  have split : text = text.takeWhile isIdent ++ (gap.text ++ skipWs (text.dropWhile isIdent)) := by
    rw [← behind, List.takeWhile_append_dropWhile]
  have legal : IsName (text.takeWhile isIdent) := by
    obtain ⟨c, read, letter⟩ := letter
    have ident := isIdent_of_letter (c := c) (by simpa using letter)
    refine ⟨⟨c, ?_, letter⟩, fun _ member => List.mem_takeWhile_imp member⟩
    cases text with
    | nil => cases read
    | cons d text =>
      cases read
      rw [List.takeWhile_cons_of_pos ident]
      rfl
  rw [parseIdentifier] at ran
  dsimp only at ran
  have stop := head_dropWhile isIdent text
  have skipped := skipWs_skipWs (text.dropWhile isIdent)
  rw [behind] at stop
  clear behind letter
  generalize text.takeWhile isIdent = name at split legal ran
  generalize skipWs (text.dropWhile isIdent) = tail at split ran stop skipped
  subst split
  split at ran
  · next func opens =>
    obtain ⟨⟨inner, rfl⟩, plain, named⟩ := callOpens_some opens
    obtain ⟨⟨arg, middle⟩, read, ran⟩ := except_bind_ok ran
    obtain ⟨after, close, ran⟩ := except_bind_ok ran
    cases ran
    rw [List.tail_cons] at read
    obtain ⟨first, last, argText, inner, rfl, spells, -⟩ := sound.inner (by decide) read close
    have whole := ReadsTo.of_bracket rest (@SpellsTo.funcCall 11 _ _ _ _ _ gap first last plain legal named spells)
    simpa only [List.append_assoc, List.cons_append, List.nil_append] using whole
  split at ran
  · next called =>
    obtain ⟨after, opened, ran⟩ := except_bind_ok ran
    obtain ⟨⟨arg, middle⟩, read, ran⟩ := except_bind_ok ran
    obtain ⟨last, close, ran⟩ := except_bind_ok ran
    cases ran
    obtain ⟨middleGap, dollar⟩ := exists_gap tail.tail
    obtain ⟨first, last, argText, inner, rfl, spells, -⟩ := sound.inner (by decide) read close
    have whole := ReadsTo.of_bracket rest
      (@SpellsTo.chr 11 _ _ _ _ gap middleGap first last legal called.1 spells)
    rw [← List.cons_head?_tail called.2, dollar, require_ok opened]
    simpa only [List.append_assoc, List.cons_append, List.nil_append] using whole
  split at ran
  · next bracket =>
    obtain ⟨first, opened⟩ := exists_gap tail.tail
    rw [← List.cons_head?_tail bracket, opened]
    generalize skipWs tail.tail = inner at ran
    split at ran
    · next close =>
      obtain ⟨after, rfl⟩ : ∃ after, inner = ']' :: after := ⟨_, (List.cons_head?_tail close).symm⟩
      cases ran
      have whole := ReadsTo.of_bracket after (@SpellsTo.arrayWhole 11 _ gap first legal)
      rw [List.tail_cons]
      simpa only [List.append_assoc, List.cons_append, List.nil_append] using whole
    obtain ⟨⟨high, middle⟩, read, ran⟩ := except_bind_ok ran
    dsimp only at ran
    split at ran
    · next dots =>
      obtain ⟨⟨low, after⟩, readLow, ran⟩ := except_bind_ok ran
      obtain ⟨last, close, ran⟩ := except_bind_ok ran
      cases ran
      have reads := (sound.expr (by decide) read).1.skip
      obtain ⟨lowText, found⟩ := List.isPrefixOf_iff_prefix.mp dots
      rw [← found] at reads readLow
      obtain ⟨before, after, highText, highLast, rfl, spellsHigh, -⟩ := reads
      obtain ⟨second, last, lowText, lowLast, rfl, spellsLow, -⟩ := sound.inner (by decide) readLow close
      have whole := ReadsTo.of_bracket rest
        (@SpellsTo.arraySubrange 11 _ _ _ _ _ _ _ gap (first.append before) after second last legal spellsHigh spellsLow)
      simpa only [Gap.append, List.append_assoc, List.cons_append, List.nil_append] using whole
    · obtain ⟨after, close, ran⟩ := except_bind_ok ran
      cases ran
      obtain ⟨before, last, indexText, inner, rfl, spells, -⟩ := sound.inner (by decide) read close
      have whole := ReadsTo.of_bracket rest
        (@SpellsTo.arrayIndex 11 _ _ _ _ gap (first.append before) last legal spells)
      simpa only [Gap.append, List.append_assoc, List.cons_append, List.nil_append] using whole
  · next call chr bracket =>
    cases ran
    refine ⟨.none, gap, name, .name name, rfl, .varRef legal, stop, ?_, ?_, ?_⟩
    · rwa [skipWs_gap, skipped]
    · rwa [skipWs_gap, skipped]
    · rwa [skipWs_gap, skipped]

end

theorem sound (fuel : Nat) : Sound fuel := by
  induction fuel with
  | zero =>
    exact {
      expr := fun _ ran => by cases ran
      operators := fun ran => by cases ran
      unary := fun ran => by cases ran
      primary := fun ran => by cases ran
      identifier := fun _ ran => by cases ran }
  | succ fuel ih =>
    exact {
      expr := ih.expr_succ
      operators := ih.operators_succ
      unary := ih.unary_succ
      primary := ih.primary_succ
      identifier := ih.identifier_succ }

/-- What `parse_expr` returns is spelled at the start of the text; the rest of it is ignored. -/
theorem readsTo_of_parseExpr {text : Text} {e : Expr} (ran : parseExpr text = .ok e) :
    ∃ rest, ReadsTo 0 e (strip text) rest ∧ Stops 0 rest := by
  rw [parseExpr] at ran
  split at ran
  · cases ran
  · obtain ⟨⟨expr, rest⟩, read, same⟩ := except_map_ok ran
    cases same
    exact ⟨rest, (sound _).expr (Nat.zero_le _) read⟩

theorem spells_of_parseExpr {text : Text} {e : Expr} (ran : parseExpr text = .ok e) :
    ∃ rest, Reads 0 e (strip text) rest := by
  obtain ⟨rest, reads, -⟩ := readsTo_of_parseExpr ran
  exact ⟨rest, reads.reads⟩

end Acrobe.Stapl
