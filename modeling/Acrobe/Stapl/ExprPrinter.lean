import Acrobe.Stapl.ExprGrammar

/-!
# Printing expressions

The text of an expression with the parentheses that precedence and left associativity call for and
no others. The parser reads it back to the expression.
-/

namespace Acrobe.Stapl
open LittleEndian Acrobe.Storage

/-! ### The printer -/

def printBinary (data : Bytes) (bitCount : Nat) : Text :=
  '#' :: (Bits.ofBytes data (some bitCount)).reverse.map fun bit => if bit then '1' else '0'

/-- `e.print gap p` stands where an operator looser than `p` needs parentheses; the gap goes around
binary operators. -/
def Expr.print (gap : Gap) : Expr → Nat → Text
  | .intLiteral value, _ => Nat.toDigits 10 value.toNat
  | .booleanLiteral data bitCount, _ => printBinary data bitCount
  | .varRef name, _ => name.toList
  | .arrayWhole name, _ => name.toList ++ ['[', ']']
  | .arrayIndex name index, _ => name.toList ++ '[' :: (index.print gap 0 ++ [']'])
  | .arraySubrange name high low, _ =>
    name.toList ++ '[' :: (high.print gap 0 ++ '.' :: '.' :: (low.print gap 0 ++ [']']))
  | .funcCall .chr arg, _ => Func.chr.text ++ '$' :: '(' :: (arg.print gap 0 ++ [')'])
  | .funcCall func arg, _ => func.text ++ '(' :: (arg.print gap 0 ++ [')'])
  | .unaryOp op operand, _ => op.text :: operand.print gap 11
  | .binOp op left right, p =>
    let text := left.print gap op.prec ++ (gap.text ++ (op.text ++ (gap.text ++ right.print gap (op.prec + 1))))
    if op.prec < p then '(' :: (text ++ [')']) else text

/-- What the language can write: integer literals have no sign, Boolean literals no spare bits. -/
def Expr.Legal : Expr → Prop
  | .intLiteral value => 0 ≤ value
  | .booleanLiteral data bitCount => Bits.pack (Bits.ofBytes data (some bitCount)) = data
  | .varRef name => IsName name.toList
  | .arrayWhole name => IsName name.toList
  | .arrayIndex name index => IsName name.toList ∧ index.Legal
  | .arraySubrange name high low => IsName name.toList ∧ high.Legal ∧ low.Legal
  | .funcCall _ arg => arg.Legal
  | .unaryOp _ operand => operand.Legal
  | .binOp _ left right => left.Legal ∧ right.Legal

instance decidableLegal : (e : Expr) → Decidable e.Legal
  | .intLiteral value => inferInstanceAs (Decidable (0 ≤ value))
  | .booleanLiteral data bitCount =>
    inferInstanceAs (Decidable (Bits.pack (Bits.ofBytes data (some bitCount)) = data))
  | .varRef name => inferInstanceAs (Decidable (IsName name.toList))
  | .arrayWhole name => inferInstanceAs (Decidable (IsName name.toList))
  | .arrayIndex name index =>
    have := decidableLegal index
    inferInstanceAs (Decidable (IsName name.toList ∧ index.Legal))
  | .arraySubrange name high low =>
    have := decidableLegal high
    have := decidableLegal low
    inferInstanceAs (Decidable (IsName name.toList ∧ high.Legal ∧ low.Legal))
  | .funcCall _ arg => decidableLegal arg
  | .unaryOp _ operand => decidableLegal operand
  | .binOp _ left right =>
    have := decidableLegal left
    have := decidableLegal right
    inferInstanceAs (Decidable (left.Legal ∧ right.Legal))

/-! ### The text is in the grammar -/

theorem spells_intLiteral {p : Nat} {value : Int} (legal : 0 ≤ value) :
    Spells p (.intLiteral value) (Nat.toDigits 10 value.toNat) := by
  have spells := @Spells.intLiteral p (Nat.toDigits 10 value.toNat) Nat.toDigits_ne_nil
    fun c member => Nat.isDigit_of_mem_toDigits (by decide) (by decide) member
  rwa [Nat.ofDigitChars_ten_toDigits, Int.toNat_of_nonneg legal] at spells

theorem squeeze_digits (bits : Bits) :
    squeeze (bits.map fun bit => if bit then '1' else '0') = bits.map fun bit => if bit then '1' else '0' := by
  refine List.filter_eq_self.mpr fun c member => ?_
  obtain ⟨bit, -, rfl⟩ := List.mem_map.mp member
  cases bit <;> rfl

theorem spells_booleanLiteral {p : Nat} {data : Bytes} {bitCount : Nat}
    (legal : Bits.pack (Bits.ofBytes data (some bitCount)) = data) :
    Spells p (.booleanLiteral data bitCount) (printBinary data bitCount) := by
  have digit (bit : Bool) : isBinary (if bit then '1' else '0') = true ∧ isBlank (if bit then '1' else '0') = false ∧
      ((if bit then '1' else '0') == '1') = bit := by
    cases bit <;> exact ⟨rfl, rfl, rfl⟩
  have content : IsContent isBinary
      ((Bits.ofBytes data (some bitCount)).reverse.map fun bit => if bit then '1' else '0') := by
    refine ⟨fun c member => ?_, fun c last => ?_⟩
    · obtain ⟨bit, -, rfl⟩ := List.mem_map.mp member
      exact (digit bit).1
    · obtain ⟨bit, -, rfl⟩ := List.mem_map.mp (List.mem_of_getLast? last)
      exact (digit bit).2.1
  have value : parseBinaryLiteral
      ((Bits.ofBytes data (some bitCount)).reverse.map fun bit => if bit then '1' else '0') =
        .booleanLiteral data bitCount := by
    have back : (Bits.ofBytes data (some bitCount)).map ((· == '1') ∘ fun bit => if bit then '1' else '0') =
        Bits.ofBytes data (some bitCount) :=
      (List.map_congr_left fun bit _ => (digit bit).2.2).trans (List.map_id _)
    rw [parseBinaryLiteral, squeeze_digits, ← List.map_reverse, List.reverse_reverse, List.map_map, back, legal]
    simp [Bits.ofBytes]
  rw [← value]
  exact .binaryLiteral content

theorem isName_text (func : Func) : IsName func.text := by
  have all (func : Func) : func.text.all isIdent = true := by cases func <;> rfl
  refine ⟨?_, fun c member => List.all_eq_true.mp (all func) c member⟩
  cases func <;> exact ⟨_, rfl, rfl⟩

theorem spells_print (gap : Gap) {e : Expr} (legal : e.Legal) (p : Nat) : Spells p e (e.print gap p) := by
  have ofName (name : Name) : String.ofList name.toList = name := String.ofList_toList
  induction e generalizing p with
  | intLiteral value => exact spells_intLiteral legal
  | booleanLiteral data bitCount => exact spells_booleanLiteral legal
  | varRef name =>
    have spells := Spells.varRef (p := p) legal
    rwa [ofName] at spells
  | arrayWhole name =>
    have spells := Spells.arrayWhole (p := p) .none .none legal
    rwa [ofName] at spells
  | arrayIndex name index ih =>
    have spells := Spells.arrayIndex (p := p) .none .none .none legal.1 (ih legal.2 0)
    rwa [ofName] at spells
  | arraySubrange name high low ihHigh ihLow =>
    have spells :=
      Spells.arraySubrange (p := p) .none .none .none .none .none legal.1 (ihHigh legal.2.1 0) (ihLow legal.2.2 0)
    rwa [ofName] at spells
  | funcCall func arg ih =>
    by_cases plain : func = .chr
    · subst plain
      exact .chr .none .none .none .none (isName_text .chr) rfl (ih legal 0)
    · have spells := Spells.funcCall (p := p) .none .none .none plain (isName_text func)
        (by cases func <;> rfl) (ih legal 0)
      cases func <;> first | exact spells | exact absurd rfl plain
  | unaryOp op operand ih => exact .unaryOp .none (ih legal 11)
  | binOp op left right ihLeft ihRight =>
    have bare {q : Nat} (tight : q ≤ op.prec) := Spells.binOp gap gap tight (ihLeft legal.1 _) (ihRight legal.2 _)
    rw [Expr.print]
    split
    · exact .paren .none .none (bare (Nat.zero_le _))
    · next tight => exact bare (Nat.not_lt.mp tight)

/-- An expression printed with minimal parentheses is read back to the same expression. -/
theorem parseExpr_print (gap : Gap) (e : Expr) (legal : e.Legal) : parseExpr (e.print gap 0) = .ok e := by
  have read := parseExpr_spells (spells_print gap legal 0) [] []
    (fun _ member => (List.not_mem_nil member).elim) (fun _ member => (List.not_mem_nil member).elim)
  rwa [List.nil_append, List.append_nil] at read

theorem parseExpr_print_grouped :
    parseExpr (Expr.print .none (.binOp .sub (.varRef "a") (.binOp .sub (.varRef "b") (.intLiteral 2))) 0) =
      .ok (.binOp .sub (.varRef "a") (.binOp .sub (.varRef "b") (.intLiteral 2))) :=
  parseExpr_print .none _ (by decide)

end Acrobe.Stapl
