import Acrobe.Stapl.ExprSound

/-!
# Tokens that are left behind

`parse_expr` returns the expression that its text starts with. What is left in the text behind the
last token of the expression is not looked at.
-/

namespace Acrobe.Stapl
open LittleEndian Acrobe.Storage

/-- Tokens that go on neither the last token nor the expression stand behind an expression. -/
def Leftover (text : Text) : Prop :=
  ∃ (front rest : Text) (e : Expr) (last : Last), strip text = front ++ rest ∧ skipWs rest ≠ [] ∧
    SpellsTo 0 e front last ∧ last.EndsBefore rest ∧ peekOperator (skipWs rest) = none

theorem Stops.none {rest : Text} (stops : Stops 0 rest) : peekOperator (skipWs rest) = none := by
  cases found : peekOperator (skipWs rest) with
  | none => rfl
  | some op => exact absurd (stops op found) (Nat.not_lt_zero _)

/-! ### The ends of a stripped text -/

theorem Leftover.parses {text : Text} (leftover : Leftover text) :
    ∃ e, parseExpr text = .ok e ∧ ¬Spells 0 e (strip text) := by
  obtain ⟨front, rest, e, last, shape, some, spells, ends, none⟩ := leftover
  have ended : Ended 0 last rest := ⟨ends, fun op found => by rw [none] at found; cases found⟩
  have part : parseExprFrom (enoughFuel (strip text)) 0 (strip text) = .ok (e, skipWs rest) := by
    have read := @SpellsTo.read _ _ _ _ spells ended (enoughFuel (strip text))
      (by rw [enoughFuel, shape, List.length_append])
    rwa [← shape] at read
  refine ⟨e, ?_, fun whole => ?_⟩
  · obtain ⟨c, read, -⟩ := spells.spells.head
    have nonempty : strip text ≠ [] := by
      rw [shape]
      rintro empty
      rw [List.append_eq_nil_iff.mp empty |>.1] at read
      cases read
    rw [parseExpr, if_neg nonempty, part]
    rfl
  · obtain ⟨token, ending⟩ := whole.last_token
    have all := @SpellsTo.read _ _ _ _ ending trailing_nil.ended (enoughFuel (strip text)) (by simp [enoughFuel])
    rw [List.append_nil, part] at all
    exact some (congrArg Prod.snd (Except.ok.inj all))

end Acrobe.Stapl
