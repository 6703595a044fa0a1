import Acrobe.Stapl.AssignmentSound

/-!
# Left-hand sides and expressions

`_parse_lhs` searches the text of a variable reference for brackets and dots, `parse_expr` reads it
by the grammar.
-/

namespace Acrobe.Stapl
open LittleEndian Acrobe.Storage

/-! ### Variable references -/

/-- A variable reference of the parser as `_parse_lhs` returns one. -/
def Expr.target : Expr → Option Target
  | .varRef name | .arrayWhole name => some ⟨name, none, none, none⟩
  | .arrayIndex name index => some ⟨name, some index, none, none⟩
  | .arraySubrange name high low => some ⟨name, none, some high, some low⟩
  | _ => none

/-- The two split a text alike. -/
def ReadsAlike (text : Text) : Prop :=
  ∃ e target, parseExpr text = .ok e ∧ e.target = some target ∧ parseLhs text = .ok target

def LhsForm.expr (form : LhsForm) (name : Text) : Expr :=
  match form with
  | .name => .varRef (String.ofList name)
  | .whole => .arrayWhole (String.ofList name)
  | .index place => .arrayIndex (String.ofList name) place
  | .subrange high low => .arraySubrange (String.ofList name) high low

theorem LhsForm.expr_target (form : LhsForm) (name : Text) {target : Target}
    (same : (form.expr name).target = some target) (value : Expr) :
    .assignStmt target.name target.index target.high target.low value = form.assign name value := by
  cases form with
  | name | whole | index place | subrange high low =>
    cases same
    rfl

theorem LhsForm.target_unique (form : LhsForm) (name : Text) {target : Target} {value : Expr}
    (same : .assignStmt target.name target.index target.high target.low value = form.assign name value) :
    (form.expr name).target = some target := by
  obtain ⟨written, index, high, low⟩ := target
  cases form with
  | name | whole | index place | subrange high low =>
    cases same
    rfl

theorem SpellsBrackets.spells {name : Text} (legal : IsName name) (before : Gap) {form : LhsForm} {brackets : Text}
    (spells : SpellsBrackets form brackets) (some : form ≠ .name) :
    Spells 0 (form.expr name) (name ++ (before.text ++ brackets)) := by
  cases spells with
  | none => exact absurd rfl some
  | brackets spells =>
    cases spells with
    | whole gap => exact .arrayWhole before gap legal
    | index first last spells =>
      have reference := @Spells.arrayIndex 0 _ _ _ before first last legal spells
      simpa only [List.append_assoc, LhsForm.expr] using reference
    | subrange first middle second last spellsHigh spellsLow =>
      have reference := @Spells.arraySubrange 0 _ _ _ _ _ before first middle second last legal spellsHigh spellsLow
      simpa only [List.append_assoc, List.cons_append, LhsForm.expr] using reference

theorem parseExpr_reference {name : Text} (legal : IsName name) (before after : Gap) {form : LhsForm} {brackets : Text}
    (spells : SpellsBrackets form brackets) :
    parseExpr (name ++ (before.text ++ (brackets ++ after.text))) = .ok (form.expr name) := by
  by_cases plain : form = .name
  · subst plain
    obtain rfl : brackets = [] := by
      generalize same : LhsForm.name = form at spells
      cases spells with
      | none => rfl
      | brackets spells =>
        subst same
        cases spells
    exact parseExpr_spells (.varRef legal) [] _ nofun (space_gap (before.append after))
  · have read := parseExpr_spells (spells.spells legal before plain) [] _ nofun (space_gap after)
    simpa only [List.nil_append, List.append_assoc] using read

theorem parseLhs_reference {name : Text} (legal : IsName name) (before after : Gap) {form : LhsForm} {brackets : Text}
    (spells : SpellsBrackets form brackets) :
    (∃ target, parseLhs (name ++ (before.text ++ (brackets ++ after.text))) = .ok target ∧
      (form.expr name).target = some target) ↔ form.Flat := by
  cases spells with
  | none => exact ⟨fun _ => trivial, fun _ => ⟨_, parseLhs_name legal (before.append after), rfl⟩⟩
  | brackets spells =>
    constructor
    · rintro ⟨target, ran, same⟩
      by_contra ranged
      exact parseLhs_ranged legal before after spells ranged ran (.intLiteral 0) _ (form.expr_target name same _)
    · intro flat
      obtain ⟨target, ran, same⟩ := parseLhs_inner legal before after spells flat
      exact ⟨target, ran, form.target_unique name (same (.intLiteral 0))⟩

/-! ### Spaces around a reference -/

theorem strip_spaces (front text back : Text) (spaceFront : ∀ c ∈ front, isSpace c = true)
    (spaceBack : ∀ c ∈ back, isSpace c = true) : strip (front ++ (text ++ back)) = strip text := by
  have cut (body : Text) : (body ++ back).rdropWhile isSpace = body.rdropWhile isSpace := by
    rw [List.rdropWhile, List.reverse_append,
      List.dropWhile_append_of_pos fun c member => spaceBack c (List.mem_reverse.mp member)]
    rfl
  rw [strip, strip, List.dropWhile_append_of_pos spaceFront, List.dropWhile_append]
  split
  · next blank =>
    have gone : text.dropWhile isSpace = [] := List.isEmpty_iff.mp blank
    rw [gone, List.dropWhile_eq_nil_iff.mpr spaceBack]
  · exact cut _

theorem parseLhs_strip {text other : Text} (same : strip text = strip other) : parseLhs text = parseLhs other := by
  rw [parseLhs, parseLhs, same]

theorem parseExpr_strip {text other : Text} (same : strip text = strip other) : parseExpr text = parseExpr other := by
  rw [parseExpr, parseExpr, same]

/-! ### The two readings -/

theorem spells_zero : Spells 0 (.intLiteral 0) ['0'] :=
  @Spells.intLiteral 0 ['0'] nofun fun _ member => List.mem_singleton.mp member ▸ rfl

/-- A reference is split alike exactly when no sub-range stands before the dots that are searched. -/
theorem readsAlike_iff {name : Text} (legal : IsName name) (before : Gap) {form : LhsForm} {brackets : Text}
    (spells : SpellsBrackets form brackets) (front back : Text) (spaceFront : ∀ c ∈ front, isSpace c = true)
    (spaceBack : ∀ c ∈ back, isSpace c = true) :
    ReadsAlike (front ++ (name ++ (before.text ++ brackets) ++ back)) ↔ form.Flat := by
  have same := strip_spaces front (name ++ (before.text ++ brackets)) back spaceFront spaceBack
  have parsed := parseExpr_reference legal before .none spells
  have split := parseLhs_reference legal before .none spells
  simp only [Gap.none, List.append_nil] at parsed split
  rw [ReadsAlike, parseExpr_strip same, parseLhs_strip same, parsed, ← split]
  constructor
  · rintro ⟨e, target, read, reference, ran⟩
    cases read
    exact ⟨target, ran, reference⟩
  · rintro ⟨target, ran, reference⟩
    exact ⟨_, target, rfl, reference, ran⟩

/-- `a[b[0]]`. -/
theorem readsAlike_nested : ReadsAlike ['a', '[', 'b', '[', '0', ']', ']', ' '] := by
  have inner : Spells 0 (.arrayIndex (String.ofList ['b']) (.intLiteral 0)) ['b', '[', '0', ']'] :=
    .arrayIndex .none .none .none (by decide) spells_zero
  have iff := @readsAlike_iff ['a'] (by decide) .none _ _ (.brackets (.index .none .none inner)) [] [' '] nofun
    fun _ member => List.mem_singleton.mp member ▸ rfl
  exact iff.mpr rfl

/-- `a[b[0..0]]` is cut inside of the index on a left-hand side. -/
theorem nested_subrange_differs : ¬ReadsAlike ['a', '[', 'b', '[', '0', '.', '.', '0', ']', ']'] := by
  have inner : Spells 0 (.arraySubrange (String.ofList ['b']) (.intLiteral 0) (.intLiteral 0))
      ['b', '[', '0', '.', '.', '0', ']'] :=
    .arraySubrange .none .none .none .none .none (by decide) spells_zero spells_zero
  have brackets : SpellsBrackets (.index (.arraySubrange (String.ofList ['b']) (.intLiteral 0) (.intLiteral 0)))
      ['[', 'b', '[', '0', '.', '.', '0', ']', ']'] := .brackets (.index .none .none inner)
  have legal : IsName ['a'] := by decide
  have parsed := parseExpr_reference legal .none .none brackets
  have split := parseLhs_reference legal .none .none brackets
  simp only [Gap.none, List.append_nil, List.nil_append, List.singleton_append] at parsed split
  rintro ⟨e, target, read, reference, ran⟩
  rw [parsed] at read
  cases read
  cases split.mp ⟨target, ran, reference⟩

end Acrobe.Stapl
