import Acrobe.Stapl.SimplifyOperators

/-!
# Emitted expressions and the interpreter

Each kind of node is preserved exactly when it is in order, given that its operands are.
-/

namespace Acrobe.Stapl
open LittleEndian Acrobe.Storage

namespace Valuation
variable (σ : Valuation) (name : Name)

theorem store_readVar : σ.store.readVar name =
    match σ name with
    | some (.integer value) => .ok value
    | some (.integers _) => .error (.assertionError (name ++ " is an array, not scalar"))
    | some (.boolean value) => .ok (truth value)
    | some (.booleans bits) => .ok (BitString.toNat bits)
    | none => .error (Store.undefined name) := by
  rcases held : σ name with _ | _ | _ | _ | _ <;> simp only [Store.readVar, Valuation.store, held] <;> rfl

theorem store_readIndex (idx : Int) : σ.store.readIndex name idx =
    match σ name with
    | some (.integer _) => .error (.assertionError "")
    | some (.integers values) => .ok (if idx < 0 then 0 else values.getD idx.toNat 0)
    | some (.boolean value) => .ok (getBit [value] idx)
    | some (.booleans bits) => .ok (getBit bits idx)
    | none => .error (Store.undefined name) := by
  rcases held : σ name with _ | _ | _ | _ | _ <;> simp only [Store.readIndex, Valuation.store, held]

end Valuation

section
variable {constants : Name → Option Int} {σ : Valuation} {left right : Expr} {a b : Int}

/-! ### The nodes -/

theorem preserved_varRef (name : Name) : Preserved constants σ (.varRef name) ↔ NodeOk constants σ (.varRef name) := by
  rw [Preserved, NodeOk, evalInt, emitted, intExpr, simplify]
  cases constants name with
  | some constant => exact results_iff rfl
  | none =>
    dsimp only
    rw [emitInt, Valuation.store_readVar, Valuation.isBooleanArray]
    show (∀ value, _ → (Py.run.plain (σ.attribute name)).map (·.1) = _) ↔ _
    rw [Valuation.attribute]
    rcases σ name with _ | _ | _ | _ | _
    · exact (raised_iff rfl).trans (iff_true_intro rfl).symm
    · exact (exact_iff rfl rfl).trans (iff_true_intro rfl).symm
    · exact (raised_iff rfl).trans (iff_true_intro rfl).symm
    · exact (exact_iff rfl rfl).trans (iff_true_intro rfl).symm
    · constructor
      · intro agree
        cases agree _ rfl
      · rintro ⟨⟩

theorem preserved_of_operand {e operand : Expr} (f : Int → Except Error Int) (ok : Int → Prop)
    (evaluates : evalInt σ.store e = (evalInt σ.store operand).bind f)
    (inner : Preserved constants σ operand)
    (step : ∀ value, emitted constants σ operand = .ok (.int value) →
      ((∀ v, f value = .ok v → emitted constants σ e = .ok (.int v)) ↔ ok value)) :
    Preserved constants σ e ↔ ∀ value, evalInt σ.store operand = .ok value → ok value := by
  rw [Preserved, evaluates]
  cases evaluated : evalInt σ.store operand with
  | error error =>
    constructor
    · rintro _ _ ⟨⟩
    · rintro _ _ ⟨⟩
  | ok value =>
    have known := step value (inner value evaluated)
    constructor
    · rintro agree _ ⟨⟩
      exact known.mp agree
    · intro all
      exact known.mpr (all value rfl)

theorem item_iff {α : Type} (items : List α) (default : α) (f : α → Int) (idx : Int) :
    (if 0 ≤ (if idx < 0 then idx + items.length else idx) ∧
        (if idx < 0 then idx + items.length else idx) < items.length then
      Except.ok (PyVal.int (f (items.getD (if idx < 0 then idx + items.length else idx).toNat default)))
    else .error Error.indexError) = .ok (.int (if idx < 0 then 0 else f (items.getD idx.toNat default))) ↔
      0 ≤ idx ∧ idx < items.length ∨
        -items.length ≤ idx ∧ idx < 0 ∧ f (items.getD (idx + items.length).toNat default) = 0 := by
  by_cases negative : idx < 0
  · simp only [if_pos negative]
    split_ifs with inside
    · rw [Except.ok.injEq, PyVal.int.injEq]
      constructor
      · intro same
        exact Or.inr ⟨by omega, negative, same⟩
      · rintro (⟨low, _⟩ | ⟨_, _, same⟩)
        · omega
        · exact same
    · constructor
      · rintro ⟨⟩
      · omega
  · simp only [if_neg negative]
    split_ifs with inside
    · exact ⟨fun _ => Or.inl inside, fun _ => rfl⟩
    · constructor
      · rintro ⟨⟩
      · omega

theorem single_iff {result : Int} {outcome : Except Error PyVal} :
    (∀ v, (Except.ok result : Except Error Int) = .ok v → outcome = .ok (.int v)) ↔ outcome = .ok (.int result) := by
  constructor
  · intro agree
    exact agree _ rfl
  · rintro agree v ⟨⟩
    exact agree

theorem preserved_arrayIndex (name : Name) {index : Expr} (inner : Preserved constants σ index) :
    Preserved constants σ (.arrayIndex name index) ↔ NodeOk constants σ (.arrayIndex name index) := by
  apply preserved_of_operand (σ.store.readIndex name) (IndexOk σ name) rfl inner
  intro idx first
  obtain ⟨_, outcome⟩ := Py.eval_ok first
  have known : emitted constants σ (.arrayIndex name index) = σ.item name idx := by
    rw [emitted, intExpr, simplify, emitInt, Py.eval, Py.run, ← intExpr, outcome]
    show (Py.run.plain (σ.item name idx)).map (·.1) = _
    cases σ.item name idx <;> rfl
  rw [known, IndexOk, Valuation.item, Valuation.store_readIndex]
  rcases σ name with _ | _ | values | _ | bits
  · exact raised_iff rfl
  · exact raised_iff rfl
  · exact single_iff.trans (item_iff values 0 id idx)
  · constructor
    · intro agree
      cases agree _ rfl
    · exact False.elim
  · have flipped : getBit bits idx = if idx < 0 then 0 else truth (bits.getD idx.toNat false) := by
      unfold getBit
      split_ifs <;> first | rfl | omega
    have clear (bit : Bool) : truth bit = 0 ↔ bit = false := by cases bit <;> decide
    dsimp only
    rw [single_iff, flipped, item_iff bits false truth idx, clear]

theorem preserved_unaryOp (op : UnaryOp) {operand : Expr} (inner : Preserved constants σ operand) :
    Preserved constants σ (.unaryOp op operand) ↔ NodeOk constants σ (.unaryOp op operand) := by
  rw [preserved_of_operand (fun value => .ok (evalUnary op value))
    (fun value => evalUnary op value = foldUnary op value) rfl inner]
  · cases op with
    | invert =>
      rw [NodeOk]
      apply forall₂_congr
      intro value _
      show (-value - 1) % 2 ^ 32 = -value - 1 ↔ _
      omega
    | _ => exact ⟨fun _ => trivial, fun _ value _ => rfl⟩
  · intro value first
    have known : emitted constants σ (.unaryOp op operand) = _ := eval_simplifyUnary op first
    rw [single_iff, known, Except.ok.injEq, PyVal.int.injEq]
    exact eq_comm

theorem preserved_binOp (op : BinOp)
    (first : op.takesLeft (simplify constants right) = true → Everywhere constants σ (Preserved constants σ) left)
    (second : ∀ a, evalInt σ.store left = .ok a →
      op.takesRight (simplify constants left) (simplify constants right) a = true → Preserved constants σ right) :
    Preserved constants σ (.binOp op left right) ↔ NodeOk constants σ (.binOp op left right) := by
  constructor
  · intro preserved a b leftValue rightValue
    apply (binOp_iff leftValue rightValue first (second a leftValue)).mp
    intro v evaluated
    apply preserved v
    rw [evalInt, leftValue, rightValue]
    exact evaluated
  · intro node v evaluated
    obtain ⟨a, b, leftValue, rightValue, result⟩ := evalInt_binOp evaluated
    exact (binOp_iff leftValue rightValue first (second a leftValue)).mpr
      (node a b leftValue rightValue) v result

theorem preserved_abs {arg : Expr} (inner : Preserved constants σ arg) :
    Preserved constants σ (.funcCall .abs arg) := by
  rw [preserved_of_operand (fun value => .ok (value.natAbs : Int)) (fun _ => True) rfl inner]
  · exact fun _ _ => trivial
  · intro value first
    obtain ⟨_, outcome⟩ := Py.eval_ok first
    apply exact_iff _ rfl
    show ((Py.call .abs (intExpr constants σ.isBooleanArray arg)).run σ).map (·.1) = _
    rw [Py.run, outcome]
    rfl

theorem toNat_literalBits (data : Bytes) (bitCount : Nat) :
    BitString.toNat (literalBits data bitCount) = combine data % 2 ^ bitCount := by
  rw [literalBits, Bits.ofBytes, Acrobe.BitString.toNat_ofNat, Option.getD_some]

theorem preserved_booleanLiteral (data : Bytes) (bitCount : Nat) :
    Preserved constants σ (.booleanLiteral data bitCount) ↔ combine data < 2 ^ bitCount := by
  have known : emitted constants σ (.booleanLiteral data bitCount) = .ok (.int (combine data)) := rfl
  rw [Preserved, known, evalInt, toNat_literalBits, single_iff, Except.ok.injEq, PyVal.int.injEq, Int.natCast_inj]
  constructor
  · intro same
    rw [same]
    exact Nat.mod_lt _ (Nat.two_pow_pos _)
  · intro small
    exact (Nat.mod_eq_of_lt small).symm

theorem toNat_wordBits (value : Int) : (BitString.toNat (wordBits value) : Int) = value % 2 ^ 32 := by
  rw [wordBits, Bits.ofInt, Acrobe.BitString.toNat_ofNat]
  omega

theorem intOf_view {store : Store} {name : Name} {bits : Bits} (held : store.booleans name = some bits)
    (start stop : Nat) : store.intOf (.view name start stop) = BitString.toNat (BitString.slice bits start stop) := by
  rw [Store.intOf, Store.bits, held, Option.getD_some]

theorem slice_whole (bits : Bits) : BitString.slice bits 0 bits.length = bits := by
  rw [Acrobe.BitString.slice, List.take_length, List.drop_zero]

theorem intOf_getSubrange {store : Store} {name : Name} {bits : Bits} (held : store.booleans name = some bits)
    (high low : Int) : store.intOf (getSubrange name bits high low) = subrangeInt bits high low := by
  unfold getSubrange subrangeInt
  dsimp only
  split_ifs with ascending empty
  · have nothing : sliceBits bits low (high + 1) = [] := by
      rw [sliceBits, Acrobe.BitString.slice]
      exact List.drop_of_length_le (by rw [List.length_take]; omega)
    rw [nothing]
    rfl
  · exact intOf_view held _ _
  · rfl

theorem int_varRef (σ : Valuation) (name : Name) : evalInt σ.store (.funcCall .int (.varRef name)) =
    match σ name with
    | some (.integer value) => .ok (value % 2 ^ 32)
    | some (.integers _) => .error (.assertionError "")
    | some (.boolean value) => .ok (truth value)
    | some (.booleans bits) => .ok (BitString.toNat bits)
    | none => .error (Store.undefined name) := by
  rw [evalInt, Store.varBits]
  rcases held : σ name with _ | value | _ | value | bits
  · simp only [Valuation.store, held]; rfl
  · simp only [Valuation.store, held]
    exact congrArg Except.ok (toNat_wordBits value)
  · simp only [Valuation.store, held]; rfl
  · have known : σ.store.booleans name = some [value] := by simp only [Valuation.store, held]
    rw [known]
    exact congrArg Except.ok ((intOf_view known 0 1).trans (by cases value <;> rfl))
  · have known : σ.store.booleans name = some bits := by simp only [Valuation.store, held]
    rw [known]
    exact congrArg Except.ok ((intOf_view known _ _).trans (by rw [slice_whole]))

theorem int_arrayWhole (σ : Valuation) (name : Name) : evalInt σ.store (.funcCall .int (.arrayWhole name)) =
    match σ name with
    | some (.boolean value) => .ok (truth value)
    | some (.booleans bits) => .ok (BitString.toNat bits)
    | _ => .error (.staplRuntimeError ("Whole array ref on non-boolean: " ++ name)) := by
  rw [evalInt, Store.wholeBits]
  rcases held : σ name with _ | value | _ | value | bits
  · simp only [Valuation.store, held]; rfl
  · simp only [Valuation.store, held]; rfl
  · simp only [Valuation.store, held]; rfl
  · have known : σ.store.booleans name = some [value] := by simp only [Valuation.store, held]
    rw [known]
    exact congrArg Except.ok ((intOf_view known 0 1).trans (by cases value <;> rfl))
  · have known : σ.store.booleans name = some bits := by simp only [Valuation.store, held]
    rw [known]
    exact congrArg Except.ok ((intOf_view known _ _).trans (by rw [slice_whole]))

theorem preserved_int_varRef (name : Name) :
    Preserved constants σ (.funcCall .int (.varRef name)) ↔ NodeOk constants σ (.funcCall .int (.varRef name)) := by
  rw [Preserved, NodeOk, emitted, intExpr, simplify, simplify]
  cases constants name with
  | some constant =>
    have known : (emitInt σ.isBooleanArray (.funcCall .int (.intLiteral constant))).eval σ =
        .ok (.int (constant % 2 ^ 32)) := by
      rw [← toNat_wordBits]
      rfl
    exact results_iff known
  | none =>
    dsimp only
    rw [emitInt, int_varRef, Valuation.isBooleanArray]
    have plain : (Py.ref name).eval σ = σ.attribute name := by
      rw [Py.eval, Py.run]
      cases σ.attribute name <;> rfl
    rcases held : σ name with _ | value | _ | value | bits
    · exact ⟨fun _ value same => (by cases same), fun _ value same => (by cases same)⟩
    · rw [if_neg Bool.false_ne_true, plain, Valuation.attribute, held, single_iff, Except.ok.injEq, PyVal.int.injEq]
      constructor
      · rintro same _ ⟨⟩
        omega
      · intro range
        have := range value rfl
        omega
    · exact ⟨fun _ value same => (by cases same), fun _ value same => (by cases same)⟩
    · rw [if_neg Bool.false_ne_true, plain, Valuation.attribute, held, single_iff]
      exact ⟨fun _ value same => (by cases same), fun _ => rfl⟩
    · rw [if_pos rfl, single_iff]
      refine ⟨fun _ value same => (by cases same), fun _ => ?_⟩
      rw [Py.eval, Py.run, Py.run, Valuation.attribute, held]
      rfl

theorem preserved_int_arrayWhole (name : Name) : Preserved constants σ (.funcCall .int (.arrayWhole name)) := by
  rw [Preserved, int_arrayWhole]
  show ∀ value, _ → ((Py.toInt (.ref name)).run σ).map (·.1) = _
  rw [Py.run, Py.run, Valuation.attribute]
  rcases σ name with _ | _ | _ | _ | _
  · exact (raised_iff rfl).mpr trivial
  · exact (raised_iff rfl).mpr trivial
  · exact (raised_iff rfl).mpr trivial
  · exact (exact_iff rfl rfl).mpr trivial
  · exact (exact_iff rfl rfl).mpr trivial

theorem preserved_int_booleanLiteral (data : Bytes) (bitCount : Nat) :
    Preserved constants σ (.funcCall .int (.booleanLiteral data bitCount)) := by
  rintro value ⟨⟩
  rfl

theorem eval_word {text : Py} {value : Int} (first : text.eval σ = .ok (.int value)) :
    (Py.toInt (.word text)).eval σ = .ok (.int (BitString.toNat (wordBits value))) := by
  obtain ⟨_, outcome⟩ := Py.eval_ok first
  rw [Py.eval, Py.run, Py.run, outcome]
  rfl

theorem preserved_int_bool {arg : Expr} (inner : Preserved constants σ arg) :
    Preserved constants σ (.funcCall .int (.funcCall .bool arg)) := by
  rw [preserved_of_operand (fun value => .ok (BitString.toNat (wordBits value) : Int)) (fun _ => True) rfl inner]
  · exact fun _ _ => trivial
  · intro value first
    exact exact_iff (eval_word first) rfl

/-! ### Subranges -/

theorem eval_toInt_bits {text : Py} {bits : Bits} (first : text.eval σ = .ok (.bits bits)) :
    (Py.toInt text).eval σ = .ok (.int (BitString.toNat bits)) := by
  obtain ⟨_, outcome⟩ := Py.eval_ok first
  rw [Py.eval, Py.run, outcome]
  rfl

theorem eval_slice (name : Name) {start stop : Py} {b e : Int} (first : start.eval σ = .ok (.int b))
    (second : stop.eval σ = .ok (.int e)) : (Py.slice name start stop).eval σ = σ.range name b e := by
  obtain ⟨_, startOutcome⟩ := Py.eval_ok first
  obtain ⟨_, stopOutcome⟩ := Py.eval_ok second
  rw [Py.eval, Py.run, startOutcome, stopOutcome]
  show (Py.run.plain (σ.range name b e)).map (·.1) = _
  cases σ.range name b e <;> rfl

theorem eval_slice_ok {name : Name} {start stop : Py} {result : PyVal}
    (outcome : (Py.slice name start stop).eval σ = .ok result) :
    ∃ b e, start.eval σ = .ok (.int b) ∧ stop.eval σ = .ok (.int e) ∧ σ.range name b e = .ok result := by
  have found : ∃ b e, start.eval σ = .ok (.int b) ∧ stop.eval σ = .ok (.int e) := by
    rw [Py.eval, Py.run] at outcome
    rw [Py.eval, Py.eval]
    cases startRun : start.run σ with
    | error error => rw [startRun] at outcome; cases outcome
    | ok first =>
      obtain ⟨value | bits | _, last⟩ := first <;> rw [startRun] at outcome
      · cases stopRun : stop.run σ with
        | error error => rw [stopRun] at outcome; cases outcome
        | ok second =>
          obtain ⟨bound | bits | _, last⟩ := second <;> rw [stopRun] at outcome
          · exact ⟨value, bound, rfl, rfl⟩
          · cases outcome
          · cases outcome
      · cases outcome
      · cases outcome
  obtain ⟨b, e, first, second⟩ := found
  rw [eval_slice name first second] at outcome
  exact ⟨b, e, first, second, outcome⟩

theorem eval_toInt_ok {text : Py} {value : Int} (outcome : (Py.toInt text).eval σ = .ok (.int value)) :
    text.eval σ = .ok (.int value) ∨ ∃ bits, text.eval σ = .ok (.bits bits) ∧ value = BitString.toNat bits := by
  rw [Py.eval, Py.run] at outcome
  rw [Py.eval]
  cases inner : text.run σ with
  | error error => rw [inner] at outcome; cases outcome
  | ok pair =>
    obtain ⟨held | bits | _, last⟩ := pair <;> rw [inner] at outcome
    · cases outcome
      exact Or.inl rfl
    · cases outcome
      exact Or.inr ⟨bits, rfl, rfl⟩
    · cases outcome

theorem eval_reversed_ok {text : Py} {result : PyVal} (outcome : (Py.reversed text).eval σ = .ok result) :
    ∃ bits, text.eval σ = .ok (.bits bits) := by
  rw [Py.eval, Py.run] at outcome
  rw [Py.eval]
  cases inner : text.run σ with
  | error error => rw [inner] at outcome; cases outcome
  | ok pair =>
    obtain ⟨held | bits | _, last⟩ := pair <;> rw [inner] at outcome
    · cases outcome
    · exact ⟨bits, rfl⟩
    · cases outcome

theorem plusOne_tight {text : Py} (tight : 12 ≤ text.precedence) : text.plusOne = .bin .add text (.int 1) := by
  cases text with
  | unary op operand =>
    cases op with
    | not => exact absurd tight (Nat.not_le.mpr (show 6 < 12 by decide))
    | _ => rfl
  | bin op left right => exact if_pos tight
  | _ => rfl

theorem eval_sub_one {left : Py} {value : Int} (outcome : (Py.bin .sub left (.int 1)).eval σ = .ok (.int value)) :
    left.eval σ = .ok (.int (value + 1)) := by
  rw [Py.eval, Py.run] at outcome
  · rw [Py.eval]
    cases inner : left.run σ with
    | error error => rw [inner] at outcome; cases outcome
    | ok pair =>
      obtain ⟨held | bits | _, last⟩ := pair <;> rw [inner] at outcome
      · have same : held - 1 = value := by injection outcome with same; injection same
        rw [← same, Int.sub_add_cancel]
        rfl
      · cases outcome
      · cases outcome
  · rintro ⟨⟩
  · rintro ⟨⟩

theorem isStop_iff {high : Expr} {value stop : Int} (first : emitted constants σ high = .ok (.int value)) :
    IsStop constants σ high value stop ↔
      (exclusiveEnd (simplify constants high) (intExpr constants σ.isBooleanArray high)).eval σ = .ok (.int stop) := by
  unfold IsStop
  dsimp only
  split_ifs with tight
  · have known : (exclusiveEnd (simplify constants high) (intExpr constants σ.isBooleanArray high)).eval σ =
        .ok (.int (value + 1)) := by
      rw [emitted] at first
      rw [intExpr] at first tight ⊢
      generalize simplify constants high = bound at first tight ⊢
      unfold exclusiveEnd
      split
      · rename_i same
        cases same
        exact eval_sub_one first
      · cases first
        rfl
      · rw [plusOne_tight tight, Py.eval_arith rfl (by decide) (by decide) first rfl]
        rfl
    rw [known, Except.ok.injEq, PyVal.int.injEq]
    exact eq_comm
  · rfl

theorem evalInt_subrange {name : Name} {high low : Expr} {highValue lowValue : Int}
    (first : evalInt σ.store high = .ok highValue) (second : evalInt σ.store low = .ok lowValue) :
    evalInt σ.store (.funcCall .int (.arraySubrange name high low)) =
      match σ name with
      | some (.boolean value) => .ok (subrangeInt [value] highValue lowValue)
      | some (.booleans bits) => .ok (subrangeInt bits highValue lowValue)
      | _ => .error (.staplRuntimeError ("Subrange on non-boolean: " ++ name)) := by
  rw [evalInt, first, second]
  show (σ.store.subrangeBits name highValue lowValue).bind _ = _
  rw [Store.subrangeBits]
  rcases held : σ name with _ | value | _ | value | bits
  · simp only [Valuation.store, held]; rfl
  · simp only [Valuation.store, held]; rfl
  · simp only [Valuation.store, held]; rfl
  · have known : σ.store.booleans name = some [value] := by simp only [Valuation.store, held]
    rw [known]
    exact congrArg Except.ok (intOf_getSubrange known highValue lowValue)
  · have known : σ.store.booleans name = some bits := by simp only [Valuation.store, held]
    rw [known]
    exact congrArg Except.ok (intOf_getSubrange known highValue lowValue)

theorem isDescending_spec {high low : Expr}
    (descending : isDescending (simplify constants high) (simplify constants low) = true) :
    ∃ h l, simplify constants high = .intLiteral h ∧ simplify constants low = .intLiteral l ∧ h < l := by
  unfold isDescending at descending
  split at descending
  · rename_i h l highFolded lowFolded
    exact ⟨h, l, literal_of_tryConstFold highFolded, literal_of_tryConstFold lowFolded, by simpa using descending⟩
  · cases descending

theorem subrange_iff {name : Name} {high low : Expr} {highValue lowValue : Int}
    (first : emitted constants σ high = .ok (.int highValue)) (second : emitted constants σ low = .ok (.int lowValue))
    {bits : Bits} (held : σ name = some (.booleans bits)) :
    emitted constants σ (.funcCall .int (.arraySubrange name high low)) =
        .ok (.int (subrangeInt bits highValue lowValue)) ↔
      SubrangeOk constants σ name high low highValue lowValue := by
  have range (b e : Int) : σ.range name b e = .ok (.bits (sliceBits bits b e)) := by
    rw [Valuation.range, held]
  have text : emitted constants σ (.funcCall .int (.arraySubrange name high low)) =
      (Py.toInt (subrangeRvalue name (simplify constants high) (simplify constants low)
        (intExpr constants σ.isBooleanArray high) (intExpr constants σ.isBooleanArray low))).eval σ := rfl
  rw [SubrangeOk, held, text, subrangeRvalue]
  by_cases descending : isDescending (simplify constants high) (simplify constants low) = true
  · obtain ⟨h, l, highLiteral, lowLiteral, less⟩ := isDescending_spec descending
    rw [emitted, intExpr, highLiteral] at first
    rw [emitted, intExpr, lowLiteral] at second
    cases first
    cases second
    rw [if_pos descending]
    refine ⟨fun _ => Or.inl descending, fun _ => ?_⟩
    rw [intExpr, highLiteral, lowLiteral, subrangeInt, if_neg (by omega)]
    have inner : (Py.slice name (.int highValue) (.int (lowValue + 1))).eval σ = _ := eval_slice name rfl rfl
    rw [range] at inner
    obtain ⟨_, outcome⟩ := Py.eval_ok inner
    apply eval_toInt_bits
    show ((Py.reversed (.slice name (.int highValue) (.int (lowValue + 1)))).run σ).map (·.1) = _
    rw [Py.run, outcome]
    rfl
  · rw [if_neg descending]
    constructor
    · intro outcome
      right
      rcases eval_toInt_ok outcome with plain | ⟨found, plain, same⟩
      · obtain ⟨b, e, _, _, result⟩ := eval_slice_ok plain
        rw [range] at result
        cases result
      · obtain ⟨b, e, start, stop, result⟩ := eval_slice_ok plain
        rw [emitted, start] at second
        cases second
        rw [range] at result
        cases result
        exact ⟨e, (isStop_iff first).mpr stop, same.symm⟩
    · rintro (absurdity | ⟨stop, isStop, same⟩)
      · exact absurd absurdity descending
      · have inner := eval_slice name second ((isStop_iff first).mp isStop)
        rw [range] at inner
        rw [eval_toInt_bits inner, same]

theorem preserved_int_subrange (name : Name) {high low : Expr} (first : Preserved constants σ high)
    (second : Preserved constants σ low) :
    Preserved constants σ (.funcCall .int (.arraySubrange name high low)) ↔
      NodeOk constants σ (.funcCall .int (.arraySubrange name high low)) := by
  have step {highValue lowValue : Int} (highEvaluated : evalInt σ.store high = .ok highValue)
      (lowEvaluated : evalInt σ.store low = .ok lowValue) :
      Preserved constants σ (.funcCall .int (.arraySubrange name high low)) ↔
        SubrangeOk constants σ name high low highValue lowValue := by
    have highEmitted := first _ highEvaluated
    have lowEmitted := second _ lowEvaluated
    rw [Preserved, evalInt_subrange highEvaluated lowEvaluated]
    rcases held : σ name with _ | value | _ | value | bits
    · rw [SubrangeOk, held]
      exact raised_iff rfl
    · rw [SubrangeOk, held]
      exact raised_iff rfl
    · rw [SubrangeOk, held]
      exact raised_iff rfl
    · rw [SubrangeOk, held, single_iff, iff_false]
      intro outcome
      have noRange (start stop : Py) (result : PyVal) : (Py.slice name start stop).eval σ ≠ .ok result := by
        intro plain
        obtain ⟨b, e, _, _, result⟩ := eval_slice_ok plain
        rw [Valuation.range, held] at result
        cases result
      have text : emitted constants σ (.funcCall .int (.arraySubrange name high low)) =
          (Py.toInt (subrangeRvalue name (simplify constants high) (simplify constants low)
            (intExpr constants σ.isBooleanArray high) (intExpr constants σ.isBooleanArray low))).eval σ := rfl
      rw [text, subrangeRvalue] at outcome
      split_ifs at outcome
      · rcases eval_toInt_ok outcome with plain | ⟨_, plain, _⟩ <;>
          obtain ⟨_, inner⟩ := eval_reversed_ok plain <;> exact noRange _ _ _ inner
      · rcases eval_toInt_ok outcome with plain | ⟨_, plain, _⟩ <;> exact noRange _ _ _ plain
    · rw [single_iff]
      exact subrange_iff highEmitted lowEmitted held
  constructor
  · intro preserved highValue lowValue highEvaluated lowEvaluated
    exact (step highEvaluated lowEvaluated).mp preserved
  · intro node value evaluated
    cases highEvaluated : evalInt σ.store high with
    | error error => rw [evalInt, highEvaluated] at evaluated; cases evaluated
    | ok highValue =>
      cases lowEvaluated : evalInt σ.store low with
      | error error => rw [evalInt, highEvaluated, lowEvaluated] at evaluated; cases evaluated
      | ok lowValue =>
        exact (step highEvaluated lowEvaluated).mpr (node _ _ highEvaluated lowEvaluated) value evaluated

/-! ### `INT` of an integer -/

def Expr.isBits : Expr → Bool
  | .arraySubrange .. | .arrayWhole _ | .funcCall .bool _ => true
  | _ => false

/-- What simplifies to a bit string has no integer value in the interpreter. -/
theorem not_evaluated_of_isBits {store : Store} {e : Expr} {value : Int}
    (isBits : (simplify constants e).isBits = true) : evalInt store e ≠ .ok value := by
  induction e generalizing value with
  | binOp op left right ihLeft ihRight =>
    intro evaluated
    obtain ⟨a, b, first, second, _⟩ := evalInt_binOp evaluated
    rw [simplify] at isBits
    rcases simplifyBinop_cases op (simplify constants left) (simplify constants right) with
      ⟨_, same⟩ | same | ⟨_, same⟩ | same <;> rw [same] at isBits
    · cases isBits
    · exact ihLeft isBits first
    · exact ihRight isBits second
    · cases isBits
  | varRef name =>
    rw [simplify] at isBits
    split at isBits <;> cases isBits
  | unaryOp op operand =>
    rw [simplify, simplifyUnary] at isBits
    split at isBits <;> cases isBits
  | arraySubrange name high low => rintro ⟨⟩
  | arrayWhole name => rintro ⟨⟩
  | funcCall name arg =>
    cases name with
    | bool => rintro ⟨⟩
    | _ => cases isBits
  | _ => cases isBits

theorem eval_ref {name : Name} : (Py.ref name).eval σ = σ.attribute name := by
  rw [Py.eval, Py.run]
  cases σ.attribute name <;> rfl

theorem word_iff {arg : Expr} {value : Int} (evaluated : evalInt σ.store arg = .ok value)
    (first : emitted constants σ arg = .ok (.int value)) :
    emitted constants σ (.funcCall .int arg) = .ok (.int (BitString.toNat (wordBits value))) ↔
      WordOk constants arg value := by
  have noBits : (simplify constants arg).isBits = false := by
    rw [Bool.eq_false_iff]
    intro isBits
    exact not_evaluated_of_isBits isBits evaluated
  have text : emitted constants σ (.funcCall .int arg) =
      (emitInt σ.isBooleanArray (.funcCall .int (simplify constants arg))).eval σ := rfl
  rw [text, toNat_wordBits, WordOk]
  rw [emitted, intExpr] at first
  have word : (Py.toInt (.word (emitInt σ.isBooleanArray (simplify constants arg)))).eval σ =
      .ok (.int (value % 2 ^ 32)) := by
    rw [← toNat_wordBits]
    exact eval_word first
  generalize simplify constants arg = simplified at noBits first word ⊢
  cases simplified with
  | varRef name =>
    rw [emitInt, eval_ref] at first
    have scalar : σ.isBooleanArray name = false := by
      rw [Valuation.attribute] at first
      rw [Valuation.isBooleanArray]
      rcases held : σ name with _ | _ | _ | _ | _ <;> rw [held] at first
      all_goals first | rfl | cases first
    rw [emitInt, if_neg (by rw [scalar]; exact Bool.false_ne_true), eval_ref, first, Except.ok.injEq,
      PyVal.int.injEq]
    dsimp only
    omega
  | booleanLiteral data bitCount =>
    have known : (Py.toInt (.literal data bitCount)).eval σ = .ok (.int (combine data % 2 ^ bitCount : Nat)) := by
      rw [← toNat_literalBits]
      rfl
    rw [emitInt, known, Except.ok.injEq, PyVal.int.injEq]
    exact eq_comm
  | arraySubrange name high low => cases noBits
  | arrayWhole name => cases noBits
  | funcCall name inner =>
    cases name with
    | bool => cases noBits
    | _ => exact iff_of_true word trivial
  | _ => exact iff_of_true word trivial

theorem preserved_int_word {arg : Expr}
    (evaluates : evalInt σ.store (.funcCall .int arg) =
      (evalInt σ.store arg).bind fun value => .ok (BitString.toNat (wordBits value) : Int))
    (inner : Preserved constants σ arg) :
    Preserved constants σ (.funcCall .int arg) ↔
      ∀ value, evalInt σ.store arg = .ok value → WordOk constants arg value := by
  rw [Preserved, evaluates]
  cases evaluated : evalInt σ.store arg with
  | error error =>
    constructor
    · rintro _ _ ⟨⟩
    · rintro _ _ ⟨⟩
  | ok value =>
    have known := word_iff evaluated (inner value evaluated)
    constructor
    · rintro agree _ ⟨⟩
      exact known.mp (agree _ rfl)
    · rintro all _ ⟨⟩
      exact known.mpr (all value rfl)

theorem everywhere_iff (constants : Name → Option Int) (σ : Valuation) (e : Expr) :
    Everywhere constants σ (Preserved constants σ) e ↔ Everywhere constants σ (NodeOk constants σ) e := by
  fun_induction Everywhere constants σ (Preserved constants σ) e with
  | case1 name index ih =>
    rw [Everywhere, ← ih]
    exact and_congr_left fun inner => preserved_arrayIndex name inner.self
  | case2 op operand ih =>
    rw [Everywhere, ← ih]
    exact and_congr_left fun inner => preserved_unaryOp op inner.self
  | case3 op left right ihLeft ihRight =>
    simp only [Everywhere, ← ihLeft, ← ihRight]
    exact and_congr_left fun inner => preserved_binOp op inner.1 fun a value taken => (inner.2 a value taken).self
  | case4 arg ih =>
    rw [Everywhere, ← ih]
    exact and_congr_left fun inner => iff_of_true (preserved_abs inner.self) trivial
  | case5 name high low ihHigh ihLow =>
    rw [Everywhere, ← ihHigh, ← ihLow]
    exact and_congr_left fun inner => preserved_int_subrange name inner.1.self inner.2.self
  | case6 arg ih =>
    rw [Everywhere, ← ih]
    exact and_congr_left fun inner => iff_of_true (preserved_int_bool inner.self) trivial
  | case7 name => exact preserved_int_varRef name
  | case8 name => exact iff_of_true (preserved_int_arrayWhole name) trivial
  | case9 data bitCount => exact iff_of_true (preserved_int_booleanLiteral data bitCount) trivial
  | case10 arg notSubrange notBool notVar notWhole notLiteral ih =>
    have step (evaluates : evalInt σ.store (.funcCall .int arg) =
        (evalInt σ.store arg).bind fun value => .ok (BitString.toNat (wordBits value) : Int)) :=
      and_congr_left fun inner : Everywhere constants σ (Preserved constants σ) arg => preserved_int_word evaluates inner.self
    cases arg with
    | varRef name => exact (notVar name rfl).elim
    | arrayWhole name => exact (notWhole name rfl).elim
    | booleanLiteral data bitCount => exact (notLiteral data bitCount rfl).elim
    | arraySubrange name high low => exact (notSubrange name high low rfl).elim
    | funcCall name inner =>
      cases name with
      | bool => exact (notBool inner rfl).elim
      | _ => exact (step rfl).trans (and_congr_right fun _ => ih)
    | _ => exact (step rfl).trans (and_congr_right fun _ => ih)
  | case11 e notIndex notUnary notBinary notAbs _ _ _ _ _ notInt =>
    have silent (raised : ∀ value, evalInt σ.store e ≠ .ok value) : Preserved constants σ e :=
      fun value evaluated => absurd evaluated (raised value)
    cases e with
    | intLiteral value => exact iff_of_true (fun _ same => by cases same; rfl) trivial
    | varRef name => exact preserved_varRef name
    | booleanLiteral data bitCount => exact preserved_booleanLiteral data bitCount
    | arraySubrange name high low => exact iff_of_true (silent fun _ => by rintro ⟨⟩) trivial
    | arrayWhole name => exact iff_of_true (silent fun _ => by rintro ⟨⟩) trivial
    | arrayIndex name index => exact (notIndex name index rfl).elim
    | unaryOp op operand => exact (notUnary op operand rfl).elim
    | binOp op left right => exact (notBinary op left right rfl).elim
    | funcCall name arg =>
      cases name with
      | abs => exact (notAbs arg rfl).elim
      | int => exact (notInt arg rfl).elim
      | bool => exact iff_of_true (silent fun _ => by rintro ⟨⟩) trivial
      | chr => exact iff_of_true (silent fun _ => by rintro ⟨⟩) trivial

end

/-- Where the interpreter gives a value, every operator that is looked at is in order. -/
def InOrder (constants : Name → Option Int) (σ : Valuation) (e : Expr) : Prop :=
  (∃ value, evalInt σ.store e = .ok value) → Everywhere constants σ (NodeOk constants σ) e

theorem InOrder.preserved {constants : Name → Option Int} {σ : Valuation} {e : Expr} (inOrder : InOrder constants σ e) :
    Preserved constants σ e :=
  fun value evaluated => ((everywhere_iff constants σ e).mpr (inOrder ⟨value, evaluated⟩)).self value evaluated

/-- An expression keeps its value at every operator that is looked at exactly when each of them is in
order, and then it keeps its value. -/
theorem simplify_preserves_iff (constants : Name → Option Int) (σ : Valuation) (e : Expr) :
    (((∃ value, evalInt σ.store e = .ok value) → Everywhere constants σ (Preserved constants σ) e) ↔
        InOrder constants σ e) ∧
      (InOrder constants σ e → Preserved constants σ e) :=
  ⟨imp_congr_right fun _ => everywhere_iff constants σ e, InOrder.preserved⟩

/-- `0 && X / 2`: the division is dropped, so its rounding does not matter. -/
example (σ : Valuation) :
    InOrder noConstants σ (.binOp .and (.intLiteral 0) (.binOp .div (.varRef "X") (.intLiteral 2))) := by
  intro _
  refine ⟨fun a b first _ => ?_, fun _ => trivial, fun a first taken => ?_⟩
  · cases first
    exact ⟨fun nonzero => absurd rfl nonzero, by rintro ⟨⟩⟩
  · cases first
    cases taken

/-- `X / 2` for `X = -7`: the interpreter truncates, the emitted `//` rounds down. -/
theorem division_not_preserved :
    let σ : Valuation := fun name => if name = "X" then some (.integer (-7)) else none
    let e : Expr := .binOp .div (.varRef "X") (.intLiteral 2)
    evalInt σ.store e = .ok (-3) ∧ emitted noConstants σ e = .ok (.int (-4)) ∧ ¬Preserved noConstants σ e := by
  have evaluated : evalInt (Valuation.store fun name => if name = "X" then some (.integer (-7)) else none)
      (.binOp .div (.varRef "X") (.intLiteral 2)) = .ok (-3) := by decide
  have printed : emitted noConstants (fun name => if name = "X" then some (.integer (-7)) else none)
      (.binOp .div (.varRef "X") (.intLiteral 2)) = .ok (.int (-4)) := by decide
  refine ⟨evaluated, printed, fun preserved => ?_⟩
  have same := preserved (-3) evaluated
  rw [printed] at same
  exact absurd same (by decide)

end Acrobe.Stapl
