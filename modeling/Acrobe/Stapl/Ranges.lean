import Acrobe.Stapl.Evaluate
import Acrobe.Lib.Exceptional

/-!
# 32-bit integers

Which evaluations stay in 32 bits. Most operators wrap their result; the unary ones, `ABS`, `INT`
and the literals do not.
-/

namespace Acrobe.Stapl
open LittleEndian Acrobe.Storage

/-- Every integer variable and every element of an integer array is a 32-bit integer. -/
structure Store.InRange (store : Store) : Prop where
  scalar {name : Name} {value : Int} (held : store.integers name = some (.scalar value)) : Stapl.InRange value
  array {name : Name} {values : List Int} (held : store.integers name = some (.array values)) :
    ∀ value ∈ values, Stapl.InRange value

/-! ### The values of an evaluation -/

def returned (result : Except Error Int) : List Int :=
  match result with
  | .ok value => [value]
  | .error _ => []

/-- What comes after a call that returns. -/
def after {α β : Type} (first : Except Error α) (rest : List β) : List β :=
  match first with
  | .ok _ => rest
  | .error _ => []

mutual

/-- What `_eval_int` returns for an expression and, before it, for the parts it evaluates. -/
def intValues (store : Store) : Expr → List Int
  | .arrayIndex name index => intValues store index ++ returned (evalInt store (.arrayIndex name index))
  | .unaryOp op operand => intValues store operand ++ returned (evalInt store (.unaryOp op operand))
  | .binOp op left right =>
    intValues store left ++ after (evalInt store left) (intValues store right) ++
      returned (evalInt store (.binOp op left right))
  | .funcCall .abs arg => intValues store arg ++ returned (evalInt store (.funcCall .abs arg))
  | .funcCall .int arg => bitValues store arg ++ returned (evalInt store (.funcCall .int arg))
  | e => returned (evalInt store e)
termination_by e => (sizeOf e, 0)

/-- What `_eval_int` returns while `_eval_bits` evaluates an expression. -/
def bitValues (store : Store) : Expr → List Int
  | .booleanLiteral _ _ | .varRef _ | .arrayWhole _ => []
  | .arraySubrange _ high low => intValues store high ++ after (evalInt store high) (intValues store low)
  | .funcCall .bool arg => intValues store arg
  | e => intValues store e
termination_by e => (sizeOf e, 1)

end

/-! ### Where the result leaves 32 bits -/

/-- The value of an operand that the operator keeps in 32 bits. -/
def UnaryOp.Fits : UnaryOp → Int → Prop
  | .neg, val => val ≠ -2 ^ 31
  | .invert, val => val < 0
  | .not, _ => True

def FitsBits (bits : Bits) : Prop := BitString.toNat bits < 2 ^ 31

mutual

/-- No part of the expression is a literal, a Boolean array or the operand of an operator whose
result needs more than 32 bits. -/
def NarrowInt (store : Store) : Expr → Prop
  | .intLiteral value => InRange value
  | .varRef name =>
    store.integers name = none →
      ∀ bits, store.booleans name = some bits → store.boolScalars name = false → FitsBits bits
  | .arrayIndex _ index => NarrowInt store index
  | .unaryOp op operand => NarrowInt store operand ∧ ∀ val, evalInt store operand = .ok val → op.Fits val
  | .binOp _ left right => NarrowInt store left ∧ ∀ a, evalInt store left = .ok a → NarrowInt store right
  | .funcCall .abs arg => NarrowInt store arg ∧ ∀ val, evalInt store arg = .ok val → val ≠ -2 ^ 31
  | .funcCall .int arg => NarrowBits store arg ∧ ∀ ref, evalBits store arg = .ok ref → FitsBits (store.bits ref)
  | .booleanLiteral data bitCount => FitsBits (literalBits data bitCount)
  | .funcCall .bool _ | .funcCall .chr _ | .arraySubrange .. | .arrayWhole _ => True
termination_by e => (sizeOf e, 0)

def NarrowBits (store : Store) : Expr → Prop
  | .booleanLiteral _ _ | .varRef _ | .arrayWhole _ => True
  | .arraySubrange _ high low => NarrowInt store high ∧ ∀ val, evalInt store high = .ok val → NarrowInt store low
  | .funcCall .bool arg => NarrowInt store arg
  | e => NarrowInt store e
termination_by e => (sizeOf e, 1)

end

/-! ### Operators -/

theorem inRange_truth (holds : Bool) : InRange (truth holds) := by cases holds <;> decide

theorem inRange_evalUnary {op : UnaryOp} {val : Int} (inside : InRange val) :
    InRange (evalUnary op val) ↔ op.Fits val := by
  rw [InRange] at inside
  cases op with
  | neg =>
    rw [evalUnary, InRange, UnaryOp.Fits]
    omega
  | invert =>
    rw [evalUnary, InRange, UnaryOp.Fits]
    omega
  | not => exact ⟨fun _ => trivial, fun _ => inRange_truth _⟩

theorem inRange_ofNat (n : Nat) : InRange (Int.ofNat n) ↔ n < 2 ^ 31 := by
  rw [InRange, Int.ofNat_eq_natCast]
  omega

theorem inRange_negSucc (n : Nat) : InRange (Int.negSucc n) ↔ n < 2 ^ 31 := by
  rw [InRange, Int.negSucc_eq]
  omega

theorem inRange_bitwise {a b : Int} (left : InRange a) (right : InRange b) :
    InRange (Int.land a b) ∧ InRange (Int.lor a b) ∧ InRange (Int.xor a b) := by
  have ldiff {m n : Nat} (first : m < 2 ^ 31) (second : n < 2 ^ 31) : Nat.ldiff m n < 2 ^ 31 :=
    Nat.bitwise_lt_two_pow first second
  cases a with
  | ofNat m =>
    rw [inRange_ofNat] at left
    cases b with
    | ofNat n =>
      rw [inRange_ofNat] at right
      exact ⟨(inRange_ofNat _).mpr (Nat.and_lt_two_pow m right), (inRange_ofNat _).mpr (Nat.or_lt_two_pow left right),
        (inRange_ofNat _).mpr (Nat.xor_lt_two_pow left right)⟩
    | negSucc n =>
      rw [inRange_negSucc] at right
      exact ⟨(inRange_ofNat _).mpr (ldiff left right), (inRange_negSucc _).mpr (ldiff right left),
        (inRange_negSucc _).mpr (Nat.xor_lt_two_pow left right)⟩
  | negSucc m =>
    rw [inRange_negSucc] at left
    cases b with
    | ofNat n =>
      rw [inRange_ofNat] at right
      exact ⟨(inRange_ofNat _).mpr (ldiff right left), (inRange_negSucc _).mpr (ldiff left right),
        (inRange_negSucc _).mpr (Nat.xor_lt_two_pow left right)⟩
    | negSucc n =>
      rw [inRange_negSucc] at right
      exact ⟨(inRange_negSucc _).mpr (Nat.or_lt_two_pow left right),
        (inRange_negSucc _).mpr (Nat.and_lt_two_pow m right), (inRange_ofNat _).mpr (Nat.xor_lt_two_pow left right)⟩

theorem inRange_fmod {a b : Int} (right : InRange b) (nonzero : b ≠ 0) : InRange (a.fmod b) := by
  rw [InRange] at right ⊢
  rcases Int.lt_or_gt_of_ne nonzero with negative | positive
  · have low := Int.fmod_nonneg_of_pos (-a) (b := -b) (by omega)
    have high := Int.fmod_lt_of_pos (-a) (b := -b) (by omega)
    rw [Int.neg_fmod_neg] at low high
    omega
  · have low := Int.fmod_nonneg_of_pos a positive
    have high := Int.fmod_lt_of_pos a positive
    omega

theorem inRange_evalBinop {op : BinOp} {a b val : Int} (left : InRange a) (right : InRange b)
    (ran : evalBinop op a b = .ok val) : InRange val := by
  have wrapped {result : Except Error Int} (ran : result.map toSigned32 = .ok val) : InRange val := by
    cases result with
    | ok value =>
      cases ran
      exact toSigned32_inRange _
    | error error => cases ran
  cases op with
  | add => cases ran; exact toSigned32_inRange _
  | sub => cases ran; exact toSigned32_inRange _
  | mul => cases ran; exact toSigned32_inRange _
  | div =>
    rw [evalBinop] at ran
    split at ran
    · cases ran
    split at ran
    · cases ran
      exact toSigned32_inRange _
    · cases ran
  | mod =>
    rw [evalBinop] at ran
    split at ran
    · cases ran
    · next nonzero =>
      cases ran
      exact inRange_fmod right nonzero
  | shiftLeft => exact wrapped ran
  | shiftRight => exact wrapped ran
  | bitAnd => cases ran; exact (inRange_bitwise left right).1
  | bitOr => cases ran; exact (inRange_bitwise left right).2.1
  | bitXor => cases ran; exact (inRange_bitwise left right).2.2
  | eq | ne | lt | gt | le | ge | and | or => cases ran; exact inRange_truth _

theorem inRange_natAbs {val : Int} (inside : InRange val) : InRange (val.natAbs : Int) ↔ val ≠ -2 ^ 31 := by
  rw [InRange] at inside ⊢
  omega

/-! ### Expressions -/

theorem inRange_natCast (n : Nat) : InRange (n : Int) ↔ n < 2 ^ 31 := inRange_ofNat n

theorem inRange_getBit (bits : Bits) (idx : Int) : InRange (getBit bits idx) := by
  rw [getBit]
  split
  · exact inRange_truth _
  · decide

section

variable {store : Store}

theorem mem_returned {result : Except Error Int} {value : Int} : value ∈ returned result ↔ result = .ok value := by
  cases result <;> simp [returned, eq_comm]

theorem mem_after {α β : Type} {first : Except Error α} {rest : List β} {b : β} :
    b ∈ after first rest ↔ (∃ a, first = .ok a) ∧ b ∈ rest := by
  cases first <;> simp [after]

theorem Store.InRange.readVar_iff (inside : store.InRange) (name : Name) :
    NarrowInt store (.varRef name) ↔ ∀ value ∈ returned (store.readVar name), Stapl.InRange value := by
  rw [NarrowInt, Store.readVar]
  cases held : store.integers name with
  | some var =>
    refine ⟨fun _ => ?_, fun _ none => nomatch none⟩
    cases var with
    | scalar value => simpa [returned] using inside.scalar held
    | array values => simp [returned]
  | none =>
    cases bool : store.booleans name with
    | none => simp [returned]
    | some bits =>
      by_cases scalar : store.boolScalars name = true
      · simpa [returned, scalar] using inRange_getBit bits 0
      · simp [returned, scalar, FitsBits, inRange_natCast]

theorem Store.InRange.readIndex (inside : store.InRange) {name : Name} {idx value : Int}
    (ran : store.readIndex name idx = .ok value) : Stapl.InRange value := by
  rw [Store.readIndex] at ran
  split at ran
  · next values held =>
    cases ran
    split
    · decide
    · rw [List.getD_eq_getElem?_getD]
      cases found : values[idx.toNat]? with
      | none => decide
      | some value => exact inside.array held value (List.mem_of_getElem? found)
  · cases ran
  · split at ran
    · cases ran
      exact inRange_getBit _ _
    · cases ran

theorem mem_intValues {e : Expr} {value : Int} (ran : evalInt store e = .ok value) : value ∈ intValues store e := by
  have last := mem_returned.mpr ran
  unfold intValues
  split
  · exact List.mem_append_right _ last
  · exact List.mem_append_right _ last
  · exact List.mem_append_right _ last
  · exact List.mem_append_right _ last
  · exact List.mem_append_right _ last
  · exact last

theorem forall_append_returned {P : Int → Prop} {parts : List Int} {result : Except Error Int} :
    (∀ value ∈ parts ++ returned result, P value) ↔
      (∀ value ∈ parts, P value) ∧ ∀ value, result = .ok value → P value := by
  simp only [List.mem_append, mem_returned, or_imp, forall_and]

theorem forall_after {α β : Type} {P : β → Prop} {first : Except Error α} {rest : List β} :
    (∀ b ∈ after first rest, P b) ↔ ∀ a, first = .ok a → ∀ b ∈ rest, P b := by
  simp only [mem_after]
  exact ⟨fun all a ran b member => all b ⟨⟨a, ran⟩, member⟩, fun all b ⟨⟨a, ran⟩, member⟩ => all a ran b member⟩

theorem forall_map_ok {α : Type} {P : Int → Prop} {Q : α → Prop} {first : Except Error α} {f : α → Int}
    (fits : ∀ a, first = .ok a → (Q a ↔ P (f a))) :
    (∀ a, first = .ok a → Q a) ↔ ∀ value, first.map f = .ok value → P value := by
  refine ⟨fun all value ran => ?_, fun all a ran => (fits a ran).mpr (all (f a) (by rw [ran]; rfl))⟩
  obtain ⟨a, first, rfl⟩ := Exceptional.except_map_ok ran
  exact (fits a first).mp (all a first)

theorem bitValues_iff_of_int {e : Expr} (plain : NarrowBits store e ↔ NarrowInt store e)
    (same : bitValues store e = intValues store e)
    (int : NarrowInt store e ↔ ∀ value ∈ intValues store e, InRange value) :
    NarrowBits store e ↔ ∀ value ∈ bitValues store e, InRange value := by
  rw [plain, same, int]

theorem Store.InRange.narrow_iff (inside : store.InRange) (e : Expr) :
    (NarrowInt store e ↔ ∀ value ∈ intValues store e, Stapl.InRange value) ∧
      (NarrowBits store e ↔ ∀ value ∈ bitValues store e, Stapl.InRange value) := by
  induction e with
  | intLiteral value =>
    have int : NarrowInt store (.intLiteral value) ↔ ∀ v ∈ intValues store (.intLiteral value), Stapl.InRange v := by
      simp [NarrowInt, intValues, returned, evalInt]
    exact ⟨int, bitValues_iff_of_int (by rw [NarrowBits] <;> simp) (by rw [bitValues] <;> simp) int⟩
  | varRef name =>
    refine ⟨?_, by simp [NarrowBits, bitValues]⟩
    rw [inside.readVar_iff, intValues, evalInt] <;> simp
  | arrayIndex name index ih =>
    have int : NarrowInt store (.arrayIndex name index) ↔
        ∀ v ∈ intValues store (.arrayIndex name index), Stapl.InRange v := by
      rw [NarrowInt, intValues, forall_append_returned, ih.1]
      refine ⟨fun narrow => ⟨narrow, fun value ran => ?_⟩, And.left⟩
      rw [evalInt] at ran
      obtain ⟨idx, -, ran⟩ := Exceptional.except_bind_ok ran
      exact inside.readIndex ran
    exact ⟨int, bitValues_iff_of_int (by rw [NarrowBits] <;> simp) (by rw [bitValues] <;> simp) int⟩
  | arraySubrange name high low ihHigh ihLow =>
    refine ⟨by simp [NarrowInt, intValues, returned, evalInt], ?_⟩
    rw [NarrowBits, bitValues, ihHigh.1, ihLow.1]
    rw [List.forall_mem_append, forall_after]
  | arrayWhole name =>
    exact ⟨by simp [NarrowInt, intValues, returned, evalInt], by simp [NarrowBits, bitValues]⟩
  | unaryOp op operand ih =>
    have int : NarrowInt store (.unaryOp op operand) ↔
        ∀ v ∈ intValues store (.unaryOp op operand), Stapl.InRange v := by
      rw [NarrowInt, intValues, forall_append_returned, ih.1]
      exact and_congr_right fun narrow => forall_map_ok fun val ran =>
        (inRange_evalUnary (narrow val (mem_intValues ran))).symm
    exact ⟨int, bitValues_iff_of_int (by rw [NarrowBits] <;> simp) (by rw [bitValues] <;> simp) int⟩
  | binOp op left right ihLeft ihRight =>
    have int : NarrowInt store (.binOp op left right) ↔
        ∀ v ∈ intValues store (.binOp op left right), Stapl.InRange v := by
      rw [NarrowInt, intValues, forall_append_returned, List.forall_mem_append, forall_after, ihLeft.1, ihRight.1]
      refine ⟨fun narrow => ⟨narrow, fun value ran => ?_⟩, And.left⟩
      obtain ⟨a, b, first, second, ran⟩ := evalInt_binOp ran
      exact inRange_evalBinop (narrow.1 a (mem_intValues first)) (narrow.2 a first b (mem_intValues second)) ran
    exact ⟨int, bitValues_iff_of_int (by rw [NarrowBits] <;> simp) (by rw [bitValues] <;> simp) int⟩
  | funcCall func arg ih =>
    cases func with
    | abs =>
      have int : NarrowInt store (.funcCall .abs arg) ↔
          ∀ v ∈ intValues store (.funcCall .abs arg), Stapl.InRange v := by
        rw [NarrowInt, intValues, forall_append_returned, ih.1]
        exact and_congr_right fun narrow => forall_map_ok fun val ran =>
          (inRange_natAbs (narrow val (mem_intValues ran))).symm
      exact ⟨int, bitValues_iff_of_int (by rw [NarrowBits] <;> simp) (by rw [bitValues] <;> simp) int⟩
    | int =>
      have int : NarrowInt store (.funcCall .int arg) ↔
          ∀ v ∈ intValues store (.funcCall .int arg), Stapl.InRange v := by
        rw [NarrowInt, intValues, forall_append_returned, ih.2, evalInt_int]
        exact and_congr_right fun _ => forall_map_ok fun ref _ => (inRange_natCast _).symm
      exact ⟨int, bitValues_iff_of_int (by rw [NarrowBits] <;> simp) (by rw [bitValues] <;> simp) int⟩
    | bool =>
      refine ⟨by simp [NarrowInt, intValues, returned, evalInt], ?_⟩
      rw [NarrowBits, bitValues, ih.1]
    | chr =>
      have int : NarrowInt store (.funcCall .chr arg) ↔
          ∀ v ∈ intValues store (.funcCall .chr arg), Stapl.InRange v := by
        simp [NarrowInt, intValues, returned, evalInt]
      exact ⟨int, bitValues_iff_of_int (by rw [NarrowBits] <;> simp) (by rw [bitValues] <;> simp) int⟩
  | booleanLiteral data bitCount =>
    refine ⟨?_, by simp [NarrowBits, bitValues]⟩
    simp [NarrowInt, intValues, returned, evalInt, FitsBits, inRange_natCast]

end

end Acrobe.Stapl
