import Mathlib
import Acrobe.Lib.DoubleDivision
import Acrobe.BitString.Object
import Acrobe.Stapl.Syntax

/-!
# Evaluating expressions

The interpreter keeps integers and Booleans in two dictionaries and evaluates an expression
either as an integer or as a bit string. A bit string read from a variable is a view of it.
-/

namespace Acrobe.Stapl
open LittleEndian Acrobe.Storage

inductive Error where
  | staplRuntimeError (message : String)
  | assertionError (message : String)
  | valueError
  | indexError
  | keyError
  | typeError
  | overflowError
  | zeroDivisionError
  | nameError
  deriving DecidableEq

/-! ### Integers -/

/-- `_to_signed32`: the low 32 bits as a signed integer. -/
def toSigned32 (val : Int) : Int :=
  if val % 2 ^ 32 < 2 ^ 31 then val % 2 ^ 32 else val % 2 ^ 32 - 2 ^ 32

def InRange (value : Int) : Prop := -2 ^ 31 ≤ value ∧ value < 2 ^ 31

instance (value : Int) : Decidable (InRange value) := inferInstanceAs (Decidable (_ ∧ _))

theorem toSigned32_inRange (value : Int) : InRange (toSigned32 value) := by
  unfold toSigned32 InRange
  split <;> omega

theorem toSigned32_eq_iff (value : Int) : toSigned32 value = value ↔ InRange value := by
  unfold toSigned32 InRange
  split <;> omega

def shiftLeft (a b : Int) : Except Error Int := if b < 0 then .error .valueError else .ok (a * 2 ^ b.toNat)

def shiftRight (a b : Int) : Except Error Int := if b < 0 then .error .valueError else .ok (a / 2 ^ b.toNat)

def truth (holds : Bool) : Int := if holds then 1 else 0

/-- The comparison an operator stands for. -/
def BinOp.compare : BinOp → Int → Int → Bool
  | .eq, a, b => a == b
  | .ne, a, b => a != b
  | .lt, a, b => a < b
  | .gt, a, b => b < a
  | .le, a, b => a ≤ b
  | .ge, a, b => b ≤ a
  | _, _, _ => false

def BinOp.isCompare : BinOp → Bool
  | .eq | .ne | .lt | .gt | .le | .ge => true
  | _ => false

def evalUnary : UnaryOp → Int → Int
  | .neg, val => -val
  | .invert, val => (-val - 1) % 2 ^ 32
  | .not, val => truth (val == 0)

/-- `_eval_binop` on the operands' values. -/
def evalBinop (op : BinOp) (a b : Int) : Except Error Int :=
  match op with
  | .add => .ok (toSigned32 (a + b))
  | .sub => .ok (toSigned32 (a - b))
  | .mul => .ok (toSigned32 (a * b))
  | .div =>
    if b = 0 then .error (.staplRuntimeError "Division by zero")
    else match DoubleDivision.truncated a b with
      | some quotient => .ok (toSigned32 quotient)
      | none => .error .overflowError
  | .mod => if b = 0 then .error (.staplRuntimeError "Modulo by zero") else .ok (a.fmod b)
  | .shiftLeft => (shiftLeft a b).map toSigned32
  | .shiftRight => (shiftRight a b).map toSigned32
  | .bitAnd => .ok (Int.land a b)
  | .bitOr => .ok (Int.lor a b)
  | .bitXor => .ok (Int.xor a b)
  | .and => .ok (truth (a != 0 && b != 0))
  | .or => .ok (truth (a != 0 || b != 0))
  | op => .ok (truth (op.compare a b))

/-! ### The variables -/

inductive IntVar where
  | scalar (value : Int)
  | array (values : List Int)
  deriving DecidableEq

structure Store where
  integers : Name → Option IntVar
  booleans : Name → Option Bits
  boolScalars : Name → Bool

/-- A bit string in hand: bits of its own, or a view of a variable's bits. -/
inductive BitsRef where
  | fresh (bits : Bits)
  | view (name : Name) (start stop : Nat)

/-- `_get_bit`: the bit at an index, 0 when out of bounds. -/
def getBit (bits : Bits) (idx : Int) : Int :=
  if 0 ≤ idx then truth (bits.getD idx.toNat false) else 0

/-- `bits[start:stop]`, the bounds clamped to the length. -/
def sliceBounds (bits : Bits) (start stop : Int) : Nat × Nat :=
  (Heap.clamp (some start) 0 bits.length, Heap.clamp (some stop) 0 bits.length)

def sliceBits (bits : Bits) (start stop : Int) : Bits :=
  let bounds := sliceBounds bits start stop
  BitString.slice bits bounds.1 bounds.2

/-- `_get_subrange`: a view for an ascending range, the reversed bits for a descending one. -/
def getSubrange (name : Name) (bits : Bits) (high low : Int) : BitsRef :=
  if low ≤ high then
    let bounds := sliceBounds bits low (high + 1)
    if bounds.2 ≤ bounds.1 then .fresh [] else .view name bounds.1 bounds.2
  else .fresh (sliceBits bits high (low + 1)).reverse

/-- `BitString(val, 32)`. -/
def wordBits (val : Int) : Bits := Bits.ofInt val 32

namespace Store

def undefined (name : Name) : Error := .staplRuntimeError ("Undefined variable: " ++ name)

def readVar (store : Store) (name : Name) : Except Error Int :=
  match store.integers name with
  | some (.scalar val) => .ok val
  | some (.array _) => .error (.assertionError (name ++ " is an array, not scalar"))
  | none =>
    match store.booleans name with
    | some bits => .ok (if store.boolScalars name then getBit bits 0 else BitString.toNat bits)
    | none => .error (undefined name)

def readIndex (store : Store) (name : Name) (idx : Int) : Except Error Int :=
  match store.integers name with
  | some (.array values) => .ok (if idx < 0 then 0 else values.getD idx.toNat 0)
  | some (.scalar _) => .error (.assertionError "")
  | none =>
    match store.booleans name with
    | some bits => .ok (getBit bits idx)
    | none => .error (undefined name)

def varBits (store : Store) (name : Name) : Except Error BitsRef :=
  match store.booleans name with
  | some bits => .ok (.view name 0 bits.length)
  | none =>
    match store.integers name with
    | some (.scalar val) => .ok (.fresh (wordBits val))
    | some (.array _) => .error (.assertionError "")
    | none => .error (undefined name)

def subrangeBits (store : Store) (name : Name) (high low : Int) : Except Error BitsRef :=
  match store.booleans name with
  | some bits => .ok (getSubrange name bits high low)
  | none => .error (.staplRuntimeError ("Subrange on non-boolean: " ++ name))

def wholeBits (store : Store) (name : Name) : Except Error BitsRef :=
  match store.booleans name with
  | some bits => .ok (.view name 0 bits.length)
  | none => .error (.staplRuntimeError ("Whole array ref on non-boolean: " ++ name))

/-- The bits a reference stands for now. -/
def bits (store : Store) : BitsRef → Bits
  | .fresh bits => bits
  | .view name start stop => BitString.slice ((store.booleans name).getD []) start stop

def intOf (store : Store) (ref : BitsRef) : Int := BitString.toNat (store.bits ref)

end Store

/-! ### Expressions -/

def literalBits (data : Bytes) (bitCount : Nat) : Bits := Bits.ofBytes data (some bitCount)

def notInteger (type : String) : Error := .staplRuntimeError ("Cannot evaluate as integer: " ++ type)

/-- `_eval_int`. The cases of `INT` are those of `_eval_bits`, see `evalInt_int`. -/
def evalInt (store : Store) : Expr → Except Error Int
  | .intLiteral value => .ok value
  | .varRef name => store.readVar name
  | .arrayIndex name index => do
    let idx ← evalInt store index
    store.readIndex name idx
  | .unaryOp op operand => do
    let val ← evalInt store operand
    return evalUnary op val
  | .binOp op left right => do
    let a ← evalInt store left
    let b ← evalInt store right
    evalBinop op a b
  | .funcCall .abs arg => do
    let val ← evalInt store arg
    return (val.natAbs : Int)
  | .funcCall .int (.booleanLiteral data bitCount) => .ok (BitString.toNat (literalBits data bitCount))
  | .funcCall .int (.varRef name) => do
    let ref ← store.varBits name
    return store.intOf ref
  | .funcCall .int (.arraySubrange name high low) => do
    let high ← evalInt store high
    let low ← evalInt store low
    let ref ← store.subrangeBits name high low
    return store.intOf ref
  | .funcCall .int (.arrayWhole name) => do
    let ref ← store.wholeBits name
    return store.intOf ref
  | .funcCall .int (.funcCall .bool arg) => do
    let val ← evalInt store arg
    return (BitString.toNat (wordBits val) : Int)
  | .funcCall .int arg => do
    let val ← evalInt store arg
    return (BitString.toNat (wordBits val) : Int)
  | .booleanLiteral data bitCount => .ok (BitString.toNat (literalBits data bitCount))
  | .funcCall .bool _ | .funcCall .chr _ => .error (notInteger "FuncCall")
  | .arraySubrange .. => .error (notInteger "ArraySubrange")
  | .arrayWhole _ => .error (notInteger "ArrayWhole")

/-- `_eval_bits`. -/
def evalBits (store : Store) : Expr → Except Error BitsRef
  | .booleanLiteral data bitCount => .ok (.fresh (literalBits data bitCount))
  | .varRef name => store.varBits name
  | .arraySubrange name high low => do
    let high ← evalInt store high
    let low ← evalInt store low
    store.subrangeBits name high low
  | .arrayWhole name => store.wholeBits name
  | .funcCall .bool arg => do
    let val ← evalInt store arg
    return .fresh (wordBits val)
  | expr => do
    let val ← evalInt store expr
    return .fresh (wordBits val)

theorem evalInt_binOp {store : Store} {op : BinOp} {left right : Expr} {value : Int}
    (evaluated : evalInt store (.binOp op left right) = .ok value) :
    ∃ a b, evalInt store left = .ok a ∧ evalInt store right = .ok b ∧ evalBinop op a b = .ok value := by
  rw [evalInt] at evaluated
  cases first : evalInt store left with
  | error error => rw [first] at evaluated; cases evaluated
  | ok a =>
    cases second : evalInt store right with
    | error error => rw [first, second] at evaluated; cases evaluated
    | ok b =>
      rw [first, second] at evaluated
      exact ⟨a, b, rfl, rfl, evaluated⟩

theorem evalInt_int (store : Store) (arg : Expr) :
    evalInt store (.funcCall .int arg) = (evalBits store arg).map store.intOf := by
  have returned {α β : Type} (value : Except Error α) (f : α → β) :
      (do let result ← value; return f result) = value.map f := by cases value <;> rfl
  have word (value : Except Error Int) :
      (do let val ← value; return (BitString.toNat (wordBits val) : Int)) =
        (do let val ← value; return BitsRef.fresh (wordBits val)).map store.intOf := by
    cases value <;> rfl
  cases arg with
  | booleanLiteral data bitCount => rfl
  | varRef name => exact returned _ _
  | arrayWhole name => exact returned _ _
  | arraySubrange name high low =>
    rw [evalInt, evalBits]
    cases evalInt store high with
    | error error => rfl
    | ok high =>
      cases evalInt store low with
      | error error => rfl
      | ok low => exact returned _ _
  | funcCall name arg => cases name <;> exact word _
  | intLiteral value => exact word _
  | arrayIndex name index => exact word _
  | unaryOp op operand => exact word _
  | binOp op left right => exact word _

end Acrobe.Stapl
