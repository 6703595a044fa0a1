import Mathlib
import Acrobe.Lib.PythonPrinting
import Acrobe.Stapl.EmitExpr

/-!
# The text of emitted expressions

The expression emitter writes an expression with the parentheses that its table of precedences asks for. Integers
of a variable with a configured type are written with the names of that type.
-/

namespace Acrobe.Stapl
open LittleEndian Acrobe.Storage Python

/-! ### Operators -/

def UnaryOp.py : UnaryOp → Python.UnaryOp
  | .not => .not
  | .neg => .neg
  | .invert => .invert

def BinOp.py : BinOp → Python.BinaryOp
  | .or => .or
  | .and => .and
  | .eq => .eq
  | .ne => .ne
  | .lt => .lt
  | .gt => .gt
  | .le => .le
  | .ge => .ge
  | .bitOr => .bitOr
  | .bitXor => .bitXor
  | .bitAnd => .bitAnd
  | .shiftLeft => .shiftLeft
  | .shiftRight => .shiftRight
  | .add => .add
  | .sub => .sub
  | .mul => .mul
  | .div => .floorDiv
  | .mod => .mod

def UnaryOp.pyText : UnaryOp → List Char
  | .not => ['n', 'o', 't', ' ']
  | .neg => ['-']
  | .invert => ['~']

/-! ### Types of variables -/

/-- A dictionary of values to names, and the variables that are tagged with it. -/
structure ValueNames where
  className : Name
  values : List (Int × Name)
  vnames : List Name
  distinct : (values.map Prod.fst).Nodup

abbrev EnumDef := ValueNames

abbrev BitfieldDef := ValueNames

inductive TypeHint where
  | enum (edef : EnumDef)
  | bitfield (bdef : BitfieldDef)

structure ExprEmitter where
  constants : Name → Option Int
  isBooleanArray : Name → Bool
  localVars : List Name
  enums : List EnumDef
  bitfields : List BitfieldDef

/-! ### Integers -/

/-- `str(value)` -/
def intText (value : Int) : List Char :=
  if value < 0 then '-' :: decimal value.natAbs else decimal value.natAbs

def fmtInt (value : Int) : List Char :=
  if 255 < value.natAbs then
    if 0 ≤ value then '0' :: 'x' :: upperHex value.natAbs else '-' :: '0' :: 'x' :: upperHex value.natAbs
  else intText value

def memberText (className member : Name) : List Char := className.toList ++ '.' :: member.toList

/-- The masks from the highest to the lowest. -/
def BitfieldDef.masks (bdef : BitfieldDef) : List (Int × Name) :=
  bdef.values.insertionSort fun a b => b.1 ≤ a.1

/-- The flags that are taken out of the remaining bits, and what remains then. -/
def takeFlags : List (Int × Name) → Int → List Name × Int
  | [], remaining => ([], remaining)
  | (mask, flag) :: masks, remaining =>
    if Int.land remaining mask = mask then
      let out := takeFlags masks (Int.land remaining (-mask - 1))
      (flag :: out.1, out.2)
    else takeFlags masks remaining

def remainingText (remaining : Int) : List Char :=
  if 255 < remaining then '0' :: 'x' :: upperHex remaining.natAbs else intText remaining

/-- `_fmt_flags_positive`. -/
def fmtFlagsPositive (value : Int) (bdef : BitfieldDef) : Option (List Char) :=
  let (flags, remaining) := takeFlags bdef.masks value
  let parts := flags.map (memberText bdef.className) ++ if remaining ≠ 0 then [remainingText remaining] else []
  if flags = [] then none
  else
    let result := List.intercalate [' ', '|', ' '] parts
    some (if 1 < parts.length then '(' :: (result ++ [')']) else result)

/-- `_fmt_flags`. -/
def fmtFlags (value : Int) (bdef : BitfieldDef) : List Char :=
  if value = 0 then ['0']
  else if value < 0 then
    match fmtFlagsPositive (-value - 1) bdef with
    | some inv => if ' ' ∈ inv then '~' :: '(' :: (inv ++ [')']) else '~' :: inv
    | none => fmtInt value
  else (fmtFlagsPositive value bdef).getD (fmtInt value)

/-- `_fmt_typed_int`. -/
def fmtTypedInt (value : Int) : Option TypeHint → List Char
  | some (.enum edef) =>
    match edef.values.lookup value with
    | some member => memberText edef.className member
    | none => fmtInt value
  | some (.bitfield bdef) => fmtFlags value bdef
  | none => fmtInt value

/-! ### Expressions -/

def callText (func : List Char) (arg : List Char) : List Char := func ++ '(' :: (arg ++ [')'])

def intName : List Char := ['i', 'n', 't']

def absName : List Char := ['a', 'b', 's']

def chrName : List Char := ['c', 'h', 'r']

def boolName : List Char := ['B', 'O', 'O', 'L']

def bitStringName : List Char := ['B', 'i', 't', 'S', 't', 'r', 'i', 'n', 'g']

def reversedName : List Char := ['r', 'e', 'v', 'e', 'r', 's', 'e', 'd']

def selfName : List Char := ['s', 'e', 'l', 'f']

/-- `BitString(data, length)`. -/
def bitStringText (data : List Char) (length : Nat) : List Char :=
  bitStringName ++ '(' :: (data ++ ',' :: ' ' :: (decimal length ++ [')']))

/-- Parentheses around an expression looser than the operator around it. -/
def parens (inner outer : Nat) (s : List Char) : List Char := if inner < outer then '(' :: (s ++ [')']) else s

/-- `expr + 1`. -/
def plusOneText (s : List Char) : List Char := s ++ [' ', '+', ' ', '1']

/-- `subrange_rvalue`. -/
def subrangeText (arr : List Char) (descending : Bool) (high low highEnd lowEnd : List Char) : List Char :=
  if descending then arr ++ '[' :: (high ++ ':' :: (lowEnd ++ ']' :: '.' :: (reversedName ++ ['(', ')'])))
  else arr ++ '[' :: (low ++ ':' :: (highEnd ++ [']']))

namespace ExprEmitter
variable (em : ExprEmitter)

/-- `_ref`. -/
def ref (name : Name) : List Char :=
  if name ∈ em.localVars then name.toList else selfName ++ '.' :: name.toList

/-- `_type_for_var`: the last definition that tags the variable, and an enum before a bitfield. -/
def typeForVar (name : Name) : Option TypeHint :=
  match em.enums.reverse.find? (name ∈ ·.vnames) with
  | some edef => some (.enum edef)
  | none => (em.bitfields.reverse.find? (name ∈ ·.vnames)).map .bitfield

/-- `_infer_type`. -/
def inferType : Expr → Option TypeHint
  | .varRef name | .arrayIndex name _ => em.typeForVar name
  | _ => none

def childHint (op : BinOp) (left right : Expr) (hint : Option TypeHint) : Option TypeHint :=
  match op with
  | .and | .or => none
  | .eq | .ne | .lt | .gt | .le | .ge | .bitAnd | .bitOr | .bitXor => em.inferType left <|> em.inferType right
  | _ => hint

mutual
/-- `_emit_int` of a simplified expression. -/
def emitInt : Expr → Nat → Option TypeHint → List Char
  | .intLiteral value, _, hint => fmtTypedInt value hint
  | .varRef name, _, _ => em.ref name
  | .arrayIndex name index, _, _ => em.ref name ++ '[' :: (emitInt index 0 none ++ [']'])
  | .arraySubrange name high low, _, _ =>
    callText intName (subrangeText (em.ref name) (isDescending high low) (emitInt high 0 none) (emitInt low 0 none)
      (exclusiveEnd high (emitInt high 0 none)) (exclusiveEnd low (emitInt low 0 none)))
  | .arrayWhole name, _, _ => if em.isBooleanArray name then callText intName (em.ref name) else em.ref name
  | .unaryOp op operand, parentPrec, _ =>
    parens op.precedence parentPrec (op.pyText ++ emitInt operand op.precedence none)
  | .binOp op left right, parentPrec, hint =>
    parens op.precedence parentPrec
      (emitInt left op.precedence (em.childHint op left right hint) ++ ' ' :: (op.py.text ++ ' ' ::
        emitInt right (op.precedence + 1) (em.childHint op left right hint)))
  | .funcCall .abs arg, _, _ => callText absName (emitInt arg 0 none)
  | .funcCall .int arg, _, _ => intOfBits arg (emitInt arg 0 none)
  | .funcCall .chr arg, _, _ => callText chrName (emitInt arg 0 none)
  | .funcCall .bool arg, _, _ => callText boolName (emitInt arg 0 none)
  | .booleanLiteral data _, _, _ => fmtInt (combine data)

/-- `_exclusive_end` of a bound, next to its own text. -/
def exclusiveEnd : Expr → List Char → List Char
  | .binOp .sub left (.intLiteral 1), _ => emitInt left 0 none
  | .intLiteral value, _ => fmtInt (value + 1)
  | _, text => plusOneText text

/-- `_int_of_bits` of an operand, next to its own text. -/
def intOfBits : Expr → List Char → List Char
  | .arraySubrange name high low, _ =>
    callText intName (subrangeText (em.ref name) (isDescending high low) (emitInt high 0 none) (emitInt low 0 none)
      (exclusiveEnd high (emitInt high 0 none)) (exclusiveEnd low (emitInt low 0 none)))
  | .arrayWhole name, _ => callText intName (em.ref name)
  | .varRef name, _ => if em.isBooleanArray name then callText intName (em.ref name) else em.ref name
  | .booleanLiteral data bitCount, _ => callText intName (bitStringText (reprBytes data) bitCount)
  | .funcCall .bool arg, _ => callText intName (bitStringText (emitInt arg 0 none) 32)
  | _, text => callText intName (bitStringText text 32)
end

/-- `int_expr`. -/
def intExpr (e : Expr) (hint : Option TypeHint) : List Char := em.emitInt (simplify em.constants e) 0 hint

end ExprEmitter

end Acrobe.Stapl
