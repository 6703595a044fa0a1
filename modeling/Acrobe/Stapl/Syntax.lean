import Acrobe.Prelude
import Acrobe.Lib.LittleEndian

/-!
# The STAPL language

Expressions, statements and programs as the parser builds them. Dictionaries are association
lists in insertion order, looked up from the front.
-/

namespace Acrobe.Stapl
open LittleEndian

abbrev Name := String

/-! ### Expressions -/

inductive UnaryOp where
  | neg
  | invert
  | not
  deriving DecidableEq

inductive BinOp where
  | add | sub | mul | div | mod
  | shiftLeft | shiftRight
  | bitAnd | bitOr | bitXor
  | eq | ne | lt | gt | le | ge
  | and | or
  deriving DecidableEq

inductive Func where
  | abs
  | int
  | bool
  | chr
  deriving DecidableEq

inductive Expr where
  | intLiteral (value : Int)
  | varRef (name : Name)
  | arrayIndex (name : Name) (index : Expr)
  | arraySubrange (name : Name) (high low : Expr)
  | arrayWhole (name : Name)
  | unaryOp (op : UnaryOp) (operand : Expr)
  | binOp (op : BinOp) (left right : Expr)
  | funcCall (name : Func) (arg : Expr)
  | booleanLiteral (data : Bytes) (bitCount : Nat)
  deriving DecidableEq

/-! ### Statements -/

inductive JtagState where
  | reset | idle
  | drSelect | drCapture | drShift | drExit1 | drPause | drExit2 | drUpdate
  | irSelect | irCapture | irShift | irExit1 | irPause | irExit2 | irUpdate
  deriving DecidableEq

structure IntegerDecl where
  name : Name
  size : Option Expr
  init : Option (List Expr)

structure BooleanDecl where
  name : Name
  size : Option Expr
  init : Option Expr

/-- The operands of `DRSCAN` and `IRSCAN`. -/
structure ScanStmt where
  length : Expr
  tdi : Expr
  capture : Option Expr
  compare : Option Expr
  mask : Option Expr
  result : Option Expr

structure VectorStmt where
  dirVec : Expr
  inVec : Expr
  capture : Option Expr
  compare : Option Expr
  mask : Option Expr
  result : Option Expr

inductive PrintPart where
  | text (value : String)
  | expr (value : Expr)

inductive Stmt where
  | integerDecl (decl : IntegerDecl)
  | booleanDecl (decl : BooleanDecl)
  | assignStmt (target : Name) (index high low : Option Expr) (value : Expr)
  | gotoStmt (label : Name)
  | callStmt (procedure : Name)
  | returnStmt
  | exitStmt (code : Expr)
  | ifStmt (condition : Expr) (thenStmt : Stmt)
  | forStmt (var : Name) (start stop : Expr) (step : Option Expr)
  | nextStmt (var : Name)
  | pushStmt (value : Expr)
  | popStmt (target : Name) (index : Option Expr)
  | drScanStmt (scan : ScanStmt)
  | irScanStmt (scan : ScanStmt)
  | drStopStmt (state : JtagState)
  | irStopStmt (state : JtagState)
  | stateStmt (path : List JtagState)
  | waitStmt (waitState : Option JtagState) (cycles usecs : Option Expr) (endState : Option JtagState)
  | trstStmt (cycles usecs : Option Expr)
  | frequencyStmt (value : Option Expr)
  | preDrStmt (count : Expr) (data : Option Expr)
  | postDrStmt (count : Expr) (data : Option Expr)
  | preIrStmt (count : Expr) (data : Option Expr)
  | postIrStmt (count : Expr) (data : Option Expr)
  | printStmt (parts : List PrintPart)
  | exportStmt (key : String) (value : Expr)
  | vmapStmt (signals : List String)
  | vectorStmt (vector : VectorStmt)

/-! ### Programs -/

structure ProcedureDef where
  name : Name
  uses : List Name
  statements : List Stmt
  labels : List (Name × Nat)

/-- `INTEGER` and `BOOLEAN` declarations only. -/
inductive Decl where
  | integer (decl : IntegerDecl)
  | boolean (decl : BooleanDecl)

def Decl.name : Decl → Name
  | .integer decl => decl.name
  | .boolean decl => decl.name

structure DataBlock where
  name : Name
  statements : List Decl

structure Program where
  procedures : List (Name × ProcedureDef)
  dataBlocks : List (Name × DataBlock)

end Acrobe.Stapl
