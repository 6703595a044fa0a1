import Mathlib
import Acrobe.Stapl.Aca

/-!
# The expression parser

`_ExprParser` climbs the precedences over the text that is left. STAPL text is ASCII, and the character classes are those
of ASCII. `isdigit`, `isalpha`, `isspace` and `upper` of Python know further characters, so of a text with such a
character the model says nothing, here and in the other parsers of statements.
-/

namespace Acrobe.Stapl
open LittleEndian Acrobe.Storage

/-! ### Characters -/

abbrev Text := List Char

/-- Whitespace to `str.strip` and `str.split`. -/
def isSpace (c : Char) : Bool :=
  c == ' ' || (9 ≤ c.toNat && c.toNat ≤ 13) || (28 ≤ c.toNat && c.toNat ≤ 31)

def isBlank (c : Char) : Bool := c == ' ' || c == '\t'

def isIdent (c : Char) : Bool := c.isAlphanum || c == '_'

/-- `str.strip` of ASCII text. -/
def strip (text : Text) : Text := (text.dropWhile isSpace).rdropWhile isSpace

/-- `str.upper` of ASCII text. -/
def upper (text : Text) : Text := text.map Char.toUpper

/-- `''.join(text.split())`. -/
def squeeze (text : Text) : Text := text.filter fun c => !isSpace c

inductive ParseError where
  | valueError (message : String)
  | assertionError (message : String)
  | indexError
  | staplSyntaxError (message : String)
  /-- A compressed literal that does not decode. -/
  | literal (error : Error)
  | recursionError
  deriving DecidableEq

/-! ### Literals -/

def parseBinaryLiteral (text : Text) : Expr :=
  let clean := squeeze text
  .booleanLiteral (Bits.pack (clean.reverse.map (· == '1'))) clean.length

def hexDigit (c : Char) : Nat :=
  if c.isDigit then c.toNat - 48 else if c.isUpper then c.toNat - 55 else c.toNat - 87

def parseHexLiteral (text : Text) : Expr :=
  let clean := squeeze text
  .booleanLiteral (Bits.pack (clean.reverse.flatMap fun c => BitString.ofNat (hexDigit c) 4)) (clean.length * 4)

/-- The source leaves the decompression to the first use of the literal. -/
def parseAcaLiteral (text : Text) : Except ParseError Expr := do
  let clean := squeeze text
  let header ← (Aca.textToBits (clean.take 8)).mapError .literal
  let data ← (Aca.decompress clean).mapError .literal
  return .booleanLiteral data (combine (header.take 4) * 8)

def isBinary (c : Char) : Bool := c == '0' || c == '1' || isBlank c

def isHex (c : Char) : Bool :=
  c.isDigit || ('a' ≤ c && c ≤ 'f') || ('A' ≤ c && c ≤ 'F') || isBlank c

def isAca (c : Char) : Bool := c.isAlphanum || c == '_' || c == '@'

/-- `_parse_boolean_literal`, the mark of the literal already read. -/
def parseBooleanLiteral (mark : Char) (text : Text) : Except ParseError (Expr × Text) :=
  if mark = '#' then .ok (parseBinaryLiteral (text.takeWhile isBinary), text.dropWhile isBinary)
  else if mark = '$' then .ok (parseHexLiteral (text.takeWhile isHex), text.dropWhile isHex)
  else (parseAcaLiteral (text.takeWhile isAca)).map fun literal => (literal, text.dropWhile isAca)

def parseNumber (text : Text) : Expr × Text :=
  (.intLiteral (Nat.ofDigitChars 10 (text.takeWhile Char.isDigit) 0 : Nat), text.dropWhile Char.isDigit)

/-! ### Operators -/

def BinOp.text : BinOp → Text
  | .or => ['|', '|']
  | .and => ['&', '&']
  | .bitOr => ['|']
  | .bitXor => ['^']
  | .bitAnd => ['&']
  | .eq => ['=', '=']
  | .ne => ['!', '=']
  | .lt => ['<']
  | .le => ['<', '=']
  | .gt => ['>']
  | .ge => ['>', '=']
  | .shiftLeft => ['<', '<']
  | .shiftRight => ['>', '>']
  | .add => ['+']
  | .sub => ['-']
  | .mul => ['*']
  | .div => ['/']
  | .mod => ['%']

/-- `_PREC`. -/
def BinOp.prec : BinOp → Nat
  | .or => 1
  | .and => 2
  | .bitOr => 3
  | .bitXor => 4
  | .bitAnd => 5
  | .eq | .ne => 6
  | .lt | .le | .gt | .ge => 7
  | .shiftLeft | .shiftRight => 8
  | .add | .sub => 9
  | .mul | .div | .mod => 10

def UnaryOp.text : UnaryOp → Char
  | .neg => '-'
  | .invert => '~'
  | .not => '!'

def Func.text : Func → Text
  | .abs => ['A', 'B', 'S']
  | .int => ['I', 'N', 'T']
  | .bool => ['B', 'O', 'O', 'L']
  | .chr => ['C', 'H', 'R']

/-- Operators of two characters come first. -/
def operators : List BinOp :=
  [.eq, .ne, .le, .ge, .shiftLeft, .shiftRight, .and, .or,
    .add, .sub, .mul, .div, .mod, .lt, .gt, .bitAnd, .bitOr, .bitXor]

def peekOperator (text : Text) : Option BinOp := operators.find? fun op => op.text.isPrefixOf text

/-! ### Expressions -/

def skipWs (text : Text) : Text := text.dropWhile isBlank

def doubleQuote : Char := Char.ofNat 34

/-- `repr` of a text: single quotes unless the text has one and no double quote. -/
def reprText (text : Text) : String :=
  let single := Char.ofNat 39
  let backslash := Char.ofNat 92
  let quote := if single ∈ text ∧ doubleQuote ∉ text then doubleQuote else single
  let shown (c : Char) : Text :=
    let code := c.toNat
    if c = backslash ∨ c = quote then [backslash, c]
    else if code = 9 then [backslash, 't']
    else if code = 10 then [backslash, 'n']
    else if code = 13 then [backslash, 'r']
    else if code < 32 ∨ code = 127 then [backslash, 'x', Nat.digitChar (code / 16), Nat.digitChar (code % 16)]
    else [c]
  String.ofList (quote :: (text.flatMap shown ++ [quote]))

/-- `assert self._text[self._pos] == c, message`. -/
def require (c : Char) (message : String) : Text → Except ParseError Text
  | [] => .error .indexError
  | d :: rest => if d = c then .ok rest else .error (.assertionError message)

def calledFunc (nameUpper : Text) : Option Func :=
  [Func.abs, .int, .bool].find? fun func => func.text == nameUpper

/-- `ABS`, `INT` or `BOOL` before an opening parenthesis. -/
def callOpens (nameUpper rest : Text) : Option Func :=
  if rest.head? = some '(' then calledFunc nameUpper else none

mutual

def parseExprFrom : Nat → Nat → Text → Except ParseError (Expr × Text)
  | 0, _, _ => .error .recursionError
  | fuel + 1, minPrec, text => do
    let (left, rest) ← parseUnary fuel text
    parseOperators fuel minPrec left rest

/-- The loop of `_parse_expr`. -/
def parseOperators : Nat → Nat → Expr → Text → Except ParseError (Expr × Text)
  | 0, _, _, _ => .error .recursionError
  | fuel + 1, minPrec, left, text =>
    match peekOperator (skipWs text) with
    | none => .ok (left, skipWs text)
    | some op =>
      if op.prec < minPrec then .ok (left, skipWs text)
      else do
        let (right, rest) ← parseExprFrom fuel (op.prec + 1) ((skipWs text).drop op.text.length)
        parseOperators fuel minPrec (.binOp op left right) rest

def parseUnary : Nat → Text → Except ParseError (Expr × Text)
  | 0, _ => .error .recursionError
  | fuel + 1, text =>
    match skipWs text with
    | [] => .error (.valueError "Unexpected end of expression")
    | c :: rest =>
      if c = '~' then (parseUnary fuel rest).map fun (operand, rest) => (.unaryOp .invert operand, rest)
      else if c = '!' ∧ rest.head? ≠ some '=' then
        (parseUnary fuel rest).map fun (operand, rest) => (.unaryOp .not operand, rest)
      else if c = '-' then (parseUnary fuel rest).map fun (operand, rest) => (.unaryOp .neg operand, rest)
      else parsePrimary fuel (c :: rest)

def parsePrimary : Nat → Text → Except ParseError (Expr × Text)
  | 0, _ => .error .recursionError
  | fuel + 1, text =>
    match skipWs text with
    | [] => .error (.valueError "Unexpected end of expression")
    | c :: rest =>
      if c = '(' then do
        let (expr, rest) ← parseExprFrom fuel 0 rest
        match skipWs rest with
        | ')' :: rest => return (expr, rest)
        | _ => .error (.valueError "Missing closing parenthesis")
      else if c.isDigit then .ok (parseNumber (c :: rest))
      else if c = '#' ∨ c = '$' ∨ c = '@' then parseBooleanLiteral c rest
      else if c.isAlpha ∨ c = '_' then parseIdentifier fuel (c :: rest)
      else .error (.valueError ("Unexpected character in expression: " ++ reprText [c]))

def parseIdentifier : Nat → Text → Except ParseError (Expr × Text)
  | 0, _ => .error .recursionError
  | fuel + 1, text =>
    let name := text.takeWhile isIdent
    let nameUpper := upper name
    let rest := skipWs (text.dropWhile isIdent)
    match callOpens nameUpper rest with
    | some func => do
      let (arg, rest) ← parseExprFrom fuel 0 rest.tail
      let rest ← require ')' ("Missing ) after " ++ String.ofList nameUpper ++ "()") (skipWs rest)
      return (.funcCall func arg, rest)
    | none =>
      if nameUpper = Func.chr.text ∧ rest.head? = some '$' then do
        let rest ← require '(' "Missing ( after CHR$" (skipWs rest.tail)
        let (arg, rest) ← parseExprFrom fuel 0 rest
        let rest ← require ')' "Missing ) after CHR$()" (skipWs rest)
        return (.funcCall .chr arg, rest)
      else if rest.head? = some '[' then
        let inner := skipWs rest.tail
        if inner.head? = some ']' then .ok (.arrayWhole (String.ofList name), inner.tail)
        else do
          let (first, rest) ← parseExprFrom fuel 0 inner
          let rest := skipWs rest
          if ['.', '.'].isPrefixOf rest then do
            let (second, rest) ← parseExprFrom fuel 0 (rest.drop 2)
            let rest ← require ']' "Missing ] in subrange" (skipWs rest)
            return (.arraySubrange (String.ofList name) first second, rest)
          else do
            let rest ← require ']' "Missing ] in array index" rest
            return (.arrayIndex (String.ofList name) first, rest)
      else .ok (.varRef (String.ofList name), rest)

end

/-- At most four calls nest for each character that is left. -/
def enoughFuel (text : Text) : Nat := 4 * text.length + 4

def parseExpr (text : Text) : Except ParseError Expr :=
  let text := strip text
  if text = [] then .error (.valueError "Empty expression")
  else (parseExprFrom (enoughFuel text) 0 text).map Prod.fst

end Acrobe.Stapl
