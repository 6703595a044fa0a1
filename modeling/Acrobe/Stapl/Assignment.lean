import Acrobe.Stapl.ExprSound

/-!
# Statements

`_parse_statement_text` looks for a method named after the first word of a statement, then for a
keyword the first word starts with, and takes what is left for an assignment.
-/

namespace Acrobe.Stapl

/-! ### Methods -/

/-- The methods of the parser that are named `_parse_` and a word. -/
inductive Method where
  | note | action | procedure | data | crc
  | bodyStatementInto | statementText | inlineStatement | assignText
  | integer | boolean | goto | call | endproc | exit | ifThen | forLoop | next | push | pop
  | drscan | irscan | drstop | irstop | state | wait | trst | frequency
  | predr | postdr | preir | postir | print | export | vmap | vector
  deriving DecidableEq

def Method.name : Method → String
  | .note => "note" | .action => "action" | .procedure => "procedure" | .data => "data" | .crc => "crc"
  | .bodyStatementInto => "body_statement_into" | .statementText => "statement_text"
  | .inlineStatement => "inline_statement" | .assignText => "assign_text"
  | .integer => "integer" | .boolean => "boolean" | .goto => "goto" | .call => "call" | .endproc => "endproc"
  | .exit => "exit" | .ifThen => "if" | .forLoop => "for" | .next => "next" | .push => "push" | .pop => "pop"
  | .drscan => "drscan" | .irscan => "irscan" | .drstop => "drstop" | .irstop => "irstop" | .state => "state"
  | .wait => "wait" | .trst => "trst" | .frequency => "frequency" | .predr => "predr" | .postdr => "postdr"
  | .preir => "preir" | .postir => "postir" | .print => "print" | .export => "export" | .vmap => "vmap"
  | .vector => "vector"

def methods : List Method :=
  [.note, .action, .procedure, .data, .crc, .bodyStatementInto, .statementText, .inlineStatement, .assignText,
    .integer, .boolean, .goto, .call, .endproc, .exit, .ifThen, .forLoop, .next, .push, .pop, .drscan, .irscan,
    .drstop, .irstop, .state, .wait, .trst, .frequency, .predr, .postdr, .preir, .postir, .print, .export, .vmap,
    .vector]

def lower (text : Text) : Text := text.map Char.toLower

/-- `getattr(self, f"_parse_" + keyword.lower(), None)`. -/
def methodNamed (keyword : Text) : Option Method := methods.find? fun method => method.name.toList == lower keyword

/-- `_KEYWORDS`. -/
def keywords : List Text :=
  ["ACTION", "BOOLEAN", "CALL", "CRC", "DATA", "DRSCAN", "DRSTOP", "ENDDATA", "ENDPROC", "EXIT", "EXPORT", "FOR",
    "FREQUENCY", "GOTO", "IF", "INTEGER", "IRSCAN", "IRSTOP", "NEXT", "NOTE", "POP", "POSTDR", "POSTIR", "PREDR",
    "PREIR", "PRINT", "PROCEDURE", "PUSH", "STATE", "TRST", "VECTOR", "VMAP", "WAIT"].map String.toList

/-- A keyword with a method that the word goes on from, and its length. -/
def keywordStart (keyword : Text) : Option (Method × Nat) :=
  keywords.findSome? fun kw =>
    if kw.isPrefixOf keyword ∧ kw.length < keyword.length then (methodNamed kw).map fun method => (method, kw.length)
    else none

/-! ### Assignments -/

/-- What a statement's text is parsed to: an assignment, or what another method makes of a text. -/
inductive Parsed where
  | assignStmt (target : Name) (index high low : Option Expr) (value : Expr)
  | other (method : Method) (rest : Text)
  deriving DecidableEq

def syntaxError (line : Nat) (message : String) : ParseError :=
  .staplSyntaxError ("line " ++ toString line ++ ": " ++ message)

/-- `_find_assignment_eq` from a position on, `prev` the character before it. -/
def findEqFrom (i : Nat) (depth : Int) (inString : Bool) (prev : Option Char) : Text → Option Nat
  | [] => none
  | c :: rest =>
    if inString then findEqFrom (i + 1) depth (c != doubleQuote) (some c) rest
    else if c = doubleQuote then findEqFrom (i + 1) depth true (some c) rest
    else if c = '(' ∨ c = '[' then findEqFrom (i + 1) (depth + 1) false (some c) rest
    else if c = ')' ∨ c = ']' then findEqFrom (i + 1) (depth - 1) false (some c) rest
    else if c = '=' ∧ depth = 0 then
      match rest with
      | '=' :: rest => findEqFrom (i + 2) depth false (some '=') rest
      | rest =>
        if prev = some '!' ∨ prev = some '<' ∨ prev = some '>' then findEqFrom (i + 1) depth false (some c) rest
        else some i
    else findEqFrom (i + 1) depth false (some c) rest

def findAssignmentEq (text : Text) : Option Nat := findEqFrom 0 0 false none text

/-- `text.split("..", 1)`. -/
def splitDots : Text → Option (Text × Text)
  | '.' :: '.' :: rest => some ([], rest)
  | c :: rest => (splitDots rest).map fun (front, back) => (c :: front, back)
  | [] => none

structure Target where
  name : Name
  index : Option Expr
  high : Option Expr
  low : Option Expr

def parseLhs (text : Text) : Except ParseError Target := do
  let text := strip text
  if '[' ∉ text then return ⟨String.ofList text, none, none, none⟩
  else if ']' ∉ text then throw (.valueError "substring not found")
  else
    let name := String.ofList (strip (text.takeWhile (· != '[')))
    let behind := (text.dropWhile (· != '[')).tail
    let inner := strip (behind.rdropWhile (· != ']')).dropLast
    if inner = [] then return ⟨name, none, none, none⟩
    else
      match splitDots inner with
      | some (highText, lowText) => do
        let high ← parseExpr highText
        let low ← parseExpr lowText
        return ⟨name, none, some high, some low⟩
      | none => do
        let index ← parseExpr inner
        return ⟨name, some index, none, none⟩

/-- The two sides are stripped where they are parsed. -/
def parseAssignText (line : Nat) (text : Text) : Except ParseError Parsed :=
  match findAssignmentEq text with
  | none => .error (syntaxError line ("Invalid assignment: " ++ reprText text))
  | some eqPos => do
    let target ← parseLhs (text.take eqPos)
    let value ← parseExpr (text.drop (eqPos + 1))
    return .assignStmt target.name target.index target.high target.low value

/-! ### Dispatch -/

def firstWord (text : Text) : Text := (text.dropWhile isSpace).takeWhile fun c => !isSpace c

def afterWord (text : Text) : Text := strip ((text.dropWhile isSpace).dropWhile fun c => !isSpace c)

/-- A method called by name with the text behind the word. The parser's own methods answer as
well. -/
def dispatch (statementText inlineStatement : Text → Except ParseError Parsed) (line : Nat) :
    Method → Text → Except ParseError Parsed
  | .statementText, rest => statementText rest
  | .inlineStatement, rest => inlineStatement rest
  | .assignText, rest => parseAssignText line rest
  | method, rest => .ok (.other method rest)

mutual

def parseStatementText (line : Nat) : Nat → Text → Except ParseError Parsed
  | 0, _ => .error .recursionError
  | fuel + 1, text =>
    if firstWord text = [] then .error .indexError
    else
      let keyword := upper (firstWord text)
      match methodNamed keyword with
      | some method =>
        dispatch (parseStatementText line fuel) (parseInlineStatement line fuel) line method (afterWord text)
      | none =>
        match keywordStart keyword with
        | some (method, length) =>
          dispatch (parseStatementText line fuel) (parseInlineStatement line fuel) line method
            (strip (text.drop length))
        | none =>
          if '=' ∈ text then parseAssignText line text
          else .error (syntaxError line ("Unknown statement: " ++ String.ofList keyword))

def parseInlineStatement (line : Nat) : Nat → Text → Except ParseError Parsed
  | 0, _ => .error .recursionError
  | fuel + 1, text =>
    if firstWord text = [] then .error .indexError
    else
      let keyword := upper (firstWord text)
      match methodNamed keyword with
      | some method =>
        dispatch (parseStatementText line fuel) (parseInlineStatement line fuel) line method (afterWord text)
      | none =>
        if '=' ∈ text then parseAssignText line text
        else .error (syntaxError line ("Unknown inline statement: " ++ String.ofList keyword))

end

/-- Every method that dispatches again is called with less text. -/
def parseStatement (line : Nat) (text : Text) : Except ParseError Parsed :=
  parseStatementText line (text.length + 1) text

end Acrobe.Stapl
