import Mathlib

/-!
# The tokens of Python expressions

The text of an expression on one line is read as names, keywords, numbers, bytes literals and signs. Spaces only
keep tokens apart. The names are those of ASCII.
-/

namespace Python

/-! ### Tokens -/

inductive Sign where
  | plus | minus | star | doubleSlash | percent
  | shiftLeft | shiftRight
  | ampersand | caret | bar
  | equal | notEqual | less | greater | lessEqual | greaterEqual
  | tilde
  | openParen | closeParen | openBracket | closeBracket
  | comma | colon | dot
  deriving DecidableEq

def Sign.text : Sign → List Char
  | .plus => ['+']
  | .minus => ['-']
  | .star => ['*']
  | .doubleSlash => ['/', '/']
  | .percent => ['%']
  | .shiftLeft => ['<', '<']
  | .shiftRight => ['>', '>']
  | .ampersand => ['&']
  | .caret => ['^']
  | .bar => ['|']
  | .equal => ['=', '=']
  | .notEqual => ['!', '=']
  | .less => ['<']
  | .greater => ['>']
  | .lessEqual => ['<', '=']
  | .greaterEqual => ['>', '=']
  | .tilde => ['~']
  | .openParen => ['(']
  | .closeParen => [')']
  | .openBracket => ['[']
  | .closeBracket => [']']
  | .comma => [',']
  | .colon => [':']
  | .dot => ['.']

def signs : List Sign :=
  [.doubleSlash, .shiftLeft, .shiftRight, .equal, .notEqual, .lessEqual, .greaterEqual,
    .plus, .minus, .star, .percent, .ampersand, .caret, .bar, .less, .greater, .tilde,
    .openParen, .closeParen, .openBracket, .closeBracket, .comma, .colon, .dot]

inductive Token where
  | name (name : List Char)
  | keyword (word : List Char)
  | number (value : Nat)
  | bytes (data : List UInt8)
  | sign (sign : Sign)
  deriving DecidableEq

def keywords : List (List Char) :=
  [['F', 'a', 'l', 's', 'e'], ['N', 'o', 'n', 'e'], ['T', 'r', 'u', 'e'], ['a', 'n', 'd'], ['a', 's'],
    ['a', 's', 's', 'e', 'r', 't'], ['a', 's', 'y', 'n', 'c'], ['a', 'w', 'a', 'i', 't'], ['b', 'r', 'e', 'a', 'k'],
    ['c', 'l', 'a', 's', 's'], ['c', 'o', 'n', 't', 'i', 'n', 'u', 'e'], ['d', 'e', 'f'], ['d', 'e', 'l'],
    ['e', 'l', 'i', 'f'], ['e', 'l', 's', 'e'], ['e', 'x', 'c', 'e', 'p', 't'], ['f', 'i', 'n', 'a', 'l', 'l', 'y'],
    ['f', 'o', 'r'], ['f', 'r', 'o', 'm'], ['g', 'l', 'o', 'b', 'a', 'l'], ['i', 'f'],
    ['i', 'm', 'p', 'o', 'r', 't'], ['i', 'n'], ['i', 's'], ['l', 'a', 'm', 'b', 'd', 'a'],
    ['n', 'o', 'n', 'l', 'o', 'c', 'a', 'l'], ['n', 'o', 't'], ['o', 'r'], ['p', 'a', 's', 's'],
    ['r', 'a', 'i', 's', 'e'], ['r', 'e', 't', 'u', 'r', 'n'], ['t', 'r', 'y'], ['w', 'h', 'i', 'l', 'e'],
    ['w', 'i', 't', 'h'], ['y', 'i', 'e', 'l', 'd']]

def isIdent (c : Char) : Bool := c.isAlphanum || c == '_'

structure IsName (name : List Char) : Prop where
  nonempty : name ≠ []
  ident : ∀ c ∈ name, isIdent c = true
  first : ∀ c ∈ name.head?, c.isDigit = false
  free : name ∉ keywords

/-! ### Numbers -/

def digitValue (c : Char) : Nat :=
  if c.isDigit then c.toNat - 48 else if c.isUpper then c.toNat - 55 else c.toNat - 87

def isHexDigit (c : Char) : Bool := c.isDigit || ('A' ≤ c && c ≤ 'F') || ('a' ≤ c && c ≤ 'f')

/-- A decimal number has no leading zero. -/
def numberOf : List Char → Option Nat
  | '0' :: 'x' :: digits =>
    if digits ≠ [] ∧ digits.all isHexDigit then some (digits.foldl (fun value c => 16 * value + digitValue c) 0) else none
  | digits =>
    if digits.all Char.isDigit ∧ (digits.head? = some '0' → digits.length = 1) then some (Nat.ofDigitChars 10 digits 0)
    else none

/-- What `\c` stands for. -/
def escaped (c : Char) : UInt8 :=
  if c = 't' then 9 else if c = 'n' then 10 else if c = 'r' then 13 else UInt8.ofNat c.toNat

/-- The bytes up to the closing quote. -/
def bytesRest (quote : Char) : List Char → Option (List UInt8 × List Char)
  | [] => none
  | '\\' :: 'x' :: high :: low :: cs =>
    (bytesRest quote cs).map fun out => (UInt8.ofNat (16 * digitValue high + digitValue low) :: out.1, out.2)
  | '\\' :: c :: cs => (bytesRest quote cs).map fun out => (escaped c :: out.1, out.2)
  | c :: cs =>
    if c = quote then some ([], cs) else (bytesRest quote cs).map fun out => (UInt8.ofNat c.toNat :: out.1, out.2)

/-! ### Reading a text -/

def wordToken (word : List Char) : Token := if word ∈ keywords then .keyword word else .name word

/-- The first token, and what follows it. -/
def token : List Char → Option (Token × List Char)
  | [] => none
  | c :: cs =>
    let word := (c :: cs).takeWhile isIdent
    let rest := (c :: cs).dropWhile isIdent
    if c.isDigit then (numberOf word).map fun value => (.number value, rest)
    else if isIdent c then
      if word = ['b'] ∧ (rest.head? = some '\'' ∨ rest.head? = some '"') then
        (bytesRest (rest.headD '\'') rest.tail).map fun out => (.bytes out.1, out.2)
      else some (wordToken word, rest)
    else (signs.find? fun sign => sign.text.isPrefixOf (c :: cs)).map fun sign =>
      (.sign sign, (c :: cs).drop sign.text.length)

inductive Lexed : List Char → List Token → Prop where
  | nil : Lexed [] []
  | space {cs : List Char} {toks : List Token} (rest : Lexed cs toks) : Lexed (' ' :: cs) toks
  | token {cs after : List Char} {tok : Token} {toks : List Token} (first : token cs = some (tok, after))
      (rest : Lexed after toks) : Lexed cs (tok :: toks)

theorem token_space (cs : List Char) : token (' ' :: cs) = none := rfl

theorem Lexed.unique {cs : List Char} {toks others : List Token} (first : Lexed cs toks) (second : Lexed cs others) :
    toks = others := by
  induction first generalizing others with
  | nil =>
    cases second with
    | nil => rfl
    | token found _ => cases found
  | space _ ih =>
    cases second with
    | space rest => exact ih rest
    | token found _ =>
      rw [token_space] at found
      cases found
  | token found _ ih =>
    cases second with
    | nil => cases found
    | space _ =>
      rw [token_space] at found
      cases found
    | token found' rest =>
      cases found.symm.trans found'
      rw [ih rest]

theorem token_name {cs after name : List Char} (found : token cs = some (.name name, after)) : IsName name := by
  cases cs with
  | nil => cases found
  | cons c cs =>
    simp only [token] at found
    split at found
    · simp at found
    rename_i other
    split at found
    · rename_i ident
      split at found
      · simp at found
      unfold wordToken at found
      split at found
      · simp at found
      rename_i free
      obtain ⟨rfl, -⟩ := (by simpa using found)
      have front : (c :: cs).takeWhile isIdent = c :: cs.takeWhile isIdent := List.takeWhile_cons_of_pos ident
      exact {
        nonempty := by simp [front]
        ident := fun d member => List.all_eq_true.mp List.all_takeWhile d member
        first := by simpa [front] using other
        free }
    · simp at found

theorem Lexed.names {cs : List Char} {toks : List Token} (lexed : Lexed cs toks) :
    ∀ name, .name name ∈ toks → IsName name := by
  induction lexed with
  | nil => simp
  | space _ ih => exact ih
  | token found _ ih =>
    intro name member
    obtain same | later := List.mem_cons.mp member
    · subst same
      exact token_name found
    · exact ih name later

/-! ### Texts that are followed by something else -/

def Breaks (rest : List Char) : Prop := ∀ c ∈ rest.head?, c ∈ [' ', '(', ')', '[', ']', ',', ':']

def WordEnd (rest : List Char) : Prop := ∀ c ∈ rest.head?, isIdent c = false ∧ c ≠ '\'' ∧ c ≠ '"'

theorem breaks_nil : Breaks [] := nofun

theorem breaks_cons {c : Char} (breaker : c ∈ [' ', '(', ')', '[', ']', ',', ':']) (cs : List Char) : Breaks (c :: cs) := by
  intro d first
  cases first
  exact breaker

theorem Breaks.wordEnd {rest : List Char} (breaks : Breaks rest) : WordEnd rest := by
  intro c first
  have breaker := breaks c first
  simp only [List.mem_cons, List.not_mem_nil, or_false] at breaker
  rcases breaker with rfl | rfl | rfl | rfl | rfl | rfl | rfl <;> decide

theorem Breaks.append {front back : List Char} (first : Breaks front) (second : Breaks back) : Breaks (front ++ back) := by
  cases front with
  | nil => exact second
  | cons c cs => exact first

/-- The text is read as the tokens wherever something follows that does not continue it. -/
def Lexes (text : List Char) (toks : List Token) : Prop :=
  ∀ rest more, Breaks rest → Lexed rest more → Lexed (text ++ rest) (toks ++ more)

theorem Lexes.lexed {text : List Char} {toks : List Token} (lexes : Lexes text toks) : Lexed text toks := by
  have whole := lexes [] [] breaks_nil .nil
  rwa [List.append_nil, List.append_nil] at whole

theorem Lexes.append {front back : List Char} {toks more : List Token} (first : Lexes front toks)
    (second : Lexes back more) (breaks : Breaks back) : Lexes (front ++ back) (toks ++ more) := by
  intro rest others ends lexed
  rw [List.append_assoc, List.append_assoc]
  exact first _ _ (breaks.append ends) (second _ _ ends lexed)

theorem Lexes.space {text : List Char} {toks : List Token} (lexes : Lexes text toks) : Lexes (' ' :: text) toks :=
  fun rest more breaks lexed => .space (lexes rest more breaks lexed)

theorem Lexes.sign {c : Char} {sign : Sign} {text : List Char} {toks : List Token}
    (alone : ∀ cs, token (c :: cs) = some (.sign sign, cs)) (lexes : Lexes text toks) :
    Lexes (c :: text) (.sign sign :: toks) :=
  fun rest more breaks lexed => .token (alone _) (lexes rest more breaks lexed)

theorem lexes_nil : Lexes [] [] := fun _ _ _ lexed => lexed

theorem takeWhile_word {word rest : List Char} (ident : ∀ c ∈ word, isIdent c = true) (ends : WordEnd rest) :
    (word ++ rest).takeWhile isIdent = word ∧ (word ++ rest).dropWhile isIdent = rest := by
  have stop : rest.takeWhile isIdent = [] ∧ rest.dropWhile isIdent = rest := by
    cases rest with
    | nil => exact ⟨rfl, rfl⟩
    | cons c cs =>
      have other : ¬isIdent c = true := by
        rw [(ends c rfl).1]
        exact Bool.false_ne_true
      exact ⟨List.takeWhile_cons_of_neg other, List.dropWhile_cons_of_neg other⟩
  rw [List.takeWhile_append_of_pos ident, List.dropWhile_append_of_pos ident, stop.1, stop.2, List.append_nil]
  exact ⟨rfl, rfl⟩

theorem token_word {word rest : List Char} (some_ : word ≠ []) (ident : ∀ c ∈ word, isIdent c = true)
    (first : ∀ c ∈ word.head?, c.isDigit = false) (ends : WordEnd rest) :
    token (word ++ rest) = some (wordToken word, rest) := by
  obtain ⟨taken, dropped⟩ := takeWhile_word ident ends
  cases word with
  | nil => exact absurd rfl some_
  | cons c cs =>
    rw [List.cons_append] at taken dropped ⊢
    unfold token
    dsimp only
    rw [taken, dropped, if_neg (by simp [first c rfl]), if_pos (ident c List.mem_cons_self), if_neg]
    rintro ⟨-, quote | quote⟩
    · exact (ends _ quote).2.1 rfl
    · exact (ends _ quote).2.2 rfl

theorem IsName.token_append {name rest : List Char} (legal : IsName name) (ends : WordEnd rest) :
    token (name ++ rest) = some (.name name, rest) := by
  rw [token_word legal.nonempty legal.ident legal.first ends, wordToken, if_neg legal.free]

theorem IsName.lexes {name : List Char} (legal : IsName name) : Lexes name [.name name] :=
  fun _ _ breaks lexed => .token (legal.token_append breaks.wordEnd) lexed

theorem IsName.lexes_dot {text : List Char} {toks : List Token} {name : List Char} (legal : IsName name)
    (lexes : Lexes text toks) : Lexes (name ++ '.' :: text) (.name name :: .sign .dot :: toks) := by
  intro rest more breaks lexed
  rw [List.append_assoc]
  refine .token (legal.token_append ?_) (.token rfl (lexes rest more breaks lexed))
  intro c first
  cases first
  decide

/-! ### Decimal and hexadecimal numbers -/

/-- `str(value)` -/
def decimal (value : Nat) : List Char := Nat.toDigits 10 value

def upperDigit (digit : Nat) : Char := if digit < 10 then Char.ofNat (48 + digit) else Char.ofNat (55 + digit)

/-- `f"{value:X}"` of a positive number -/
def upperHex (value : Nat) : List Char := ((Nat.digits 16 value).map upperDigit).reverse

theorem isIdent_of_isDigit {c : Char} (digit : c.isDigit = true) : isIdent c = true := by
  simp [isIdent, Char.isAlphanum, digit]

theorem token_number {digits rest : List Char} {value : Nat} (some_ : digits ≠ [])
    (ident : ∀ c ∈ digits, isIdent c = true) (first : ∀ c ∈ digits.head?, c.isDigit = true)
    (read : numberOf digits = some value) (ends : WordEnd rest) :
    token (digits ++ rest) = some (.number value, rest) := by
  obtain ⟨taken, dropped⟩ := takeWhile_word ident ends
  cases digits with
  | nil => exact absurd rfl some_
  | cons c cs =>
    rw [List.cons_append] at taken dropped ⊢
    unfold token
    dsimp only
    rw [taken, dropped, if_pos (first c rfl), read]
    rfl

theorem head_toDigits {value : Nat} (positive : 0 < value) : (Nat.toDigits 10 value).head? ≠ some '0' := by
  induction value using Nat.strongRecOn with
  | ind value ih =>
    by_cases small : value < 10
    · have digit : ∀ d < 10, 0 < d → Nat.digitChar d ≠ '0' := by decide
      simpa [Nat.toDigits_of_lt_base small] using digit value small positive
    · have front := ih (value / 10) (by omega) (by omega)
      obtain ⟨first, others, shape⟩ := List.exists_cons_of_ne_nil (@Nat.toDigits_ne_nil (value / 10) 10)
      rw [shape] at front
      rwa [Nat.toDigits_of_base_le (by decide) (by omega), shape]

theorem numberOf_decimal (value : Nat) : numberOf (decimal value) = some value := by
  have digit : ∀ c ∈ decimal value, c.isDigit = true := fun c member =>
    Nat.isDigit_of_mem_toDigits (by decide) (by decide) member
  have plain : (decimal value).head? = some '0' → (decimal value).length = 1 := by
    intro zero
    obtain rfl | positive := Nat.eq_zero_or_pos value
    · rfl
    · exact absurd zero (head_toDigits positive)
  unfold numberOf
  split
  · rename_i digits same
    have wrong := digit 'x' (by simp [same])
    exact absurd wrong (by decide)
  · rw [if_pos ⟨List.all_eq_true.mpr digit, plain⟩, decimal, Nat.ofDigitChars_ten_toDigits]

theorem lexes_decimal (value : Nat) : Lexes (decimal value) [.number value] := by
  have digit : ∀ c ∈ decimal value, c.isDigit = true := fun c member =>
    Nat.isDigit_of_mem_toDigits (by decide) (by decide) member
  intro rest more breaks lexed
  apply Lexed.token _ lexed
  apply token_number Nat.toDigits_ne_nil _ _ (numberOf_decimal value) breaks.wordEnd
  · exact fun c member => isIdent_of_isDigit (digit c member)
  · exact fun c first => digit c (List.mem_of_mem_head? first)

theorem upperDigit_facts : ∀ digit < 16, digitValue (upperDigit digit) = digit ∧ isHexDigit (upperDigit digit) = true ∧
    isIdent (upperDigit digit) = true := by decide

theorem foldl_upperHex (value : Nat) :
    (upperHex value).foldl (fun value c => 16 * value + digitValue c) 0 = value := by
  have fold : ∀ digits : List Nat, (∀ digit ∈ digits, digit < 16) →
      (digits.map upperDigit).foldr (fun c value => 16 * value + digitValue c) 0 = Nat.ofDigits 16 digits := by
    intro digits
    induction digits with
    | nil => exact fun _ => rfl
    | cons digit digits ih =>
      intro small
      have here := (upperDigit_facts digit (small digit List.mem_cons_self)).1
      rw [List.map_cons, List.foldr_cons, here, ih fun other member => small other (List.mem_cons_of_mem _ member),
        Nat.ofDigits_cons]
      omega
  unfold upperHex
  rw [List.foldl_reverse, fold _ fun digit member => Nat.digits_lt_base (by decide) member, Nat.ofDigits_digits]

theorem lexes_hex {value : Nat} (positive : 0 < value) : Lexes ('0' :: 'x' :: upperHex value) [.number value] := by
  have facts : ∀ c ∈ upperHex value, isHexDigit c = true ∧ isIdent c = true := by
    intro c member
    obtain ⟨digit, among, rfl⟩ := List.mem_map.mp (List.mem_reverse.mp member)
    exact (upperDigit_facts digit (Nat.digits_lt_base (by decide) among)).2
  have some_ : upperHex value ≠ [] := by
    simpa [upperHex] using Nat.digits_ne_nil_iff_ne_zero.mpr (Nat.ne_of_gt positive)
  have read : numberOf ('0' :: 'x' :: upperHex value) = some value := by
    rw [numberOf, if_pos ⟨some_, List.all_eq_true.mpr fun c member => (facts c member).1⟩, foldl_upperHex]
  intro rest more breaks lexed
  refine .token (token_number (List.cons_ne_nil _ _) ?_ ?_ read breaks.wordEnd) lexed
  · intro c member
    rcases List.mem_cons.mp member with rfl | member
    · decide
    · rcases List.mem_cons.mp member with rfl | member
      · decide
      · exact (facts c member).2
  · intro c first
    cases first
    decide

/-! ### Bytes -/

def lowerDigit (digit : Nat) : Char := if digit < 10 then Char.ofNat (48 + digit) else Char.ofNat (87 + digit)

def reprByte (quote : Char) (byte : UInt8) : List Char :=
  if byte = 92 then ['\\', '\\']
  else if byte.toNat = quote.toNat then ['\\', quote]
  else if byte = 9 then ['\\', 't']
  else if byte = 10 then ['\\', 'n']
  else if byte = 13 then ['\\', 'r']
  else if 32 ≤ byte.toNat ∧ byte.toNat < 127 then [Char.ofNat byte.toNat]
  else ['\\', 'x', lowerDigit (byte.toNat / 16), lowerDigit (byte.toNat % 16)]

def reprQuote (data : List UInt8) : Char := if 39 ∈ data ∧ 34 ∉ data then '"' else '\''

/-- `repr(data)` -/
def reprBytes (data : List UInt8) : List Char :=
  'b' :: reprQuote data :: (data.flatMap (reprByte (reprQuote data)) ++ [reprQuote data])

theorem bytesRest_plain {quote c : Char} (cs : List Char) (plain : c ≠ '\\') (other : c ≠ quote) :
    bytesRest quote (c :: cs) = (bytesRest quote cs).map fun out => (UInt8.ofNat c.toNat :: out.1, out.2) := by
  rw [bytesRest]
  · rw [if_neg other]
  · rintro _ _ _ rfl
    exact absurd rfl plain
  · rintro _ _ rfl
    exact absurd rfl plain

theorem lowerDigit_value : ∀ digit < 16, digitValue (lowerDigit digit) = digit := by decide

theorem toNat_ofNat_printable : ∀ n < 127, 32 ≤ n → (Char.ofNat n).toNat = n := by decide

theorem bytesRest_reprByte {quote : Char} (legal : quote = '\'' ∨ quote = '"') (byte : UInt8) (cs : List Char) :
    bytesRest quote (reprByte quote byte ++ cs) = (bytesRest quote cs).map fun out => (byte :: out.1, out.2) := by
  unfold reprByte
  split_ifs with slash quoted tab feed carriage printable
  · subst slash
    rfl
  · have same : byte = UInt8.ofNat quote.toNat := by
      rw [← quoted, UInt8.ofNat_toNat]
    subst same
    rcases legal with rfl | rfl <;> rfl
  · subst tab
    rfl
  · subst feed
    rfl
  · subst carriage
    rfl
  · have code := toNat_ofNat_printable byte.toNat printable.2 printable.1
    have plain : Char.ofNat byte.toNat ≠ '\\' := by
      intro same
      rw [same] at code
      exact slash (UInt8.toNat_inj.mp code.symm)
    have other : Char.ofNat byte.toNat ≠ quote := by
      intro same
      rw [same] at code
      exact quoted code.symm
    rw [List.singleton_append, bytesRest_plain cs plain other, code, UInt8.ofNat_toNat]
  · have bound : byte.toNat < 256 := byte.toNat_lt
    have whole : 16 * (byte.toNat / 16) + byte.toNat % 16 = byte.toNat := Nat.div_add_mod _ _
    show bytesRest quote ('\\' :: 'x' :: _ :: _ :: cs) = _
    rw [bytesRest, lowerDigit_value _ (by omega), lowerDigit_value _ (by omega), whole, UInt8.ofNat_toNat]

theorem bytesRest_repr {quote : Char} (legal : quote = '\'' ∨ quote = '"') (data : List UInt8) (cs : List Char) :
    bytesRest quote (data.flatMap (reprByte quote) ++ quote :: cs) = some (data, cs) := by
  induction data with
  | nil =>
    rcases legal with rfl | rfl <;> rfl
  | cons byte data ih =>
    rw [List.flatMap_cons, List.append_assoc, bytesRest_reprByte legal, ih]
    rfl

theorem lexes_bytes (data : List UInt8) : Lexes (reprBytes data) [.bytes data] := by
  have legal : reprQuote data = '\'' ∨ reprQuote data = '"' := by
    unfold reprQuote
    split
    · exact .inr rfl
    · exact .inl rfl
  intro rest more breaks lexed
  have body := bytesRest_repr legal data rest
  refine .token ?_ lexed
  unfold reprBytes
  rw [List.cons_append, List.cons_append, List.append_assoc, List.singleton_append]
  rcases legal with quote | quote
  · rw [quote] at body ⊢
    exact congrArg (Option.map fun out => (Token.bytes out.1, out.2)) body
  · rw [quote] at body ⊢
    exact congrArg (Option.map fun out => (Token.bytes out.1, out.2)) body

end Python
