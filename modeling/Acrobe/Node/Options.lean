import Mathlib
import Acrobe.Lib.QuotedScan

/-!
# Options of a node

The name of a node may end with its options, `name(key=value,key="quoted value")`. What is written so is read back:
the name and its options, where each key is not empty.
-/

namespace Acrobe.Node
open QuotedScan

abbrev Text := List Char

/-- `_NotKvList`: the content does not match the grammar of options. -/
inductive NotKvList where
  | unmatched
  | unbalanced
  | emptyList
  | missingEquals (entry : Text)
  | emptyKey (entry : Text)
  | invalidKey (key : Text)
  | bareValue (value : Text)

def slice (text : Text) (start stop : Nat) : Text := (text.take stop).drop start

/-! ### Commas -/

structure Parts where
  parts : List Text
  start : Nat
  depth : Int

def Parts.act (content : Text) (i : Nat) (ch : Char) (state : Parts) : Except NotKvList Parts :=
  if ch = '(' then .ok { state with depth := state.depth + 1 }
  else if ch = ')' then
    if state.depth - 1 < 0 then .error .unmatched else .ok { state with depth := state.depth - 1 }
  else if ch = ',' ∧ state.depth = 0 then
    .ok { state with parts := state.parts ++ [slice content state.start i], start := i + 1 }
  else .ok state

def splitTopLevelCommas (content : Text) : Except NotKvList (List Text) :=
  match scan '"' '\\' (Parts.act content) 0 content .outside ⟨[], 0, 0⟩ with
  | .error error => .error error
  | .ok (quote, state) =>
    if state.depth ≠ 0 ∨ quote.inQuote then .error .unbalanced
    else .ok (state.parts ++ [content.drop state.start])

/-! ### Entries -/

/-- The text between the quotes, decoded. -/
def decodeInner : Text → Text
  | '\\' :: '"' :: rest => '"' :: decodeInner rest
  | '\\' :: '\\' :: rest => '\\' :: decodeInner rest
  | ch :: rest => ch :: decodeInner rest
  | [] => []

def decodeQuoted (s : Text) : Text := decodeInner (slice s 1 (s.length - 1))

/-- The scan ends with the place of the first `=` that stands at depth 0. -/
def equalsAct (i : Nat) (ch : Char) (depth : Int) : Except Nat Int :=
  if ch = '(' then .ok (depth + 1)
  else if ch = ')' then .ok (depth - 1)
  else if ch = '=' ∧ depth = 0 then .error i
  else .ok depth

def equalsPos (entry : Text) : Option Nat :=
  match scan '"' '\\' equalsAct 0 entry .outside 0 with
  | .error i => some i
  | .ok _ => none

def decodeValue (value : Text) : Except NotKvList Text :=
  if value.head? = some '"' ∧ value.getLast? = some '"' ∧ 2 ≤ value.length then .ok (decodeQuoted value)
  else if '"' ∈ value ∨ ' ' ∈ value ∨ '\t' ∈ value then .error (.bareValue value)
  else .ok value

def parseEntry (entry : Text) : Except NotKvList (Text × Text) :=
  match equalsPos entry with
  | none => .error (.missingEquals entry)
  | some i =>
    let key := entry.take i
    if key = [] then .error (.emptyKey entry)
    else if key.any fun ch => ch ∈ [' ', '\t', '"', '\\'] then .error (.invalidKey key)
    else (decodeValue (entry.drop (i + 1))).map (key, ·)

/-- `result[key] = value` -/
def setItem : List (Text × Text) → Text → Text → List (Text × Text)
  | [], key, value => [(key, value)]
  | (k, v) :: result, key, value => if k = key then (k, value) :: result else (k, v) :: setItem result key value

def parseEntries : List Text → List (Text × Text) → Except NotKvList (List (Text × Text))
  | [], result => .ok result
  | entry :: entries, result =>
    match parseEntry entry with
    | .error error => .error error
    | .ok (key, value) => parseEntries entries (setItem result key value)

def parseKvList (content : Text) : Except NotKvList (List (Text × Text)) :=
  if content = [] then .error .emptyList
  else
    match splitTopLevelCommas content with
    | .error error => .error error
    | .ok entries => parseEntries entries []

/-! ### Groups -/

/-- The groups `(...)` at the top, with the places of their parentheses. -/
structure Groups where
  depth : Nat
  groups : List (Nat × Nat)
  openPos : Nat

/-- The scan ends at a `)` that nothing opens. -/
def Groups.act (i : Nat) (ch : Char) (state : Groups) : Except Unit Groups :=
  if ch = '(' then
    .ok { state with depth := state.depth + 1, openPos := if state.depth + 1 = 1 then i else state.openPos }
  else if ch = ')' then
    if state.depth = 0 then .error ()
    else
      .ok { state with
        depth := state.depth - 1
        groups := if state.depth - 1 = 0 then state.groups ++ [(state.openPos, i)] else state.groups }
  else .ok state

/-- The name and its options. -/
def parseOptions (name : Text) : Text × List (Text × Text) :=
  match scan '"' '\\' Groups.act 0 name .outside ⟨0, [], 0⟩ with
  | .error () => (name, [])
  | .ok (quote, state) =>
    if quote.inQuote ∨ state.depth ≠ 0 then (name, [])
    else
      match state.groups.getLast? with
      | none => (name, [])
      | some (opened, closed) =>
        if closed ≠ name.length - 1 then (name, [])
        else
          let content := slice name (opened + 1) closed
          if content = [] then (name.take opened, [])
          else
            match parseKvList content with
            | .error _ => (name, [])
            | .ok options => (name.take opened, options)

/-! ### Texts -/

/-- No prefix closes more than it opens, and the whole text closes all. -/
structure Balanced (name : Text) : Prop where
  never : ∀ k, (name.take k).count ')' ≤ (name.take k).count '('
  ends : name.count ')' = name.count '('

theorem balanced_iff {name : Text} :
    Balanced name ↔ (∀ k < name.length + 1, (name.take k).count ')' ≤ (name.take k).count '(') ∧
      name.count ')' = name.count '(' := by
  constructor
  · intro balanced
    exact ⟨fun k _ => balanced.never k, balanced.ends⟩
  · intro both
    refine ⟨?_, both.2⟩
    intro k
    by_cases short : k < name.length + 1
    · exact both.1 k short
    · rw [List.take_of_length_le (by omega)]
      exact Nat.le_of_eq both.2

instance (name : Text) : Decidable (Balanced name) := decidable_of_iff _ balanced_iff.symm

/-- A key of an option: not empty, and with none of the characters that have a meaning. -/
def Key (key : Text) : Prop :=
  key ≠ [] ∧ ∀ ch ∈ key, ch ∉ ['=', ',', '(', ')', '"', '\\', ' ', '\t']

instance (key : Text) : Decidable (Key key) := @instDecidableAnd _ _ _ (List.decidableBAll _ key)

def entryText (option : Text × Text) : Text := option.1 ++ '=' :: quoted '"' '\\' option.2

def optionsText (options : List (Text × Text)) : Text := List.intercalate [','] (options.map entryText)

/-- The name with its options. -/
def withOptions (name : Text) (options : List (Text × Text)) : Text := name ++ '(' :: (optionsText options ++ [')'])

variable {name text : Text}

/-! ### Escapes -/

theorem decodeInner_plain {ch : Char} (plain : ch ≠ '\\') (rest : Text) : decodeInner (ch :: rest) = ch :: decodeInner rest := by
  rw [decodeInner]
  · intro rest same
    exact absurd same plain
  · intro rest same
    exact absurd same plain

theorem decodeInner_escapeText (text : Text) : decodeInner (escapeText '"' '\\' text) = text := by
  induction text with
  | nil => rfl
  | cons ch text ih =>
    rw [escapeText_cons]
    by_cases special : ch = '"' ∨ ch = '\\'
    · rw [if_pos special]
      obtain rfl | rfl := special
      · simp [decodeInner, ih]
      · simp [decodeInner, ih]
    · obtain ⟨-, plain⟩ := not_or.mp special
      rw [if_neg special, List.singleton_append, decodeInner_plain plain, ih]

theorem decodeValue_quoted (value : Text) : decodeValue (quoted '"' '\\' value) = .ok value := by
  have last : (quoted '"' '\\' value).getLast? = some '"' := by
    rw [quoted, ← List.cons_append]
    exact List.getLast?_concat
  have long : 2 ≤ (quoted '"' '\\' value).length := by simp [quoted]
  have inner : slice (quoted '"' '\\' value) 1 ((quoted '"' '\\' value).length - 1) = escapeText '"' '\\' value := by
    simp [slice, quoted]
  rw [decodeValue, if_pos ⟨rfl, last, long⟩, decodeQuoted, inner, decodeInner_escapeText]

/-! ### Entries read back -/

theorem Key.plain {key : Text} (keyed : Key key) {ch : Char} (member : ch ∈ key) :
    ch ≠ '=' ∧ ch ≠ ',' ∧ ch ≠ '(' ∧ ch ≠ ')' ∧ ch ≠ '"' ∧ ch ≠ '\\' ∧ ch ≠ ' ' ∧ ch ≠ '\t' := by
  simpa using keyed.2 ch member

theorem Key.unquoted {key : Text} (keyed : Key key) : '"' ∉ key := fun member => (keyed.plain member).2.2.2.2.1 rfl

theorem equalsPos_entry {key : Text} (keyed : Key key) (value : Text) : equalsPos (entryText (key, value)) = some key.length := by
  have skips : Skips '"' '\\' equalsAct 0 key := by
    refine skips_plain keyed.unquoted ?_
    intro i ch member
    obtain ⟨equals, -, opened, closed, -⟩ := keyed.plain member
    simp [equalsAct, equals, opened, closed]
  have stop : equalsAct (0 + key.length) '=' 0 = .error key.length := by simp [equalsAct]
  rw [equalsPos, entryText, skips, scan_error _ (by decide) stop]

theorem parseEntry_entry {key : Text} (keyed : Key key) (value : Text) :
    parseEntry (entryText (key, value)) = .ok (key, value) := by
  have front : (entryText (key, value)).take key.length = key := List.take_left
  have back : (entryText (key, value)).drop (key.length + 1) = quoted '"' '\\' value := by simp [entryText]
  have valid : (key.any fun ch => ch ∈ [' ', '\t', '"', '\\']) = false := by
    rw [List.any_eq_false]
    intro ch member
    obtain ⟨-, -, -, -, quote, escape, blank, tab⟩ := keyed.plain member
    simp [quote, escape, blank, tab]
  rw [parseEntry, equalsPos_entry keyed]
  dsimp only
  rw [front, if_neg keyed.1, valid, if_neg Bool.false_ne_true, back, decodeValue_quoted]
  rfl

theorem setItem_new {result : List (Text × Text)} {key : Text} (new : key ∉ result.map Prod.fst) (value : Text) :
    setItem result key value = result ++ [(key, value)] := by
  induction result with
  | nil => rfl
  | cons entry result ih =>
    obtain ⟨different, later⟩ := not_or.mp (List.mem_cons.not.mp new)
    rw [setItem, if_neg (Ne.symm different), ih later, List.cons_append]

theorem parseEntries_entries (options : List (Text × Text)) (keyed : ∀ option ∈ options, Key option.1)
    (result : List (Text × Text)) (distinct : ((result ++ options).map Prod.fst).Nodup) :
    parseEntries (options.map entryText) result = .ok (result ++ options) := by
  induction options generalizing result with
  | nil => simp [parseEntries]
  | cons option options ih =>
    obtain ⟨key, value⟩ := option
    have new : key ∉ result.map Prod.fst := by
      rw [List.map_append, List.nodup_append] at distinct
      intro member
      exact distinct.2.2 key member key (List.mem_cons_self ..) rfl
    have later := ih (fun option member => keyed option (List.mem_cons_of_mem _ member)) (result ++ [(key, value)])
      (by simpa using distinct)
    rw [List.map_cons, parseEntries, parseEntry_entry (keyed _ (List.mem_cons_self ..))]
    dsimp only
    rw [setItem_new new, later, List.append_assoc, List.singleton_append]

/-! ### Commas read back -/

theorem Key.skips_entry {σ ε : Type} {act : Nat → Char → σ → Except ε σ} {state : σ} {key : Text} (keyed : Key key)
    (value : Text) (keeps : ∀ i ch, ch ≠ ',' → ch ≠ '(' → ch ≠ ')' → act i ch state = .ok state) :
    Skips '"' '\\' act state (entryText (key, value)) := by
  have before : Skips '"' '\\' act state (key ++ ['=']) := by
    refine skips_plain ?_ ?_
    · simpa using keyed.unquoted
    · intro i ch member
      obtain inside | last := List.mem_append.mp member
      · obtain ⟨-, comma, opened, closed, -⟩ := keyed.plain inside
        exact keeps i ch comma opened closed
      · obtain rfl := List.mem_singleton.mp last
        exact keeps i '=' (by decide) (by decide) (by decide)
  have whole := before.append (skips_quoted (by decide) value)
  rwa [List.append_assoc, List.singleton_append] at whole

theorem Parts.keeps (content : Text) (state : Parts) (i : Nat) (ch : Char) (comma : ch ≠ ',') (opened : ch ≠ '(')
    (closed : ch ≠ ')') : Parts.act content i ch state = .ok state := by
  simp [Parts.act, comma, opened, closed]

theorem optionsText_cons (option next : Text × Text) (options : List (Text × Text)) :
    optionsText (option :: next :: options) = entryText option ++ ',' :: optionsText (next :: options) := by
  simp [optionsText, List.intercalate]

theorem scan_options {content : Text} (options : List (Text × Text)) (option : Text × Text)
    (keyed : ∀ entry ∈ option :: options, Key entry.1) (before : Text) (parts : List Text)
    (whole : content = before ++ optionsText (option :: options)) :
    ∃ state : Parts, scan '"' '\\' (Parts.act content) before.length (optionsText (option :: options)) .outside
        ⟨parts, before.length, 0⟩ = .ok (.outside, state) ∧
      state.depth = 0 ∧ state.parts ++ [content.drop state.start] = parts ++ (option :: options).map entryText := by
  induction options generalizing option before parts with
  | nil =>
    obtain ⟨key, value⟩ := option
    have only : optionsText [(key, value)] = entryText (key, value) := by simp [optionsText, List.intercalate]
    have skips := (keyed _ (List.mem_cons_self ..)).skips_entry value (Parts.keeps content ⟨parts, before.length, 0⟩)
      before.length []
    rw [List.append_nil] at skips
    refine ⟨⟨parts, before.length, 0⟩, ?_, rfl, ?_⟩
    · rw [only, skips, scan]
    · rw [whole, only, List.drop_left, List.map_singleton]
  | cons next options ih =>
    obtain ⟨key, value⟩ := option
    have skips := (keyed _ (List.mem_cons_self ..)).skips_entry value (Parts.keeps content ⟨parts, before.length, 0⟩)
      before.length (',' :: optionsText (next :: options))
    have cut : slice content before.length (before.length + (entryText (key, value)).length) = entryText (key, value) := by
      rw [whole, optionsText_cons, slice, ← List.length_append, ← List.append_assoc, List.take_left, List.drop_left]
    have act : Parts.act content (before.length + (entryText (key, value)).length) ',' ⟨parts, before.length, 0⟩ =
        .ok ⟨parts ++ [entryText (key, value)], before.length + (entryText (key, value)).length + 1, 0⟩ := by
      simp [Parts.act, cut]
    obtain ⟨state, scanned, depth, found⟩ := ih next (fun entry member => keyed entry (List.mem_cons_of_mem _ member))
      (before ++ entryText (key, value) ++ [',']) (parts ++ [entryText (key, value)])
      (by rw [whole, optionsText_cons]; simp)
    refine ⟨state, ?_, depth, ?_⟩
    · rw [optionsText_cons, skips, scan_ok _ (by decide) act]
      simpa [Nat.add_assoc] using scanned
    · rw [found]
      simp

theorem splitTopLevelCommas_options {options : List (Text × Text)} (some_ : options ≠ [])
    (keyed : ∀ option ∈ options, Key option.1) :
    splitTopLevelCommas (optionsText options) = .ok (options.map entryText) := by
  cases options with
  | nil => exact absurd rfl some_
  | cons option options =>
    have whole : optionsText (option :: options) = [] ++ optionsText (option :: options) := rfl
    obtain ⟨state, scanned, depth, found⟩ := scan_options options option keyed [] [] whole
    rw [List.length_nil] at scanned
    rw [splitTopLevelCommas, scanned]
    simp [depth, Quote.outside, found]

theorem optionsText_ne_nil {options : List (Text × Text)} (some_ : options ≠ []) : optionsText options ≠ [] := by
  cases options with
  | nil => exact absurd rfl some_
  | cons option options =>
    cases options with
    | nil => simp [optionsText, List.intercalate, entryText]
    | cons next options =>
      rw [optionsText_cons]
      simp

theorem parseKvList_options {options : List (Text × Text)} (some_ : options ≠ [])
    (keyed : ∀ option ∈ options, Key option.1) (distinct : (options.map Prod.fst).Nodup) :
    parseKvList (optionsText options) = .ok options := by
  rw [parseKvList, if_neg (optionsText_ne_nil some_), splitTopLevelCommas_options some_ keyed]
  exact parseEntries_entries options keyed [] distinct

/-! ### Groups read back -/

theorem scan_name (unquoted : '"' ∉ text) (i : Nat) (state : Groups)
    (never : ∀ k, (text.take k).count ')' ≤ state.depth + (text.take k).count '(') :
    ∃ next : Groups, next.depth + text.count ')' = state.depth + text.count '(' ∧
      ∀ rest, scan '"' '\\' Groups.act i (text ++ rest) .outside state =
        scan '"' '\\' Groups.act (i + text.length) rest .outside next := by
  induction text generalizing i state with
  | nil => exact ⟨state, rfl, fun rest => rfl⟩
  | cons ch text ih =>
    obtain ⟨plain, unquoted⟩ := not_or.mp (List.mem_cons.not.mp unquoted)
    have step : ∃ mid : Groups, Groups.act i ch state = .ok mid ∧
        mid.depth + [ch].count ')' = state.depth + [ch].count '(' := by
      by_cases opened : ch = '('
      · rw [opened]
        exact ⟨_, rfl, rfl⟩
      · by_cases closed : ch = ')'
        · have first := never 1
          rw [closed] at first ⊢
          have deep : state.depth ≠ 0 := by
            simp at first
            omega
          refine ⟨_, by rw [Groups.act, if_neg (by decide), if_pos rfl, if_neg deep], ?_⟩
          simp
          omega
        · exact ⟨state, by simp [Groups.act, opened, closed], by simp [opened, closed]⟩
    obtain ⟨mid, act, count⟩ := step
    have split (c : Char) (text : Text) : (ch :: text).count c = [ch].count c + text.count c := by
      rw [← List.singleton_append, List.count_append]
    obtain ⟨next, counted, scanned⟩ := ih unquoted (i + 1) mid (by
      intro k
      have prefix_ := never (k + 1)
      rw [List.take_succ_cons, split, split '('] at prefix_
      omega)
    refine ⟨next, ?_, ?_⟩
    · rw [split, split '(']
      omega
    · intro rest
      rw [List.cons_append, scan_ok _ (Ne.symm plain) act, scanned, List.length_cons]
      congr 1
      omega

theorem Balanced.scan_groups (balanced : Balanced name) (unquoted : '"' ∉ name) :
    ∃ groups opened, ∀ rest, scan '"' '\\' Groups.act 0 (name ++ rest) .outside ⟨0, [], 0⟩ =
      scan '"' '\\' Groups.act name.length rest .outside ⟨0, groups, opened⟩ := by
  obtain ⟨⟨depth, groups, opened⟩, count, scanned⟩ := scan_name unquoted 0 ⟨0, [], 0⟩ (by simpa using balanced.never)
  have zero : depth = 0 := by
    have ends := balanced.ends
    dsimp only at count
    omega
  rw [zero, Nat.zero_add] at scanned
  exact ⟨groups, opened, scanned⟩

theorem scan_group {content : Text} {groups : List (Nat × Nat)} {opened : Nat} (i : Nat)
    (skips : ∀ state : Groups, Skips '"' '\\' Groups.act state content) :
    scan '"' '\\' Groups.act i ('(' :: (content ++ [')'])) .outside ⟨0, groups, opened⟩ =
      .ok (.outside, ⟨0, groups ++ [(i, i + 1 + content.length)], i⟩) := by
  have opens : Groups.act i '(' ⟨0, groups, opened⟩ = .ok ⟨1, groups, i⟩ := rfl
  have closes : Groups.act (i + 1 + content.length) ')' ⟨1, groups, i⟩ =
    .ok ⟨0, groups ++ [(i, i + 1 + content.length)], i⟩ := rfl
  rw [scan_ok _ (by decide) opens, skips, scan_ok _ (by decide) closes, scan]

theorem Groups.skips_options (state : Groups) (options : List (Text × Text)) (keyed : ∀ option ∈ options, Key option.1) :
    Skips '"' '\\' Groups.act state (optionsText options) := by
  have keeps (i : Nat) (ch : Char) (_ : ch ≠ ',') (opened : ch ≠ '(') (closed : ch ≠ ')') :
      Groups.act i ch state = .ok state := by
    simp [Groups.act, opened, closed]
  have comma : Skips '"' '\\' Groups.act state [','] := skips_plain (by decide) (by simp [Groups.act])
  induction options with
  | nil => exact skips_plain (by simp [optionsText, List.intercalate]) (by simp [optionsText, List.intercalate])
  | cons option options ih =>
    obtain ⟨key, value⟩ := option
    have first := (keyed _ (List.mem_cons_self ..)).skips_entry value keeps
    cases options with
    | nil => simpa [optionsText, List.intercalate] using first
    | cons next options =>
      have later := ih fun option member => keyed option (List.mem_cons_of_mem _ member)
      rw [optionsText_cons, ← List.singleton_append]
      exact first.append (comma.append later)

theorem parseOptions_group (balanced : Balanced name) (unquoted : '"' ∉ name) {content : Text}
    (skips : ∀ state : Groups, Skips '"' '\\' Groups.act state content) :
    parseOptions (name ++ '(' :: (content ++ [')'])) =
      if content = [] then (name, [])
      else
        match parseKvList content with
        | .error _ => (name ++ '(' :: (content ++ [')']), [])
        | .ok options => (name, options) := by
  obtain ⟨groups, opened, scanned⟩ := balanced.scan_groups unquoted
  have last : name.length + 1 + content.length = (name ++ '(' :: (content ++ [')'])).length - 1 := by
    simp only [List.length_append, List.length_cons, List.length_nil]
    omega
  have inside : slice (name ++ '(' :: (content ++ [')'])) (name.length + 1) (name.length + 1 + content.length) = content := by
    have front : name ++ '(' :: (content ++ [')']) = (name ++ ['(']) ++ (content ++ [')']) := by simp
    have long : name.length + 1 = (name ++ ['(']).length := by simp
    rw [slice, front, long, List.take_length_add_append, List.drop_left, List.take_left]
  rw [parseOptions, scanned, scan_group _ skips]
  simp only [Quote.outside, Bool.false_eq_true, ne_eq, not_true_eq_false, or_self, if_false, List.getLast?_concat, ← last,
    inside, List.take_left]

/-- Options are read back, and an empty group ends a name without options. -/
theorem options_round_trip (balanced : Balanced name) (unquoted : '"' ∉ name) :
    (∀ options : List (Text × Text), options ≠ [] → (options.map Prod.fst).Nodup →
        (∀ option ∈ options, Key option.1) → parseOptions (withOptions name options) = (name, options)) ∧
      parseOptions (name ++ ['(', ')']) = (name, []) := by
  constructor
  · intro options some_ distinct keyed
    rw [withOptions, parseOptions_group balanced unquoted fun state => Groups.skips_options state options keyed,
      if_neg (optionsText_ne_nil some_), parseKvList_options some_ keyed distinct]
  · exact parseOptions_group balanced unquoted fun state => skips_plain List.not_mem_nil nofun

theorem options_round_trip_quotes :
    let options : List (Text × Text) := [(['k'], ['"', '(', ',', '\\']), (['s', 'p'], ['=', ')', ' ']), (['e'], [])]
    parseOptions (withOptions ['m', '(', 'a', '=', 'b', ')'] options) = (['m', '(', 'a', '=', 'b', ')'], options) ∧
      parseOptions (['m', '(', 'a', '=', 'b', ')'] ++ ['(', ')']) = (['m', '(', 'a', '=', 'b', ')'], []) := by
  have balanced : Balanced ['m', '(', 'a', '=', 'b', ')'] := by decide
  obtain ⟨read, none⟩ := options_round_trip balanced (by decide)
  exact ⟨read _ (by decide) (by decide) (by decide), none⟩

/-- An option without a key is not read: its text stays in the name. -/
theorem empty_key_unread :
    Balanced ['n'] ∧ '"' ∉ ['n'] ∧
      parseOptions (withOptions ['n'] [([], ['v'])]) = (['n', '(', '=', '"', 'v', '"', ')'], []) ∧
      parseOptions (withOptions ['n'] [([], ['v'])]) ≠ (['n'], [([], ['v'])]) := by
  decide

end Acrobe.Node
