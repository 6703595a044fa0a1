import Mathlib

/-!
# Scans that respect quotes

A scan goes over a text with the place of each character, and passes over what stands between delimiters. What it does
with a character outside them is its parameter; that may bring the scan to an end.
-/

namespace Acrobe.QuotedScan

universe u v w

variable {α : Type u} {σ : Type v} {ε : Type w} [DecidableEq α]

structure Quote where
  inQuote : Bool
  escaped : Bool

def Quote.outside : Quote := ⟨false, false⟩

/-- A character inside a quote. -/
def Quote.inside (delimiter escape : α) (quote : Quote) (ch : α) : Quote :=
  if quote.escaped then { quote with escaped := false }
  else if ch = escape then { quote with escaped := true }
  else if ch = delimiter then { quote with inQuote := false }
  else quote

/-- The rest of a text from the place `i`. -/
def scan (delimiter escape : α) (act : Nat → α → σ → Except ε σ) :
    Nat → List α → Quote → σ → Except ε (Quote × σ)
  | _, [], quote, state => .ok (quote, state)
  | i, ch :: rest, quote, state =>
    if quote.inQuote then scan delimiter escape act (i + 1) rest (quote.inside delimiter escape ch) state
    else if ch = delimiter then scan delimiter escape act (i + 1) rest { quote with inQuote := true } state
    else
      match act i ch state with
      | .error stop => .error stop
      | .ok next => scan delimiter escape act (i + 1) rest quote next

/-- The text with an escape before each delimiter and each escape. -/
def escapeText (delimiter escape : α) (text : List α) : List α :=
  text.flatMap fun ch => if ch = delimiter ∨ ch = escape then [escape, ch] else [ch]

def quoted (delimiter escape : α) (text : List α) : List α :=
  delimiter :: (escapeText delimiter escape text ++ [delimiter])

variable {delimiter escape : α} {act : Nat → α → σ → Except ε σ}

theorem escapeText_cons (ch : α) (text : List α) :
    escapeText delimiter escape (ch :: text) =
      (if ch = delimiter ∨ ch = escape then [escape, ch] else [ch]) ++ escapeText delimiter escape text :=
  List.flatMap_cons

theorem scan_ok {i : Nat} {ch : α} {state next : σ} (rest : List α) (plain : ch ≠ delimiter)
    (result : act i ch state = .ok next) :
    scan delimiter escape act i (ch :: rest) .outside state = scan delimiter escape act (i + 1) rest .outside next := by
  simp [scan, Quote.outside, plain, result]

theorem scan_error {i : Nat} {ch : α} {state : σ} {stop : ε} (rest : List α) (plain : ch ≠ delimiter)
    (result : act i ch state = .error stop) :
    scan delimiter escape act i (ch :: rest) .outside state = .error stop := by
  simp [scan, Quote.outside, plain, result]

/-! ### Stretches without effect -/

/-- A stretch of text that leaves the state of the scan as it is. -/
def Skips (delimiter escape : α) (act : Nat → α → σ → Except ε σ) (state : σ) (text : List α) : Prop :=
  ∀ i rest, scan delimiter escape act i (text ++ rest) .outside state =
    scan delimiter escape act (i + text.length) rest .outside state

variable {state : σ}

theorem Skips.append {first second : List α} (before : Skips delimiter escape act state first)
    (after : Skips delimiter escape act state second) : Skips delimiter escape act state (first ++ second) := by
  intro i rest
  rw [List.append_assoc, before, after, List.length_append, Nat.add_assoc]

theorem skips_plain {text : List α} (plain : delimiter ∉ text) (keeps : ∀ i, ∀ ch ∈ text, act i ch state = .ok state) :
    Skips delimiter escape act state text := by
  induction text with
  | nil => exact fun i rest => rfl
  | cons ch text ih =>
    intro i rest
    have other : ch ≠ delimiter := fun same => plain (same ▸ List.mem_cons_self ..)
    have later := ih (fun member => plain (List.mem_cons_of_mem ch member))
      fun i ch member => keeps i ch (List.mem_cons_of_mem _ member)
    rw [List.cons_append, scan_ok _ other (keeps i ch (List.mem_cons_self ..)), later, List.length_cons]
    congr 1
    omega

theorem scan_escaped (text : List α) (i : Nat) (rest : List α) (state : σ) :
    scan delimiter escape act i (escapeText delimiter escape text ++ rest) ⟨true, false⟩ state =
      scan delimiter escape act (i + (escapeText delimiter escape text).length) rest ⟨true, false⟩ state := by
  induction text generalizing i with
  | nil => rfl
  | cons ch text ih =>
    rw [escapeText_cons]
    by_cases special : ch = delimiter ∨ ch = escape
    · rw [if_pos special]
      simp only [List.cons_append, List.nil_append, scan, Quote.inside, if_pos, if_false, Bool.false_eq_true]
      rw [ih]
      congr 1
      simp only [List.length_cons]
      omega
    · obtain ⟨plain, other⟩ := not_or.mp special
      rw [if_neg special]
      simp only [List.cons_append, List.nil_append, scan, Quote.inside, if_true, Bool.false_eq_true, if_false, plain, other]
      rw [ih]
      congr 1
      simp only [List.length_cons]
      omega

theorem skips_quoted (different : escape ≠ delimiter) (text : List α) :
    Skips delimiter escape act state (quoted delimiter escape text) := by
  intro i rest
  have opens : scan delimiter escape act i (quoted delimiter escape text ++ rest) .outside state =
      scan delimiter escape act (i + 1) (escapeText delimiter escape text ++ delimiter :: rest) ⟨true, false⟩ state := by
    simp [quoted, scan, Quote.outside]
  have closes (j : Nat) : scan delimiter escape act j (delimiter :: rest) ⟨true, false⟩ state =
      scan delimiter escape act (j + 1) rest .outside state := by
    simp [scan, Quote.inside, Quote.outside, Ne.symm different]
  rw [opens, scan_escaped, closes]
  congr 1
  simp only [quoted, List.length_cons, List.length_append, List.length_nil]
  omega

end Acrobe.QuotedScan
