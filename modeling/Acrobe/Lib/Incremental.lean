import Mathlib

/-!
# Incremental decoding

A stream is decoded item by item from the front of a buffer. What is complete at the front stays as it
is when more of the stream arrives, so the items do not depend on where the stream is cut.
-/

namespace Incremental

variable {α β ε : Type}

/-- What stands at the front of a buffer. -/
inductive Front (β ε : Type) where
  | truncated
  | malformed (error : ε)
  | item (value : β) (consumed : Nat)
  deriving DecidableEq

structure Format (α β ε : Type) where
  front : List α → Front β ε
  empty : front [] = .truncated
  consumes : ∀ {buf value n}, front buf = .item value n → 0 < n ∧ n ≤ buf.length
  item_append : ∀ {buf value n}, front buf = .item value n → ∀ more, front (buf ++ more) = .item value n
  malformed_append : ∀ {buf error}, front buf = .malformed error → ∀ more, front (buf ++ more) = .malformed error

structure Outcome (α β ε : Type) where
  items : List β
  error : Option ε
  rest : List α
  deriving DecidableEq

namespace Format

variable (format : Format α β ε)

def decode : Nat → List α → Outcome α β ε
  | 0, buf => ⟨[], none, buf⟩
  | fuel + 1, buf =>
    match format.front buf with
    | .truncated => ⟨[], none, buf⟩
    | .malformed error => ⟨[], some error, buf⟩
    | .item value n =>
      let later := decode fuel (buf.drop n)
      { later with items := value :: later.items }

/-- Each item takes something from the buffer, so its length is fuel enough. -/
def read (buf : List α) : Outcome α β ε := format.decode buf.length buf

/-- A whole number of items. -/
def Reads (buf : List α) (items : List β) : Prop := format.read buf = ⟨items, none, []⟩

/-- Nothing at the front can be decoded yet. -/
def Settled (buf : List α) : Prop := format.front buf = .truncated

variable {format}

theorem decode_enough {fuel : Nat} {buf : List α} (enough : buf.length ≤ fuel) :
    format.decode fuel buf = format.read buf := by
  have steady : ∀ fuel (buf : List α), buf.length ≤ fuel →
      format.decode fuel buf = format.decode (fuel + 1) buf := by
    intro fuel
    induction fuel with
    | zero =>
      intro buf short
      have nothing : buf = [] := List.length_eq_zero_iff.mp (by omega)
      rw [nothing, decode, decode, format.empty]
    | succ fuel ih =>
      intro buf short
      rw [decode, decode]
      split
      · rfl
      · rfl
      · rename_i value n item
        have consumed := format.consumes item
        rw [ih (buf.drop n) (by rw [List.length_drop]; omega)]
  obtain ⟨extra, rfl⟩ := Nat.exists_eq_add_of_le enough
  induction extra with
  | zero => rfl
  | succ extra ih => rw [← ih (by omega), ← Nat.add_assoc, ← steady _ buf (by omega)]

theorem read_nil : format.read [] = ⟨[], none, []⟩ := rfl

theorem read_eq (buf : List α) : format.read buf =
    match format.front buf with
    | .truncated => ⟨[], none, buf⟩
    | .malformed error => ⟨[], some error, buf⟩
    | .item value n =>
      { items := value :: (format.read (buf.drop n)).items
        error := (format.read (buf.drop n)).error
        rest := (format.read (buf.drop n)).rest } := by
  cases buf with
  | nil => rw [read_nil, format.empty]
  | cons head tail =>
    rw [read, List.length_cons, decode]
    cases front : format.front (head :: tail) with
    | truncated => rfl
    | malformed error => rfl
    | item value n =>
      have consumed := format.consumes front
      rw [List.length_cons] at consumed
      dsimp only
      rw [decode_enough (by rw [List.length_drop, List.length_cons]; omega)]

theorem Settled.read {buf : List α} (settled : format.Settled buf) : format.read buf = ⟨[], none, buf⟩ := by
  rw [read_eq, settled]

theorem read_malformed {buf : List α} {error : ε} (malformed : format.front buf = .malformed error) :
    format.read buf = ⟨[], some error, buf⟩ := by
  rw [read_eq, malformed]

theorem read_item {buf : List α} {value : β} {n : Nat} (item : format.front buf = .item value n) :
    format.read buf = ⟨value :: (format.read (buf.drop n)).items, (format.read (buf.drop n)).error,
      (format.read (buf.drop n)).rest⟩ := by
  rw [read_eq, item]

theorem induction {motive : List α → Prop} (buf : List α)
    (settled : ∀ buf, format.Settled buf → motive buf)
    (malformed : ∀ buf error, format.front buf = .malformed error → motive buf)
    (item : ∀ buf value n, format.front buf = .item value n → motive (buf.drop n) → motive buf) : motive buf := by
  generalize size : buf.length = length
  induction length using Nat.strongRecOn generalizing buf with
  | ind length ih =>
    cases front : format.front buf with
    | truncated => exact settled buf front
    | malformed error => exact malformed buf error front
    | item value n =>
      have consumed := format.consumes front
      exact item buf value n front (ih (buf.drop n).length (by rw [List.length_drop]; omega) _ rfl)

theorem read_append {buf : List α} (sound : (format.read buf).error = none) (more : List α) :
    format.read (buf ++ more) =
      ⟨(format.read buf).items ++ (format.read ((format.read buf).rest ++ more)).items,
        (format.read ((format.read buf).rest ++ more)).error,
        (format.read ((format.read buf).rest ++ more)).rest⟩ := by
  induction buf using format.induction with
  | settled buf settled =>
    rw [settled.read]
    rfl
  | malformed buf error malformed =>
    rw [read_malformed malformed] at sound
    cases sound
  | item buf value n item ih =>
    have consumed := format.consumes item
    rw [read_item item] at sound
    rw [read_item (format.item_append item more), List.drop_append_of_le_length consumed.2, ih sound, read_item item]
    rfl

theorem read_append_malformed {buf : List α} {error : ε} (failed : (format.read buf).error = some error)
    (more : List α) : (format.read (buf ++ more)).error = some error := by
  induction buf using format.induction with
  | settled buf settled =>
    rw [settled.read] at failed
    cases failed
  | malformed buf found malformed =>
    rw [read_malformed malformed] at failed
    rw [read_malformed (format.malformed_append malformed more)]
    exact failed
  | item buf value n item ih =>
    have consumed := format.consumes item
    rw [read_item item] at failed
    rw [read_item (format.item_append item more), List.drop_append_of_le_length consumed.2]
    exact ih failed

theorem settled_rest {buf : List α} (sound : (format.read buf).error = none) :
    format.Settled (format.read buf).rest := by
  induction buf using format.induction with
  | settled buf settled =>
    rw [settled.read]
    exact settled
  | malformed buf error malformed =>
    rw [read_malformed malformed] at sound
    cases sound
  | item buf value n item ih =>
    rw [read_item item] at sound ⊢
    exact ih sound

theorem Reads.append {buf : List α} {items : List β} (whole : format.Reads buf items) (more : List α) :
    format.read (buf ++ more) =
      ⟨items ++ (format.read more).items, (format.read more).error, (format.read more).rest⟩ := by
  rw [Reads] at whole
  rw [read_append (by rw [whole]), whole, List.nil_append]

theorem reads_nil : format.Reads [] [] := read_nil

theorem reads_item {buf : List α} {value : β} (item : format.front buf = .item value buf.length) :
    format.Reads buf [value] := by
  rw [Reads, read_item item, List.drop_length, read_nil]

theorem Reads.trans {front back : List α} {xs ys : List β} (first : format.Reads front xs)
    (second : format.Reads back ys) : format.Reads (front ++ back) (xs ++ ys) := by
  rw [Reads, first.append back, second]

theorem Reads.eq_nil {buf : List α} (whole : format.Reads buf []) : buf = [] := by
  rw [Reads, read_eq] at whole
  cases front : format.front buf with
  | truncated =>
    rw [front] at whole
    exact congrArg Outcome.rest whole
  | malformed error =>
    rw [front] at whole
    cases whole
  | item value n =>
    rw [front] at whole
    cases whole

/-- The items of a cut stream are split by the cut. -/
theorem Reads.cut {front back : List α} {items : List β} (whole : format.Reads (front ++ back) items) :
    (format.read front).error = none ∧
      ∃ later, format.Reads ((format.read front).rest ++ back) later ∧ items = (format.read front).items ++ later := by
  have sound : (format.read front).error = none := by
    cases failed : (format.read front).error with
    | none => rfl
    | some error =>
      have again := read_append_malformed failed back
      rw [show format.read (front ++ back) = _ from whole] at again
      cases again
  refine ⟨sound, _, ?_, congrArg Outcome.items (whole.symm.trans (read_append sound back))⟩
  have joined := read_append sound back
  rw [show format.read (front ++ back) = _ from whole] at joined
  have error := congrArg Outcome.error joined
  have rest := congrArg Outcome.rest joined
  dsimp only at error rest
  rw [Reads]
  cases outcome : format.read ((format.read front).rest ++ back) with
  | mk later failed left =>
    rw [outcome] at error rest
    dsimp only at error rest ⊢
    rw [← error, ← rest]

end Format

end Incremental
