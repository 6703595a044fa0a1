import Mathlib

/-!
# Answers by key

Entries bind keys to places in a list of answers; the first entry of a key counts. Entries and
answers grow together.
-/

namespace Ledger

variable {Key Answer : Type}

def lookup [BEq Key] (entries : List (Key × Nat)) (answers : List Answer) (key : Key) : Option Answer :=
  (entries.find? fun entry => entry.1 == key).bind fun entry => answers[entry.2]?

/-- The entries name places that have an answer. -/
def InRange (entries : List (Key × Nat)) (count : Nat) : Prop := ∀ entry ∈ entries, entry.2 < count

theorem inRange_bind {entries : List (Key × Nat)} {count : Nat} (inRange : InRange entries count) (keys : List Key) :
    InRange (entries ++ keys.map fun key => (key, count)) (count + 1) := by
  intro entry member
  obtain old | new := List.mem_append.mp member
  · exact Nat.lt_succ_of_lt (inRange entry old)
  · obtain ⟨key, -, rfl⟩ := List.mem_map.mp new
    exact Nat.lt_succ_self count

variable [BEq Key] [LawfulBEq Key]

theorem find_bound (keys : List Key) (count : Nat) (key : Key) :
    ((keys.map fun key => (key, count)).find? fun entry => entry.1 == key) =
      if keys.contains key then some (key, count) else none := by
  induction keys with
  | nil => rfl
  | cons first keys ih =>
    rw [List.map_cons, List.find?_cons, List.contains_cons]
    by_cases same : first = key
    · subst same
      rw [beq_self_eq_true, Bool.true_or]
      rfl
    · rw [beq_false_of_ne same, beq_false_of_ne (Ne.symm same), Bool.false_or]
      exact ih

theorem lookup_bind {entries : List (Key × Nat)} {answers : List Answer} (inRange : InRange entries answers.length)
    (keys : List Key) (answer : Answer) (key : Key) :
    lookup (entries ++ keys.map fun key => (key, answers.length)) (answers ++ [answer]) key =
      (lookup entries answers key).or (if keys.contains key then some answer else none) := by
  unfold lookup
  rw [List.find?_append, find_bound]
  cases found : entries.find? fun entry => entry.1 == key with
  | some entry =>
    have inside := inRange entry (List.mem_of_find?_eq_some found)
    rw [Option.some_or, Option.bind_some, Option.bind_some, List.getElem?_append_left inside,
      List.getElem?_eq_getElem inside]
    rfl
  | none =>
    rw [Option.none_or, Option.bind_none, Option.none_or]
    split
    · rw [Option.bind_some, List.getElem?_concat_length]
    · rfl

end Ledger
