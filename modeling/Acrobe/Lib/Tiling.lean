import Mathlib

/-!
# Tilings

A list of items with widths tiles an interval: an item begins where those
before it end. An item is located by what stands before and after it, and
`split_cases` compares two such splits of one list.
-/

namespace Acrobe.Lib.Tiling
variable {α : Type*} (w : α → Nat)

def width (items : List α) : Nat := (items.map w).sum

@[simp] theorem width_nil : width w [] = 0 := rfl

@[simp] theorem width_cons (a : α) (items : List α) : width w (a :: items) = w a + width w items := by
  rw [width, List.map_cons, List.sum_cons, width]

@[simp] theorem width_append (xs ys : List α) : width w (xs ++ ys) = width w xs + width w ys := by
  rw [width, List.map_append, List.sum_append, width, width]

variable {w}

theorem split_cases {pre pre' post post' : List α} {a a' : α} (same : pre ++ a :: post = pre' ++ a' :: post') :
    (pre = pre' ∧ a = a' ∧ post = post') ∨
    (∃ mid, pre' = pre ++ a :: mid ∧ post = mid ++ a' :: post') ∨
    (∃ mid, pre = pre' ++ a' :: mid ∧ post' = mid ++ a :: post) := by
  rcases List.append_eq_append_iff.mp same with ⟨gap, before, rest⟩ | ⟨gap, before, rest⟩
  · cases gap with
    | nil =>
      obtain ⟨rfl, rfl⟩ := List.cons.inj rest
      exact .inl ⟨by rw [before, List.append_nil], rfl, rfl⟩
    | cons b mid =>
      obtain ⟨rfl, after⟩ := List.cons.inj rest
      exact .inr (.inl ⟨mid, before, after⟩)
  · cases gap with
    | nil =>
      obtain ⟨rfl, rfl⟩ := List.cons.inj rest
      exact .inl ⟨by rw [before, List.append_nil], rfl, rfl⟩
    | cons b mid =>
      obtain ⟨rfl, after⟩ := List.cons.inj rest
      exact .inr (.inr ⟨mid, before, after⟩)

theorem split_unique {pre pre' post post' : List α} {a : α} (nodup : (pre ++ a :: post).Nodup)
    (same : pre ++ a :: post = pre' ++ a :: post') : pre = pre' ∧ post = post' := by
  have twice : ∀ {p m q : List α}, ¬ (p ++ a :: (m ++ a :: q)).Nodup := by
    intro p m q once
    exact (List.nodup_cons.mp once.of_append_right).1 (by simp)
  rcases split_cases same with ⟨before, _, after⟩ | ⟨mid, _, after⟩ | ⟨mid, before, _⟩
  · exact ⟨before, after⟩
  · rw [after] at nodup
    exact (twice nodup).elim
  · rw [before, List.append_assoc, List.cons_append] at nodup
    exact (twice nodup).elim

theorem split_append_cases {xs ys pre post : List α} {a : α} (same : xs ++ ys = pre ++ a :: post) :
    (∃ mid, xs = pre ++ a :: mid ∧ post = mid ++ ys) ∨ (∃ mid, ys = mid ++ a :: post ∧ pre = xs ++ mid) := by
  rcases List.append_eq_append_iff.mp same with ⟨mid, before, rest⟩ | ⟨gap, before, rest⟩
  · exact .inr ⟨mid, rest, before⟩
  · cases gap with
    | nil =>
      rw [List.append_nil] at before
      exact .inr ⟨[], rest.symm, by rw [before, List.append_nil]⟩
    | cons b mid =>
      obtain ⟨rfl, after⟩ := List.cons.inj rest
      exact .inl ⟨mid, before, after⟩

theorem exists_item_at {items : List α} {x : Nat} (inside : x < width w items) :
    ∃ pre a post, items = pre ++ a :: post ∧ width w pre ≤ x ∧ x < width w pre + w a := by
  induction items generalizing x with
  | nil => exact (Nat.not_lt_zero x inside).elim
  | cons b items ih =>
    by_cases here : x < w b
    · exact ⟨[], b, items, rfl, Nat.zero_le x, by rwa [width_nil, Nat.zero_add]⟩
    · rw [width_cons] at inside
      obtain ⟨pre, a, post, split, lower, upper⟩ := ih (x := x - w b) (by omega)
      refine ⟨b :: pre, a, post, by rw [split, List.cons_append], ?_, ?_⟩
      · rw [width_cons]
        omega
      · rw [width_cons]
        omega

theorem items_disjoint {pre pre' post post' : List α} {a a' : α} (other : a ≠ a')
    (same : pre ++ a :: post = pre' ++ a' :: post') :
    width w pre + w a ≤ width w pre' ∨ width w pre' + w a' ≤ width w pre := by
  rcases split_cases same with ⟨_, eq, _⟩ | ⟨mid, before, _⟩ | ⟨mid, before, _⟩
  · exact (other eq).elim
  · left
    rw [before, width_append, width_cons]
    omega
  · right
    rw [before, width_append, width_cons]
    omega

end Acrobe.Lib.Tiling

/-!
## Stretches between marked items

How much the items of a list weigh from one marked item to the next. The weight since the last mark
bounds every stretch that is still open.
-/

namespace Acrobe.Lib.Stretches
variable {α : Type*} (weight : α → Nat) (marked : α → Bool)

/-- What has been put behind the last marked item. -/
def since (items : List α) : Nat :=
  items.foldl (fun total a => if marked a then 0 else total + weight a) 0

/-- No stretch of unmarked items, with the item it ends at, weighs more than `bound`. -/
def Bounded (bound : Nat) (items : List α) : Prop :=
  ∀ pre mid a post, items = pre ++ mid ++ a :: post → (∀ m ∈ mid, marked m = false) →
    (mid.map weight).sum + weight a ≤ bound

variable {weight marked}

@[simp] theorem since_concat (items : List α) (a : α) :
    since weight marked (items ++ [a]) = if marked a then 0 else since weight marked items + weight a := by
  rw [since, List.foldl_append, ← since]
  rfl

theorem since_append_unmarked (pre : List α) {mid : List α} (unmarked : ∀ m ∈ mid, marked m = false) :
    since weight marked (pre ++ mid) = since weight marked pre + (mid.map weight).sum := by
  induction mid generalizing pre with
  | nil => simp
  | cons m mid ih =>
    have free := unmarked m List.mem_cons_self
    rw [List.append_cons, ih (pre ++ [m]) fun other member => unmarked other (List.mem_cons_of_mem _ member)]
    simp [free, Nat.add_assoc]

theorem bounded_nil (bound : Nat) : Bounded weight marked bound [] := by
  intro pre mid a post split
  simp at split

theorem Bounded.concat {bound : Nat} {items : List α} (bounded : Bounded weight marked bound items) {a : α}
    (room : since weight marked items + weight a ≤ bound) : Bounded weight marked bound (items ++ [a]) := by
  intro pre mid b post split unmarked
  rcases Tiling.split_append_cases split with ⟨rest, inside, _⟩ | ⟨rest, last, before⟩
  · exact bounded pre mid b rest inside unmarked
  · cases rest with
    | nil =>
      cases last
      rw [List.append_nil] at before
      have last : since weight marked (pre ++ mid) = since weight marked pre + (mid.map weight).sum :=
        since_append_unmarked pre unmarked
      rw [before] at last
      omega
    | cons c rest => simp at last

theorem Bounded.weight_le {bound : Nat} {items : List α} (bounded : Bounded weight marked bound items) {a : α}
    (member : a ∈ items) : weight a ≤ bound := by
  obtain ⟨pre, post, split⟩ := List.append_of_mem member
  simpa using bounded pre [] a post (by rw [split, List.append_nil]) nofun

end Acrobe.Lib.Stretches
