import Mathlib

/-!
# Futures

A table of futures in the order in which they were handed out. A future is settled at most once: what
comes later, a cancellation included, leaves it as it is.
-/

namespace Futures

variable {α ε : Type}

inductive Status (α ε : Type) where
  | pending
  | result (value : α)
  | exception (error : ε)
  | cancelled
  deriving DecidableEq

abbrev Table (α ε : Type) := List (Status α ε)

namespace Table

def Pending (table : Table α ε) (future : Nat) : Prop := table[future]? = some .pending

theorem Pending.lt {table : Table α ε} {future : Nat} (pending : table.Pending future) : future < table.length :=
  (List.getElem?_eq_some_iff.mp pending).1

theorem pending_append {table : Table α ε} {status : Status α ε} {other : Nat} :
    Pending (table ++ [status]) other ↔ table.Pending other ∨ (other = table.length ∧ status = .pending) := by
  rw [Pending, Pending]
  rcases Nat.lt_trichotomy other table.length with inside | rfl | outside
  · rw [List.getElem?_append_left inside]
    exact ⟨.inl, fun either => either.resolve_right fun both => absurd both.1 (Nat.ne_of_lt inside)⟩
  · rw [List.getElem?_concat_length, List.getElem?_eq_none (Nat.le_refl _)]
    exact ⟨fun same => .inr ⟨rfl, Option.some.inj same⟩, fun either => by
      rcases either with missing | ⟨-, same⟩
      · cases missing
      · rw [same]⟩
  · rw [List.getElem?_eq_none (by simp; omega), List.getElem?_eq_none (by omega)]
    exact ⟨nofun, fun either => by
      rcases either with missing | ⟨same, -⟩
      · cases missing
      · omega⟩

variable [DecidableEq α] [DecidableEq ε]

instance (table : Table α ε) (future : Nat) : Decidable (table.Pending future) :=
  inferInstanceAs (Decidable (_ = _))

/-- Nothing when the future is done. -/
def settle (table : Table α ε) (future : Nat) (status : Status α ε) : Table α ε :=
  if table.Pending future then table.set future status else table

def settleAll (table : Table α ε) (futures : List Nat) (status : Status α ε) : Table α ε :=
  futures.foldl (fun table future => table.settle future status) table

@[simp] theorem length_settle (table : Table α ε) (future : Nat) (status : Status α ε) :
    (table.settle future status).length = table.length := by
  unfold settle
  split
  · exact List.length_set
  · rfl

@[simp] theorem length_settleAll (table : Table α ε) (futures : List Nat) (status : Status α ε) :
    (table.settleAll futures status).length = table.length := by
  induction futures generalizing table with
  | nil => rfl
  | cons future futures ih => exact (ih _).trans (length_settle table future status)

theorem pending_settle {table : Table α ε} {future other : Nat} {status : Status α ε} (done : status ≠ .pending) :
    (table.settle future status).Pending other ↔ table.Pending other ∧ other ≠ future := by
  unfold settle
  by_cases pending : table.Pending future
  · rw [if_pos pending, Pending, List.getElem?_set]
    by_cases same : future = other
    · subst same
      rw [if_pos rfl, if_pos pending.lt]
      exact ⟨fun again => absurd (Option.some.inj again) done, fun both => absurd rfl both.2⟩
    · rw [if_neg same]
      exact ⟨fun other => ⟨other, fun equal => same equal.symm⟩, And.left⟩
  · rw [if_neg pending]
    exact ⟨fun other => ⟨other, fun same => pending (same ▸ other)⟩, And.left⟩

theorem pending_settleAll {table : Table α ε} {futures : List Nat} {other : Nat} {status : Status α ε}
    (done : status ≠ .pending) :
    (table.settleAll futures status).Pending other ↔ table.Pending other ∧ other ∉ futures := by
  induction futures generalizing table with
  | nil => exact ⟨fun pending => ⟨pending, List.not_mem_nil⟩, And.left⟩
  | cons future futures ih =>
    change ((table.settle future status).settleAll futures status).Pending other ↔ _
    rw [ih, pending_settle done, List.mem_cons, not_or, and_assoc]

theorem settle_of_pending {table : Table α ε} {future : Nat} (pending : table.Pending future) (status : Status α ε) :
    (table.settle future status)[future]? = some status := by
  rw [settle, if_pos pending, List.getElem?_set, if_pos rfl, if_pos pending.lt]

theorem settle_of_ne {table : Table α ε} {future other : Nat} (different : other ≠ future) (status : Status α ε) :
    (table.settle future status)[other]? = table[other]? := by
  unfold settle
  split
  · rw [List.getElem?_set, if_neg (fun same => different same.symm)]
  · rfl

theorem settle_of_done {table : Table α ε} {future other : Nat} {status kept : Status α ε}
    (settled : table[other]? = some kept) (done : kept ≠ .pending) :
    (table.settle future status)[other]? = some kept := by
  unfold settle
  split
  · rename_i pending
    by_cases same : future = other
    · subst same
      rw [pending] at settled
      exact absurd (Option.some.inj settled).symm done
    · rw [List.getElem?_set, if_neg same, settled]
  · exact settled

theorem settle_cases {table : Table α ε} {future other : Nat} {status kept : Status α ε}
    (found : (table.settle future status)[other]? = some kept) :
    table[other]? = some kept ∨ other = future ∧ kept = status := by
  by_cases same : other = future
  · subst same
    by_cases pending : table.Pending other
    · rw [settle_of_pending pending] at found
      exact .inr ⟨rfl, (Option.some.inj found).symm⟩
    · rw [settle, if_neg pending] at found
      exact .inl found
  · rw [settle_of_ne same] at found
    exact .inl found

theorem settleAll_cases {table : Table α ε} {futures : List Nat} {other : Nat} {status kept : Status α ε}
    (found : (table.settleAll futures status)[other]? = some kept) : table[other]? = some kept ∨ kept = status := by
  induction futures generalizing table with
  | nil => exact .inl found
  | cons future futures ih =>
    rcases ih found with before | same
    · exact (settle_cases before).imp_right And.right
    · exact .inr same

theorem settleAll_of_done {table : Table α ε} {futures : List Nat} {other : Nat} {status kept : Status α ε}
    (settled : table[other]? = some kept) (done : kept ≠ .pending) :
    (table.settleAll futures status)[other]? = some kept := by
  induction futures generalizing table with
  | nil => exact settled
  | cons future futures ih => exact ih (settle_of_done settled done)

theorem settleAll_of_mem {table : Table α ε} {futures : List Nat} {future : Nat} {status : Status α ε}
    (pending : table.Pending future) (member : future ∈ futures) (done : status ≠ .pending) :
    (table.settleAll futures status)[future]? = some status := by
  induction futures generalizing table with
  | nil => cases member
  | cons head futures ih =>
    change ((table.settle head status).settleAll futures status)[future]? = some status
    by_cases same : future = head
    · subst same
      exact settleAll_of_done (settle_of_pending pending status) done
    · exact ih ((settle_of_ne same status).trans pending) ((List.mem_cons.mp member).resolve_left same)

/-! ### Who settles a future -/

/-- Every pending future is owned by exactly one place that will settle it. -/
structure Covers (owned : List Nat) (table : Table α ε) : Prop where
  known : ∀ future ∈ owned, future < table.length
  distinct : owned.Nodup
  pending : ∀ future, table.Pending future → future ∈ owned

namespace Covers

omit [DecidableEq α] [DecidableEq ε] in
theorem perm {owned other : List Nat} {table : Table α ε} (covers : Covers owned table) (same : owned.Perm other) :
    Covers other table where
  known := fun future member => covers.known future (same.mem_iff.mpr member)
  distinct := same.nodup_iff.mp covers.distinct
  pending := fun future pending => same.mem_iff.mp (covers.pending future pending)

omit [DecidableEq α] [DecidableEq ε] in
theorem handOut {owned : List Nat} {table : Table α ε} (covers : Covers owned table) (status : Status α ε) :
    Covers (table.length :: owned) (table ++ [status]) where
  known := by
    intro future member
    rw [List.length_append, List.length_singleton]
    rcases List.mem_cons.mp member with rfl | member
    · omega
    · have inside := covers.known future member
      omega
  distinct := List.nodup_cons.mpr ⟨fun member => Nat.lt_irrefl _ (covers.known _ member), covers.distinct⟩
  pending := by
    intro future pending
    rcases pending_append.mp pending with before | ⟨rfl, -⟩
    · exact List.mem_cons_of_mem _ (covers.pending future before)
    · exact List.mem_cons_self

theorem settle {owned : List Nat} {table : Table α ε} (covers : Covers owned table) (future : Nat)
    {status : Status α ε} (done : status ≠ .pending) : Covers owned (table.settle future status) where
  known := fun other member => by
    rw [length_settle]
    exact covers.known other member
  distinct := covers.distinct
  pending := fun other pending => covers.pending other ((pending_settle done).mp pending).1

omit [DecidableEq α] [DecidableEq ε] in
theorem drop {owned : List Nat} {future : Nat} {table : Table α ε} (covers : Covers (future :: owned) table)
    (settled : ¬table.Pending future) : Covers owned table where
  known := fun other member => covers.known other (List.mem_cons_of_mem _ member)
  distinct := (List.nodup_cons.mp covers.distinct).2
  pending := fun other pending => (List.mem_cons.mp (covers.pending other pending)).resolve_left
    fun same => settled (same ▸ pending)

theorem release {owned : List Nat} {future : Nat} {table : Table α ε} (covers : Covers (future :: owned) table)
    {status : Status α ε} (done : status ≠ .pending) : Covers owned (table.settle future status) :=
  (covers.settle future done).drop fun pending => ((pending_settle done).mp pending).2 rfl

theorem releaseAll {futures owned : List Nat} {table : Table α ε} (covers : Covers (futures ++ owned) table)
    {status : Status α ε} (done : status ≠ .pending) : Covers owned (table.settleAll futures status) := by
  induction futures generalizing table with
  | nil => exact covers
  | cons future futures ih => exact ih (covers.release done)

end Covers

end Table

end Futures
