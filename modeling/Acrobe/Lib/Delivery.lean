import Acrobe.Lib.Futures

/-!
# Delivery in post order

The results of a table in the order in which its futures were handed out, and queues of futures that
wait in that order for the values of one channel.
-/

namespace Futures

variable {α ε : Type}

def Status.result? : Status α ε → Option α
  | .result value => some value
  | _ => none

namespace Table

/-- What the table delivers, in post order. -/
def results (table : Table α ε) : List α := table.filterMap Status.result?

theorem results_append (front back : Table α ε) : results (front ++ back) = results front ++ results back :=
  List.filterMap_append

theorem results_concat {status : Status α ε} (empty : status.result? = none) (table : Table α ε) :
    results (table ++ [status]) = results table := by
  rw [results_append, results, results, List.filterMap_cons, empty, List.filterMap_nil, List.append_nil]

theorem results_around {table : Table α ε} {future : Nat} {status : Status α ε} (found : table[future]? = some status) :
    results table = results (table.take future) ++ (status.result?.toList ++ results (table.drop (future + 1))) := by
  obtain ⟨inside, value⟩ := List.getElem?_eq_some_iff.mp found
  conv_lhs => rw [← List.take_append_drop future table, List.drop_eq_getElem_cons inside, value, results_append]
  congr 1
  rw [results, List.filterMap_cons]
  cases status.result? <;> rfl

theorem mem_results {table : Table α ε} {value : α} (member : value ∈ results table) :
    ∃ future : Nat, table[future]? = some (Status.result value) := by
  obtain ⟨status, inside, same⟩ := List.mem_filterMap.mp member
  obtain ⟨future, found⟩ := List.mem_iff_getElem?.mp inside
  cases status with
  | result other =>
    cases same
    exact ⟨future, found⟩
  | _ => cases same

variable [DecidableEq α] [DecidableEq ε]

theorem results_settle {table : Table α ε} {future : Nat} (pending : table.Pending future) (status : Status α ε) :
    results (table.settle future status) =
      results (table.take future) ++ (status.result?.toList ++ results (table.drop (future + 1))) := by
  rw [results_around (settle_of_pending pending status), settle, if_pos pending, List.take_set_of_le (Nat.le_refl _),
    List.drop_set_of_lt (Nat.lt_succ_self _)]

theorem results_settle_none (table : Table α ε) (future : Nat) {status : Status α ε} (empty : status.result? = none) :
    results (table.settle future status) = results table := by
  by_cases pending : table.Pending future
  · rw [results_settle pending, results_around pending, empty]
    rfl
  · rw [settle, if_neg pending]

theorem results_settleAll_none (table : Table α ε) (futures : List Nat) {status : Status α ε}
    (empty : status.result? = none) : results (table.settleAll futures status) = results table := by
  induction futures generalizing table with
  | nil => rfl
  | cons future futures ih => exact (ih _).trans (results_settle_none table future empty)

theorem result_of_settle {table : Table α ε} {future other : Nat} {status : Status α ε} {value : α}
    (empty : status.result? = none) (found : (table.settle future status)[other]? = some (.result value)) :
    table[other]? = some (.result value) := by
  by_cases same : other = future
  · subst same
    by_cases pending : table.Pending other
    · rw [settle_of_pending pending] at found
      cases found
      cases empty
    · rw [settle, if_neg pending] at found
      exact found
  · rw [settle_of_ne same] at found
    exact found

theorem result_of_settleAll {table : Table α ε} {futures : List Nat} {other : Nat} {status : Status α ε} {value : α}
    (empty : status.result? = none) (found : (table.settleAll futures status)[other]? = some (.result value)) :
    table[other]? = some (.result value) := by
  induction futures generalizing table with
  | nil => exact found
  | cons future futures ih => exact result_of_settle empty (ih found)

theorem results_settle_other {table : Table α ε} {future : Nat} {channel : α → Bool}
    (pending : table.Pending future) {value : α} (other : channel value = false) :
    (results (table.settle future (.result value))).filter channel = (results table).filter channel := by
  rw [results_settle pending, results_around pending, List.filter_append, List.filter_append, List.filter_append,
    List.filter_append]
  change _ ++ (List.filter channel [value] ++ _) = _ ++ ([] ++ _)
  rw [List.filter_singleton, other]
  rfl

/-! ### Queues -/

/-- The futures wait for values of the channel in post order, behind everything delivered from it. -/
structure Queued (channel : α → Bool) (table : Table α ε) (waiters : List Nat) : Prop where
  known : ∀ waiter ∈ waiters, waiter < table.length
  sorted : waiters.Pairwise (· < ·)
  newest : ∀ waiter ∈ waiters, ∀ later value, waiter ≤ later → table[later]? = some (.result value) →
    channel value = false

omit [DecidableEq α] [DecidableEq ε] in
theorem queued_nil (channel : α → Bool) (table : Table α ε) : Queued channel table [] :=
  ⟨nofun, .nil, nofun⟩

namespace Queued
variable {channel : α → Bool} {table : Table α ε} {waiters : List Nat}

omit [DecidableEq α] [DecidableEq ε] in
theorem sublist {fewer : List Nat} (queued : Queued channel table waiters) (part : fewer.Sublist waiters) :
    Queued channel table fewer where
  known := fun waiter member => queued.known waiter (part.subset member)
  sorted := queued.sorted.sublist part
  newest := fun waiter member => queued.newest waiter (part.subset member)

omit [DecidableEq α] [DecidableEq ε] in
theorem handOut (queued : Queued channel table waiters) {status : Status α ε} (empty : status.result? = none) :
    Queued channel (table ++ [status]) (waiters ++ [table.length]) where
  known := by
    intro waiter member
    rw [List.length_append, List.length_singleton]
    rcases List.mem_append.mp member with before | last
    · exact Nat.lt_succ_of_lt (queued.known waiter before)
    · rw [List.mem_singleton.mp last]
      exact Nat.lt_succ_self _
  sorted := List.pairwise_append.mpr ⟨queued.sorted, List.pairwise_singleton _ _, fun waiter member last same => by
    rw [List.mem_singleton.mp same]
    exact queued.known waiter member⟩
  newest := by
    intro waiter member later value behind found
    rcases Nat.lt_trichotomy later table.length with inside | rfl | outside
    · rw [List.getElem?_append_left inside] at found
      rcases List.mem_append.mp member with before | last
      · exact queued.newest waiter before later value behind found
      · rw [List.mem_singleton.mp last] at behind
        omega
    · rw [List.getElem?_concat_length] at found
      cases found
      cases empty
    · rw [List.getElem?_eq_none (by rw [List.length_append, List.length_singleton]; omega)] at found
      cases found

omit [DecidableEq α] [DecidableEq ε] in
theorem grow (queued : Queued channel table waiters) {status : Status α ε} (empty : status.result? = none) :
    Queued channel (table ++ [status]) waiters :=
  (queued.handOut empty).sublist (List.sublist_append_left _ _)

theorem settle (queued : Queued channel table waiters) {future : Nat} {status : Status α ε}
    (apart : (∀ value, status = .result value → channel value = false) ∨ ∀ waiter ∈ waiters, future < waiter) :
    Queued channel (table.settle future status) waiters where
  known := fun waiter member => by
    rw [length_settle]
    exact queued.known waiter member
  sorted := queued.sorted
  newest := by
    intro waiter member later value behind found
    by_cases same : later = future
    · subst same
      rcases apart with other | before
      · by_cases pending : table.Pending later
        · rw [settle_of_pending pending] at found
          exact other value (Option.some.inj found)
        · rw [Table.settle, if_neg pending] at found
          exact queued.newest waiter member later value behind found
      · exact absurd (before waiter member) (Nat.not_lt.mpr behind)
    · rw [settle_of_ne same] at found
      exact queued.newest waiter member later value behind found

theorem settleAll (queued : Queued channel table waiters) (futures : List Nat) {status : Status α ε}
    (empty : status.result? = none) : Queued channel (table.settleAll futures status) waiters := by
  induction futures generalizing table with
  | nil => exact queued
  | cons future futures ih =>
    refine ih (queued.settle (.inl ?_))
    rintro value rfl
    cases empty

theorem deliver {waiter : Nat} (queued : Queued channel table (waiter :: waiters)) (pending : table.Pending waiter)
    {value : α} (mine : channel value = true) :
    (results (table.settle waiter (.result value))).filter channel = (results table).filter channel ++ [value] ∧
      Queued channel (table.settle waiter (.result value)) waiters := by
  have ahead := List.pairwise_cons.mp queued.sorted
  refine ⟨?_, (queued.sublist (List.sublist_cons_self _ _)).settle (.inr ahead.1)⟩
  have behind : (results (table.drop (waiter + 1))).filter channel = [] := by
    apply List.filter_eq_nil_iff.mpr
    intro other member
    obtain ⟨index, found⟩ := mem_results member
    rw [List.getElem?_drop] at found
    rw [queued.newest waiter List.mem_cons_self _ other (by omega) found]
    exact Bool.false_ne_true
  rw [results_settle pending, results_around pending, List.filter_append, List.filter_append, List.filter_append,
    List.filter_append, behind, List.append_nil, List.append_nil]
  change _ ++ List.filter channel [value] = _ ++ [] ++ _
  rw [List.append_nil, List.filter_singleton, mine]
  rfl

end Queued
end Table
end Futures
