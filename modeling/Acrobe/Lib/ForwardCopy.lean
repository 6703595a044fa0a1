import Mathlib

/-!
# Copying cell by cell

Cells of a memory are copied upwards, one after the other, to a range that may overlap the range they are read from.
-/

namespace ForwardCopy

variable {β : Type}

/-- The memory after the first cells have been copied from `source` on to `target` on. -/
def copy (source target : Nat) (memory : Nat → β) : Nat → Nat → β
  | 0 => memory
  | n + 1 =>
    let before := copy source target memory n
    Function.update before (target + n) (before (source + n))

variable {source target : Nat} {memory : Nat → β}

theorem copy_succ (n : Nat) : copy source target memory (n + 1) =
    Function.update (copy source target memory n) (target + n) (copy source target memory n (source + n)) := rfl

theorem copy_outside {n a : Nat} (outside : ∀ i < n, a ≠ target + i) : copy source target memory n a = memory a := by
  induction n with
  | zero => rfl
  | succ n ih =>
    rw [copy_succ, Function.update_of_ne (outside n (Nat.lt_succ_self n))]
    exact ih fun i inside => outside i (Nat.lt_succ_of_lt inside)

theorem copy_written {n i : Nat} (inside : i < n) :
    copy source target memory n (target + i) = copy source target memory i (source + i) := by
  induction n with
  | zero => omega
  | succ n ih =>
    rw [copy_succ]
    by_cases last : i = n
    · rw [last, Function.update_self]
    · rw [Function.update_of_ne (by omega)]
      exact ih (by omega)

theorem copy_down {n i : Nat} (below : target ≤ source) (inside : i < n) :
    copy source target memory n (target + i) = memory (source + i) := by
  rw [copy_written inside]
  exact copy_outside fun j earlier => by omega

theorem copy_near {n i : Nat} (inside : i < n) (near : source + i < target) :
    copy source target memory n (target + i) = memory (source + i) := by
  rw [copy_written inside]
  exact copy_outside fun j earlier => by omega

theorem copy_far {n i distance : Nat} (inside : i < n) (apart : target = source + distance) (positive : 0 < distance)
    (far : distance ≤ i) : copy source target memory n (target + i) = copy source target memory n (target + (i - distance)) := by
  have place : source + i = target + (i - distance) := by omega
  rw [copy_written inside, place, copy_written (show i - distance < i by omega),
    copy_written (show i - distance < n by omega)]

/-- The copy is exact unless it runs upwards into its own source, and then where the source repeats itself. -/
theorem copy_exact_iff {n : Nat} : (∀ i < n, copy source target memory n (target + i) = memory (source + i)) ↔
    (source < target → ∀ i < n, target - source ≤ i →
      memory (source + i) = memory (source + (i - (target - source)))) := by
  constructor
  · intro exact_ above i inside far
    rw [← exact_ i inside, copy_far inside (show target = source + (target - source) by omega) (by omega) far]
    exact exact_ _ (by omega)
  · intro repeats i inside
    by_cases above : source < target
    · induction i using Nat.strongRecOn with
      | ind i ih =>
        by_cases far : target - source ≤ i
        · rw [copy_far inside (show target = source + (target - source) by omega) (by omega) far,
            ih _ (by omega) (by omega), repeats above i inside far]
        · exact copy_near inside (by omega)
    · exact copy_down (Nat.le_of_not_lt above) inside

end ForwardCopy
