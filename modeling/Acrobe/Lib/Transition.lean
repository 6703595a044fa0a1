import Mathlib

/-!
# Runs of partial steps

A run folds a partial step over a list of events and stops at the first event that is not possible.
-/

namespace Acrobe.Lib

variable {σ ε : Type*} {step : σ → ε → Option σ}

/-- What every step keeps holds after a run. -/
theorem foldlM_invariant {inv : σ → Prop} (kept : ∀ s event next, inv s → step s event = some next → inv next)
    {s last : σ} {events : List ε} (start : inv s) (ran : events.foldlM step s = some last) : inv last := by
  induction events generalizing s with
  | nil =>
    cases ran
    exact start
  | cons event events ih =>
    obtain ⟨next, stepped, rest⟩ := Option.bind_eq_some_iff.mp ran
    exact ih (kept s event next start stepped) rest

/-- A measure that every event of the run pays for bounds what the run can cost. -/
theorem foldlM_bounded {measure : σ → Nat} {cost : ε → Nat} {s last : σ} {events : List ε}
    (paid : ∀ s event next, event ∈ events → step s event = some next → measure next + cost event ≤ measure s)
    (ran : events.foldlM step s = some last) : measure last + (events.map cost).sum ≤ measure s := by
  induction events generalizing s with
  | nil =>
    cases ran
    exact Nat.le_refl _
  | cons event events ih =>
    obtain ⟨next, stepped, rest⟩ := Option.bind_eq_some_iff.mp ran
    have first := paid s event next (List.mem_cons_self ..) stepped
    have others := ih (fun s event next member => paid s event next (List.mem_cons_of_mem _ member)) rest
    rw [List.map_cons, List.sum_cons]
    omega

/-- Where each event of its own lowers the measure of a system, they come to an end. -/
theorem foldlM_stops {measure : σ → Nat} {own : ε → Prop}
    (lowers : ∀ s event next, own event → step s event = some next → measure next < measure s) {s last : σ}
    {events : List ε} (all : ∀ event ∈ events, own event) (ran : events.foldlM step s = some last) :
    measure last + events.length ≤ measure s := by
  have bound : measure last + (events.map fun _ => 1).sum ≤ measure s :=
    foldlM_bounded (fun s event next member stepped => lowers s event next (all event member) stepped) ran
  rwa [List.map_const', List.sum_replicate, smul_eq_mul, Nat.mul_one] at bound

/-- Every event of the run meets a condition on the state before it. -/
def Along (step : σ → ε → Option σ) (condition : σ → ε → Prop) (s : σ) : List ε → Prop
  | [] => True
  | event :: events => condition s event ∧ match step s event with
    | some next => Along step condition next events
    | none => True

instance decidableAlong {condition : σ → ε → Prop} [∀ s event, Decidable (condition s event)] :
    (s : σ) → (events : List ε) → Decidable (Along step condition s events)
  | _, [] => .isTrue trivial
  | s, event :: events =>
    have : Decidable (match step s event with
        | some next => Along step condition next events
        | none => True) :=
      match step s event with
      | some next => decidableAlong next events
      | none => .isTrue trivial
    inferInstanceAs (Decidable (condition s event ∧ match step s event with
      | some next => Along step condition next events
      | none => True))

theorem along_all {other : ε → Prop} {events : List ε} (all : ∀ event ∈ events, other event) (s : σ) :
    Along step (fun _ event => other event) s events := by
  induction events generalizing s with
  | nil => trivial
  | cons event events ih =>
    refine ⟨all event (List.mem_cons_self ..), ?_⟩
    cases step s event with
    | none => trivial
    | some next => exact ih (fun event member => all event (List.mem_cons_of_mem _ member)) next

theorem Along.and {condition : σ → ε → Prop} {other : ε → Prop} {s : σ} {events : List ε}
    (along : Along step condition s events) (all : ∀ event ∈ events, other event) :
    Along step (fun s event => condition s event ∧ other event) s events := by
  induction events generalizing s with
  | nil => trivial
  | cons event events ih =>
    obtain ⟨met, others⟩ := along
    refine ⟨⟨met, all event (List.mem_cons_self ..)⟩, ?_⟩
    cases stepped : step s event with
    | none => trivial
    | some next =>
      rw [stepped] at others
      exact ih others fun event member => all event (List.mem_cons_of_mem _ member)

theorem foldlM_along {inv : σ → Prop} {condition : σ → ε → Prop}
    (kept : ∀ s event next, inv s → condition s event → step s event = some next → inv next)
    {s last : σ} {events : List ε} (start : inv s) (along : Along step condition s events)
    (ran : events.foldlM step s = some last) : inv last := by
  induction events generalizing s with
  | nil =>
    cases ran
    exact start
  | cons event events ih =>
    obtain ⟨next, stepped, rest⟩ := Option.bind_eq_some_iff.mp ran
    obtain ⟨met, others⟩ := along
    rw [stepped] at others
    exact ih (kept s event next start met stepped) others rest

end Acrobe.Lib
