import Mathlib

/-!
# Unfoldings of a graph

An unfolding follows the edges of a graph without a memory of where it has been. It ends at a depth if and only if no
cycle is reachable, where the places have finitely many keys.
-/

namespace Acrobe

open Relation

universe u v

variable {α : Type u}

/-- Which places have an unfolding of at most a depth. -/
structure Unfolds (next : α → α → Prop) (ends : Nat → α → Prop) : Prop where
  zero : ∀ place, ¬ends 0 place
  succ : ∀ depth place, ends (depth + 1) place ↔ ∀ other, next place other → ends depth other

/-- No place that is reachable is reachable from itself. -/
def NoCycle (next : α → α → Prop) (place : α) : Prop :=
  ∀ other, ReflTransGen next place other → ¬TransGen next other other

variable {next : α → α → Prop} {ends : Nat → α → Prop} {place : α}

namespace Unfolds

theorem acc (unfolds : Unfolds next ends) {depth : Nat} (finished : ends depth place) :
    Acc (fun other place => next place other) place := by
  induction depth generalizing place with
  | zero => exact absurd finished (unfolds.zero place)
  | succ depth ih =>
    constructor
    intro other edge
    exact ih ((unfolds.succ depth place).mp finished other edge)

theorem noCycle (unfolds : Unfolds next ends) {depth : Nat} (finished : ends depth place) : NoCycle next place := by
  have accessible := unfolds.acc finished
  intro other path
  have reached : Acc (fun other place => next place other) other := by
    induction path with
    | refl => exact accessible
    | tail _ edge ih => exact ih.inv edge
  have below := reached.transGen
  induction below with
  | intro other _ ih =>
    intro cycle
    exact ih other cycle.swap path reached cycle

theorem chain (unfolds : Unfolds next ends) {depth : Nat} (unfinished : ¬ends depth place) :
    ∃ chain : List α, chain.length = depth ∧ (place :: chain).IsChain next := by
  induction depth generalizing place with
  | zero => exact ⟨[], rfl, List.isChain_singleton place⟩
  | succ depth ih =>
    rw [unfolds.succ] at unfinished
    push Not at unfinished
    obtain ⟨other, edge, later⟩ := unfinished
    obtain ⟨chain, length, linked⟩ := ih later
    exact ⟨other :: chain, congrArg Nat.succ length, List.isChain_cons_cons.mpr ⟨edge, linked⟩⟩

/-- The places that are reachable differ by keys, of which there are finitely many: their number is a depth. -/
theorem ends_of_noCycle {γ : Type v} (unfolds : Unfolds next ends) {key : α → γ} (keys : Finset γ)
    (inside : ∀ other, TransGen next place other → key other ∈ keys)
    (keyed : ∀ first second, TransGen next place first → TransGen next place second → key first = key second →
      first = second)
    (acyclic : NoCycle next place) : ends (keys.card + 1) place := by
  classical
  by_contra unfinished
  obtain ⟨chain, length, linked⟩ := unfolds.chain unfinished
  have paths : (place :: chain).Pairwise (TransGen next) :=
    List.isChain_iff_pairwise.mp (linked.imp fun _ _ edge => TransGen.single edge)
  obtain ⟨reached, inner⟩ := List.pairwise_cons.mp paths
  have distinct : (chain.map key).Nodup := by
    rw [List.nodup_map_iff_inj_on ?_]
    · intro first firstIn second secondIn same
      exact keyed first second (reached first firstIn) (reached second secondIn) same
    · refine inner.imp_of_mem ?_
      intro first second firstIn _ path same
      rw [← same] at path
      exact acyclic first (reached first firstIn).to_reflTransGen path
  have among : (chain.map key).toFinset ⊆ keys := by
    intro value member
    obtain ⟨other, present, rfl⟩ := List.mem_map.mp (List.mem_toFinset.mp member)
    exact inside other (reached other present)
  have short := Finset.card_le_card among
  rw [List.toFinset_card_of_nodup distinct, List.length_map, length] at short
  omega

end Unfolds

end Acrobe
