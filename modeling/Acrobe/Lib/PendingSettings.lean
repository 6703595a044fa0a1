import Mathlib

/-!
# Settings that travel with the next batch

An encoder keeps settings for a device and sends those that have changed in front of the next batch. The invariant of a
run is that the device has every setting that the encoder does not hold back.
-/

namespace PendingSettings

/-- `sent` is what reaches the device, nothing if the batch is refused. -/
structure Encoder (C ε α κ R : Type) where
  change : C → ε → C
  encode : C → α → C
  sent : C → α → Option (List κ)
  wants : C → R
  apply : R → κ → R
  setting : κ → Bool
  clean : C → Prop

variable {C ε α κ R : Type} (encoder : Encoder C ε α κ R)

namespace Encoder

/-- The encoder and the device's settings after a change or a batch. -/
def step (s : C × R) : ε ⊕ α → C × R
  | .inl change => (encoder.change s.1 change, s.2)
  | .inr batch => (encoder.encode s.1 batch, ((encoder.sent s.1 batch).getD []).foldl encoder.apply s.2)

def run (s : C × R) (events : List (ε ⊕ α)) : C × R := events.foldl encoder.step s

/-- The condition on a run: a batch is refused only while nothing is held back. -/
def RefusedClean (s : C × R) : List (ε ⊕ α) → Prop
  | [] => True
  | .inl change :: events => RefusedClean (encoder.step s (.inl change)) events
  | .inr batch :: events =>
    (encoder.sent s.1 batch = none → encoder.clean s.1) ∧ RefusedClean (encoder.step s (.inr batch)) events

/-- Every command that is no setting is executed under the settings that the encoder has. -/
def InStep (wanted : R) (r : R) : List κ → Prop
  | [] => True
  | command :: commands =>
    (encoder.setting command = false → r = wanted) ∧ InStep wanted (encoder.apply r command) commands

/-- Every batch of the run is executed in step. -/
def RunInStep (s : C × R) : List (ε ⊕ α) → Prop
  | [] => True
  | .inl change :: events => RunInStep (encoder.step s (.inl change)) events
  | .inr batch :: events =>
    (∀ commands, encoder.sent s.1 batch = some commands → encoder.InStep (encoder.wants s.1) s.2 commands) ∧
      RunInStep (encoder.step s (.inr batch)) events

end Encoder

/-- `agree` says that the device has every setting that is not held back. -/
structure Keeps (agree : C → R → Prop) : Prop where
  change : ∀ {c r}, agree c r → ∀ e, agree (encoder.change c e) r
  refused : ∀ {c b}, encoder.sent c b = none → encoder.clean c → encoder.encode c b = c
  sends : ∀ {c r b commands}, agree c r → encoder.sent c b = some commands → ∃ settings body,
    commands = settings ++ body ∧ (∀ k ∈ settings, encoder.setting k = true) ∧ (∀ k ∈ body, encoder.setting k = false) ∧
      settings.foldl encoder.apply r = encoder.wants c ∧ agree (encoder.encode c b) (encoder.wants c)
  leaves : ∀ {k}, encoder.setting k = false → ∀ r, encoder.apply r k = r

variable {encoder} {agree : C → R → Prop}

theorem Keeps.body (keeps : Keeps encoder agree) {body : List κ} (plain : ∀ k ∈ body, encoder.setting k = false) (r : R) :
    body.foldl encoder.apply r = r ∧ encoder.InStep r r body := by
  induction body with
  | nil => exact ⟨rfl, trivial⟩
  | cons command body ih =>
    have same := keeps.leaves (plain command List.mem_cons_self) r
    obtain ⟨kept, inStep⟩ := ih fun k member => plain k (List.mem_cons_of_mem _ member)
    rw [List.foldl_cons, same]
    refine ⟨kept, fun _ => rfl, ?_⟩
    rwa [same]

theorem inStep_settings {settings body : List κ} (set : ∀ k ∈ settings, encoder.setting k = true) {wanted r : R}
    (inStep : encoder.InStep wanted (settings.foldl encoder.apply r) body) :
    encoder.InStep wanted r (settings ++ body) := by
  induction settings generalizing r with
  | nil => exact inStep
  | cons command settings ih =>
    have own := set command List.mem_cons_self
    refine ⟨fun plain => ?_, ih (fun k member => set k (List.mem_cons_of_mem _ member)) inStep⟩
    rw [own] at plain
    cases plain

theorem Keeps.step (keeps : Keeps encoder agree) {s : C × R} (agrees : agree s.1 s.2) (event : ε ⊕ α)
    (clean : ∀ batch, event = .inr batch → encoder.sent s.1 batch = none → encoder.clean s.1) :
    agree (encoder.step s event).1 (encoder.step s event).2 := by
  cases event with
  | inl change => exact keeps.change agrees change
  | inr batch =>
    unfold Encoder.step
    cases sent : encoder.sent s.1 batch with
    | none =>
      dsimp only
      rw [sent, keeps.refused sent (clean batch rfl sent)]
      exact agrees
    | some commands =>
      obtain ⟨settings, body, rfl, -, plain, wanted, after⟩ := keeps.sends agrees sent
      dsimp only
      rw [sent, Option.getD_some, List.foldl_append, wanted, (keeps.body plain _).1]
      exact after

/-- A run that refuses batches only while nothing is held back executes every batch in step. -/
theorem Keeps.run (keeps : Keeps encoder agree) {events : List (ε ⊕ α)} {s : C × R} (agrees : agree s.1 s.2)
    (clean : encoder.RefusedClean s events) : encoder.RunInStep s events := by
  induction events generalizing s with
  | nil => trivial
  | cons event events ih =>
    cases event with
    | inl change => exact ih (keeps.step agrees (.inl change) nofun) clean
    | inr batch =>
      refine ⟨?_, ih (keeps.step agrees (.inr batch) ?_) clean.2⟩
      · intro commands sent
        obtain ⟨settings, body, rfl, set, plain, wanted, -⟩ := keeps.sends agrees sent
        apply inStep_settings set
        rw [wanted]
        exact (keeps.body plain _).2
      · intro other same refused
        cases same
        exact clean.1 refused

end PendingSettings
