import Mathlib

/-!
# Programs with state and exceptions

Rules for programs that change a state and may raise, where a raise keeps the changes made
before it.
-/

namespace Exceptional

variable {ε σ α β : Type}

theorem bind_ok {x : EStateM ε σ α} {f : α → EStateM ε σ β} {s s' : σ} {result : β}
    (ran : (x >>= f) s = .ok result s') : ∃ value middle, x s = .ok value middle ∧ f value middle = .ok result s' := by
  change EStateM.bind x f s = .ok result s' at ran
  unfold EStateM.bind at ran
  cases first : x s with
  | ok value middle =>
    rw [first] at ran
    exact ⟨value, middle, rfl, ran⟩
  | error error middle =>
    rw [first] at ran
    cases ran

theorem run_bind_ok {x : EStateM ε σ α} {f : α → EStateM ε σ β} {s middle : σ} {value : α}
    (ran : x s = .ok value middle) : (x >>= f) s = f value middle := by
  change EStateM.bind x f s = f value middle
  rw [EStateM.bind, ran]

theorem run_bind_error {x : EStateM ε σ α} {f : α → EStateM ε σ β} {s middle : σ} {error : ε}
    (ran : x s = .error error middle) : (x >>= f) s = .error error middle := by
  change EStateM.bind x f s = .error error middle
  rw [EStateM.bind, ran]

theorem except_bind_ok {x : Except ε α} {f : α → Except ε β} {result : β} (ran : (x >>= f) = .ok result) :
    ∃ value, x = .ok value ∧ f value = .ok result := by
  cases x with
  | ok value => exact ⟨value, rfl, ran⟩
  | error error => cases ran

theorem except_map_ok {x : Except ε α} {f : α → β} {result : β} (ran : x.map f = .ok result) :
    ∃ value, x = .ok value ∧ f value = result := by
  cases x with
  | ok value =>
    cases ran
    exact ⟨value, rfl, rfl⟩
  | error error => cases ran

/-- `x` keeps `P`, whether it returns or raises. -/
def Keeps (P : σ → Prop) (x : EStateM ε σ α) : Prop :=
  ∀ s, P s → match x s with
    | .ok _ s' => P s'
    | .error _ s' => P s'

theorem keeps_pure {P : σ → Prop} (value : α) : Keeps P (pure value : EStateM ε σ α) := fun _ holds => holds

theorem keeps_bind {P : σ → Prop} {x : EStateM ε σ α} {f : α → EStateM ε σ β} (first : Keeps P x)
    (rest : ∀ value, Keeps P (f value)) : Keeps P (x >>= f) := by
  intro s holds
  have start := first s holds
  change match EStateM.bind x f s with
    | .ok _ s' => P s'
    | .error _ s' => P s'
  unfold EStateM.bind
  cases ran : x s with
  | ok value s' =>
    rw [ran] at start
    exact rest value s' start
  | error error s' =>
    rw [ran] at start
    exact start

theorem Keeps.and {P Q : σ → Prop} {x : EStateM ε σ α} (first : Keeps P x) (second : Keeps Q x) :
    Keeps (fun s => P s ∧ Q s) x := by
  intro s holds
  have left := first s holds.1
  have right := second s holds.2
  cases ran : x s with
  | ok value s' =>
    rw [ran] at left right
    exact ⟨left, right⟩
  | error error s' =>
    rw [ran] at left right
    exact ⟨left, right⟩

theorem keeps_mapM {P : σ → Prop} {f : α → EStateM ε σ β} {l : List α}
    (each : ∀ a ∈ l, Keeps P (f a)) : Keeps P (l.mapM f) := by
  induction l with
  | nil =>
    rw [List.mapM_nil]
    exact keeps_pure []
  | cons a l ih =>
    rw [List.mapM_cons]
    refine keeps_bind (each a List.mem_cons_self) fun b => ?_
    exact keeps_bind (ih fun c inRest => each c (List.mem_cons_of_mem a inRest)) fun _ => keeps_pure _

/-! ### Pre- and postconditions -/

/-- From `P`, `x` returns a value in `Q` or raises in `R`. -/
def Ends (P : σ → Prop) (x : EStateM ε σ α) (Q : α → σ → Prop) (R : σ → Prop) : Prop :=
  ∀ s, P s → match x s with
    | .ok value s' => Q value s'
    | .error _ s' => R s'

section Ends
variable {P : σ → Prop} {Q : α → σ → Prop} {S : β → σ → Prop} {R : σ → Prop}

theorem ends_pure {value : α} (holds : ∀ s, P s → Q value s) : Ends P (pure value : EStateM ε σ α) Q R := holds

theorem ends_throw {error : ε} (raises : ∀ s, P s → R s) : Ends P (throw error : EStateM ε σ α) Q R := raises

theorem ends_set {s : σ} {Q : PUnit → σ → Prop} (holds : ∀ before, P before → Q ⟨⟩ s) :
    Ends P (set s : EStateM ε σ PUnit) Q R := holds

theorem ends_modifyGet {f : σ → α × σ} (holds : ∀ s, P s → Q (f s).1 (f s).2) :
    Ends P (modifyGet f : EStateM ε σ α) Q R := holds

theorem ends_bind {x : EStateM ε σ α} {f : α → EStateM ε σ β} (first : Ends P x Q R)
    (rest : ∀ value, Ends (Q value) (f value) S R) : Ends P (x >>= f) S R := by
  intro s holds
  have start := first s holds
  change match EStateM.bind x f s with
    | .ok value s' => S value s'
    | .error _ s' => R s'
  unfold EStateM.bind
  cases ran : x s with
  | ok value s' =>
    rw [ran] at start
    exact rest value s' start
  | error error s' =>
    rw [ran] at start
    exact start

theorem ends_get {f : σ → EStateM ε σ β} (rest : ∀ read, Ends (fun s => s = read ∧ P s) (f read) S R) :
    Ends P (get >>= f) S R := fun s holds => rest s s ⟨rfl, holds⟩

theorem ends_ite {c : Prop} [Decidable c] {x y : EStateM ε σ α} (yes : c → Ends P x Q R) (no : ¬c → Ends P y Q R) :
    Ends P (if c then x else y) Q R := by
  by_cases holds : c
  · rw [if_pos holds]
    exact yes holds
  · rw [if_neg holds]
    exact no holds

theorem ends_fact {c : Prop} {x : EStateM ε σ α} (fact : ∀ s, P s → c) (rest : c → Ends P x Q R) : Ends P x Q R :=
  fun s holds => rest (fact s holds) s holds

theorem Ends.weaken {P' R' : σ → Prop} {Q' : α → σ → Prop} {x : EStateM ε σ α} (ends : Ends P x Q R)
    (before : ∀ s, P' s → P s) (after : ∀ value s, Q value s → Q' value s) (raised : ∀ s, R s → R' s) :
    Ends P' x Q' R' := by
  intro s holds
  have done := ends s (before s holds)
  cases ran : x s with
  | ok value s' =>
    rw [ran] at done
    exact after value s' done
  | error error s' =>
    rw [ran] at done
    exact raised s' done

theorem Keeps.ends {x : EStateM ε σ α} (keeps : Keeps R x) (before : ∀ s, P s → R s) : Ends P x (fun _ => R) R :=
  fun s holds => keeps s (before s holds)

theorem Keeps.raising {x : EStateM ε σ α} (keeps : Keeps P x) (raised : ∀ s, P s → R s) : Ends P x (fun _ => P) R :=
  Ends.weaken keeps (fun _ => id) (fun _ _ => id) raised

end Ends

/-! ### Two programs side by side -/

/-- From related states `x` and `y` both return, with related values, or both raise the same
error; the states stay related. -/
def Related (R : σ → σ → Prop) (V : α → α → Prop) (x y : EStateM ε σ α) : Prop :=
  ∀ s t, R s t → match x s, y t with
    | .ok a s', .ok b t' => V a b ∧ R s' t'
    | .error e s', .error f t' => e = f ∧ R s' t'
    | _, _ => False

variable {R : σ → σ → Prop} {V : α → α → Prop} {W : β → β → Prop}

theorem related_pure {a b : α} (values : V a b) : Related R V (pure a : EStateM ε σ α) (pure b) :=
  fun _ _ states => ⟨values, states⟩

theorem related_bind {x y : EStateM ε σ α} {f g : α → EStateM ε σ β} (first : Related R V x y)
    (rest : ∀ a b, V a b → Related R W (f a) (g b)) : Related R W (x >>= f) (y >>= g) := by
  intro s t states
  have start := first s t states
  change match EStateM.bind x f s, EStateM.bind y g t with
    | .ok a s', .ok b t' => W a b ∧ R s' t'
    | .error e s', .error f t' => e = f ∧ R s' t'
    | _, _ => False
  unfold EStateM.bind
  cases left : x s with
  | ok a s' =>
    cases right : y t with
    | ok b t' =>
      rw [left, right] at start
      exact rest a b start.1 s' t' start.2
    | error error t' => rw [left, right] at start; exact start.elim
  | error error s' =>
    cases right : y t with
    | ok b t' => rw [left, right] at start; exact start.elim
    | error error' t' =>
      rw [left, right] at start
      exact start

theorem related_bind_eq {x y : EStateM ε σ α} {f g : α → EStateM ε σ β} (first : Related R Eq x y)
    (rest : ∀ a, Related R W (f a) (g a)) : Related R W (x >>= f) (y >>= g) :=
  related_bind first fun a _ same => same ▸ rest a

theorem related_mapM {f : α → EStateM ε σ β} {l : List α} (each : ∀ a ∈ l, Related R Eq (f a) (f a)) :
    Related R Eq (l.mapM f) (l.mapM f) := by
  induction l with
  | nil =>
    rw [List.mapM_nil]
    exact related_pure rfl
  | cons a l ih =>
    rw [List.mapM_cons]
    refine related_bind_eq (each a List.mem_cons_self) fun b => ?_
    exact related_bind_eq (ih fun c inRest => each c (List.mem_cons_of_mem a inRest)) fun _ => related_pure rfl

/-- From states related by `P`, `x` and `y` both return, in `Q`, or both raise the same error, in `E`. -/
def Together (P : σ → σ → Prop) (x y : EStateM ε σ α) (Q : α → α → σ → σ → Prop) (E : σ → σ → Prop) : Prop :=
  ∀ s t, P s t → match x s, y t with
    | .ok a s', .ok b t' => Q a b s' t'
    | .error e s', .error f t' => e = f ∧ E s' t'
    | _, _ => False

section Together
variable {P : σ → σ → Prop} {Q : α → α → σ → σ → Prop} {S : β → β → σ → σ → Prop} {E : σ → σ → Prop}

theorem together_pure {a b : α} (holds : ∀ s t, P s t → Q a b s t) :
    Together P (pure a : EStateM ε σ α) (pure b) Q E := holds

theorem together_throw {error : ε} (raised : ∀ s t, P s t → E s t) :
    Together P (throw error : EStateM ε σ α) (throw error) Q E := fun s t holds => ⟨rfl, raised s t holds⟩

theorem together_modifyGet {f g : σ → α × σ} (holds : ∀ s t, P s t → Q (f s).1 (g t).1 (f s).2 (g t).2) :
    Together P (modifyGet f : EStateM ε σ α) (modifyGet g) Q E := holds

theorem together_set {s t : σ} {Q : PUnit → PUnit → σ → σ → Prop} (holds : ∀ before other, P before other → Q ⟨⟩ ⟨⟩ s t) :
    Together P (set s : EStateM ε σ PUnit) (set t) Q E := holds

theorem together_get {f g : σ → EStateM ε σ β}
    (rest : ∀ read other, Together (fun s t => (s = read ∧ t = other) ∧ P s t) (f read) (g other) S E) :
    Together P (get >>= f) (get >>= g) S E := fun s t holds => rest s t s t ⟨⟨rfl, rfl⟩, holds⟩

theorem together_bind {x y : EStateM ε σ α} {f g : α → EStateM ε σ β} (first : Together P x y Q E)
    (rest : ∀ a b, Together (Q a b) (f a) (g b) S E) : Together P (x >>= f) (y >>= g) S E := by
  intro s t holds
  have start := first s t holds
  change match EStateM.bind x f s, EStateM.bind y g t with
    | .ok a s', .ok b t' => S a b s' t'
    | .error e s', .error f t' => e = f ∧ E s' t'
    | _, _ => False
  unfold EStateM.bind
  cases left : x s with
  | ok a s' =>
    cases right : y t with
    | ok b t' =>
      rw [left, right] at start
      exact rest a b s' t' start
    | error error t' => rw [left, right] at start; exact start.elim
  | error error s' =>
    cases right : y t with
    | ok b t' => rw [left, right] at start; exact start.elim
    | error error' t' =>
      rw [left, right] at start
      exact start

theorem together_ite {c : Prop} [Decidable c] {x x' y y' : EStateM ε σ α} (yes : c → Together P x y Q E)
    (no : ¬c → Together P x' y' Q E) : Together P (if c then x else x') (if c then y else y') Q E := by
  by_cases holds : c
  · rw [if_pos holds, if_pos holds]
    exact yes holds
  · rw [if_neg holds, if_neg holds]
    exact no holds

theorem together_fact {c : Prop} {x y : EStateM ε σ α} (fact : ∀ s t, P s t → c) (rest : c → Together P x y Q E) :
    Together P x y Q E := fun s t holds => rest (fact s t holds) s t holds

theorem Together.weaken {P' E' : σ → σ → Prop} {Q' : α → α → σ → σ → Prop} {x y : EStateM ε σ α}
    (together : Together P x y Q E) (before : ∀ s t, P' s t → P s t) (after : ∀ a b s t, Q a b s t → Q' a b s t)
    (raised : ∀ s t, E s t → E' s t) : Together P' x y Q' E' := by
  intro s t holds
  have done := together s t (before s t holds)
  cases left : x s with
  | ok a s' =>
    cases right : y t with
    | ok b t' =>
      rw [left, right] at done
      exact after a b s' t' done
    | error error t' => rw [left, right] at done; exact done.elim
  | error error s' =>
    cases right : y t with
    | ok b t' => rw [left, right] at done; exact done.elim
    | error error' t' =>
      rw [left, right] at done
      exact ⟨done.1, raised s' t' done.2⟩

theorem Together.alongside {K R : σ → Prop} {K' : α → σ → Prop} {x y : EStateM ε σ α} (together : Together P x y Q E)
    (ends : Ends K x K' R) : Together (fun s t => P s t ∧ K s) x y (fun a b s t => Q a b s t ∧ K' a s) E := by
  intro s t holds
  have done := together s t holds.1
  have alone := ends s holds.2
  cases left : x s with
  | ok a s' =>
    cases right : y t with
    | ok b t' =>
      rw [left, right] at done
      rw [left] at alone
      exact ⟨done, alone⟩
    | error error t' => rw [left, right] at done; exact done.elim
  | error error s' =>
    cases right : y t with
    | ok b t' => rw [left, right] at done; exact done.elim
    | error error' t' =>
      rw [left, right] at done
      exact done

end Together

end Exceptional
