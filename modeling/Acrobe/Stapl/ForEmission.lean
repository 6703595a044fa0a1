import Mathlib
import Acrobe.Lib.Exceptional
import Acrobe.Stapl.Interpreter
import Acrobe.Stapl.SimplifySound

/-!
# FOR loops

The interpreter runs the statements between `FOR` and `NEXT` once and tests at `NEXT` whether to go
on. The transpiler emits a `for` statement over a `range`.
-/

namespace Acrobe.Stapl
open LittleEndian Acrobe.Storage Exec

/-! ### The emitted loop -/

/-- `for ref in range(start, stop)` or `for ref in range(start, stop, step)`. -/
structure PyFor where
  ref : Name
  start : Py
  stop : Py
  step : Option Py

/-- The header that is emitted for `SFor`. -/
def emitFor (constants : Name → Option Int) (isBooleanArray : Name → Bool) (var : Name) (start stop : Expr)
    (step : Option Expr) : PyFor where
  ref := var
  start := intExpr constants isBooleanArray start
  stop := (intExpr constants isBooleanArray stop).plusOne
  step :=
    match step with
    | none | some (.intLiteral 1) => none
    | some step => some (intExpr constants isBooleanArray step)

/-- `len(range(start, stop, step))`. -/
def rangeLength (start stop step : Int) : Nat :=
  if 0 < step then ((stop - start + step - 1) / step).toNat else ((start - stop - step - 1) / -step).toNat

/-- `list(range(start, stop, step))`. -/
def pyRange (start stop step : Int) : Except Error (List Int) :=
  if step = 0 then .error .valueError
  else .ok ((List.range (rangeLength start stop step)).map fun i : Nat => start + i * step)

def PyFor.stride (loop : PyFor) (σ : Valuation) : Except Error Int :=
  match loop.step with
  | none => .ok 1
  | some step => do (← step.eval σ).asInt

/-- The values the variable takes, and the one it has after the loop. -/
def PyFor.run (loop : PyFor) (σ : Valuation) : Except Error (List Int × Option Int) := do
  let start ← (← loop.start.eval σ).asInt
  let stop ← (← loop.stop.eval σ).asInt
  let step ← loop.stride σ
  let values ← pyRange start stop step
  let before :=
    match σ loop.ref with
    | some (.integer value) => some value
    | _ => none
  return (values, values.getLast?.or before)

/-! ### The loop in the interpreter -/

/-- A `FOR` and its `NEXT` in an activation of a procedure. -/
structure ForLoop where
  procedure : Name
  frames : List Frame
  var : Name
  forPc : Nat
  nextPc : Nat

namespace ForLoop
variable (loop : ForLoop)

def place (pc : Nat) : List Frame := ⟨loop.procedure, pc⟩ :: loop.frames

/-- The value with which a step enters the body. -/
def entered (config next : Config) : List Int :=
  if (config.frames = loop.place loop.forPc ∨ config.frames = loop.place loop.nextPc) ∧
      next.frames = loop.place (loop.forPc + 1) then
    match next.state.store.integers loop.var with
    | some (.scalar value) => [value]
    | _ => []
  else []

/-- The values with which the body is entered until the activation is behind the loop, and the
state there. -/
def trace (program : Program) (player : Player) : Nat → Config → Option (List Int × State)
  | 0, _ => none
  | fuel + 1, config =>
    if config.frames = loop.place (loop.nextPc + 1) then some ([], config.state)
    else
      match step program player config with
      | .running next => (trace program player fuel next).map fun (values, s) => (loop.entered config next ++ values, s)
      | _ => none

/-- A run through the body: neither `FOR` nor `NEXT` of the loop, and not behind it. -/
inductive Inside (program : Program) (player : Player) : Config → Config → Prop
  | refl (config : Config) : Inside program player config config
  | step {config middle last : Config} (stepped : step program player config = .running middle)
      (inside : ∀ pc ∈ [loop.forPc, loop.nextPc, loop.nextPc + 1], config.frames ≠ loop.place pc)
      (rest : Inside program player middle last) : Inside program player config last

/-- The body gets to `NEXT` each time it is entered, and leaves the variable and the open loops as
they were. `kept` is what its statements rely on. -/
structure Passes (program : Program) (player : Player) (kept : State → Prop) : Prop where
  assigned {s : State} (holds : kept s) (value : Int) :
    kept { s with store := s.store.setInteger loop.var (.scalar value) }
  opened {s : State} (holds : kept s) (loops : List ForState) : kept { s with forStack := loops }
  body {config : Config} (entered : config.frames = loop.place (loop.forPc + 1)) (holds : kept config.state) :
    ∃ s, loop.Inside program player config { config with frames := loop.place loop.nextPc, state := s } ∧ kept s ∧
      s.store.integers loop.var = config.state.store.integers loop.var ∧ s.forStack = config.state.forStack

end ForLoop

/-- What the bounds come to in the interpreter. -/
structure Evaluates (store : Store) (start stop : Expr) (step : Option Expr) (first last increment : Int) : Prop where
  ofStart : evalInt store start = .ok first
  ofStop : evalInt store stop = .ok last
  ofStep : ∀ e ∈ step, evalInt store e = .ok increment
  omitted : step = none → increment = 1

/-- What they come to in Python. The `+ 1` behind the limit is added to all of its text. -/
structure Emits (constants : Name → Option Int) (σ : Valuation) (start stop : Expr) (step : Option Expr)
    (first last increment : Int) : Prop where
  ofStart : emitted constants σ start = .ok (.int first)
  ofStop : emitted constants σ stop = .ok (.int last)
  tight : 12 ≤ (intExpr constants σ.isBooleanArray stop).precedence
  ofStep : ∀ e ∈ step, emitted constants σ e = .ok (.int increment)

/-! ### One step -/

section

variable {loop : ForLoop} {program : Program} {player : Player} {proc : ProcedureDef} {start stop : Expr}
  {step : Option Expr} {first last increment : Int}

theorem evalI_ok {e : Expr} {s : State} {value : Int} (evaluated : evalInt s.store e = .ok value) :
    evalI e s = .ok value s := by
  rw [evalI, lift, evaluated]

theorem execFor_eq {s : State} (evaluates : Evaluates s.store start stop step first last increment) (var : Name)
    (pc : Nat) : execFor var start stop step pc s = .ok () { s with
      store := s.store.setInteger var (.scalar first)
      forStack := ⟨var, last, increment, pc + 1⟩ :: s.forStack } := by
  rw [execFor, Exceptional.run_bind_ok (evalI_ok evaluates.ofStart), Exceptional.run_bind_ok (evalI_ok evaluates.ofStop)]
  cases step with
  | none =>
    rw [evaluates.omitted rfl]
    rfl
  | some e =>
    have read : evalOptional (some e) s = .ok (some increment) s := by
      show (evalI e >>= fun value => pure (some value)) s = _
      rw [Exceptional.run_bind_ok (evalI_ok (evaluates.ofStep e rfl))]
      rfl
    rw [Exceptional.run_bind_ok read]
    rfl

theorem step_for (found : program.procedures.lookup loop.procedure = some proc)
    (opens : proc.statements[loop.forPc]? = some (.forStmt loop.var start stop step)) {config : Config}
    (here : config.frames = loop.place loop.forPc)
    (evaluates : Evaluates config.state.store start stop step first last increment) :
    Stapl.step program player config = .running { config with
      frames := loop.place (loop.forPc + 1)
      state := { config.state with
        store := config.state.store.setInteger loop.var (.scalar first)
        forStack := ⟨loop.var, last, increment, loop.forPc + 1⟩ :: config.state.forStack } } := by
  have ran := execFor_eq evaluates loop.var loop.forPc
  unfold Stapl.step
  rw [here]
  simp only [ForLoop.place, found, opens, execStmt]
  rw [Exceptional.run_bind_ok ran]
  rfl

theorem step_next (found : program.procedures.lookup loop.procedure = some proc)
    (closes : proc.statements[loop.nextPc]? = some (.nextStmt loop.var)) {config : Config}
    (here : config.frames = loop.place loop.nextPc) {rest : List ForState} {value : Int}
    (opened : config.state.forStack = ⟨loop.var, last, increment, loop.forPc + 1⟩ :: rest)
    (current : config.state.store.integers loop.var = some (.scalar value)) :
    Stapl.step program player config = .running (
      if ForState.done ⟨loop.var, last, increment, loop.forPc + 1⟩ (value + increment) then
        { config with frames := loop.place (loop.nextPc + 1), state := { config.state with forStack := rest } }
      else { config with
        frames := loop.place (loop.forPc + 1)
        state := { config.state with
          store := config.state.store.setInteger loop.var (.scalar (value + increment)) } }) := by
  have ran : execNext loop.var loop.nextPc config.state =
      if ForState.done ⟨loop.var, last, increment, loop.forPc + 1⟩ (value + increment) then
        .ok (loop.nextPc + 1) { config.state with forStack := rest }
      else .ok (loop.forPc + 1) { config.state with
        store := config.state.store.setInteger loop.var (.scalar (value + increment)) } := by
    rw [execNext, @Exceptional.run_bind_ok _ _ _ _ readState _ config.state config.state config.state rfl, opened]
    simp only [ne_eq, not_true_eq_false, if_false, current]
    split
    · rfl
    · rfl
  unfold Stapl.step
  rw [here]
  simp only [ForLoop.place, found, closes, execStmt]
  split_ifs with done
  · rw [if_pos done] at ran
    rw [Exceptional.run_bind_ok ran]
    rfl
  · rw [if_neg done] at ran
    rw [Exceptional.run_bind_ok ran]
    rfl

end

/-! ### How often the loop goes on -/

/-- How often `NEXT` goes on. -/
def further (start limit step : Int) : Nat :=
  if 0 < step then ((limit - start) / step).toNat else if step < 0 then ((start - limit) / -step).toNat else 0

theorem toNat_ediv_eq_zero {distance step : Int} (positive : 0 < step) :
    (distance / step).toNat = 0 ↔ distance < step := by
  rw [Int.toNat_eq_zero, ← Int.lt_add_one_iff, Int.ediv_lt_iff_lt_mul positive]
  simp

theorem toNat_ediv_succ {distance step : Int} (positive : 0 < step) (far : step ≤ distance) :
    (distance / step).toNat = ((distance - step) / step).toNat + 1 := by
  have shift := Int.sub_mul_ediv_right distance 1 (Int.ne_of_gt positive)
  rw [Int.one_mul] at shift
  have more : 1 ≤ distance / step := (Int.le_ediv_iff_mul_le positive).mpr (by omega)
  omega

theorem done_iff (var : Name) (pc : Nat) (start limit step : Int) :
    ForState.done ⟨var, limit, step, pc⟩ (start + step) = true ↔ further start limit step = 0 := by
  unfold ForState.done further
  dsimp only
  split_ifs with up down
  · rw [toNat_ediv_eq_zero up, decide_eq_true_eq]
    omega
  · rw [toNat_ediv_eq_zero (by omega), decide_eq_true_eq]
    omega
  · simp

theorem further_succ {var : Name} {pc : Nat} {start limit step : Int}
    (goesOn : ¬ForState.done ⟨var, limit, step, pc⟩ (start + step) = true) :
    further start limit step = further (start + step) limit step + 1 := by
  rw [done_iff] at goesOn
  unfold further at goesOn ⊢
  split_ifs at goesOn ⊢ with up down
  · rw [toNat_ediv_eq_zero up, Int.not_lt] at goesOn
    rw [toNat_ediv_succ up goesOn, Int.sub_sub]
  · rw [toNat_ediv_eq_zero (by omega), Int.not_lt] at goesOn
    rw [toNat_ediv_succ (by omega) goesOn]
    congr 3
    omega
  · exact absurd rfl goesOn

/-! ### The trace of the loop -/

section

variable {loop : ForLoop} {program : Program} {player : Player} {kept : State → Prop}

theorem trace_succ {fuel : Nat} {config next : Config} (inside : config.frames ≠ loop.place (loop.nextPc + 1))
    (stepped : Stapl.step program player config = .running next) {values : List Int} {s : State}
    (traced : loop.trace program player fuel next = some (values, s)) :
    loop.trace program player (fuel + 1) config = some (loop.entered config next ++ values, s) := by
  rw [ForLoop.trace, if_neg inside, stepped]
  simp only [traced, Option.map_some]

theorem ForLoop.Inside.trace {config last : Config} (inside : loop.Inside program player config last) {fuel : Nat}
    {result : List Int × State} (traced : loop.trace program player fuel last = some result) :
    ∃ fuel, loop.trace program player fuel config = some result := by
  induction inside with
  | refl config => exact ⟨fuel, traced⟩
  | @step config middle last stepped inside rest ih =>
    obtain ⟨fuel, whole⟩ := ih traced
    have silent : loop.entered config middle = [] := by
      rw [ForLoop.entered, if_neg]
      rintro ⟨here | here, -⟩
      · exact inside loop.forPc (by simp) here
      · exact inside loop.nextPc (by simp) here
    refine ⟨fuel + 1, ?_⟩
    rw [trace_succ (inside _ (by simp)) stepped whole, silent, List.nil_append]

theorem trace_stable {fuel : Nat} {config : Config} {result : List Int × State}
    (traced : loop.trace program player fuel config = some result) (more : Nat) :
    loop.trace program player (fuel + more) config = some result := by
  induction fuel generalizing config result with
  | zero => cases traced
  | succ fuel ih =>
    rw [Nat.succ_add]
    unfold ForLoop.trace at traced ⊢
    split_ifs at traced ⊢ with behind
    · exact traced
    · split at traced
      · next next stepped =>
        obtain ⟨⟨values, s⟩, rest, same⟩ := Option.map_eq_some_iff.mp traced
        rw [ih rest]
        exact congrArg some same
      · cases traced

theorem trace_unique {fuel other : Nat} {config : Config} {result result' : List Int × State}
    (first : loop.trace program player fuel config = some result)
    (second : loop.trace program player other config = some result') : result = result' := by
  have whole := trace_stable first other
  rw [Nat.add_comm, trace_stable second fuel] at whole
  exact (Option.some.inj whole).symm

variable {proc : ProcedureDef} {limit increment : Int}

theorem place_inj {pc pc' : Nat} : loop.place pc = loop.place pc' ↔ pc = pc' := by
  simp [ForLoop.place]

theorem passes_next (found : program.procedures.lookup loop.procedure = some proc)
    (closes : proc.statements[loop.nextPc]? = some (.nextStmt loop.var))
    (passes : loop.Passes program player kept) {rest : List ForState} {config : Config} {value : Int}
    (entered : config.frames = loop.place (loop.forPc + 1)) (holds : kept config.state)
    (opened : config.state.forStack = ⟨loop.var, limit, increment, loop.forPc + 1⟩ :: rest)
    (current : config.state.store.integers loop.var = some (.scalar value)) :
    ∃ s, loop.Inside program player config { config with frames := loop.place loop.nextPc, state := s } ∧ kept s ∧
      s.forStack = config.state.forStack ∧ s.store.integers loop.var = some (.scalar value) ∧
      Stapl.step program player { config with frames := loop.place loop.nextPc, state := s } = .running (
        if ForState.done ⟨loop.var, limit, increment, loop.forPc + 1⟩ (value + increment) then
          { config with frames := loop.place (loop.nextPc + 1), state := { s with forStack := rest } }
        else { config with
          frames := loop.place (loop.forPc + 1)
          state := { s with store := s.store.setInteger loop.var (.scalar (value + increment)) } }) := by
  obtain ⟨s, inside, holdsNext, sameVar, sameStack⟩ := passes.body entered holds
  refine ⟨s, inside, holdsNext, sameStack, sameVar.trans current, ?_⟩
  exact @step_next loop program player proc limit increment found closes
    { config with frames := loop.place loop.nextPc, state := s } rfl rest value (sameStack.trans opened)
    (sameVar.trans current)

theorem integers_setInteger (store : Store) (name : Name) (value : IntVar) :
    (store.setInteger name value).integers name = some value := Function.update_self ..

theorem trace_body (found : program.procedures.lookup loop.procedure = some proc)
    (closes : proc.statements[loop.nextPc]? = some (.nextStmt loop.var)) (apart : loop.forPc ≠ loop.nextPc)
    (passes : loop.Passes program player kept) {rest : List ForState} {config : Config} {value : Int}
    (entered : config.frames = loop.place (loop.forPc + 1)) (holds : kept config.state)
    (opened : config.state.forStack = ⟨loop.var, limit, increment, loop.forPc + 1⟩ :: rest)
    (current : config.state.store.integers loop.var = some (.scalar value)) {n : Nat}
    (count : further value limit increment = n) :
    ∃ fuel s, loop.trace program player fuel config =
        some (List.iterate (· + increment) (value + increment) n, s) ∧
      s.store.integers loop.var = some (.scalar (value + n * increment)) := by
  have notBehind : loop.place loop.nextPc ≠ loop.place (loop.nextPc + 1) := by simp [place_inj]
  induction n generalizing config value with
  | zero =>
    obtain ⟨s, inside, -, -, same, stepped⟩ := passes_next found closes passes entered holds opened current
    rw [if_pos ((done_iff ..).mpr count)] at stepped
    have behind : loop.trace program player 1
        { config with frames := loop.place (loop.nextPc + 1), state := { s with forStack := rest } } =
          some ([], { s with forStack := rest }) := if_pos rfl
    have last := trace_succ (by exact notBehind) stepped behind
    have silent : loop.entered { config with frames := loop.place loop.nextPc, state := s }
        { config with frames := loop.place (loop.nextPc + 1), state := { s with forStack := rest } } = [] := by
      rw [ForLoop.entered, if_neg]
      rintro ⟨-, here⟩
      exact apart (Nat.succ.inj (place_inj.mp here)).symm
    rw [silent] at last
    obtain ⟨fuel, traced⟩ := inside.trace last
    exact ⟨fuel, _, traced, by simpa using same⟩
  | succ n ih =>
    obtain ⟨s, inside, holdsNext, stack, same, stepped⟩ := passes_next found closes passes entered holds opened current
    have goesOn : ¬ForState.done ⟨loop.var, limit, increment, loop.forPc + 1⟩ (value + increment) = true := by
      rw [done_iff, count]
      exact Nat.succ_ne_zero n
    rw [if_neg goesOn] at stepped
    have fewer : further (value + increment) limit increment = n := by
      rw [further_succ goesOn] at count
      exact Nat.succ.inj count
    obtain ⟨fuel, final, traced, after⟩ := @ih
      { config with
        frames := loop.place (loop.forPc + 1)
        state := { s with store := s.store.setInteger loop.var (.scalar (value + increment)) } }
      (value + increment) rfl (passes.assigned holdsNext _) (stack.trans opened) (integers_setInteger ..) fewer
    have once := trace_succ (by exact notBehind) stepped traced
    have noted : loop.entered { config with frames := loop.place loop.nextPc, state := s }
        { config with
          frames := loop.place (loop.forPc + 1)
          state := { s with store := s.store.setInteger loop.var (.scalar (value + increment)) } } =
        [value + increment] := by
      rw [ForLoop.entered, if_pos ⟨.inr rfl, rfl⟩]
      simp only [integers_setInteger]
    rw [noted] at once
    obtain ⟨fuel, traced⟩ := inside.trace once
    refine ⟨fuel, final, traced, ?_⟩
    rw [after]
    congr 2
    push_cast
    ring

theorem trace_for (found : program.procedures.lookup loop.procedure = some proc) {start stop : Expr}
    {step : Option Expr} (opens : proc.statements[loop.forPc]? = some (.forStmt loop.var start stop step))
    (closes : proc.statements[loop.nextPc]? = some (.nextStmt loop.var)) (ordered : loop.forPc < loop.nextPc)
    (passes : loop.Passes program player kept) {config : Config} {first : Int}
    (here : config.frames = loop.place loop.forPc) (holds : kept config.state)
    (evaluates : Evaluates config.state.store start stop step first limit increment) :
    ∃ fuel s, loop.trace program player fuel config =
        some (List.iterate (· + increment) first (further first limit increment + 1), s) ∧
      s.store.integers loop.var = some (.scalar (first + further first limit increment * increment)) := by
  have stepped := @step_for loop program player proc start stop step first limit increment found opens config here evaluates
  obtain ⟨fuel, s, traced, after⟩ := @trace_body loop program player kept proc limit increment found closes
    (Nat.ne_of_lt ordered) passes config.state.forStack
    { config with
      frames := loop.place (loop.forPc + 1)
      state := { config.state with
        store := config.state.store.setInteger loop.var (.scalar first)
        forStack := ⟨loop.var, limit, increment, loop.forPc + 1⟩ :: config.state.forStack } }
    first rfl (passes.opened (passes.assigned holds first) _) rfl (integers_setInteger ..) _ rfl
  refine ⟨fuel + 1, s, ?_, after⟩
  have inside : config.frames ≠ loop.place (loop.nextPc + 1) := by
    rw [here, ne_eq, place_inj]
    omega
  rw [trace_succ inside stepped traced, ForLoop.entered, if_pos ⟨.inl here, rfl⟩]
  simp only [integers_setInteger]
  rfl

end

/-! ### The emitted loop -/

theorem iterate_add_right (start step : Int) (n : Nat) :
    (List.range n).map (fun i : Nat => start + i * step) = List.iterate (· + step) start n := by
  have each (i : Nat) : start + i * step = (· + step)^[i] start := by
    induction i with
    | zero => simp
    | succ i ih =>
      rw [Function.iterate_succ_apply', ← ih]
      push_cast
      ring
  rw [← List.range_map_iterate]
  exact List.map_congr_left fun i _ => each i

theorem getLast_iterate (start step : Int) (n : Nat) :
    (List.iterate (· + step) start (n + 1)).getLast? = some (start + n * step) := by
  rw [← iterate_add_right, List.range_succ, List.map_append]
  exact List.getLast?_concat

/-- The length of the range is the number of passes. -/
theorem rangeLength_iff (start limit step : Int) :
    step ≠ 0 ∧ rangeLength start (limit + 1) step = further start limit step + 1 ↔
      0 < step ∧ start ≤ limit ∨ step < 0 ∧ limit ≤ start ∧ 2 ≤ (start - limit) % -step := by
  unfold rangeLength further
  rcases lt_trichotomy step 0 with down | rfl | up
  · rw [if_neg (by omega), if_neg (by omega), if_pos down]
    obtain ⟨stride, rfl⟩ : ∃ stride, step = -stride := ⟨-step, by omega⟩
    have positive : 0 < stride := by omega
    rw [Int.neg_neg]
    have split := Int.mul_ediv_add_emod (start - limit) stride
    have low := Int.emod_nonneg (start - limit) (Int.ne_of_gt positive)
    have high := Int.emod_lt_of_pos (start - limit) positive
    have sign : 0 ≤ (start - limit) / stride ↔ 0 ≤ start - limit := Int.ediv_nonneg_iff_of_pos positive
    generalize (start - limit) / stride = quotient at *
    generalize (start - limit) % stride = remainder at *
    have shape : start - (limit + 1) - -stride - 1 = (remainder - 2) + (quotient + 1) * stride := by
      rw [Int.add_mul, Int.mul_comm]
      omega
    rw [shape, Int.add_mul_ediv_right _ _ (Int.ne_of_gt positive)]
    by_cases enough : 2 ≤ remainder
    · rw [Int.ediv_eq_zero_of_lt (by omega) (by omega)]
      omega
    · have less : (remainder - 2) / stride < 0 := Int.ediv_lt_of_lt_mul positive (by omega)
      omega
  · simp
  · rw [if_pos up, if_pos up]
    have shape : limit + 1 - start + step - 1 = limit - start + 1 * step := by omega
    rw [shape, Int.add_mul_ediv_right _ _ (Int.ne_of_gt up)]
    have sign : 0 ≤ (limit - start) / step ↔ 0 ≤ limit - start := Int.ediv_nonneg_iff_of_pos up
    omega

variable {constants : Name → Option Int} {σ : Valuation} {start stop : Expr} {step : Option Expr}
  {first limit increment : Int}

theorem run_emitFor (emits : Emits constants σ start stop step first limit increment)
    (omitted : step = none → increment = 1) (var : Name) :
    (emitFor constants σ.isBooleanArray var start stop step).run σ = do
      let values ← pyRange first (limit + 1) increment
      return (values, values.getLast?.or (match σ var with
        | some (.integer value) => some value
        | _ => none)) := by
  have last : ((intExpr constants σ.isBooleanArray stop).plusOne).eval σ = .ok (.int (limit + 1)) := by
    rw [plusOne_tight emits.tight, Py.eval_arith rfl (by decide) (by decide) emits.ofStop rfl]
    rfl
  have begins : (intExpr constants σ.isBooleanArray start).eval σ = .ok (.int first) := emits.ofStart
  have strides : (emitFor constants σ.isBooleanArray var start stop step).stride σ = .ok increment := by
    unfold PyFor.stride emitFor
    dsimp only
    split
    · next absent =>
      split at absent
      · rw [omitted rfl]
      · have same : emitted constants σ (.intLiteral 1) = .ok (.int increment) := emits.ofStep _ rfl
        cases same
        rfl
      · cases absent
    · next present =>
      split at present
      · cases present
      · cases present
      · cases present
        have same := emits.ofStep _ rfl
        rw [emitted] at same
        rw [same]
        rfl
  unfold PyFor.run
  rw [strides]
  unfold emitFor
  dsimp only
  rw [begins, last]
  rfl

/-! ### The two loops -/

/-- The variable takes the same values in both loops, and is left with the same one. -/
def ForLoop.Matches (loop : ForLoop) (program : Program) (player : Player) (config : Config) (python : PyFor)
    (σ : Valuation) : Prop :=
  ∃ fuel values s after, loop.trace program player fuel config = some (values, s) ∧
    s.store.integers loop.var = some (.scalar after) ∧ python.run σ = .ok (values, some after)

section
variable {loop : ForLoop} {program : Program} (player : Player) {proc : ProcedureDef}
    (found : program.procedures.lookup loop.procedure = some proc)
    (opens : proc.statements[loop.forPc]? = some (.forStmt loop.var start stop step))
    (closes : proc.statements[loop.nextPc]? = some (.nextStmt loop.var)) (ordered : loop.forPc < loop.nextPc)
    {kept : State → Prop} (passes : loop.Passes program player kept) {config : Config}
    (here : config.frames = loop.place loop.forPc) (holds : kept config.state)
    (evaluates : Evaluates config.state.store start stop step first limit increment)
    (emits : Emits constants σ start stop step first limit increment)
include found opens closes ordered passes here holds evaluates emits

theorem matches_lengths :
    loop.Matches program player config (emitFor constants σ.isBooleanArray loop.var start stop step) σ ↔
      increment ≠ 0 ∧ rangeLength first (limit + 1) increment = further first limit increment + 1 := by
  obtain ⟨fuel, s, traced, after⟩ := trace_for found opens closes ordered passes here holds evaluates
  rw [ForLoop.Matches, run_emitFor emits evaluates.omitted]
  constructor
  · rintro ⟨fuel', values, s', final, traced', after', ran⟩
    cases trace_unique traced traced'
    unfold pyRange at ran
    split_ifs at ran with zero
    · cases ran
    · refine ⟨zero, ?_⟩
      have values := congrArg (fun pair => pair.1.length) (Except.ok.inj ran)
      simpa using values
  · rintro ⟨moves, same⟩
    refine ⟨fuel, _, s, _, traced, after, ?_⟩
    unfold pyRange
    rw [if_neg moves, iterate_add_right, same]
    simp only [bind, Except.bind, getLast_iterate]
    rfl

/-- An upward loop is emitted right if it starts below its limit, a downward one if it starts above
its limit and its last value is two or more above the limit. -/
theorem matches_iff :
    loop.Matches program player config (emitFor constants σ.isBooleanArray loop.var start stop step) σ ↔
      0 < increment ∧ first ≤ limit ∨ increment < 0 ∧ limit ≤ first ∧ 2 ≤ (first - limit) % -increment := by
  rw [← rangeLength_iff]
  exact matches_lengths player found opens closes ordered passes here holds evaluates emits

end

/-! ### A loop between integers -/

/-- `FOR I = first TO limit STEP increment; NEXT I;` in a procedure of its own. -/
def literalProcedure (first limit increment : Int) : ProcedureDef where
  name := "P"
  uses := []
  statements := [.forStmt "I" (.intLiteral first) (.intLiteral limit) (some (.intLiteral increment)), .nextStmt "I"]
  labels := []

def literalProgram (first limit increment : Int) : Program where
  procedures := [("P", literalProcedure first limit increment)]
  dataBlocks := []

def literalLoop : ForLoop where
  procedure := "P"
  frames := []
  var := "I"
  forPc := 0
  nextPc := 1

def literalStart : Config where
  pending := []
  frames := literalLoop.place 0
  state := .initial

theorem literal_passes (program : Program) (player : Player) : literalLoop.Passes program player fun _ => True where
  assigned _ _ := trivial
  opened _ _ := trivial
  body := by
    intro config entered holds
    have same : { config with frames := literalLoop.place literalLoop.nextPc, state := config.state } = config := by
      rw [show literalLoop.place literalLoop.nextPc = config.frames from entered.symm]
    exact ⟨config.state, by rw [same]; exact .refl config, trivial, rfl, rfl⟩

theorem literal_evaluates (store : Store) (first limit increment : Int) :
    Evaluates store (.intLiteral first) (.intLiteral limit) (some (.intLiteral increment)) first limit increment where
  ofStart := rfl
  ofStop := rfl
  ofStep := by
    rintro e ⟨⟩
    rfl
  omitted := nofun

theorem literal_emits (constants : Name → Option Int) (σ : Valuation) (first limit increment : Int) :
    Emits constants σ (.intLiteral first) (.intLiteral limit) (some (.intLiteral increment)) first limit increment where
  ofStart := rfl
  ofStop := rfl
  tight := show 12 ≤ 15 by decide
  ofStep := by
    rintro e ⟨⟩
    rfl

/-- `FOR I = 9 TO -2 STEP -4`: the values are 9, 5 and 1 in both. -/
theorem matches_stride : literalLoop.Matches (literalProgram 9 (-2) (-4)) (fun _ _ => .ok none) literalStart
    (emitFor noConstants (Valuation.isBooleanArray fun _ => none) "I" (.intLiteral 9) (.intLiteral (-2))
      (some (.intLiteral (-4)))) (fun _ => none) :=
  (matches_iff (fun _ _ => .ok none) rfl rfl rfl (by decide) (literal_passes _ _) rfl trivial
    (literal_evaluates _ _ _ _) (literal_emits _ _ _ _ _)).mpr (by decide)

/-- `FOR I = 3 TO 0 STEP -1` is emitted as `range(3, 0 + 1, -1)`, which ends at 2. -/
theorem countdown_differs : ¬literalLoop.Matches (literalProgram 3 0 (-1)) (fun _ _ => .ok none) literalStart
    (emitFor noConstants (Valuation.isBooleanArray fun _ => none) "I" (.intLiteral 3) (.intLiteral 0)
      (some (.intLiteral (-1)))) (fun _ => none) := by
  intro same
  have lengths := (matches_lengths (fun _ _ => .ok none) rfl rfl rfl (by decide) (literal_passes _ _) rfl trivial
    (literal_evaluates _ _ _ _) (literal_emits _ _ _ _ _)).mp same
  exact absurd lengths (by decide)

end Acrobe.Stapl
