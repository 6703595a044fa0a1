import Acrobe.Jtag.ChainFlush
import Acrobe.Lib.Tiling

/-!
# The callbacks of one batch

They run in two rounds: those of the TAPs whose last operation the chain settled
itself, then, once the last anchor is there, the callback of the chain and those
of the other TAPs. However the rounds are interleaved with the interface, what a
caller ends up with depends on the round of its TAP only.
-/

namespace Acrobe.Jtag
open BitString Lib

/-! ### Settling the futures of envelopes -/

namespace Flight
variable (flight : Flight)

theorem setTops_cons (loop : Loop) (index : Nat) (future : Future) (rest : List (Nat × Future)) :
    flight.setTops loop ((index, future) :: rest) = flight.setTops (flight.setTop loop index future) rest := rfl

theorem setTops_ready (loop : Loop) (settled : List (Nat × Future)) :
    (flight.setTops loop settled).ready = loop.ready ++ settled.flatMap fun s => flight.hooks s.1 := by
  induction settled generalizing loop with
  | nil => exact (List.append_nil _).symm
  | cons s settled ih =>
    rw [setTops_cons, ih, List.flatMap_cons, ← List.append_assoc]
    rfl

theorem setTops_bits (loop : Loop) (settled : List (Nat × Future)) :
    (flight.setTops loop settled).bits = loop.bits := by
  induction settled generalizing loop with
  | nil => rfl
  | cons s settled ih => exact (ih _).trans rfl

theorem setTops_users (loop : Loop) (settled : List (Nat × Future)) :
    (flight.setTops loop settled).users = loop.users := by
  induction settled generalizing loop with
  | nil => rfl
  | cons s settled ih => exact (ih _).trans rfl

def updates (tops : Nat → Future) (settled : List (Nat × Future)) : Nat → Future :=
  settled.foldl (fun tops (index, future) => Function.update tops index future) tops

theorem setTops_tops (loop : Loop) (settled : List (Nat × Future)) :
    (flight.setTops loop settled).tops = updates loop.tops settled := by
  induction settled generalizing loop with
  | nil => rfl
  | cons s settled ih => exact (ih _).trans rfl

theorem updates_of_notMem {tops : Nat → Future} {settled : List (Nat × Future)} {index : Nat}
    (outside : index ∉ settled.map Prod.fst) : updates tops settled index = tops index := by
  induction settled generalizing tops with
  | nil => rfl
  | cons s settled ih =>
    rw [List.map_cons, List.mem_cons, not_or] at outside
    exact (ih outside.2).trans (Function.update_of_ne outside.1 ..)

theorem updates_of_mem {tops : Nat → Future} {settled : List (Nat × Future)} {index : Nat} {future : Future}
    (keys : (settled.map Prod.fst).Nodup) (member : (index, future) ∈ settled) :
    updates tops settled index = future := by
  induction settled generalizing tops with
  | nil => cases member
  | cons s settled ih =>
    rw [List.map_cons, List.nodup_cons] at keys
    rcases List.mem_cons.mp member with rfl | later
    · exact (updates_of_notMem keys.1).trans (Function.update_self ..)
    · exact ih keys.2 later

/-! ### Indices -/

theorem mem_settlements {index : Nat} {future : Future} :
    (index, future) ∈ flight.settlements ↔ ∃ entry, flight.entries[index]? = some entry ∧
      ((∃ error, entry.outcome = .rejected error ∧ future = .failed error) ∨
        entry.outcome = .settled ∧ future = .result none) := by
  simp only [settlements, List.mem_filterMap, Prod.exists, List.mem_zipIdx_iff_getElem?]
  constructor
  · rintro ⟨entry, i, found, shown⟩
    cases outcome : entry.outcome with
    | rejected error =>
      rw [outcome] at shown
      obtain ⟨rfl, rfl⟩ := shown
      exact ⟨entry, found, .inl ⟨error, outcome, rfl⟩⟩
    | settled =>
      rw [outcome] at shown
      obtain ⟨rfl, rfl⟩ := shown
      exact ⟨entry, found, .inr ⟨outcome, rfl⟩⟩
    | awaits anchor slice =>
      rw [outcome] at shown
      cases shown
  · rintro ⟨entry, found, ⟨error, outcome, rfl⟩ | ⟨outcome, rfl⟩⟩
    · exact ⟨entry, index, found, by rw [outcome]⟩
    · exact ⟨entry, index, found, by rw [outcome]⟩

theorem mem_resolutions {index anchor : Nat} {slice : Option (Nat × Nat)} :
    (index, anchor, slice) ∈ flight.resolutions ↔
      ∃ entry, flight.entries[index]? = some entry ∧ entry.outcome = .awaits anchor slice := by
  simp only [resolutions, List.mem_filterMap, Prod.exists, List.mem_zipIdx_iff_getElem?]
  constructor
  · rintro ⟨entry, i, found, shown⟩
    split at shown
    · obtain ⟨rfl, rfl, rfl⟩ := shown
      exact ⟨entry, found, by assumption⟩
    · cases shown
  · rintro ⟨entry, found, outcome⟩
    exact ⟨entry, index, found, by rw [outcome]⟩

theorem pairwise_filterMap_zipIdx {α β : Type} (xs : List α) {f : α × Nat → Option (Nat × β)}
    (indexed : ∀ x index r, f (x, index) = some r → r.1 = index) :
    (xs.zipIdx.filterMap f).Pairwise fun r t => r.1 < t.1 := by
  have sorted : (xs.zipIdx.map Prod.snd).Pairwise (· < ·) := by
    rw [List.zipIdx_map_snd]
    exact List.pairwise_lt_range' ..
  rw [List.pairwise_filterMap]
  refine (List.pairwise_map.mp sorted).imp fun {a b} less => ?_
  intro r one t two
  rw [indexed a.1 a.2 r one, indexed b.1 b.2 t two]
  exact less

theorem settlements_keys : (flight.settlements.map Prod.fst).Nodup := by
  refine List.pairwise_map.mpr ((pairwise_filterMap_zipIdx _ ?_).imp Nat.ne_of_lt)
  intro entry index r shown
  dsimp only at shown
  split at shown <;> cases shown <;> rfl

theorem resolutions_sorted : flight.resolutions.Pairwise fun r t => r.1 < t.1 := by
  apply pairwise_filterMap_zipIdx _
  intro entry index r shown
  dsimp only at shown
  split at shown <;> cases shown
  rfl

/-! ### The callback of the chain -/

def delivered : Nat × Nat × Option (Nat × Nat) → Nat × Future
  | (index, _, none) => (index, .result none)
  | (index, anchor, some (offset, length)) =>
    (index, .result ((flight.answer anchor).map fun tdo => tdo.slice offset (offset + length)))

theorem delivered_fst (r : Nat × Nat × Option (Nat × Nat)) : (flight.delivered r).1 = r.1 := by
  obtain ⟨index, anchor, _ | ⟨offset, length⟩⟩ := r <;> rfl

theorem slice_or_all (bits : BitString) (offset length : Nat) :
    (if offset = 0 ∧ length = bits.length then bits else bits.slice offset (offset + length)) =
      bits.slice offset (offset + length) := by
  split
  · rename_i all
    rw [all.1, all.2, BitString.slice, Nat.zero_add, List.take_length, List.drop_zero]
  · rfl

theorem resolveBatch_eq {loop : Loop} {rs : List (Nat × Nat × Option (Nat × Nat))}
    (sorted : rs.Pairwise fun r t => r.1 < t.1) (unset : ∀ r ∈ rs, loop.tops r.1 = .pending)
    (answered : ∀ r ∈ rs, loop.bits r.2.1 = .result (flight.answer r.2.1))
    (readable : ∀ r ∈ rs, r.2.2 ≠ none → flight.answer r.2.1 ≠ none) :
    flight.resolveBatch loop rs = flight.setTops loop (rs.map flight.delivered) := by
  induction rs generalizing loop with
  | nil => rfl
  | cons r rs ih =>
    obtain ⟨index, anchor, slice⟩ := r
    have here := unset (index, anchor, slice) List.mem_cons_self
    have bits := answered (index, anchor, slice) List.mem_cons_self
    rw [List.pairwise_cons] at sorted
    have next : ∀ future, flight.resolveBatch (flight.setTop loop index future) rs =
        flight.setTops (flight.setTop loop index future) (rs.map flight.delivered) := by
      intro future
      refine ih sorted.2 (fun r member => ?_) (fun r member => answered r (List.mem_cons_of_mem _ member))
        (fun r member => readable r (List.mem_cons_of_mem _ member))
      exact (Function.update_of_ne (Nat.ne_of_gt (sorted.1 r member)) ..).trans
        (unset r (List.mem_cons_of_mem _ member))
    simp only at here bits
    simp only [resolveBatch, here, bits, ne_eq, not_true, if_false, List.map_cons]
    cases slice with
    | none => exact next _
    | some part =>
      obtain ⟨offset, length⟩ := part
      obtain ⟨value, shown⟩ := Option.ne_none_iff_exists'.mp
        (readable (index, anchor, some (offset, length)) List.mem_cons_self (by simp))
      simp only at shown
      simp only [shown, slice_or_all, delivered, Option.map_some]
      exact next _

/-! ### The two rounds -/

/-- The callbacks scheduled at once, and those the callback of the chain schedules. -/
def early : List Callback := flight.settlements.flatMap fun s => flight.hooks s.1

def late : List Callback := flight.resolutions.flatMap fun r => flight.hooks r.1

def earlyTops : Nat → Future := updates (fun _ => .pending) flight.settlements

def lateTops : Nat → Future := updates flight.earlyTops (flight.resolutions.map flight.delivered)

def gather (tops users : Nat → Future) (callbacks : List Callback) : Nat → Future :=
  callbacks.foldl (fun users callback =>
    match callback with
    | .chain => users
    | .tap first count => resolveUsers tops users first count) users

def bitsAt (completed : Nat) : Nat → Future := fun index =>
  if index < completed then .result (flight.answer index) else .pending

def wakes (completed : Nat) : List Callback :=
  if ∃ last ∈ flight.lastAnchor, last < completed then [.chain] else []

inductive Phase (completed : Nat) (loop : Loop) : Prop where
  | early (ran rest : List Callback) :
      flight.early = ran ++ rest → loop.ready = rest ++ flight.wakes completed →
      loop.tops = flight.earlyTops → loop.users = gather flight.earlyTops (fun _ => .pending) ran →
      loop.bits = flight.bitsAt completed → Phase completed loop
  | late (ran rest : List Callback) :
      (∃ last ∈ flight.lastAnchor, last < completed) → flight.late = ran ++ rest → loop.ready = rest →
      loop.tops = flight.lateTops →
      loop.users = gather flight.lateTops (gather flight.earlyTops (fun _ => .pending) flight.early) ran →
      loop.bits = flight.bitsAt completed → Phase completed loop

/-- What the chain promises of anchors: the last one is the last, and operations read are answered. -/
structure Sound : Prop where
  ordered : ∀ r ∈ flight.resolutions, ∀ last ∈ flight.lastAnchor, r.2.1 ≤ last
  inside : ∀ last ∈ flight.lastAnchor, last < (Chain.postedOps flight.entries).length
  readable : ∀ r ∈ flight.resolutions, r.2.2 ≠ none → flight.answer r.2.1 ≠ none

variable {flight}

theorem phase_start : flight.Phase 0 flight.start := by
  refine .early [] flight.early rfl ?_ ?_ ?_ ?_
  · rw [start, setTops_ready, wakes, if_neg]
    · exact (List.append_nil _).symm
    · rintro ⟨_, _, before⟩
      exact Nat.not_lt_zero _ before
  · rw [start, setTops_tops]
    rfl
  · rw [start, setTops_users]
    rfl
  · rw [start, setTops_bits]
    rfl

theorem bitsAt_succ (completed : Nat) :
    Function.update (flight.bitsAt completed) completed (.result (flight.answer completed)) =
      flight.bitsAt (completed + 1) := by
  funext index
  simp only [bitsAt, Function.update_apply]
  by_cases here : index = completed
  · rw [if_pos here, if_pos (by omega), here]
  · rw [if_neg here]
    exact if_congr (by omega) rfl rfl

theorem wakes_succ (completed : Nat) :
    flight.wakes (completed + 1) = flight.wakes completed ++ if flight.lastAnchor = some completed then [.chain] else [] := by
  simp only [wakes]
  cases flight.lastAnchor with
  | none => simp
  | some last =>
    simp only [Option.mem_some_iff, exists_eq_left', Option.some.injEq]
    by_cases before : last < completed
    · rw [if_pos before, if_pos (by omega), if_neg (by omega)]
      rfl
    · rw [if_neg before, List.nil_append]
      exact if_congr (by omega) rfl rfl

theorem phase_complete {completed : Nat} {loop : Loop} (phase : flight.Phase completed loop) :
    flight.Phase (completed + 1) (flight.exec loop (.complete completed)) := by
  cases phase with
  | early ran rest split ready tops users bits =>
    refine .early ran rest split ?_ tops users ?_
    · simp only [exec, ready, wakes_succ, List.append_assoc]
    · simp only [exec, bits, bitsAt_succ]
  | late ran rest woken split ready tops users bits =>
    obtain ⟨last, anchor, before⟩ := woken
    have gone : flight.lastAnchor ≠ some completed := by
      rw [anchor]
      simp only [ne_eq, Option.some.injEq]
      omega
    refine .late ran rest ⟨last, anchor, by omega⟩ split ?_ tops users ?_
    · simp only [exec, ready, if_neg gone, List.append_nil]
    · simp only [exec, bits, bitsAt_succ]

theorem mem_hooks {index : Nat} {callback : Callback} :
    callback ∈ flight.hooks index ↔ ∃ first count, (first, count) ∈ spans 0 flight.postings ∧
      0 < count ∧ first + count = index + 1 ∧ callback = .tap first count := by
  simp only [hooks, List.mem_filterMap, Prod.exists, Option.ite_none_right_eq_some, Option.some.injEq]
  constructor
  · rintro ⟨first, count, span, ⟨some, ends⟩, rfl⟩
    exact ⟨first, count, span, some, ends, rfl⟩
  · rintro ⟨first, count, span, some, ends, rfl⟩
    exact ⟨first, count, span, ⟨some, ends⟩, rfl⟩

theorem exists_tap_of_mem_early {callback : Callback} (member : callback ∈ flight.early) :
    ∃ first count, callback = .tap first count := by
  obtain ⟨_, _, hook⟩ := List.mem_flatMap.mp member
  obtain ⟨first, count, _, _, _, rfl⟩ := mem_hooks.mp hook
  exact ⟨first, count, rfl⟩

theorem exists_tap_of_mem_late {callback : Callback} (member : callback ∈ flight.late) :
    ∃ first count, callback = .tap first count := by
  obtain ⟨_, _, hook⟩ := List.mem_flatMap.mp member
  obtain ⟨first, count, _, _, _, rfl⟩ := mem_hooks.mp hook
  exact ⟨first, count, rfl⟩

theorem gather_append (tops users : Nat → Future) (xs ys : List Callback) :
    gather tops users (xs ++ ys) = gather tops (gather tops users xs) ys := List.foldl_append

theorem earlyTops_pending {r : Nat × Nat × Option (Nat × Nat)} (member : r ∈ flight.resolutions) :
    flight.earlyTops r.1 = .pending := by
  obtain ⟨entry, found, outcome⟩ := (flight.mem_resolutions).mp member
  refine updates_of_notMem fun among => ?_
  obtain ⟨⟨index, future⟩, settled, same⟩ := List.mem_map.mp among
  obtain ⟨entry', found', kinds⟩ := (flight.mem_settlements).mp settled
  have both : entry' = entry := Option.some.inj (found'.symm.trans ((congrArg (flight.entries[·]?) same).trans found))
  rcases kinds with ⟨error, rejected, _⟩ | ⟨settled, _⟩
  · rw [both, outcome] at rejected
    cases rejected
  · rw [both, outcome] at settled
    cases settled

theorem call_chain (sound : flight.Sound) {completed : Nat} {loop : Loop}
    (woken : ∃ last ∈ flight.lastAnchor, last < completed) (tops : loop.tops = flight.earlyTops)
    (bits : loop.bits = flight.bitsAt completed) :
    flight.call loop .chain = flight.setTops loop (flight.resolutions.map flight.delivered) := by
  refine flight.resolveBatch_eq flight.resolutions_sorted ?_ ?_ sound.readable
  · intro r member
    rw [tops]
    exact earlyTops_pending member
  · intro r member
    obtain ⟨last, anchor, before⟩ := woken
    rw [bits, bitsAt, if_pos (Nat.lt_of_le_of_lt (sound.ordered r member last anchor) before)]

theorem ready_setTops_delivered (loop : Loop) :
    (flight.setTops loop (flight.resolutions.map flight.delivered)).ready = loop.ready ++ flight.late := by
  rw [setTops_ready, late, List.flatMap_map]
  simp only [delivered_fst]

theorem phase_wake (sound : flight.Sound) {completed : Nat} {loop : Loop}
    (woken : ∃ last ∈ flight.lastAnchor, last < completed) (ready : loop.ready = []) (tops : loop.tops = flight.earlyTops)
    (users : loop.users = gather flight.earlyTops (fun _ => .pending) flight.early)
    (bits : loop.bits = flight.bitsAt completed) : flight.Phase completed (flight.call loop .chain) := by
  rw [call_chain sound woken tops bits]
  refine .late [] flight.late woken rfl ?_ ?_ ?_ ?_
  · rw [ready_setTops_delivered, ready, List.nil_append]
  · rw [setTops_tops, tops]
    rfl
  · rw [setTops_users, users]
    rfl
  · rw [setTops_bits, bits]

theorem phase_tick (sound : flight.Sound) {completed : Nat} {loop : Loop} (phase : flight.Phase completed loop) :
    flight.Phase completed (flight.exec loop .tick) := by
  cases phase with
  | early ran rest split ready tops users bits =>
    cases rest with
    | cons callback rest =>
      obtain ⟨first, count, rfl⟩ := exists_tap_of_mem_early (split ▸ List.mem_append_right ran List.mem_cons_self)
      simp only [exec, ready, List.cons_append, call]
      refine .early (ran ++ [.tap first count]) rest (by rw [split, List.append_assoc]; rfl) rfl tops ?_ bits
      rw [gather_append, ← users, tops]
      rfl
    | nil =>
      rw [List.append_nil] at split
      by_cases woken : ∃ last ∈ flight.lastAnchor, last < completed
      · simp only [exec, ready, wakes, if_pos woken, List.nil_append]
        exact phase_wake sound woken rfl tops (split ▸ users) bits
      · simp only [exec, ready, wakes, if_neg woken, List.nil_append]
        refine .early ran [] (by rw [List.append_nil, split]) ?_ tops users bits
        rw [ready, wakes, if_neg woken]
  | late ran rest woken split ready tops users bits =>
    cases rest with
    | cons callback rest =>
      obtain ⟨first, count, rfl⟩ := exists_tap_of_mem_late (split ▸ List.mem_append_right ran List.mem_cons_self)
      simp only [exec, ready, call]
      refine .late (ran ++ [.tap first count]) rest woken (by rw [split, List.append_assoc]; rfl) rfl tops ?_ bits
      rw [gather_append, ← users, tops]
      rfl
    | nil =>
      simp only [exec, ready]
      exact .late ran [] woken split ready tops users bits

theorem phase_run (sound : flight.Sound) {completed count : Nat} {loop : Loop} (phase : flight.Phase completed loop)
    {events : List Event} (inOrder : Event.completed events = List.range' completed count) :
    flight.Phase (completed + count) (flight.run loop events) := by
  induction events generalizing completed count loop with
  | nil =>
    have none : 0 = count := by simpa [Event.completed] using congrArg List.length inOrder
    rw [← none]
    exact phase
  | cons event events ih =>
    cases event with
    | tick => exact ih (phase_tick sound phase) inOrder
    | complete index =>
      cases count with
      | zero => cases inOrder
      | succ count =>
        rw [List.range'_succ] at inOrder
        obtain ⟨rfl, rest⟩ := List.cons.inj inOrder
        have final := ih (phase_complete phase) rest
        rw [Nat.add_right_comm, Nat.add_assoc] at final
        exact final

theorem users_run (sound : flight.Sound) {events : List Event}
    (inOrder : Event.completed events = List.range (Chain.postedOps flight.entries).length)
    (drained : (flight.run flight.start events).ready = []) :
    (flight.run flight.start events).users =
      gather flight.lateTops (gather flight.earlyTops (fun _ => .pending) flight.early) flight.late := by
  rw [List.range_eq_range'] at inOrder
  cases phase_run sound phase_start inOrder with
  | early ran rest split ready _ users _ =>
    rw [ready, List.append_eq_nil_iff] at drained
    obtain ⟨rfl, asleep⟩ := drained
    have nothing : flight.resolutions = [] := by
      cases anchor : flight.lastAnchor with
      | none => simpa [lastAnchor] using anchor
      | some last =>
        have woken : ∃ last ∈ flight.lastAnchor, last < 0 + (Chain.postedOps flight.entries).length :=
          ⟨last, anchor, by rw [Nat.zero_add]; exact sound.inside last anchor⟩
        rw [wakes, if_pos woken] at asleep
        cases asleep
    rw [users, split, List.append_nil, late, nothing]
    rfl
  | late ran rest _ split ready _ users _ =>
    rw [ready] at drained
    rw [users, split, drained, List.append_nil]

/-! ### The loop runs dry -/

theorem run_append (loop : Loop) (xs ys : List Event) :
    flight.run loop (xs ++ ys) = flight.run (flight.run loop xs) ys := List.foldl_append

theorem ready_ticks {callbacks tail : List Callback} {loop : Loop}
    (taps : ∀ callback ∈ callbacks, ∃ first count, callback = .tap first count)
    (ready : loop.ready = callbacks ++ tail) :
    (flight.run loop (List.replicate callbacks.length .tick)).ready = tail := by
  induction callbacks generalizing loop with
  | nil => exact ready
  | cons callback callbacks ih =>
    obtain ⟨first, count, rfl⟩ := taps callback List.mem_cons_self
    have next : (flight.exec loop .tick).ready = callbacks ++ tail := by simp only [exec, ready, call, List.cons_append]
    exact ih (fun callback member => taps callback (List.mem_cons_of_mem _ member)) next

theorem completed_ticks (n : Nat) : Event.completed (List.replicate n .tick) = [] := by
  induction n with
  | zero => rfl
  | succ n ih => exact ih

theorem phase_ticks (sound : flight.Sound) {completed : Nat} {loop : Loop} (phase : flight.Phase completed loop)
    (n : Nat) : flight.Phase completed (flight.run loop (List.replicate n .tick)) :=
  phase_run sound phase (show _ = List.range' completed 0 from completed_ticks n)

theorem exists_drained (sound : flight.Sound) {completed : Nat} {loop : Loop} (phase : flight.Phase completed loop) :
    ∃ n, (flight.run loop (List.replicate n .tick)).ready = [] := by
  have lateTaps : ∀ callback ∈ flight.late, ∃ first count, callback = .tap first count := fun _ member =>
    exists_tap_of_mem_late member
  have drained := phase_ticks sound phase
  cases phase with
  | late ran rest woken split ready tops users bits =>
    refine ⟨rest.length, ready_ticks (fun callback member => lateTaps callback ?_) (ready.trans (List.append_nil _).symm)⟩
    rw [split]
    exact List.mem_append_right _ member
  | early ran rest split ready tops users bits =>
    have first : (flight.run loop (List.replicate rest.length .tick)).ready = flight.wakes completed :=
      ready_ticks (fun callback member => exists_tap_of_mem_early (split ▸ List.mem_append_right _ member)) ready
    by_cases woken : ∃ last ∈ flight.lastAnchor, last < completed
    · rw [wakes, if_pos woken] at first
      refine ⟨rest.length + (1 + flight.late.length), ?_⟩
      rw [List.replicate_add, List.replicate_add, run_append, run_append]
      apply ready_ticks lateTaps
      show (flight.exec _ .tick).ready = _
      simp only [exec, first]
      -- The callback of the chain has not run, or it would be of the second round.
      cases drained rest.length with
      | early _ _ _ _ tops' _ bits' =>
        refine (congrArg Loop.ready (call_chain sound woken ?_ ?_)).trans ?_
        · exact tops'
        · exact bits'
        · rw [ready_setTops_delivered, List.nil_append, List.append_nil]
      | late ran' rest' _ split' ready' _ _ _ =>
        have member : Callback.chain ∈ flight.late := by
          rw [split', ← ready', first]
          exact List.mem_append_right _ List.mem_cons_self
        obtain ⟨_, _, other⟩ := lateTaps _ member
        cases other
    · rw [wakes, if_neg woken] at first
      exact ⟨rest.length, first⟩

/-! ### Futures are set once -/

theorem resolveBatch_users (loop : Loop) (rs : List (Nat × Nat × Option (Nat × Nat))) :
    (flight.resolveBatch loop rs).users = loop.users := by
  fun_induction resolveBatch flight loop rs with
  | case1 => rfl
  | case6 => rfl
  | _ => assumption

theorem exec_users_settled {loop : Loop} {index : Nat} (settled : loop.users index ≠ .pending) (event : Event) :
    (flight.exec loop event).users index = loop.users index := by
  cases event with
  | complete => rfl
  | tick =>
    simp only [exec]
    split
    · rfl
    · rename_i callback _ _
      cases callback with
      | chain => exact congrFun (resolveBatch_users _ _) index
      | tap first count => exact if_neg fun both => settled both.2.2

theorem run_users_settled {loop : Loop} {index : Nat} (settled : loop.users index ≠ .pending) (events : List Event) :
    (flight.run loop events).users index = loop.users index := by
  induction events generalizing loop with
  | nil => rfl
  | cons event events ih =>
    have kept : (flight.exec loop event).users index = loop.users index := exec_users_settled settled event
    have still : (flight.exec loop event).users index ≠ .pending := by rwa [kept]
    exact (ih still).trans kept

/-! ### Which round a caller is in -/

theorem forwarded_ne_pending (future : Future) : future.forwarded ≠ .pending := by
  cases future <;> simp [Future.forwarded]

theorem gather_settled {tops users : Nat → Future} {index : Nat} (settled : users index ≠ .pending)
    (callbacks : List Callback) : gather tops users callbacks index = users index := by
  induction callbacks generalizing users with
  | nil => rfl
  | cons callback callbacks ih =>
    cases callback with
    | chain => exact ih settled
    | tap first count =>
      have kept : resolveUsers tops users first count index = users index := if_neg fun both => settled both.2.2
      have still : resolveUsers tops users first count index ≠ .pending := by rwa [kept]
      exact (ih still).trans kept

def Covered (callbacks : List Callback) (index : Nat) : Prop :=
  ∃ first count, Callback.tap first count ∈ callbacks ∧ first ≤ index ∧ index < first + count

theorem gather_covered {tops users : Nat → Future} {index : Nat} (unset : users index = .pending)
    {callbacks : List Callback} (covered : Covered callbacks index) :
    gather tops users callbacks index = (tops index).forwarded := by
  induction callbacks generalizing users with
  | nil =>
    obtain ⟨_, _, member, _⟩ := covered
    cases member
  | cons callback callbacks ih =>
    obtain ⟨first, count, member, inside⟩ := covered
    have later : Callback.tap first count ∈ callbacks → Covered callbacks index := fun among =>
      ⟨first, count, among, inside⟩
    cases callback with
    | chain =>
      rcases List.mem_cons.mp member with same | among
      · cases same
      · exact ih unset (later among)
    | tap first' count' =>
      by_cases here : first' ≤ index ∧ index < first' + count'
      · have set : resolveUsers tops users first' count' index = (tops index).forwarded :=
          if_pos ⟨here.1, here.2, unset⟩
        have still : resolveUsers tops users first' count' index ≠ .pending := by
          rw [set]
          exact forwarded_ne_pending _
        exact (gather_settled still callbacks).trans set
      · have kept : resolveUsers tops users first' count' index = users index :=
          if_neg fun both => here ⟨both.1, both.2.1⟩
        rcases List.mem_cons.mp member with same | among
        · cases same
          exact (here inside).elim
        · exact ih (kept.trans unset) (later among)

theorem gather_uncovered {tops users : Nat → Future} {index : Nat} {callbacks : List Callback}
    (uncovered : ¬ Covered callbacks index) : gather tops users callbacks index = users index := by
  induction callbacks generalizing users with
  | nil => rfl
  | cons callback callbacks ih =>
    have later : ¬ Covered callbacks index := fun ⟨first, count, member, inside⟩ =>
      uncovered ⟨first, count, List.mem_cons_of_mem _ member, inside⟩
    cases callback with
    | chain => exact ih later
    | tap first count =>
      refine (ih later).trans (if_neg fun both => uncovered ?_)
      exact ⟨first, count, List.mem_cons_self, both.1, both.2.1⟩

def size (postings : List Posting) : Nat := Tiling.width (fun posting => posting.ops.length) postings

theorem mem_spans {base first count : Nat} {postings : List Posting} :
    (first, count) ∈ spans base postings ↔ ∃ pre posting post,
      postings = pre ++ posting :: post ∧ first = base + size pre ∧ count = posting.ops.length := by
  induction postings generalizing base with
  | nil => simp [spans]
  | cons head postings ih =>
    rw [spans, List.mem_cons, ih]
    constructor
    · rintro (same | ⟨pre, posting, post, rfl, rfl, rfl⟩)
      · cases same
        exact ⟨[], head, postings, rfl, rfl, rfl⟩
      · exact ⟨head :: pre, posting, post, rfl, by simp only [size, Tiling.width_cons]; omega, rfl⟩
    · rintro ⟨pre, posting, post, split, rfl, rfl⟩
      cases pre with
      | nil =>
        obtain ⟨rfl, _⟩ := List.cons.inj split
        exact .inl rfl
      | cons _ pre =>
        obtain ⟨rfl, rest⟩ := List.cons.inj split
        exact .inr ⟨pre, posting, post, rest, by simp only [size, Tiling.width_cons]; omega, rfl⟩

theorem covered_iff {pre post : List Posting} {mine : Posting} (split : flight.postings = pre ++ mine :: post)
    {index : Nat} (lower : size pre ≤ index) (upper : index < size pre + mine.ops.length) (keys : List Nat) :
    Covered (keys.flatMap flight.hooks) index ↔ size pre + mine.ops.length - 1 ∈ keys := by
  constructor
  · rintro ⟨first, count, member, inside⟩
    obtain ⟨key, among, hook⟩ := List.mem_flatMap.mp member
    obtain ⟨_, _, span, some, ends, same⟩ := mem_hooks.mp hook
    cases same
    obtain ⟨pre', other, post', split', rfl, rfl⟩ := mem_spans.mp span
    simp only [size, Nat.zero_add] at *
    rcases Tiling.split_cases (split.symm.trans split') with ⟨rfl, rfl, _⟩ | ⟨mid, rfl, _⟩ | ⟨mid, rfl, _⟩
    · rw [show Tiling.width (fun posting => posting.ops.length) pre + mine.ops.length - 1 = key by omega]
      exact among
    · rw [Tiling.width_append, Tiling.width_cons] at inside
      omega
    · rw [Tiling.width_append, Tiling.width_cons] at lower
      omega
  · intro among
    refine ⟨size pre, mine.ops.length, List.mem_flatMap.mpr ⟨_, among, mem_hooks.mpr ?_⟩, lower, upper⟩
    exact ⟨size pre, mine.ops.length, mem_spans.mpr ⟨pre, mine, post, split, (Nat.zero_add _).symm, rfl⟩,
      by omega, by omega, rfl⟩

end Flight

end Acrobe.Jtag
