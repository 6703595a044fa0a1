import Acrobe.Jtag.ChainGeometry
import Acrobe.Jtag.ChainRounds

/-!
# Whose result is whose

A caller gets its result when it is there in the round of its TAP. The last
operation of its batch decides the round: an operation the chain elides is
settled at once.
-/

namespace Acrobe.Jtag
open BitString Lib

/-- What an operation is to return, given the TDO of the shift posted for it. -/
def ownResult (ctx : Context) (tdo : BitString) : TapOp → Option BitString
  | .shift op =>
    match op.tdi with
    | some tdi => if op.readTdo then some (tdo.slice ctx.drPre.toNat (ctx.drPre.toNat + tdi.length)) else none
    | none => none
  | .irStatus => some (tdo.slice ctx.irPre.toNat (ctx.irPre.toNat + ctx.tap.irlen))
  | _ => none

def TapOp.caches (tap : Tap) (cached : Option Nat) : TapOp → Option Nat
  | .shift op => op.irValue.or cached
  | .irStatus => some tap.bypass
  | _ => cached

def TapOp.silent (cached : Option Nat) : TapOp → Bool
  | .shift op => op.tdi = none ∧ op.preDrRun = 0 ∧ op.postDrRun = 0 ∧ (op.irValue = none ∨ op.irValue = cached)
  | _ => false

def silence (tap : Tap) : Option Nat → List TapOp → List Bool
  | _, [] => []
  | cached, op :: ops => op.silent cached :: silence tap (op.caches tap cached) ops

/-- A posting that ends with a silent operation has no other ones. -/
def Anchored (tap : Tap) (cached : Option Nat) (ops : List TapOp) : Prop :=
  (silence tap cached ops).getLast? = some true → ∀ quiet ∈ silence tap cached ops, quiet = true

instance (tap : Tap) (cached : Option Nat) (ops : List TapOp) : Decidable (Anchored tap cached ops) :=
  inferInstanceAs (Decidable (_ → _))

namespace Chain

/-! ### Anchors -/

theorem getLast?_flushShift (ch : Chain) (posted : Nat) (ctx : Context) (op : TapShift) (read : drSlice ctx op ≠ none) :
    ∃ s, (ch.flushShift posted ctx op).2.1.getLast? = some (.shift s) ∧ s.readTdo = true := by
  cases data : op.tdi with
  | none => simp [drSlice, data] at read
  | some tdi =>
    have asked : op.readTdo = true := by
      by_contra unread
      simp [drSlice, data, unread] at read
    simp only [flushShift, flushDr, data]
    rw [List.getLast?_append]
    exact ⟨_, rfl, asked⟩

theorem flushOp_awaits {ch : Chain} {posted : Nat} {envelope : Envelope} {anchor : Nat} {slice : Option (Nat × Nat)}
    (outcome : (ch.flushOp posted envelope).2.2 = .awaits anchor slice) :
    anchor + 1 = posted + (ch.flushOp posted envelope).2.1.length ∧ posted ≤ anchor ∧
      (slice ≠ none → ∃ s, (ch.flushOp posted envelope).2.1.getLast? = some (.shift s) ∧ s.readTdo = true) := by
  cases envelope with
  | other typeName => cases outcome
  | tapOp tap op =>
    cases known : ch.context? tap with
    | none => simp [flushOp, known] at outcome
    | some ctx =>
      by_cases enabled : ctx.enabled = true
      · cases op with
        | irStatus =>
          simp only [flushOp, known, enabled, if_true, Outcome.awaits.injEq] at outcome ⊢
          obtain ⟨rfl, rfl⟩ := outcome
          exact ⟨rfl, Nat.le_succ _, fun _ => ⟨_, rfl, rfl⟩⟩
        | run cycles =>
          simp only [flushOp, known, enabled, if_true, Outcome.awaits.injEq] at outcome ⊢
          obtain ⟨rfl, rfl⟩ := outcome
          exact ⟨rfl, Nat.le_refl _, fun none => (none rfl).elim⟩
        | other typeName => simp [flushOp, known, enabled] at outcome
        | shift op =>
          simp only [flushOp, known, enabled, if_true] at outcome ⊢
          have chosen : (if (ch.flushShift posted ctx op).2.1 = [] then Outcome.settled
              else .awaits (posted + (ch.flushShift posted ctx op).2.1.length - 1) (drSlice ctx op)) =
              .awaits anchor slice := outcome
          split at chosen
          · cases chosen
          · rename_i some
            obtain ⟨rfl, rfl⟩ := Outcome.awaits.inj chosen
            have := List.length_pos_iff.mpr some
            exact ⟨by omega, by omega, getLast?_flushShift ch posted ctx op⟩
      · simp [flushOp, known, enabled] at outcome

theorem postedOps_cons (entry : Entry) (entries : List Entry) : postedOps (entry :: entries) = entry.ops ++ postedOps entries :=
  List.flatMap_cons

theorem flushOps_awaits {ch : Chain} {posted : Nat} {batch : List Envelope} {index : Nat} {entry : Entry} {anchor : Nat}
    {slice : Option (Nat × Nat)} (found : (ch.flushOps posted batch).2[index]? = some entry)
    (outcome : entry.outcome = .awaits anchor slice) :
    anchor + 1 = posted + (postedOps ((ch.flushOps posted batch).2.take (index + 1))).length ∧ posted ≤ anchor ∧
      (slice ≠ none → ∃ s, (postedOps (ch.flushOps posted batch).2)[anchor - posted]? = some (.shift s) ∧
        s.readTdo = true) := by
  induction batch generalizing ch posted index with
  | nil => cases found
  | cons envelope batch ih =>
    simp only [flushOps, List.take_succ_cons, postedOps_cons, List.length_append] at found ⊢
    cases index with
    | zero =>
      cases Option.some.inj found
      obtain ⟨last, after, read⟩ := flushOp_awaits outcome
      refine ⟨?_, after, fun wanted => ?_⟩
      · simpa [postedOps] using last
      · obtain ⟨s, shown, readTdo⟩ := read wanted
        refine ⟨s, ?_, readTdo⟩
        rw [List.getLast?_eq_getElem?] at shown
        have place : anchor - posted = (ch.flushOp posted envelope).2.1.length - 1 := by omega
        have some : 0 < (ch.flushOp posted envelope).2.1.length := by omega
        rw [place, List.getElem?_append_left (Nat.sub_lt some Nat.one_pos), shown]
    | succ index =>
      obtain ⟨last, after, read⟩ := ih found
      refine ⟨by omega, by omega, fun wanted => ?_⟩
      obtain ⟨s, shown, readTdo⟩ := read wanted
      refine ⟨s, ?_, readTdo⟩
      rw [List.getElem?_append_right (by omega), Nat.sub_sub]
      exact shown

theorem length_postedOps_le {xs ys : List Entry} (starts : xs <+: ys) :
    (postedOps xs).length ≤ (postedOps ys).length := by
  obtain ⟨rest, rfl⟩ := starts
  rw [postedOps, postedOps, List.flatMap_append, List.length_append]
  exact Nat.le_add_right _ _

theorem launch_sound (ch : Chain) (postings : List Posting) (tdo : Nat → BitString) :
    (ch.launch postings tdo).Sound := by
  have place : ∀ r ∈ (ch.launch postings tdo).resolutions,
      r.2.1 + 1 = (postedOps ((ch.launch postings tdo).entries.take (r.1 + 1))).length := by
    rintro ⟨index, anchor, slice⟩ member
    obtain ⟨entry, found, outcome⟩ := (Flight.mem_resolutions _).mp member
    have := (flushOps_awaits found outcome).1
    rwa [Nat.zero_add] at this
  have final : ∀ last ∈ (ch.launch postings tdo).lastAnchor, ∃ r, (ch.launch postings tdo).resolutions.getLast? = some r ∧
      r.2.1 = last := by
    intro last anchor
    obtain ⟨r, among, rfl⟩ := Option.map_eq_some_iff.mp anchor
    exact ⟨r, among, rfl⟩
  constructor
  · rintro r member last anchor
    obtain ⟨t, ends, rfl⟩ := final last anchor
    have le : r.1 ≤ t.1 := by
      obtain ⟨before, split⟩ := List.getLast?_eq_some_iff.mp ends
      have sorted := (ch.launch postings tdo).resolutions_sorted
      rw [split] at member sorted
      rcases List.mem_append.mp member with earlier | itself
      · exact Nat.le_of_lt ((List.pairwise_append.mp sorted).2.2 r earlier t List.mem_cons_self)
      · exact Nat.le_of_eq (congrArg Prod.fst (List.mem_singleton.mp itself))
    have longer := length_postedOps_le
      (List.take_prefix_take_left (Nat.add_le_add_right le 1) (l := (ch.launch postings tdo).entries))
    rw [← place r member, ← place t (List.mem_of_getLast? ends)] at longer
    exact Nat.le_of_succ_le_succ longer
  · rintro last anchor
    obtain ⟨t, ends, rfl⟩ := final last anchor
    have starts := List.take_prefix (t.1 + 1) (ch.launch postings tdo).entries
    have longer := length_postedOps_le starts
    rw [← place t (List.mem_of_getLast? ends)] at longer
    exact longer
  · rintro ⟨index, anchor, slice⟩ member wanted
    obtain ⟨entry, found, outcome⟩ := (Flight.mem_resolutions _).mp member
    obtain ⟨s, shown, readTdo⟩ := (flushOps_awaits found outcome).2.2 wanted
    have here : (postedOps (ch.launch postings tdo).entries)[anchor]? = some (.shift s) := shown
    simp only [Flight.answer, here, readTdo, if_true]
    exact Option.some_ne_none _

/-! ### The entries of a posting -/

theorem context?_invalidate (ch : Chain) (tap other : Tap) (value : Nat) :
    (ch.invalidateIrCacheForShift other value).context? tap = (ch.context? tap).map fun ctx =>
      { ctx with currentIr := some (if ctx.tap = other then value else ctx.tap.bypass) } := by
  unfold context? invalidateIrCacheForShift
  exact List.find?_map

def ownSlice (ctx : Context) : TapOp → Option (Nat × Nat)
  | .shift op => drSlice ctx op
  | .irStatus => some (ctx.irPre.toNat, ctx.tap.irlen)
  | _ => none

theorem ownResult_of_silent {op : TapOp} {cached : Option Nat} (silent : op.silent cached = true) (ctx : Context)
    (tdo : BitString) : ownResult ctx tdo op = none := by
  cases op with
  | shift op =>
    simp only [TapOp.silent, decide_eq_true_eq] at silent
    simp [ownResult, silent.1]
  | _ => cases silent

def Settles (ctx : Context) (op : TapOp) (quiet : Bool) (outcome : Outcome) : Prop :=
  if quiet then outcome = .settled ∧ ∀ tdo, ownResult ctx tdo op = none
  else ∃ anchor, outcome = .awaits anchor (ownSlice ctx op)

theorem flushShift_own {ch : Chain} {tap : Tap} {ctx : Context} (known : ch.context? tap = some ctx) (posted : Nat)
    (op : TapShift) :
    (ch.flushShift posted ctx op).1.context? tap = some { ctx with currentIr := op.irValue.or ctx.currentIr } ∧
      Settles ctx (.shift op) ((TapOp.shift op).silent ctx.currentIr) (ch.flushShift posted ctx op).2.2 := by
  obtain ⟨_, rfl⟩ := context?_some known
  constructor
  · simp only [flushShift, flushIr, irToLoad]
    by_cases cached : op.irValue = ctx.currentIr
    · simp [cached, known]
    · cases asked : op.irValue with
      | none => simp [known]
      | some value =>
        rw [asked] at cached
        simp [cached, context?_invalidate, known]
  · have empty : (ch.flushShift posted ctx op).2.1 = [] ↔ (TapOp.shift op).silent ctx.currentIr = true := by
      have load : (ch.flushIr ctx op).2 = [] ↔ op.irValue = none ∨ op.irValue = ctx.currentIr := by
        simp only [flushIr, irToLoad]
        by_cases cached : op.irValue = ctx.currentIr
        · simp [cached]
        · cases asked : op.irValue <;> rw [asked] at cached <;> simp [cached, irScan]
      have data : flushDr ctx op = [] ↔ op.tdi = none ∧ op.postDrRun = 0 := by
        cases given : op.tdi <;> simp [flushDr, given, idle]
      have early : idle op.preDrRun = [] ↔ op.preDrRun = 0 := by simp [idle]
      simp only [flushShift, List.append_eq_nil_iff, load, data, early, TapOp.silent, decide_eq_true_eq]
      tauto
    show Settles _ _ _ (if (ch.flushShift posted ctx op).2.1 = [] then _ else _)
    cases silent : (TapOp.shift op).silent ctx.currentIr with
    | true =>
      rw [if_pos (empty.mpr silent)]
      exact ⟨rfl, ownResult_of_silent silent ctx⟩
    | false =>
      rw [if_neg (by rw [empty, silent]; exact Bool.false_ne_true)]
      exact ⟨_, rfl⟩

theorem flushOp_own {ch : Chain} {tap : Tap} {ctx : Context} (known : ch.context? tap = some ctx)
    (enabled : ctx.enabled = true) (posted : Nat) {op : TapOp} (plain : ∀ typeName, op ≠ .other typeName) :
    (ch.flushOp posted (.tapOp tap op)).1.context? tap = some { ctx with currentIr := op.caches tap ctx.currentIr } ∧
      Settles ctx op (op.silent ctx.currentIr) (ch.flushOp posted (.tapOp tap op)).2.2 := by
  obtain ⟨_, rfl⟩ := context?_some known
  cases op with
  | other typeName => exact (plain typeName rfl).elim
  | shift op =>
    have same : ch.flushOp posted (.tapOp ctx.tap (.shift op)) = ch.flushShift posted ctx op := by
      simp only [flushOp, known, enabled, if_true]
    rw [same]
    exact flushShift_own known posted op
  | run cycles =>
    have same : ch.flushOp posted (.tapOp ctx.tap (.run cycles)) = (ch, [.run cycles], .awaits posted none) := by
      simp only [flushOp, known, enabled, if_true]
    rw [same]
    exact ⟨known, _, rfl⟩
  | irStatus =>
    have same : ch.flushOp posted (.tapOp ctx.tap .irStatus) = (ch.invalidateIrCacheForShift ctx.tap ctx.tap.bypass,
        irScan ctx ctx.tap.bypass true, .awaits (posted + 1) (some (ctx.irPre.toNat, ctx.tap.irlen))) := by
      simp only [flushOp, known, enabled, if_true]
    rw [same]
    refine ⟨?_, _, rfl⟩
    simp [context?_invalidate, known, TapOp.caches]

theorem flushOps_own {ch : Chain} {tap : Tap} {ctx : Context} (known : ch.context? tap = some ctx)
    (enabled : ctx.enabled = true) (posted : Nat) {ops : List TapOp}
    (plain : ∀ op ∈ ops, ∀ typeName, op ≠ .other typeName) (rest : List Envelope) {j : Nat} {op : TapOp}
    (here : ops[j]? = some op) :
    ∃ entry quiet, (ch.flushOps posted (ops.map (.tapOp tap) ++ rest)).2[j]? = some entry ∧
      (silence tap ctx.currentIr ops)[j]? = some quiet ∧ Settles ctx op quiet entry.outcome := by
  induction ops generalizing ch ctx posted j with
  | nil => cases here
  | cons head ops ih =>
    obtain ⟨next, settles⟩ := flushOp_own known enabled posted (plain head List.mem_cons_self)
    cases j with
    | zero =>
      cases Option.some.inj here
      exact ⟨_, _, rfl, rfl, settles⟩
    | succ j =>
      obtain ⟨entry, quiet, found, shown, settles⟩ := ih next enabled
        (posted + (ch.flushOp posted (.tapOp tap head)).2.1.length)
        (fun op member => plain op (List.mem_cons_of_mem _ member)) here
      exact ⟨entry, quiet, found, shown, settles⟩

theorem length_flushOps (ch : Chain) (posted : Nat) (batch : List Envelope) :
    (ch.flushOps posted batch).2.length = batch.length := by
  induction batch generalizing ch posted with
  | nil => rfl
  | cons envelope batch ih => exact congrArg Nat.succ (ih _ _)

theorem flushOps_append (ch : Chain) (posted : Nat) (xs ys : List Envelope) :
    ∃ later, (ch.flushOps posted (xs ++ ys)).2 =
      (ch.flushOps posted xs).2 ++ ((ch.flushOps posted xs).1.flushOps later ys).2 := by
  induction xs generalizing ch posted with
  | nil => exact ⟨posted, rfl⟩
  | cons envelope xs ih =>
    obtain ⟨later, entries⟩ := ih (ch.flushOp posted envelope).1 (posted + (ch.flushOp posted envelope).2.1.length)
    exact ⟨later, congrArg _ entries⟩

theorem length_envelopes (postings : List Posting) :
    (postings.flatMap Posting.envelopes).length = Flight.size postings := by
  induction postings with
  | nil => rfl
  | cons posting postings ih =>
    rw [List.flatMap_cons, List.length_append, ih, Posting.envelopes, List.length_map, Flight.size, Flight.size,
      Tiling.width_cons]

theorem launch_own {ch : Chain} {pre : List Posting} {mine : Posting} {ctx : Context}
    (known : (ch.flushOps 0 (pre.flatMap Posting.envelopes)).1.context? mine.tap = some ctx)
    (enabled : ctx.enabled = true) (plain : ∀ op ∈ mine.ops, ∀ typeName, op ≠ .other typeName) (post : List Posting)
    (tdo : Nat → BitString) {j : Nat} {op : TapOp} (here : mine.ops[j]? = some op) :
    ∃ entry quiet, (ch.launch (pre ++ mine :: post) tdo).entries[Flight.size pre + j]? = some entry ∧
      (silence mine.tap ctx.currentIr mine.ops)[j]? = some quiet ∧ Settles ctx op quiet entry.outcome := by
  obtain ⟨later, entries⟩ := flushOps_append ch 0 (pre.flatMap Posting.envelopes)
    (mine.envelopes ++ post.flatMap Posting.envelopes)
  obtain ⟨entry, quiet, found, shown, settles⟩ := flushOps_own known enabled later plain
    (post.flatMap Posting.envelopes) here
  refine ⟨entry, quiet, ?_, shown, settles⟩
  simp only [launch, List.flatMap_append, List.flatMap_cons]
  rw [entries, ← length_envelopes, ← length_flushOps ch 0, List.getElem?_append_right (Nat.le_add_right _ _),
    Nat.add_sub_cancel_left]
  exact found

end Chain

/-! ### Results of a posting -/

namespace Flight

def ownTdo (flight : Flight) (index : Nat) : BitString :=
  flight.tdo ((Chain.postedOps (flight.entries.take (index + 1))).length - 1)

/-- The loop runs dry with every caller having its own result, which was set once. -/
def Attributed (flight : Flight) (events : List Event) (ctx : Context) (first : Nat) (ops : List TapOp) : Prop :=
  ∃ n, (flight.run flight.start (events ++ List.replicate n .tick)).ready = [] ∧
    ∀ j op, ops[j]? = some op →
      (flight.run flight.start (events ++ List.replicate n .tick)).users (first + j) =
        .result (ownResult ctx (flight.ownTdo (first + j)) op) ∧
      ∀ earlier later, events ++ List.replicate n .tick = earlier ++ later →
        (flight.run flight.start earlier).users (first + j) = .pending ∨
        (flight.run flight.start earlier).users (first + j) = .result (ownResult ctx (flight.ownTdo (first + j)) op)

variable {flight : Flight}

theorem users_mine (sound : flight.Sound) {events : List Event}
    (inOrder : Event.completed events = List.range (Chain.postedOps flight.entries).length)
    (drained : (flight.run flight.start events).ready = []) {pre post : List Posting} {mine : Posting}
    (split : flight.postings = pre ++ mine :: post) {j : Nat} (inside : j < mine.ops.length) :
    (size pre + mine.ops.length - 1 ∈ flight.settlements.map Prod.fst →
        (flight.run flight.start events).users (size pre + j) = (flight.earlyTops (size pre + j)).forwarded) ∧
      (size pre + mine.ops.length - 1 ∉ flight.settlements.map Prod.fst →
        size pre + mine.ops.length - 1 ∈ flight.resolutions.map Prod.fst →
        (flight.run flight.start events).users (size pre + j) = (flight.lateTops (size pre + j)).forwarded) := by
  have inRound := covered_iff split (Nat.le_add_right (size pre) j) (Nat.add_lt_add_left inside _)
  rw [users_run sound inOrder drained]
  constructor
  · intro now
    have first : gather flight.earlyTops (fun _ => .pending) flight.early (size pre + j) =
        (flight.earlyTops (size pre + j)).forwarded := by
      apply gather_covered rfl
      rw [early, ← List.flatMap_map]
      exact (inRound _).mpr now
    rw [gather_settled, first]
    rw [first]
    exact forwarded_ne_pending _
  · intro notNow later
    refine gather_covered ?_ ?_
    · apply gather_uncovered
      rw [early, ← List.flatMap_map]
      exact mt (inRound _).mp notNow
    · rw [late, ← List.flatMap_map]
      exact (inRound _).mpr later

theorem answer_eq {anchor : Nat} (answered : flight.answer anchor ≠ none) :
    flight.answer anchor = some (flight.tdo anchor) := by
  unfold answer at answered ⊢
  split at answered
  · split at answered
    · rename_i read
      simp only [read, if_true]
    · exact (answered rfl).elim
  · exact (answered rfl).elim

theorem notMem_settlements_of_mem {index anchor : Nat} {slice : Option (Nat × Nat)}
    (member : (index, anchor, slice) ∈ flight.resolutions) : index ∉ flight.settlements.map Prod.fst := by
  intro among
  obtain ⟨⟨_, future⟩, settled, rfl⟩ := List.mem_map.mp among
  have unset := earlyTops_pending member
  rw [earlyTops, updates_of_mem flight.settlements_keys settled] at unset
  obtain ⟨_, _, ⟨_, _, set⟩ | ⟨_, set⟩⟩ := (flight.mem_settlements).mp settled <;> rw [unset] at set <;> cases set

theorem tops_settled {index : Nat} {entry : Entry} (found : flight.entries[index]? = some entry)
    (outcome : entry.outcome = .settled) :
    index ∈ flight.settlements.map Prod.fst ∧ flight.earlyTops index = .result none ∧
      flight.lateTops index = .result none := by
  have settled : (index, .result none) ∈ flight.settlements :=
    (flight.mem_settlements).mpr ⟨entry, found, .inr ⟨outcome, rfl⟩⟩
  have early : flight.earlyTops index = .result none := updates_of_mem flight.settlements_keys settled
  refine ⟨List.mem_map.mpr ⟨_, settled, rfl⟩, early, ?_⟩
  rw [lateTops, updates_of_notMem, early]
  intro among
  obtain ⟨_, member, same⟩ := List.mem_map.mp among
  obtain ⟨⟨_, anchor, slice⟩, resolution, rfl⟩ := List.mem_map.mp member
  rw [delivered_fst] at same
  cases same
  exact notMem_settlements_of_mem resolution (List.mem_map.mpr ⟨_, settled, rfl⟩)

theorem tops_awaits {index : Nat} {entry : Entry} {anchor : Nat} {slice : Option (Nat × Nat)}
    (found : flight.entries[index]? = some entry) (outcome : entry.outcome = .awaits anchor slice) :
    index ∈ flight.resolutions.map Prod.fst ∧ index ∉ flight.settlements.map Prod.fst ∧
      flight.earlyTops index = .pending ∧ flight.lateTops index = (flight.delivered (index, anchor, slice)).2 := by
  have member : (index, anchor, slice) ∈ flight.resolutions := (flight.mem_resolutions).mpr ⟨entry, found, outcome⟩
  have keys : ((flight.resolutions.map flight.delivered).map Prod.fst).Nodup := by
    rw [List.map_map, List.Nodup, List.pairwise_map]
    refine flight.resolutions_sorted.imp fun {r t} less => ?_
    simp only [Function.comp_apply, delivered_fst]
    exact Nat.ne_of_lt less
  have set : (index, (flight.delivered (index, anchor, slice)).2) ∈ flight.resolutions.map flight.delivered :=
    List.mem_map.mpr ⟨_, member, Prod.ext (flight.delivered_fst _) rfl⟩
  exact ⟨List.mem_map.mpr ⟨_, member, rfl⟩, notMem_settlements_of_mem member, earlyTops_pending member,
    updates_of_mem keys set⟩

end Flight

namespace Chain

theorem delivered_own {ch : Chain} {postings : List Posting} {tdo : Nat → BitString} {index : Nat} {entry : Entry}
    (found : (ch.launch postings tdo).entries[index]? = some entry) {ctx : Context} {op : TapOp} {anchor : Nat}
    (outcome : entry.outcome = .awaits anchor (ownSlice ctx op)) :
    ((ch.launch postings tdo).delivered (index, anchor, ownSlice ctx op)).2 =
      .result (ownResult ctx ((ch.launch postings tdo).ownTdo index) op) := by
  have place : (postedOps ((ch.launch postings tdo).entries.take (index + 1))).length - 1 = anchor := by
    have last := (flushOps_awaits found outcome).1
    rw [Nat.zero_add] at last
    show (postedOps ((ch.flushOps 0 _).2.take (index + 1))).length - 1 = anchor
    omega
  have answered : ownSlice ctx op ≠ none → (ch.launch postings tdo).answer anchor = some (tdo anchor) := fun wanted =>
    Flight.answer_eq ((launch_sound ch postings tdo).readable _
      ((Flight.mem_resolutions _).mpr ⟨entry, found, outcome⟩) wanted)
  rw [Flight.ownTdo, place]
  cases op with
  | irStatus =>
    simp only [ownSlice] at answered ⊢
    simp only [Flight.delivered, answered (by simp), Option.map_some, ownResult]
    rfl
  | run cycles => rfl
  | other typeName => rfl
  | shift op =>
    cases data : op.tdi with
    | none => simp [ownSlice, drSlice, data, Flight.delivered, ownResult]
    | some tdi =>
      cases read : op.readTdo with
      | false => simp [ownSlice, drSlice, data, read, Flight.delivered, ownResult]
      | true =>
        simp only [ownSlice, drSlice, data, read, if_true] at answered ⊢
        simp only [Flight.delivered, answered (by simp), Option.map_some, ownResult, data, read, if_true]
        rfl

theorem length_silence (tap : Tap) (cached : Option Nat) (ops : List TapOp) :
    (silence tap cached ops).length = ops.length := by
  induction ops generalizing cached with
  | nil => rfl
  | cons op ops ih => exact congrArg Nat.succ (ih _)

section Posting
variable {ch : Chain} {pre post : List Posting} {mine : Posting} {ctx : Context} {tdo : Nat → BitString}
  {events : List Event}

theorem launch_last (known : (ch.flushOps 0 (pre.flatMap Posting.envelopes)).1.context? mine.tap = some ctx)
    (enabled : ctx.enabled = true) (plain : ∀ op ∈ mine.ops, ∀ typeName, op ≠ .other typeName)
    (nonempty : 0 < mine.ops.length) (post : List Posting) (tdo : Nat → BitString) :
    ∃ entry op quiet, (ch.launch (pre ++ mine :: post) tdo).entries[Flight.size pre + mine.ops.length - 1]? = some entry ∧
      (silence mine.tap ctx.currentIr mine.ops).getLast? = some quiet ∧ Settles ctx op quiet entry.outcome := by
  have last : mine.ops[mine.ops.length - 1]? = some mine.ops[mine.ops.length - 1] := List.getElem?_eq_getElem _
  obtain ⟨entry, quiet, found, shown, settles⟩ := launch_own known enabled plain post tdo last
  refine ⟨entry, _, quiet, ?_, ?_, settles⟩
  · rw [Nat.add_sub_assoc nonempty]
    exact found
  · rw [List.getLast?_eq_getElem?, length_silence]
    exact shown

theorem users_own (known : (ch.flushOps 0 (pre.flatMap Posting.envelopes)).1.context? mine.tap = some ctx)
    (enabled : ctx.enabled = true) (plain : ∀ op ∈ mine.ops, ∀ typeName, op ≠ .other typeName)
    (inOrder : Event.completed events =
      List.range (postedOps (ch.launch (pre ++ mine :: post) tdo).entries).length)
    (drained : ((ch.launch (pre ++ mine :: post) tdo).run (ch.launch (pre ++ mine :: post) tdo).start events).ready = [])
    {j : Nat} {op : TapOp} (here : mine.ops[j]? = some op) :
    ((ch.launch (pre ++ mine :: post) tdo).run (ch.launch (pre ++ mine :: post) tdo).start events).users
          (Flight.size pre + j) =
        .result (ownResult ctx ((ch.launch (pre ++ mine :: post) tdo).ownTdo (Flight.size pre + j)) op) ↔
      ((silence mine.tap ctx.currentIr mine.ops).getLast? = some true →
        (silence mine.tap ctx.currentIr mine.ops)[j]? = some true) := by
  have inside : j < mine.ops.length := (List.getElem?_eq_some_iff.mp here).1
  obtain ⟨last, _, lastQuiet, foundLast, shownLast, settlesLast⟩ := launch_last known enabled plain (by omega)
    post tdo
  obtain ⟨entry, quiet, found, shown, settles⟩ := launch_own known enabled plain post tdo here
  obtain ⟨now, later⟩ := Flight.users_mine (launch_sound ch (pre ++ mine :: post) tdo) inOrder drained rfl inside
  rw [shownLast, shown]
  simp only [Option.some.injEq]
  cases lastQuiet with
  | true =>
    rw [now (Flight.tops_settled foundLast settlesLast.1).1]
    cases quiet with
    | true =>
      rw [(Flight.tops_settled found settles.1).2.1, settles.2]
      exact ⟨fun _ _ => rfl, fun _ => rfl⟩
    | false =>
      obtain ⟨anchor, outcome⟩ := settles
      rw [(Flight.tops_awaits found outcome).2.2.1]
      refine ⟨fun wrong => ?_, fun wrong => ?_⟩
      · cases wrong
      · cases wrong rfl
  | false =>
    obtain ⟨anchor, outcome⟩ := settlesLast
    obtain ⟨awaits, notNow, _⟩ := Flight.tops_awaits foundLast outcome
    rw [later notNow awaits]
    refine ⟨fun _ wrong => Bool.noConfusion wrong, fun _ => ?_⟩
    cases quiet with
    | true =>
      rw [(Flight.tops_settled found settles.1).2.2, settles.2]
      rfl
    | false =>
      obtain ⟨anchor, outcome⟩ := settles
      rw [(Flight.tops_awaits found outcome).2.2.2, delivered_own found outcome]
      rfl

/-- Whatever the chain flushes together with it and however the interface and
the callbacks interleave, the callers of a posting get their own results
exactly when its last operation is not silent or all of them are. -/
theorem attributed_iff (known : (ch.flushOps 0 (pre.flatMap Posting.envelopes)).1.context? mine.tap = some ctx)
    (enabled : ctx.enabled = true) (plain : ∀ op ∈ mine.ops, ∀ typeName, op ≠ .other typeName)
    (inOrder : Event.completed events =
      List.range (postedOps (ch.launch (pre ++ mine :: post) tdo).entries).length) :
    (ch.launch (pre ++ mine :: post) tdo).Attributed events ctx (Flight.size pre) mine.ops ↔
      Anchored mine.tap ctx.currentIr mine.ops := by
  have longer : ∀ n, Event.completed (events ++ List.replicate n .tick) =
      List.range (postedOps (ch.launch (pre ++ mine :: post) tdo).entries).length := by
    intro n
    rw [← inOrder, Event.completed, List.filterMap_append]
    exact (congrArg _ (Flight.completed_ticks n)).trans (List.append_nil _)
  constructor
  · rintro ⟨n, dry, results⟩ last quiet member
    obtain ⟨j, shown⟩ := List.mem_iff_getElem?.mp member
    have inside : j < mine.ops.length := by
      rw [← length_silence mine.tap ctx.currentIr]
      exact (List.getElem?_eq_some_iff.mp shown).1
    have here := List.getElem?_eq_getElem inside
    have own := (users_own known enabled plain (longer n) dry here).mp (results j _ here).1 last
    exact Option.some.inj (shown.symm.trans own)
  · intro anchored
    have phase := Flight.phase_run (launch_sound ch (pre ++ mine :: post) tdo) Flight.phase_start
      (inOrder.trans List.range_eq_range')
    obtain ⟨n, dry⟩ := Flight.exists_drained (launch_sound ch (pre ++ mine :: post) tdo) phase
    rw [← Flight.run_append] at dry
    refine ⟨n, dry, fun j op here => ?_⟩
    have own := (users_own known enabled plain (longer n) dry here).mpr fun last => by
      obtain ⟨_, quiet, _, shown, _⟩ := launch_own known enabled plain post tdo here
      rw [shown, anchored last quiet (List.mem_of_getElem? shown)]
    refine ⟨own, fun earlier later split => ?_⟩
    by_cases unset : ((ch.launch (pre ++ mine :: post) tdo).run (ch.launch (pre ++ mine :: post) tdo).start
        earlier).users (Flight.size pre + j) = .pending
    · exact .inl unset
    · right
      rw [← own, split, Flight.run_append, Flight.run_users_settled unset]

end Posting

/-! ### One TAP -/

def lone : Tap := ⟨0, "a", none, 4⟩

def single : Chain := (({ name := "chain" } : Chain).tapAdd "a" none 4).1

def reread : List TapOp :=
  [.shift { irValue := some 3, tdi := none, readTdo := false },
   .shift { irValue := some 3, tdi := some [true, false], readTdo := true },
   .shift { irValue := some 3, tdi := none, readTdo := false }]

def answered : List Event := [.complete 0, .complete 1, .complete 2, .complete 3]

theorem attributed_reread_run :
    (single.launch ([] ++ ⟨lone, reread ++ [.run 1]⟩ :: []) fun _ => [false, true]).Attributed
      (.tick :: answered ++ [.tick, .complete 4]) { tap := lone } (Flight.size []) (reread ++ [.run 1]) := by
  refine (attributed_iff ?_ rfl ?_ ?_).mpr ?_
  · decide
  · simp [reread]
  · decide
  · decide

def rereads : Flight := single.launch [⟨lone, reread⟩] fun _ => [false, true]

/-- Without the run at the end, the caller of the read gets an `InvalidStateError`. -/
theorem unattributed_reread :
    (rereads.run rereads.start (answered ++ [.tick])).users 1 = .failed .invalidStateError ∧
      ¬ rereads.Attributed answered { tap := lone } 0 reread := by
  have rejected : (rereads.run rereads.start (answered ++ [.tick])).users 1 = .failed .invalidStateError := by decide
  refine ⟨rejected, ?_⟩
  rintro ⟨n, dry, results⟩
  cases n with
  | zero =>
    revert dry
    decide
  | succ n =>
    have own : (rereads.run rereads.start (answered ++ .tick :: List.replicate n .tick)).users 1 = .result _ :=
      (results 1 _ rfl).1
    have settled : (rereads.run rereads.start (answered ++ [.tick])).users 1 ≠ .pending := by
      rw [rejected]
      exact Future.noConfusion
    rw [List.append_cons, Flight.run_append, Flight.run_users_settled settled, rejected] at own
    cases own

end Chain
end Acrobe.Jtag
