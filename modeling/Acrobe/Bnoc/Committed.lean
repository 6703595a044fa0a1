import Acrobe.Lib.Futures
import Acrobe.Lib.LittleEndian
import Acrobe.Lib.Transition

/-!
# The committed channel

`Committed` puts a trailer behind each frame and drops received frames whose trailer says that they
were cancelled. The backend resolves its receives in post order; callbacks run in the order in which
their futures were resolved.
-/

namespace Acrobe.Bnoc.Committed
open LittleEndian Lib Futures Table

def commit : UInt8 := 0x01

def cancel : UInt8 := 0x00

variable {γ : Type}

structure Frame (γ : Type) where
  data : Bytes
  context : γ
  deriving DecidableEq

inductive Error where
  | invalidTrailer (length : Nat)
  deriving DecidableEq

def Error.message : Error → String
  | .invalidTrailer length => s!"Committed: invalid trailer in {length}-byte frame"

/-- An operation with the index of its future. -/
inductive Op (γ : Type) where
  | send (frame : Frame γ)
  | recv (context : γ) (future : Nat)

structure State (γ : Type) where
  posted : List (Op γ)
  /-- The futures of the receives. -/
  futures : Table (Frame γ) Error
  /-- What the backend was given. -/
  sent : List (Frame γ)
  waiting : List (γ × Nat)
  /-- What the backend has received, and what of it no receive has taken. -/
  received : List (Frame γ)
  inbound : List (Frame γ)
  /-- Resolved receives of the backend whose callback has not run. -/
  resolved : List ((γ × Nat) × Frame γ)

namespace State

def start : State γ :=
  { posted := [], futures := [], sent := [], waiting := [], received := [], inbound := [], resolved := [] }

/-! ### Sending and receiving -/

def recv (self : State γ) (context : γ) (future : Nat) : State γ :=
  { self with waiting := self.waiting ++ [(context, future)] }

def flushOps (self : State γ) : List (Op γ) → State γ
  | [] => self
  | .send frame :: batch =>
    flushOps { self with sent := self.sent ++ [⟨frame.data ++ [commit], frame.context⟩] } batch
  | .recv context future :: batch => flushOps (self.recv context future) batch

end State

inductive Reaction (γ : Type) where
  | pull
  | settle (status : Status (Frame γ) Error)

def react (frame : Frame γ) : Reaction γ :=
  if frame.data.getLast? = some cancel then .pull
  else if frame.data.getLast? = some commit then .settle (.result ⟨frame.data.dropLast, frame.context⟩)
  else .settle (.exception (.invalidTrailer frame.data.length))

namespace State
variable [DecidableEq γ]

def onFrame (self : State γ) (context : γ) (future : Nat) (frame : Frame γ) : State γ :=
  match react frame with
  | .pull => self.recv context future
  | .settle status => { self with futures := self.futures.settle future status }

end State

inductive Event (γ : Type) where
  | send (frame : Frame γ)
  /-- Without a future when nobody waits for it. -/
  | recv (context : γ) (waits : Bool)
  | abandon (future : Nat)
  | flush
  | receive (frame : Frame γ)
  | resolve
  | callback

namespace State
variable [DecidableEq γ]

def step (self : State γ) : Event γ → Option (State γ)
  | .send frame => some { self with posted := self.posted ++ [.send frame] }
  | .recv context waits =>
    some { self with
      posted := self.posted ++ [.recv context self.futures.length]
      futures := self.futures ++ [if waits then .pending else .cancelled] }
  | .abandon future => some { self with futures := self.futures.settle future .cancelled }
  | .flush => if self.posted = [] then none else some ({ self with posted := [] }.flushOps self.posted)
  | .receive frame => some { self with received := self.received ++ [frame], inbound := self.inbound ++ [frame] }
  | .resolve =>
    match self.waiting, self.inbound with
    | receiver :: waiting, frame :: inbound =>
      some { self with waiting := waiting, inbound := inbound, resolved := self.resolved ++ [(receiver, frame)] }
    | _, _ => none
  | .callback =>
    match self.resolved with
    | ((context, future), frame) :: resolved => some ({ self with resolved := resolved }.onFrame context future frame)
    | [] => none

end State

/-! ### Order -/

def Frame.IsKept (frame : Frame γ) : Prop := frame.data.getLast? ≠ some cancel

instance (frame : Frame γ) : Decidable frame.IsKept := inferInstanceAs (Decidable (_ ≠ _))

theorem react_cases (frame : Frame γ) :
    (react frame = .pull ∧ ¬frame.IsKept) ∨
      ∃ status, react frame = .settle status ∧ status ≠ .pending ∧ frame.IsKept := by
  rw [react]
  by_cases cancelled : frame.data.getLast? = some cancel
  · rw [if_pos cancelled]
    exact .inl ⟨rfl, not_not_intro cancelled⟩
  · rw [if_neg cancelled]
    split
    · exact .inr ⟨_, rfl, nofun, cancelled⟩
    · exact .inr ⟨_, rfl, nofun, cancelled⟩

/-- What the frames do to the receive that takes the one at the index: nothing when there is none. -/
def outcome (kept : List (Frame γ)) (index : Nat) : Status (Frame γ) Error :=
  match kept[index]? with
  | some frame => match react frame with
    | .pull => .pending
    | .settle status => status
  | none => .pending

def Op.receiver? : Op γ → Option (γ × Nat)
  | .send _ => none
  | .recv context future => some (context, future)

def keptFrames (frames : List (Frame γ)) : List (Frame γ) := frames.filter fun frame => decide frame.IsKept

/-- What the channel and its backend do without another operation or frame. -/
def Event.Own (event : Event γ) : Prop := event = .flush ∨ event = .resolve ∨ event = .callback

namespace State

/-- The receives that have not taken their frame, in the order in which they will. -/
def outstanding (self : State γ) : List Nat :=
  self.resolved.map (·.1.2) ++ (self.waiting ++ self.posted.filterMap Op.receiver?).map Prod.snd

/-- The k-th receive is settled by the k-th frame that was not cancelled. -/
def InOrder (self : State γ) : Prop :=
  ∀ index status, self.futures[index]? = some status →
    status = .pending ∨ status = .cancelled ∨
      (index < (keptFrames self.received).length ∧ status = outcome (keptFrames self.received) index)

/-- Nothing is left to do before another operation or frame. -/
def Quiescent (self : State γ) : Prop :=
  self.posted = [] ∧ self.resolved = [] ∧ (self.waiting = [] ∨ self.inbound = [])

/-- No cancelled frame is handled while another receive is below. -/
def Calm (self : State γ) : Event γ → Prop
  | .callback => match self.resolved with
    | (_, frame) :: resolved => frame.IsKept ∨ (resolved = [] ∧ self.waiting = [])
    | [] => True
  | _ => True

/-- What the frames handled so far have settled. -/
structure Sound (handled : List (Frame γ)) (channel : State γ) : Prop where
  account : channel.received = handled ++ (channel.resolved.map Prod.snd ++ channel.inbound)
  order : channel.outstanding =
    List.range' (keptFrames handled).length (channel.futures.length - (keptFrames handled).length)
  bounded : (keptFrames handled).length ≤ channel.futures.length
  settled : ∀ index status, channel.futures[index]? = some status →
    status = .cancelled ∨ status = outcome (keptFrames handled) index

end State

theorem outcome_append {front : List (Frame γ)} {index : Nat} (inside : index < front.length) (back : List (Frame γ)) :
    outcome (front ++ back) index = outcome front index := by
  rw [outcome, outcome, List.getElem?_append_left inside]

theorem outcome_beyond {kept : List (Frame γ)} {index : Nat} (beyond : kept.length ≤ index) :
    outcome kept index = .pending := by
  rw [outcome, List.getElem?_eq_none beyond]

theorem outcome_concat {front : List (Frame γ)} {frame : Frame γ} {status : Status (Frame γ) Error}
    (reacts : react frame = .settle status) : outcome (front ++ [frame]) front.length = status := by
  rw [outcome, List.getElem?_concat_length]
  dsimp only
  rw [reacts]

theorem outcome_concat_ne {front : List (Frame γ)} {index : Nat} (other : index ≠ front.length) (frame : Frame γ) :
    outcome (front ++ [frame]) index = outcome front index := by
  rcases Nat.lt_or_ge index front.length with inside | beyond
  · exact outcome_append inside _
  · rw [outcome_beyond beyond, outcome_beyond]
    rw [List.length_append, List.length_singleton]
    omega

theorem keptFrames_append (front back : List (Frame γ)) :
    keptFrames (front ++ back) = keptFrames front ++ keptFrames back := List.filter_append ..

theorem mem_keptFrames {frames : List (Frame γ)} {frame : Frame γ} (member : frame ∈ keptFrames frames) :
    frame.IsKept := of_decide_eq_true (List.mem_filter.mp member).2

theorem outcome_ne_pending {frames : List (Frame γ)} {index : Nat} (inside : index < (keptFrames frames).length) :
    outcome (keptFrames frames) index ≠ .pending := by
  rw [outcome, List.getElem?_eq_getElem inside]
  dsimp only
  obtain ⟨-, cancelled⟩ | ⟨status, reacts, done, -⟩ := react_cases (keptFrames frames)[index]
  · exact absurd (mem_keptFrames (List.getElem_mem inside)) cancelled
  · rw [reacts]
    exact done

namespace State

theorem Sound.inOrder {handled : List (Frame γ)} {self : State γ} (sound : self.Sound handled) : self.InOrder := by
  intro index status found
  rcases sound.settled index status found with cancelled | same
  · exact .inr (.inl cancelled)
  · rcases Nat.lt_or_ge index (keptFrames handled).length with inside | beyond
    · refine .inr (.inr ?_)
      rw [sound.account, keptFrames_append, outcome_append inside, List.length_append]
      exact ⟨by omega, same⟩
    · exact .inl (same.trans (outcome_beyond beyond))

theorem Sound.quiescent {handled : List (Frame γ)} {self : State γ} (sound : self.Sound handled)
    (quiescent : self.Quiescent) {index : Nat} (pending : self.futures.Pending index) :
    (keptFrames self.received).length ≤ index := by
  obtain ⟨posted, resolved, idle⟩ := quiescent
  rcases sound.settled index .pending pending with cancelled | same
  · cases cancelled
  · have beyond : (keptFrames handled).length ≤ index := by
      apply Nat.le_of_not_lt
      intro inside
      exact outcome_ne_pending inside same.symm
    rcases idle with waiting | inbound
    · have none := sound.order
      rw [outstanding, posted, resolved, waiting] at none
      have length := congrArg List.length none
      rw [List.length_range'] at length
      have inside := pending.lt
      change 0 = _ at length
      omega
    · rw [sound.account, resolved, inbound]
      change (keptFrames (handled ++ [])).length ≤ index
      rw [List.append_nil]
      exact beyond

theorem flushOps_eq (self : State γ) (batch : List (Op γ)) :
    ∃ sent, self.flushOps batch =
      { self with sent := sent, waiting := self.waiting ++ batch.filterMap Op.receiver? } := by
  induction batch generalizing self with
  | nil =>
    refine ⟨self.sent, ?_⟩
    rw [List.filterMap_nil, List.append_nil]
    rfl
  | cons op batch ih =>
    cases op with
    | send frame => exact ih _
    | recv context future =>
      obtain ⟨sent, same⟩ := ih (self.recv context future)
      refine ⟨sent, ?_⟩
      rw [flushOps, same, recv, List.append_assoc]
      rfl

theorem sound_start : Sound [] (start : State γ) :=
  ⟨rfl, rfl, Nat.le_refl _, fun _ _ found => by cases found⟩

theorem Sound.pull {handled : List (Frame γ)} {self : State γ} (sound : self.Sound handled) {receiver : γ × Nat}
    {frame : Frame γ} (first : self.resolved = [(receiver, frame)]) (below : self.waiting = [])
    (cancelled : ¬frame.IsKept) : Sound (handled ++ [frame]) { self with resolved := [], waiting := [receiver] } := by
  have more : keptFrames (handled ++ [frame]) = keptFrames handled := by
    rw [keptFrames_append, keptFrames, keptFrames, List.filter_singleton, decide_eq_false cancelled]
    exact List.append_nil _
  refine ⟨?_, ?_, ?_, ?_⟩
  · rw [sound.account, first, List.append_assoc]
    rfl
  · rw [more, ← sound.order, outstanding, outstanding, first, below]
    rfl
  · rw [more]
    exact sound.bounded
  · rw [more]
    exact sound.settled

variable [DecidableEq γ]

theorem Sound.settle {handled : List (Frame γ)} {self : State γ} (sound : self.Sound handled) {receiver : γ × Nat}
    {frame : Frame γ} {resolved : List ((γ × Nat) × Frame γ)} (first : self.resolved = (receiver, frame) :: resolved)
    {status : Status (Frame γ) Error} (reacts : react frame = .settle status) (kept : frame.IsKept) :
    Sound (handled ++ [frame])
      { self with resolved := resolved, futures := self.futures.settle receiver.2 status } := by
  have more : keptFrames (handled ++ [frame]) = keptFrames handled ++ [frame] := by
    rw [keptFrames_append, keptFrames, keptFrames, List.filter_singleton, decide_eq_true kept]
    rfl
  have next := sound.order
  rw [outstanding, first] at next
  obtain ⟨count, rest⟩ : ∃ count, self.futures.length - (keptFrames handled).length = count + 1 := by
    cases left : self.futures.length - (keptFrames handled).length with
    | zero =>
      rw [left] at next
      cases next
    | succ count => exact ⟨count, rfl⟩
  rw [rest, List.range'_succ] at next
  obtain ⟨oldest, others⟩ := List.cons.inj next
  change receiver.2 = _ at oldest
  refine ⟨?_, ?_, ?_, ?_⟩
  · rw [sound.account, first, List.append_assoc]
    rfl
  · have fewer : self.futures.length - ((keptFrames handled).length + [frame].length) = count := by
      rw [List.length_singleton]
      omega
    rw [more, List.length_append, length_settle, fewer]
    exact others
  · rw [more, List.length_append, length_settle, List.length_singleton]
    omega
  · intro index found present
    rw [more]
    by_cases same : index = receiver.2
    · subst same
      rw [oldest, outcome_concat reacts]
      by_cases pending : self.futures.Pending receiver.2
      · rw [settle_of_pending pending] at present
        exact .inr (Option.some.inj present).symm
      · rw [Table.settle, if_neg pending] at present
        rcases sound.settled receiver.2 found present with cancelled | same
        · exact .inl cancelled
        · rw [oldest, outcome_beyond (Nat.le_refl _)] at same
          subst same
          exact absurd present pending
    · rw [settle_of_ne same] at present
      rw [outcome_concat_ne (fun equal => same (equal.trans oldest.symm))]
      exact sound.settled index found present

/-- A step in which no cancelled frame is handled above another receive keeps the order. -/
theorem Sound.step {handled : List (Frame γ)} {self next : State γ} {event : Event γ} (sound : self.Sound handled)
    (calm : self.Calm event) (stepped : self.step event = some next) : ∃ handled, next.Sound handled := by
  cases event with
  | send frame =>
    cases stepped
    refine ⟨handled, sound.account, ?_, sound.bounded, sound.settled⟩
    rw [← sound.order, outstanding, outstanding, List.filterMap_append]
    change _ ++ (_ ++ (_ ++ [])).map _ = _
    rw [List.append_nil]
  | recv context waits =>
    cases stepped
    refine ⟨handled, sound.account, ?_, ?_, ?_⟩
    · have order := sound.order
      rw [outstanding] at order ⊢
      have bounded := sound.bounded
      rw [List.filterMap_append, ← List.append_assoc, List.map_append, ← List.append_assoc, order, List.length_append,
        List.length_singleton, Nat.sub_add_comm bounded, List.range'_concat, Nat.one_mul, Nat.add_sub_cancel' bounded]
      rfl
    · rw [List.length_append]
      exact Nat.le_trans sound.bounded (Nat.le_add_right _ _)
    · intro index status found
      rcases Nat.lt_trichotomy index self.futures.length with inside | rfl | outside
      · rw [List.getElem?_append_left inside] at found
        exact sound.settled index status found
      · rw [List.getElem?_concat_length] at found
        cases found
        cases waits with
        | true => exact .inr (outcome_beyond sound.bounded).symm
        | false => exact .inl rfl
      · rw [List.getElem?_eq_none (by rw [List.length_append, List.length_singleton]; omega)] at found
        cases found
  | abandon future =>
    cases stepped
    refine ⟨handled, sound.account, ?_, ?_, ?_⟩
    · rw [length_settle]
      exact sound.order
    · rw [length_settle]
      exact sound.bounded
    · intro index status found
      by_cases same : index = future
      · subst same
        by_cases pending : self.futures.Pending index
        · rw [settle_of_pending pending] at found
          exact .inl (Option.some.inj found).symm
        · rw [Table.settle, if_neg pending] at found
          exact sound.settled index status found
      · rw [settle_of_ne same] at found
        exact sound.settled index status found
  | flush =>
    rw [State.step] at stepped
    split at stepped
    · cases stepped
    · cases stepped
      obtain ⟨sent, same⟩ := flushOps_eq { self with posted := [] } self.posted
      rw [same]
      refine ⟨handled, sound.account, ?_, sound.bounded, sound.settled⟩
      rw [← sound.order, outstanding, outstanding, List.filterMap_nil, List.append_nil]
  | receive frame =>
    cases stepped
    refine ⟨handled, ?_, sound.order, sound.bounded, sound.settled⟩
    rw [sound.account, List.append_assoc, List.append_assoc]
  | resolve =>
    rw [State.step] at stepped
    split at stepped
    · rename_i receiver waiting frame inbound below arrived
      cases stepped
      refine ⟨handled, ?_, ?_, sound.bounded, sound.settled⟩
      · rw [sound.account, arrived, List.map_append, List.append_assoc]
        rfl
      · rw [← sound.order, outstanding, outstanding, below, List.map_append, List.append_assoc]
        rfl
    · cases stepped
  | callback =>
    rw [State.step] at stepped
    split at stepped
    · rename_i context future frame resolved first
      cases stepped
      rw [Calm, first] at calm
      rw [onFrame]
      rcases react_cases frame with ⟨reacts, cancelled⟩ | ⟨status, reacts, -, kept⟩
      · obtain ⟨rfl, below⟩ := calm.resolve_left cancelled
        rw [reacts]
        refine ⟨handled ++ [frame], ?_⟩
        have pulled := sound.pull first below cancelled
        rw [recv]
        dsimp only
        rw [below]
        exact pulled
      · rw [reacts]
        exact ⟨handled ++ [frame], sound.settle first reacts kept⟩
    · cases stepped

/-! ### Progress -/

/-- What the channel and its backend still have to do on their own. -/
def work (self : State γ) : Nat := self.posted.length + 2 * self.inbound.length + self.resolved.length

theorem work_onFrame (self : State γ) (context : γ) (future : Nat) (frame : Frame γ) :
    (self.onFrame context future frame).work = self.work := by
  rw [onFrame]
  split <;> rfl

/-- What the channel and its backend do on their own is work done. -/
theorem step_work {self next : State γ} {event : Event γ} (own : event.Own) (stepped : self.step event = some next) :
    next.work < self.work := by
  obtain rfl | rfl | rfl := own
  · rw [step] at stepped
    split at stepped
    · cases stepped
    · rename_i posted
      cases stepped
      obtain ⟨sent, same⟩ := flushOps_eq { self with posted := [] } self.posted
      rw [same]
      have filled := List.length_pos_of_ne_nil posted
      change 0 + 2 * self.inbound.length + self.resolved.length <
        self.posted.length + 2 * self.inbound.length + self.resolved.length
      omega
  · rw [step] at stepped
    split at stepped
    · rename_i receiver waiting frame inbound below arrived
      cases stepped
      rw [work, work, arrived, List.length_append]
      change self.posted.length + 2 * inbound.length + (self.resolved.length + 1) <
        self.posted.length + 2 * (inbound.length + 1) + self.resolved.length
      omega
    · cases stepped
  · rw [step] at stepped
    split at stepped
    · rename_i context future frame resolved first
      cases stepped
      rw [work_onFrame, work, work, first, List.length_cons]
      exact Nat.lt_succ_self _
    · cases stepped

/-- The channel and its backend cannot go on exactly when nothing is left to do. -/
theorem stopped_iff {self : State γ} : (∀ event : Event γ, event.Own → self.step event = none) ↔ self.Quiescent := by
  constructor
  · intro stopped
    have flush := stopped .flush (.inl rfl)
    have resolve := stopped .resolve (.inr (.inl rfl))
    have callback := stopped .callback (.inr (.inr rfl))
    refine ⟨?_, ?_, ?_⟩
    · by_contra posted
      rw [step, if_neg posted] at flush
      cases flush
    · cases resolved : self.resolved with
      | nil => rfl
      | cons first rest =>
        rw [step, resolved] at callback
        cases callback
    · cases waiting : self.waiting with
      | nil => exact .inl rfl
      | cons receiver waiting' =>
        cases inbound : self.inbound with
        | nil => exact .inr rfl
        | cons frame inbound' =>
          rw [step, waiting, inbound] at resolve
          cases resolve
  · rintro ⟨posted, resolved, idle⟩ event (rfl | rfl | rfl)
    · rw [step, if_pos posted]
    · rw [step]
      split
      · rename_i below arrived
        rw [below, arrived] at idle
        obtain none | none := idle <;> cases none
      · rfl
    · rw [step, resolved]

/-- On their own, the channel and its backend come to an end, and then nothing is left to do. -/
theorem channel_rests {self last : State γ} {events : List (Event γ)} (own : ∀ event ∈ events, event.Own)
    (ran : events.foldlM step self = some last) :
    last.work + events.length ≤ self.work ∧
      ((∀ event : Event γ, event.Own → last.step event = none) ↔ last.Quiescent) :=
  ⟨foldlM_stops (fun _ _ _ own stepped => step_work own stepped) own ran, stopped_iff⟩

/-- Two receives and two frames, the first of them cancelled: five steps for six pieces of work. -/
theorem channel_rests_two :
    let self : State Unit := { (start : State Unit) with
      posted := [.recv () 0, .recv () 1], futures := [.pending, .pending], received := [⟨[9, 0], ()⟩, ⟨[1, 1], ()⟩]
      inbound := [⟨[9, 0], ()⟩, ⟨[1, 1], ()⟩] }
    ∃ last, List.foldlM step self [.flush, .resolve, .callback, .resolve, .callback] = some last ∧ self.work = 6 ∧
      last.work + 5 ≤ self.work ∧ ((∀ event : Event Unit, event.Own → last.step event = none) ↔ last.Quiescent) :=
  have own : ∀ event ∈ [Event.flush, .resolve, .callback, .resolve, .callback], (event : Event Unit).Own := by
    simp [Event.Own]
  ⟨_, rfl, rfl, channel_rests own rfl⟩

/-- The k-th receive takes the k-th frame that was not cancelled, and when nothing is left to do only receives
without such a frame wait. -/
theorem run_inOrder {events : List (Event γ)} {last : State γ} (calm : Along State.step Calm start events)
    (ran : events.foldlM State.step start = some last) :
    last.InOrder ∧
      (last.Quiescent → ∀ index, last.futures.Pending index → (keptFrames last.received).length ≤ index) := by
  have step (self : State γ) (event : Event γ) (next : State γ) (sound : ∃ handled, self.Sound handled)
      (calm : self.Calm event) (stepped : self.step event = some next) : ∃ handled, next.Sound handled :=
    sound.elim fun _ sound => sound.step calm stepped
  obtain ⟨handled, sound⟩ := foldlM_along step ⟨[], sound_start⟩ calm ran
  exact ⟨sound.inOrder, fun quiescent _ pending => sound.quiescent quiescent pending⟩

/-- Two receives one after the other, each with a cancelled frame before its own. -/
def oneByOne : List (Event Unit) :=
  [.recv () true, .flush, .receive ⟨[9, 0], ()⟩, .resolve, .callback, .receive ⟨[1, 1], ()⟩, .resolve, .callback,
    .recv () true, .flush, .receive ⟨[8, 0], ()⟩, .resolve, .callback, .receive ⟨[2, 1], ()⟩, .resolve, .callback]

theorem run_inOrder_one :
    ∃ last, oneByOne.foldlM State.step start = some last ∧ last.futures = [.result ⟨[1], ()⟩, .result ⟨[2], ()⟩] ∧
      last.InOrder :=
  have calm : Along State.step Calm start oneByOne :=
    ⟨trivial, trivial, trivial, trivial, .inr ⟨rfl, rfl⟩, trivial, trivial, .inl (by decide), trivial, trivial, trivial,
      trivial, .inr ⟨rfl, rfl⟩, trivial, trivial, .inl (by decide), trivial⟩
  ⟨_, rfl, by decide, (run_inOrder calm rfl).1⟩

def twoWaiting : List (Event Unit) :=
  [.recv () true, .recv () true, .flush, .receive ⟨[9, 0], ()⟩, .receive ⟨[1, 1], ()⟩, .receive ⟨[2, 1], ()⟩,
    .resolve, .callback, .resolve, .callback, .resolve, .callback]

/-- The first of two receives takes the second frame. -/
theorem cancelled_frame_swaps :
    ∃ last, twoWaiting.foldlM State.step start = some last ∧ last.futures = [.result ⟨[2], ()⟩, .result ⟨[1], ()⟩] ∧
      ¬last.InOrder := by
  refine ⟨_, rfl, by decide, fun inOrder => ?_⟩
  have first := inOrder 0 (.result ⟨[2], ()⟩) rfl
  revert first
  decide

end State
end Acrobe.Bnoc.Committed
