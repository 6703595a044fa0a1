import Acrobe.Lib.AnswerQueue
import Acrobe.Lib.Transition
import Acrobe.Nsl.ApbCodecSound

/-!
# Commands and answers of the APB bridge

The component runs its batches one after the other and has a window of commands in flight. The bridge takes the commands
in order and answers each; an answer does not say to which command.
-/

namespace Acrobe.Nsl.Apb
open LittleEndian Acrobe.Lib Acrobe.Memory Futures

/-- What a command's answer must look like. -/
structure Pending where
  kind : Kind
  addr : Nat
  words : Nat

def Issue.pending (issue : Issue) : Pending := ⟨issue.kind, issue.addr, issue.words⟩

def Pending.decode (codec : ApbStreamCodec) (pending : Pending) (frame : Bytes) : Status (Option Bytes) Failure :=
  Apb.decode codec pending.kind pending.addr pending.words frame

/-! ### Component -/

structure ApbOnStream where
  /-- `__pending` and the futures of all commands sent. -/
  queue : AnswerQueue Pending (Option Bytes) Failure
  /-- Batches that wait for the lock. -/
  dispatched : List (List Op)
  /-- What is left of the running batch. -/
  batch : List Op
  /-- What is left of the running operation. -/
  issues : List Issue
  inFlight : List (Pending × Nat)
  /-- The command that `__wait` waits for. -/
  waiting : Option (Pending × Nat)
  refused : List (Op × Refusal)

namespace ApbOnStream

def initial : ApbOnStream := ⟨.empty, [], [], [], [], none, []⟩

variable (setup : ApbSetup) (self : ApbOnStream)

def flushOps (batch : List Op) : ApbOnStream := { self with dispatched := self.dispatched ++ [batch] }

/-- `__issue` -/
def issue (next : Issue) (issues : List Issue) : ApbOnStream :=
  { self with
    queue := self.queue.send next.pending
    issues
    inFlight := self.inFlight ++ [(next.pending, self.queue.futures.length)] }

/-- `run_ops` up to its next call, and the command that it sends there. -/
def runOps : Option (ApbOnStream × Option Issue) :=
  match self.waiting with
  | some pending =>
    if self.queue.futures.Pending pending.2 then none else some ({ self with waiting := none }, none)
  | none =>
    match self.issues with
    | next :: issues =>
      match self.inFlight with
      | head :: inFlight =>
        if setup.window ≤ inFlight.length + 1 then some ({ self with inFlight, waiting := some head }, none)
        else some (self.issue next issues, some next)
      | [] => some (self.issue next issues, some next)
    | [] =>
      match self.batch with
      | op :: batch =>
        match setup.issues op with
        | .ok issues => some ({ self with batch, issues }, none)
        | .error reason => some ({ self with batch, refused := self.refused ++ [(op, reason)] }, none)
      | [] =>
        match self.inFlight with
        | head :: inFlight => some ({ self with inFlight, waiting := some head }, none)
        | [] =>
          match self.dispatched with
          | batch :: dispatched => some ({ self with dispatched, batch }, none)
          | [] => none

/-- The timeout of `__wait`: it fails every command that waits, and the rest of the batch is not run. -/
def timeout (pending : Pending) : ApbOnStream :=
  { self with
    queue := self.queue.expire (.exception (.timeout pending.kind pending.addr))
    batch := []
    issues := []
    inFlight := []
    waiting := none }

/-- `__on_answer` -/
def onAnswer (frame : Bytes) : ApbOnStream := { self with queue := self.queue.answer (Pending.decode setup.codec) frame }

end ApbOnStream

/-! ### Runs -/

inductive Event where
  | flush (batch : List Op)
  | run
  | timeout
  | bridge
  | receive

/-- The component and the bridge, with all that went from one to the other. -/
structure Link (σ : Type) where
  host : ApbOnStream
  bridge : σ
  submitted : List Op
  issued : List Issue
  answered : List Bytes
  received : Nat
  expired : List Pending

variable {σ : Type} (setup : ApbSetup) (serve : σ → Bytes → σ × Bytes)

namespace Link

def initial (bridge : σ) : Link σ := ⟨.initial, bridge, [], [], [], 0, []⟩

def step (self : Link σ) : Event → Option (Link σ)
  | .flush batch => some { self with host := self.host.flushOps batch, submitted := self.submitted ++ batch }
  | .run => (self.host.runOps setup).map fun ran => { self with host := ran.1, issued := self.issued ++ ran.2.toList }
  | .timeout => self.host.waiting.map fun pending =>
      { self with host := self.host.timeout pending.1, expired := self.expired ++ [pending.1] }
  | .bridge => self.issued[self.answered.length]?.map fun issue =>
      let served := serve self.bridge issue.frame
      { self with bridge := served.1, answered := self.answered ++ [served.2] }
  | .receive => self.answered[self.received]?.map fun answer =>
      { self with host := self.host.onAnswer setup answer, received := self.received + 1 }

def run (events : List Event) (self : Link σ) : Option (Link σ) := events.foldlM (step setup serve) self

end Link

/-! ### Commands sent -/

/-- The commands of an operation, none where it is refused. -/
def ApbSetup.sent (op : Op) : List Issue :=
  match setup.issues op with
  | .ok issues => issues
  | .error _ => []

/-- The commands that the component still has to send. -/
def ApbOnStream.left (self : ApbOnStream) : List Issue :=
  self.issues ++ (self.batch ++ self.dispatched.flatten).flatMap setup.sent

theorem runOps_cases {self next : ApbOnStream} {sent : Option Issue} (ran : self.runOps setup = some (next, sent)) :
    (self.left setup = sent.toList ++ next.left setup) ∧
      (self.inFlight.length ≤ setup.window → next.inFlight.length ≤ setup.window) ∧
      next.queue = match sent with
        | some issue => self.queue.send issue.pending
        | none => self.queue := by
  obtain ⟨queue, dispatched, batch, issues, inFlight, waiting, refused⟩ := self
  unfold ApbOnStream.runOps at ran
  cases waiting with
  | some pending =>
    dsimp only at ran
    by_cases waits : queue.futures.Pending pending.2
    · rw [if_pos waits] at ran
      cases ran
    · rw [if_neg waits] at ran
      cases ran
      exact ⟨rfl, id, rfl⟩
  | none =>
    cases issues with
    | cons first issues =>
      cases inFlight with
      | cons head inFlight =>
        dsimp only at ran
        by_cases full : setup.window ≤ inFlight.length + 1
        · rw [if_pos full] at ran
          cases ran
          exact ⟨rfl, Nat.le_of_succ_le, rfl⟩
        · rw [if_neg full] at ran
          cases ran
          refine ⟨rfl, fun _ => ?_, rfl⟩
          rw [ApbOnStream.issue, List.length_append, List.length_singleton, List.length_cons]
          omega
      | nil =>
        cases ran
        exact ⟨rfl, fun _ => setup.windowed, rfl⟩
    | nil =>
      cases batch with
      | cons op batch =>
        dsimp only at ran
        cases lowered : setup.issues op with
        | ok issues =>
          rw [lowered] at ran
          cases ran
          refine ⟨?_, id, rfl⟩
          rw [ApbOnStream.left, ApbOnStream.left, List.cons_append, List.flatMap_cons, ApbSetup.sent, lowered]
          rfl
        | error reason =>
          rw [lowered] at ran
          cases ran
          refine ⟨?_, id, rfl⟩
          rw [ApbOnStream.left, ApbOnStream.left, List.cons_append, List.flatMap_cons, ApbSetup.sent, lowered]
          rfl
      | nil =>
        cases inFlight with
        | cons head inFlight =>
          cases ran
          exact ⟨rfl, Nat.le_of_succ_le, rfl⟩
        | nil =>
          cases dispatched with
          | cons batch dispatched =>
            cases ran
            exact ⟨rfl, id, rfl⟩
          | nil => cases ran

theorem left_flushOps (self : ApbOnStream) (batch : List Op) :
    (self.flushOps batch).left setup = self.left setup ++ batch.flatMap setup.sent := by
  simp [ApbOnStream.left, ApbOnStream.flushOps]

theorem left_timeout (self : ApbOnStream) (pending : Pending) :
    ((self.timeout pending).left setup).Sublist (self.left setup) := by
  have later : (self.dispatched.flatten.flatMap setup.sent).Sublist (self.left setup) := by
    rw [ApbOnStream.left, List.flatMap_append]
    exact (List.sublist_append_right ..).trans (List.sublist_append_right ..)
  exact later

/-! ### Answers received -/

def serveAll (bridge : σ) : List Bytes → σ × List Bytes
  | [] => (bridge, [])
  | frame :: frames =>
    let here := serve bridge frame
    let rest := serveAll here.1 frames
    (rest.1, here.2 :: rest.2)

theorem serveAll_concat (bridge : σ) (frames : List Bytes) (frame : Bytes) :
    serveAll serve bridge (frames ++ [frame]) =
      ((serve (serveAll serve bridge frames).1 frame).1,
        (serveAll serve bridge frames).2 ++ [(serve (serveAll serve bridge frames).1 frame).2]) := by
  induction frames generalizing bridge with
  | nil => rfl
  | cons first frames ih => rw [List.cons_append, serveAll, ih, serveAll, List.cons_append]

/-- Every answer received settled the future of the command that the bridge was answering with it, unless a timeout had.
-/
structure Link.Matched (first : σ) (link : Link σ) : Prop where
  issued : (link.issued ++ link.host.left setup).Sublist (link.submitted.flatMap setup.sent)
  complete : link.expired = [] → link.issued ++ link.host.left setup = link.submitted.flatMap setup.sent
  window : link.host.inFlight.length ≤ setup.window
  answered : link.answered.length ≤ link.issued.length
  bridged : serveAll serve first ((link.issued.take link.answered.length).map Issue.frame) = (link.bridge, link.answered)
  received : link.received ≤ link.answered.length
  settled : link.host.queue.Matches (Pending.decode setup.codec)
    (fun status => ∃ pending ∈ link.expired, status = .exception (.timeout pending.kind pending.addr))
    (link.issued.map Issue.pending) (link.answered.take link.received)

namespace Link.Matched

variable {setup : ApbSetup} {serve : σ → Bytes → σ × Bytes} {first : σ} {self next : Link σ}

theorem initial : (Link.initial first).Matched setup serve first where
  issued := .slnil
  complete := fun _ => rfl
  window := Nat.zero_le _
  answered := Nat.le_refl _
  bridged := rfl
  received := Nat.le_refl _
  settled := .empty

theorem flush (matched : self.Matched setup serve first) (batch : List Op) :
    Link.Matched setup serve first
      { self with host := self.host.flushOps batch, submitted := self.submitted ++ batch } where
  issued := by
    rw [left_flushOps, List.flatMap_append, ← List.append_assoc]
    exact matched.issued.append_right _
  complete := by
    intro none
    rw [left_flushOps, List.flatMap_append, ← List.append_assoc, matched.complete none]
  window := matched.window
  answered := matched.answered
  bridged := matched.bridged
  received := matched.received
  settled := matched.settled

theorem run (matched : self.Matched setup serve first) {host : ApbOnStream} {sent : Option Issue}
    (ran : self.host.runOps setup = some (host, sent)) :
    Link.Matched setup serve first { self with host, issued := self.issued ++ sent.toList } := by
  obtain ⟨left, window, queue⟩ := runOps_cases setup ran
  have same : (self.issued ++ sent.toList) ++ host.left setup = self.issued ++ self.host.left setup := by
    rw [left, List.append_assoc]
  have inside := matched.answered
  refine ⟨same ▸ matched.issued, fun none => same.trans (matched.complete none), window matched.window, ?_, ?_,
    matched.received, ?_⟩
  · rw [List.length_append]
    exact Nat.le_add_right_of_le inside
  · rw [List.take_append_of_le_length inside]
    exact matched.bridged
  · rw [queue]
    cases sent with
    | none =>
      rw [Option.toList_none, List.append_nil]
      exact matched.settled
    | some issue =>
      rw [Option.toList_some, List.map_append]
      exact matched.settled.send issue.pending

theorem timeout (matched : self.Matched setup serve first) (pending : Pending) :
    Link.Matched setup serve first
      { self with host := self.host.timeout pending, expired := self.expired ++ [pending] } where
  issued := ((left_timeout setup self.host pending).append_left _).trans matched.issued
  complete := by
    intro none
    cases (List.append_eq_nil_iff.mp none).2
  window := Nat.zero_le _
  answered := matched.answered
  bridged := matched.bridged
  received := matched.received
  settled := by
    have wider : ∀ status : Status (Option Bytes) Failure,
        (∃ one ∈ self.expired, status = .exception (.timeout one.kind one.addr)) →
          ∃ one ∈ self.expired ++ [pending], status = .exception (.timeout one.kind one.addr) := by
      intro status expired
      obtain ⟨one, member, same⟩ := expired
      exact ⟨one, List.mem_append_left _ member, same⟩
    exact (matched.settled.mono wider).expire ⟨pending, List.mem_concat_self, rfl⟩

theorem bridge (matched : self.Matched setup serve first) {issue : Issue}
    (here : self.issued[self.answered.length]? = some issue) :
    Link.Matched setup serve first
      { self with
        bridge := (serve self.bridge issue.frame).1
        answered := self.answered ++ [(serve self.bridge issue.frame).2] } := by
  obtain ⟨inside, rfl⟩ := List.getElem?_eq_some_iff.mp here
  have received := matched.received
  refine ⟨matched.issued, matched.complete, matched.window, ?_, ?_, ?_, ?_⟩
  · rw [List.length_append, List.length_singleton]
    exact inside
  · rw [List.length_append, List.length_singleton, List.take_succ_eq_append_getElem inside, List.map_append, List.map_singleton,
      serveAll_concat, matched.bridged]
  · rw [List.length_append]
    exact Nat.le_add_right_of_le received
  · rw [List.take_append_of_le_length received]
    exact matched.settled

theorem receive (matched : self.Matched setup serve first) {answer : Bytes}
    (here : self.answered[self.received]? = some answer) :
    Link.Matched setup serve first
      { self with host := self.host.onAnswer setup answer, received := self.received + 1 } := by
  obtain ⟨inside, rfl⟩ := List.getElem?_eq_some_iff.mp here
  have answered := matched.answered
  have count : (self.answered.take self.received).length = self.received := List.length_take_of_le matched.received
  refine ⟨matched.issued, matched.complete, matched.window, answered, matched.bridged, inside, ?_⟩
  rw [List.take_succ_eq_append_getElem inside]
  exact matched.settled.answer (by rw [count, List.length_map]; omega)

theorem step (event : Event) (matched : self.Matched setup serve first)
    (stepped : self.step setup serve event = some next) : next.Matched setup serve first := by
  cases event with
  | flush batch =>
    cases stepped
    exact matched.flush batch
  | run =>
    obtain ⟨⟨host, sent⟩, ran, rfl⟩ := Option.map_eq_some_iff.mp stepped
    exact matched.run ran
  | timeout =>
    obtain ⟨pending, -, rfl⟩ := Option.map_eq_some_iff.mp stepped
    exact matched.timeout pending.1
  | bridge =>
    obtain ⟨issue, here, rfl⟩ := Option.map_eq_some_iff.mp stepped
    exact matched.bridge here
  | receive =>
    obtain ⟨answer, here, rfl⟩ := Option.map_eq_some_iff.mp stepped
    exact matched.receive here

theorem reached {events : List Event} (ran : (Link.initial first).run setup serve events = some next) :
    next.Matched setup serve first :=
  foldlM_invariant (fun _ event _ matched stepped => step event matched stepped) initial ran

end Link.Matched

/-! ### Access -/

/-- The commands of a batch run on the bridge give what the bridge answers, decoded. -/
theorem runAll_serveAll (codec : ApbStreamCodec) (identity : Bytes) (broken : Error) (memory : ByteMemory)
    (issues : List Issue) :
    runAll (codec.run identity broken) memory issues =
      ((serveAll (codec.handle identity) memory (issues.map Issue.frame)).1,
        List.zipWith (fun issue answer => ApbStreamCodec.outcome broken (issue.pending.decode codec answer)) issues
          (serveAll (codec.handle identity) memory (issues.map Issue.frame)).2) := by
  induction issues generalizing memory with
  | nil => rfl
  | cons issue issues ih =>
    rw [runAll, ih]
    rfl

/-- Once every answer has been received, with no timeout on the way, the futures hold what the commands give. -/
theorem drained {identity : Bytes} {first : ByteMemory} {link : Link ByteMemory}
    (matched : link.Matched setup (setup.codec.handle identity) first) (all : link.received = link.issued.length)
    (punctual : link.expired = []) (broken : Error) :
    runAll (setup.codec.run identity broken) first link.issued =
      (link.bridge, link.host.queue.futures.map (ApbStreamCodec.outcome broken)) := by
  have answers : link.answered.length = link.issued.length := Nat.le_antisymm matched.answered (all ▸ matched.received)
  have bridged := matched.bridged
  rw [answers, List.take_length] at bridged
  rw [runAll_serveAll, bridged]
  congr 1
  have known := matched.settled.known
  rw [List.length_map] at known
  apply List.ext_getElem
  · rw [List.length_zipWith, List.length_map, known, answers, Nat.min_self]
  · intro n inside counted
    rw [List.length_zipWith, answers, Nat.min_self] at inside
    rw [List.getElem_zipWith, List.getElem_map]
    have present : n < link.host.queue.futures.length := by omega
    obtain ⟨-, late⟩ | ⟨one, member, -⟩ | ⟨frame, here, decoded⟩ := matched.settled.settled n (link.issued[n]).pending
      link.host.queue.futures[n] (by rw [List.getElem?_map, List.getElem?_eq_getElem inside]; rfl)
      (List.getElem?_eq_getElem present)
    · rw [List.length_take_of_le matched.received] at late
      omega
    · rw [punctual] at member
      cases member
    · rw [all, ← answers, List.take_length, List.getElem?_eq_getElem (by omega)] at here
      rw [decoded, ← Option.some.inj here]

/-- A blob is refused exactly when it is not empty and is out of range or a write of partial words; its commands are
whole aligned words within the limits and do what the blob does, and whatever the order of answers and timeouts each answer
settles the command that it answers. -/
theorem access_exact (setup : ApbSetup) :
    (∀ op wanted, (∃ refusal, setup.lower op wanted = .error refusal) ↔ ¬setup.Accepts op) ∧
    (∀ op wanted refusal, setup.lower op wanted = .error refusal →
      (∃ reason, refusal = .valueError reason) ∧ setup.sent (.blob op) = []) ∧
    (∀ identity broken op wanted, setup.Accepts op →
      ∃ lowering, setup.lower op wanted = .ok lowering ∧ setup.Sound identity broken op wanted lowering) ∧
    (∀ identity broken batch lowerings memory order,
      List.Forall₂ (fun entry lowering => setup.lower entry.1 entry.2 = .ok lowering) batch lowerings →
      order.Perm (awaited (expandFrom 0 0 .initial lowerings).1) →
      (runBatch (setup.codec.run identity broken) memory lowerings order).memory =
          (execAll memory (batch.map fun entry => ApbSetup.plain entry.1)).1 ∧
        ∀ i op wanted result, batch[i]? = some (op, wanted) →
          (execAll memory (batch.map fun entry => ApbSetup.plain entry.1)).2[i]? = some result →
          (runBatch (setup.codec.run identity broken) memory lowerings order).users i =
            if wanted then some (.ok result) else .none) ∧
    (∀ (σ : Type) (serve : σ → Bytes → σ × Bytes) first events link,
      (Link.initial first).run setup serve events = some link → link.Matched setup serve first) ∧
    ∀ identity broken first events link,
      (Link.initial first).run setup (setup.codec.handle identity) events = some link →
      link.received = link.issued.length → link.expired = [] →
      runAll (setup.codec.run identity broken) first link.issued =
        (link.bridge, link.host.queue.futures.map (ApbStreamCodec.outcome broken)) := by
  have refused_iff (op : BlobOp) (wanted : Bool) : (∃ refusal, setup.lower op wanted = .error refusal) ↔ ¬setup.Accepts op := by
    obtain ⟨accepts, lowering, lowered, -⟩ | ⟨refuses, reason, refused⟩ :=
      setup.lower_cases [] .overflowError op wanted
    · rw [lowered]
      exact ⟨nofun, fun refuses => absurd accepts refuses⟩
    · exact ⟨fun _ => refuses, fun _ => ⟨_, refused⟩⟩
  refine ⟨refused_iff, ?_, ?_, ?_, ?_, ?_⟩
  · intro op wanted refusal refused
    have refuses := (refused_iff op wanted).mp ⟨_, refused⟩
    refine ⟨?_, ?_⟩
    · obtain ⟨accepts, -⟩ | ⟨-, reason, same⟩ := setup.lower_cases [] .overflowError op wanted
      · exact absurd accepts refuses
      · rw [same] at refused
        exact ⟨reason, (Except.error.inj refused).symm⟩
    · obtain ⟨accepts, -⟩ | ⟨-, reason, same⟩ := setup.lower_cases [] .overflowError op true
      · exact absurd accepts refuses
      · rw [ApbSetup.sent, ApbSetup.issues, same]
        rfl
  · intro identity broken op wanted accepts
    obtain ⟨-, lowered⟩ | ⟨refuses, -⟩ := setup.lower_cases identity broken op wanted
    · exact lowered
    · exact absurd accepts refuses
  · intro identity broken batch lowerings memory order lowered every
    exact setup.batch_exact identity broken lowered memory every
  · intro σ serve first events link ran
    exact Link.Matched.reached ran
  · intro identity broken first events link ran all punctual
    exact drained setup (Link.Matched.reached ran) all punctual broken

/-- A write without bytes is not refused where it is not aligned, nor is a read without bytes beyond the end. -/
theorem empty_unrefused : ∃ setup : ApbSetup,
    ¬setup.Fits (.writeBlob 1 []) ∧ ¬setup.Fits (.readBlob 5000000000 0) ∧
      ∀ op ∈ [BlobOp.writeBlob 1 [], .readBlob 5000000000 0], ∃ lowering, setup.lower op true = .ok lowering := by
  refine ⟨⟨⟨32, 32, 4, by decide, by decide, by decide⟩, 16, 8, by decide, by decide⟩, ?_, ?_, ?_⟩
  · intro fits
    exact absurd (fits.whole rfl).1 (by decide)
  · intro fits
    exact absurd fits.high (by decide)
  · intro op member
    obtain rfl | rfl : op = .writeBlob 1 [] ∨ op = .readBlob 5000000000 0 := by simpa using member
    · exact ⟨_, rfl⟩
    · exact ⟨_, rfl⟩

end Acrobe.Nsl.Apb
