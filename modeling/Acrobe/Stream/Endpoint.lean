import Acrobe.Lib.Delivery
import Acrobe.Lib.LittleEndian
import Acrobe.Lib.Transition

/-!
# The stream endpoint

`StreamEndpointDatagram` reads chunks from a character device, puts frames together and hands them to
the receives that wait. The reader is disarmed while too many frames are buffered.
-/

namespace Acrobe.Stream
open LittleEndian Lib Futures Table

/-! ### Chunks -/

inductive ChunkError where
  | short (length : Nat)
  | size (claimed length : Nat)
  | reserved (flags : Nat)

namespace Chunk

def headerSize : Nat := 4

def last : Nat := 1

/-- The header is in host byte order, here that of a little-endian host. -/
def unpack (raw : Bytes) : Except ChunkError (Bytes × Bool) :=
  if raw.length < headerSize then .error (.short raw.length)
  else
    let size := combine (raw.take 2)
    let flags := combine ((raw.drop 2).take 2)
    let payload := raw.drop headerSize
    if payload.length ≠ size then .error (.size size payload.length)
    else if flags &&& 0xfffe ≠ 0 then .error (.reserved flags)
    else .ok (payload, flags &&& last != 0)

end Chunk

/-! ### The endpoint -/

inductive Error where
  | closed
  deriving DecidableEq

/-- What `os.read` does. -/
inductive Read where
  | data (raw : Bytes)
  | blocking
  | interrupted
  | failed

def rxFrameHighWater : Nat := 64

structure Endpoint where
  /-- The receives that the next flush will see. -/
  posted : List Nat
  fdOpen : Bool
  readerArmed : Bool
  partialFrame : Bytes
  rxFrames : List Bytes
  recvWaiters : List Nat
  /-- The futures of the receives. -/
  futures : Table Bytes Error
  /-- Every complete frame so far. -/
  received : List Bytes

namespace Endpoint

def start : Endpoint :=
  { posted := [], fdOpen := true, readerArmed := true, partialFrame := [], rxFrames := [], recvWaiters := [],
    futures := [], received := [] }

def teardown (self : Endpoint) : Endpoint :=
  { self with
    readerArmed := false
    fdOpen := false
    recvWaiters := []
    futures := self.futures.settleAll self.recvWaiters (.exception .closed) }

def rearmReader (self : Endpoint) : Endpoint :=
  if self.fdOpen then { self with readerArmed := decide (self.rxFrames.length < rxFrameHighWater) } else self

def handOver (self : Endpoint) : List Nat → List Bytes → Endpoint
  | future :: waiters, frame :: frames =>
    handOver { self with futures := self.futures.settle future (.result frame) } waiters frames
  | waiters, frames => { self with recvWaiters := waiters, rxFrames := frames }

def dispatchRx (self : Endpoint) : Endpoint := (self.handOver self.recvWaiters self.rxFrames).rearmReader

def flushOps (self : Endpoint) : List Nat → Endpoint
  | [] => self
  | future :: batch => flushOps ({ self with recvWaiters := self.recvWaiters ++ [future] }.dispatchRx) batch

/-- The loop over `os.read`, and whether it left the endpoint open. -/
def readAll (self : Endpoint) : List Read → Endpoint × Bool
  | [] => (self, true)
  | .blocking :: _ => (self, true)
  | .interrupted :: reads => readAll self reads
  | .failed :: _ => (self.teardown, false)
  | .data [] :: _ => (self.teardown, false)
  | .data (byte :: raw) :: reads =>
    match Chunk.unpack (byte :: raw) with
    | .error _ => (self.teardown, false)
    | .ok (payload, last) =>
      let frame := self.partialFrame ++ payload
      if last then
        let self := { self with
          rxFrames := self.rxFrames ++ [frame], received := self.received ++ [frame], partialFrame := [] }
        if self.rxFrames.length ≥ rxFrameHighWater then (self, true) else readAll self reads
      else readAll { self with partialFrame := frame } reads

def onReadable (self : Endpoint) (reads : List Read) : Endpoint :=
  if self.fdOpen then
    match self.readAll reads with
    | (self, true) => self.dispatchRx
    | (self, false) => self
  else self

end Endpoint

inductive Event where
  /-- Without a future when nobody waits for it. -/
  | recv (waits : Bool)
  | abandon (future : Nat)
  | flush
  | readable (reads : List Read)
  | stop

namespace Endpoint

/-- The loop calls the reader only while it is armed. -/
def step (self : Endpoint) : Event → Option Endpoint
  | .recv waits =>
    some { self with
      posted := self.posted ++ [self.futures.length]
      futures := self.futures ++ [if waits then .pending else .cancelled] }
  | .abandon future => some { self with futures := self.futures.settle future .cancelled }
  | .flush => if self.posted = [] then none else some ({ self with posted := [] }.flushOps self.posted)
  | .readable reads => if self.readerArmed then some (self.onReadable reads) else none
  | .stop => some self.teardown

/-! ### Delivery -/

/-- Every frame goes to one receive in turn: the results in post order and then the buffer are all frames in
arrival order, and no receive waits before one that got its frame. -/
structure Delivers (endpoint : Endpoint) : Prop where
  frames : endpoint.received = results endpoint.futures ++ endpoint.rxFrames
  oldest : ∀ waiter later frame, endpoint.futures.Pending waiter → endpoint.futures[later]? = some (.result frame) →
    later < waiter
  known : ∀ waiter, endpoint.futures.Pending waiter → waiter ∈ endpoint.recvWaiters ∨ waiter ∈ endpoint.posted
  exclusive : endpoint.rxFrames = [] ∨ endpoint.recvWaiters = []
  armed : endpoint.fdOpen = true →
    endpoint.readerArmed = decide (endpoint.rxFrames.length < rxFrameHighWater)

/-- Whenever frames are handed out, the receives that are first in the queue are live. -/
def Serves (self : Endpoint) : Event → Prop
  | .flush => ∀ waiter ∈ (self.recvWaiters ++ self.posted).take self.rxFrames.length, self.futures.Pending waiter
  | .readable reads =>
    let read := (self.readAll reads).1
    ∀ waiter ∈ read.recvWaiters.take read.rxFrames.length, read.futures.Pending waiter
  | _ => True

instance (self : Endpoint) : (event : Event) → Decidable (self.Serves event)
  | .flush => inferInstanceAs (Decidable (∀ waiter ∈ (self.recvWaiters ++ self.posted).take self.rxFrames.length,
      self.futures.Pending waiter))
  | .readable reads => inferInstanceAs (Decidable (∀ waiter ∈ (self.readAll reads).1.recvWaiters.take
      (self.readAll reads).1.rxFrames.length, (self.readAll reads).1.futures.Pending waiter))
  | .recv _ => .isTrue trivial
  | .abandon _ => .isTrue trivial
  | .stop => .isTrue trivial

def anyFrame : Bytes → Bool := fun _ => true

/-- The frames are accounted for, and the waiters and those behind them are queued. -/
structure Accounted (behind : List Nat) (endpoint : Endpoint) : Prop where
  frames : endpoint.received = results endpoint.futures ++ endpoint.rxFrames
  queued : Queued anyFrame endpoint.futures (endpoint.recvWaiters ++ behind)
  waiting : ∀ waiter, endpoint.futures.Pending waiter → waiter ∈ endpoint.recvWaiters ++ behind

theorem filter_anyFrame (frames : List Bytes) : frames.filter anyFrame = frames :=
  List.filter_eq_self.mpr fun _ _ => rfl

theorem Accounted.inTurn {self : Endpoint} (accounted : self.Accounted self.posted)
    (exclusive : self.rxFrames = [] ∨ self.recvWaiters = [])
    (armed : self.fdOpen = true → self.readerArmed = decide (self.rxFrames.length < rxFrameHighWater)) :
    self.Delivers where
  frames := accounted.frames
  oldest := by
    intro waiter later frame pending found
    apply Nat.lt_of_not_le
    intro behind
    cases accounted.queued.newest waiter (accounted.waiting waiter pending) later frame behind found
  known := fun waiter pending => List.mem_append.mp (accounted.waiting waiter pending)
  exclusive := exclusive
  armed := armed

theorem handOver_spec {self : Endpoint} {waiters behind : List Nat} {frames : List Bytes}
    (account : self.received = results self.futures ++ frames)
    (queued : Queued anyFrame self.futures (waiters ++ behind))
    (live : ∀ waiter ∈ waiters.take frames.length, self.futures.Pending waiter) :
    ∃ futures, self.handOver waiters frames = { self with
        futures := futures, recvWaiters := waiters.drop frames.length, rxFrames := frames.drop waiters.length } ∧
      self.received = results futures ++ frames.drop waiters.length ∧
      Queued anyFrame futures (waiters.drop frames.length ++ behind) ∧
      ∀ other, futures.Pending other ↔ self.futures.Pending other ∧ other ∉ waiters.take frames.length := by
  induction waiters generalizing self frames with
  | nil =>
    refine ⟨self.futures, ?_, account, ?_, ?_⟩
    · cases frames <;> rfl
    · rw [List.drop_nil]
      exact queued
    · intro other
      rw [List.take_nil]
      exact ⟨fun pending => ⟨pending, List.not_mem_nil⟩, And.left⟩
  | cons waiter waiters ih =>
    cases frames with
    | nil =>
      exact ⟨self.futures, rfl, account, queued, fun other => ⟨fun pending => ⟨pending, List.not_mem_nil⟩, And.left⟩⟩
    | cons frame frames =>
      have pending := live waiter List.mem_cons_self
      have ahead := List.pairwise_cons.mp queued.sorted
      have given : (Status.result frame : Status Bytes Error) ≠ .pending := nofun
      obtain ⟨delivered, rest⟩ := queued.deliver pending (rfl : anyFrame frame = true)
      rw [filter_anyFrame, filter_anyFrame] at delivered
      have others : ∀ other ∈ waiters.take frames.length,
          (self.futures.settle waiter (.result frame)).Pending other := fun other member =>
        (pending_settle given).mpr ⟨live other (List.mem_cons_of_mem _ member), Nat.ne_of_gt
          (ahead.1 other (List.mem_append_left _ (List.mem_of_mem_take member)))⟩
      have left : self.received = results (self.futures.settle waiter (.result frame)) ++ frames := by
        rw [account, delivered, List.append_assoc]
        rfl
      obtain ⟨futures, same, accounted, left, done⟩ :=
        @ih { self with futures := self.futures.settle waiter (.result frame) } frames left rest others
      refine ⟨futures, same, accounted, left, fun other => ?_⟩
      rw [done, List.length_cons, List.take_succ_cons, List.mem_cons, not_or]
      change (self.futures.settle waiter (.result frame)).Pending other ∧ _ ↔ _
      rw [pending_settle given, and_assoc]

theorem drop_exclusive (waiters : List Nat) (frames : List Bytes) :
    frames.drop waiters.length = [] ∨ waiters.drop frames.length = [] := by
  rcases Nat.le_total frames.length waiters.length with fewer | more
  · exact .inl (List.drop_of_length_le fewer)
  · exact .inr (List.drop_of_length_le more)

theorem rearmReader_eq (self : Endpoint) : ∃ armed, self.rearmReader = { self with readerArmed := armed } ∧
    (self.fdOpen = true → armed = decide (self.rxFrames.length < rxFrameHighWater)) := by
  rw [rearmReader]
  split
  · exact ⟨_, rfl, fun _ => rfl⟩
  · rename_i closed
    exact ⟨self.readerArmed, rfl, fun isOpen => absurd isOpen closed⟩

theorem dispatchRx_spec {self : Endpoint} {behind : List Nat} (accounted : self.Accounted behind)
    (live : ∀ waiter ∈ self.recvWaiters.take self.rxFrames.length, self.futures.Pending waiter) :
    ∃ futures armed, self.dispatchRx = { self with
        futures := futures, recvWaiters := self.recvWaiters.drop self.rxFrames.length,
        rxFrames := self.rxFrames.drop self.recvWaiters.length, readerArmed := armed } ∧
      self.dispatchRx.Accounted behind ∧
      (self.fdOpen = true →
        armed = decide ((self.rxFrames.drop self.recvWaiters.length).length < rxFrameHighWater)) ∧
      ∀ other, futures.Pending other ↔
        self.futures.Pending other ∧ other ∉ self.recvWaiters.take self.rxFrames.length := by
  obtain ⟨futures, handed, account, queued, done⟩ := handOver_spec accounted.frames accounted.queued live
  obtain ⟨armed, rearmed, level⟩ := rearmReader_eq (self.handOver self.recvWaiters self.rxFrames)
  have same : self.dispatchRx = { self with
      futures := futures, recvWaiters := self.recvWaiters.drop self.rxFrames.length,
      rxFrames := self.rxFrames.drop self.recvWaiters.length, readerArmed := armed } := by
    rw [dispatchRx, rearmed, handed]
  rw [handed] at level
  refine ⟨futures, armed, same, ?_, level, done⟩
  rw [same]
  refine ⟨account, queued, fun waiter pending => ?_⟩
  obtain ⟨before, kept⟩ := (done waiter).mp pending
  rcases List.mem_append.mp (accounted.waiting waiter before) with waiting | later
  · rw [← List.take_append_drop self.rxFrames.length self.recvWaiters] at waiting
    exact List.mem_append_left _ ((List.mem_append.mp waiting).resolve_left kept)
  · exact List.mem_append_right _ later

theorem flushOps_spec {self : Endpoint} {batch : List Nat} (accounted : self.Accounted batch)
    (exclusive : self.rxFrames = [] ∨ self.recvWaiters = [])
    (armed : self.fdOpen = true → self.readerArmed = decide (self.rxFrames.length < rxFrameHighWater))
    (live : ∀ waiter ∈ (self.recvWaiters ++ batch).take self.rxFrames.length, self.futures.Pending waiter) :
    (self.flushOps batch).Accounted [] ∧ (self.flushOps batch).posted = self.posted ∧
      ((self.flushOps batch).rxFrames = [] ∨ (self.flushOps batch).recvWaiters = []) ∧
      ((self.flushOps batch).fdOpen = true →
        (self.flushOps batch).readerArmed = decide ((self.flushOps batch).rxFrames.length < rxFrameHighWater)) := by
  induction batch generalizing self with
  | nil => exact ⟨accounted, rfl, exclusive, armed⟩
  | cons future batch ih =>
    have shifted : self.recvWaiters ++ future :: batch = (self.recvWaiters ++ [future]) ++ batch := by
      rw [List.append_assoc]
      rfl
    have pushed : Accounted batch { self with recvWaiters := self.recvWaiters ++ [future] } :=
      ⟨accounted.frames, shifted ▸ accounted.queued, shifted ▸ accounted.waiting⟩
    rw [shifted] at live
    have first : ∀ waiter ∈ (self.recvWaiters ++ [future]).take self.rxFrames.length, self.futures.Pending waiter :=
      fun waiter member => live waiter (by
        rw [List.take_append]
        exact List.mem_append_left _ member)
    obtain ⟨futures, level, same, kept, rearmed, done⟩ := dispatchRx_spec pushed first
    rw [flushOps]
    have excluded := drop_exclusive (self.recvWaiters ++ [future]) self.rxFrames
    have apart := (List.pairwise_append.mp pushed.queued.sorted).2.2
    refine (ih kept ?_ ?_ ?_).imp id (And.imp_left fun posted => ?_)
    · rw [same]
      exact excluded
    · rw [same]
      exact rearmed
    · rw [same]
      rcases excluded with frames | waiters
      · rw [frames]
        intro waiter member
        cases member
      · rw [waiters, List.nil_append]
        intro waiter member
        refine (done waiter).mpr ⟨live waiter ?_, fun early => ?_⟩
        · rw [List.take_append, List.mem_append]
          rw [List.length_drop] at member
          exact .inr member
        · exact Nat.lt_irrefl _ (apart waiter (List.mem_of_mem_take early) waiter (List.mem_of_mem_take member))
    · rw [posted, same]

theorem Accounted.teardown {self : Endpoint} {behind : List Nat} (accounted : self.Accounted behind) :
    self.teardown.Accounted behind where
  frames := accounted.frames.trans (by
    rw [Endpoint.teardown, results_settleAll_none _ _ rfl])
  queued := (accounted.queued.settleAll self.recvWaiters rfl).sublist (List.sublist_append_right _ _)
  waiting := fun waiter pending => by
    have failed : (Status.exception .closed : Status Bytes Error) ≠ .pending := nofun
    obtain ⟨before, apart⟩ := (pending_settleAll failed).mp pending
    exact (List.mem_append.mp (accounted.waiting waiter before)).resolve_left apart

theorem readAll_spec (self : Endpoint) (reads : List Read) :
    ∃ more rest, let read := { self with
        rxFrames := self.rxFrames ++ more, received := self.received ++ more, partialFrame := rest }
      self.readAll reads = (read, true) ∨ self.readAll reads = (read.teardown, false) := by
  have still : self = { self with
      rxFrames := self.rxFrames ++ [], received := self.received ++ [], partialFrame := self.partialFrame } := by
    rw [List.append_nil, List.append_nil]
  induction reads generalizing self with
  | nil => exact ⟨[], self.partialFrame, .inl (congrArg (·, true) still)⟩
  | cons read reads ih =>
    cases read with
    | blocking => exact ⟨[], self.partialFrame, .inl (congrArg (·, true) still)⟩
    | interrupted => exact ih self still
    | failed => exact ⟨[], self.partialFrame, .inr (congrArg (fun self => (teardown self, false)) still)⟩
    | data raw =>
      cases raw with
      | nil => exact ⟨[], self.partialFrame, .inr (congrArg (fun self => (teardown self, false)) still)⟩
      | cons byte raw =>
        rw [readAll]
        split
        · exact ⟨[], self.partialFrame, .inr (congrArg (fun self => (teardown self, false)) still)⟩
        · rename_i payload last unpacked
          dsimp only
          split
          · split
            · exact ⟨[self.partialFrame ++ payload], [], .inl rfl⟩
            · obtain ⟨more, rest, done⟩ := ih { self with
                rxFrames := self.rxFrames ++ [self.partialFrame ++ payload],
                received := self.received ++ [self.partialFrame ++ payload], partialFrame := [] }
                (by rw [List.append_nil, List.append_nil])
              refine ⟨(self.partialFrame ++ payload) :: more, rest, ?_⟩
              rw [List.append_assoc, List.append_assoc] at done
              exact done
          · refine ih { self with partialFrame := self.partialFrame ++ payload } ?_
            rw [List.append_nil, List.append_nil]

/-- What every step in which frames meet live receives keeps. -/
structure Sound (endpoint : Endpoint) : Prop where
  account : endpoint.Accounted endpoint.posted
  exclusive : endpoint.rxFrames = [] ∨ endpoint.recvWaiters = []
  armed : endpoint.fdOpen = true → endpoint.readerArmed = decide (endpoint.rxFrames.length < rxFrameHighWater)

theorem Sound.step {self next : Endpoint} {event : Event} (sound : self.Sound) (serves : self.Serves event)
    (stepped : self.step event = some next) : next.Sound := by
  obtain ⟨account, exclusive, armed⟩ := sound
  cases event with
  | recv waits =>
    cases stepped
    have empty : (if waits then Status.pending else .cancelled : Status Bytes Error).result? = none := by
      cases waits <;> rfl
    refine ⟨⟨?_, ?_, ?_⟩, exclusive, armed⟩
    · rw [results_concat empty]
      exact account.frames
    · rw [← List.append_assoc]
      exact account.queued.handOut empty
    · intro waiter pending
      rw [← List.append_assoc]
      rcases pending_append.mp pending with before | ⟨rfl, -⟩
      · exact List.mem_append_left _ (account.waiting waiter before)
      · exact List.mem_append_right _ (List.mem_singleton_self _)
  | abandon future =>
    cases stepped
    refine ⟨⟨?_, account.queued.settle (.inl nofun), ?_⟩, exclusive, armed⟩
    · rw [results_settle_none _ _ rfl]
      exact account.frames
    · have cancelled : (Status.cancelled : Status Bytes Error) ≠ .pending := nofun
      exact fun waiter pending => account.waiting waiter ((pending_settle cancelled).mp pending).1
  | flush =>
    rw [Endpoint.step] at stepped
    split at stepped
    · cases stepped
    · cases stepped
      have begun : Accounted self.posted { self with posted := [] } :=
        ⟨account.frames, account.queued, account.waiting⟩
      obtain ⟨accounted, posted, excluded, level⟩ := flushOps_spec begun exclusive armed serves
      exact ⟨posted ▸ accounted, excluded, level⟩
  | readable reads =>
    rw [Endpoint.step] at stepped
    split at stepped
    · cases stepped
      rw [onReadable]
      split
      · obtain ⟨more, rest, ends⟩ := readAll_spec self reads
        have read : Accounted self.posted { self with
            rxFrames := self.rxFrames ++ more, received := self.received ++ more, partialFrame := rest } :=
          ⟨by rw [account.frames, List.append_assoc], account.queued, account.waiting⟩
        rcases ends with done | closed
        · rw [Serves, done] at serves
          rw [done]
          obtain ⟨futures, level, same, kept, rearmed, -⟩ := dispatchRx_spec read serves
          dsimp only
          rw [same] at kept ⊢
          exact ⟨kept, drop_exclusive _ _, rearmed⟩
        · rw [closed]
          exact ⟨read.teardown, .inr rfl, nofun⟩
      · exact ⟨account, exclusive, armed⟩
    · cases stepped
  | stop =>
    cases stepped
    exact ⟨account.teardown, .inr rfl, nofun⟩

theorem sound_start : start.Sound where
  account := ⟨rfl, queued_nil _ _, fun _ pending => absurd pending.lt (Nat.not_lt_zero _)⟩
  exclusive := .inl rfl
  armed := fun _ => rfl

/-- Frames are delivered as they should as long as no frame is handed to a receive that is done. -/
theorem frames_delivered {events : List Event} {last : Endpoint} (serves : Along Endpoint.step Serves start events)
    (ran : events.foldlM Endpoint.step start = some last) : last.Delivers := by
  have step (self : Endpoint) (event : Event) (next : Endpoint) (sound : self.Sound) (serves : self.Serves event)
      (stepped : self.step event = some next) : next.Sound := sound.step serves stepped
  have sound := foldlM_along step sound_start serves ran
  exact sound.account.inTurn sound.exclusive sound.armed

def postedLater : List Event :=
  [.readable [.data [1, 0, 1, 0, 7], .blocking], .recv true, .flush, .recv true, .flush]

theorem frames_delivered_posted_later :
    ∃ last, postedLater.foldlM Endpoint.step start = some last ∧ last.futures = [.result [7], .pending] ∧
      last.Delivers :=
  have serves : Along Endpoint.step Serves start postedLater := by decide
  ⟨_, rfl, by decide, frames_delivered serves rfl⟩

def cancelledWaiter : List Event :=
  [.recv true, .flush, .abandon 0, .recv true, .flush, .readable [.data [1, 0, 1, 0, 7], .blocking]]

/-- The frame goes to the cancelled receive, the live one behind it waits on. -/
theorem cancelled_waiter_takes_frame :
    ∃ last, cancelledWaiter.foldlM Endpoint.step start = some last ∧ last.futures = [.cancelled, .pending] ∧
      last.received = [[7]] ∧ last.rxFrames = [] ∧ ¬last.Delivers := by
  refine ⟨_, rfl, by decide, by decide, by decide, fun delivers => ?_⟩
  have frames := delivers.frames
  revert frames
  decide

end Endpoint
end Acrobe.Stream
