import Acrobe.Nsl.WireSound
import Acrobe.Nsl.TransportErrors

/-!
# Delivery over the continuous transport

In every run of the link, the device reassembles the datagrams that were posted, the receivers get the
datagrams that the device sent, and the FIFO of the device does not overflow.
-/

namespace Acrobe.Nsl
open LittleEndian Incremental BitString Futures Table

theorem FifoRun.fits {fifo last : Fifo} {acts : List FifoAct} (run : FifoRun fifo acts last)
    (clear : fifo.overflow = false) (fits : fifo.level + (acts.map FifoAct.stores).sum ≤ fifo.capacity) :
    last.overflow = false ∧ last.capacity = fifo.capacity ∧
      last.level ≤ fifo.level + (acts.map FifoAct.stores).sum ∧
      ∀ value, (acts.flatMap FifoAct.credits).getLast? = some value →
        value + last.level ≤ fifo.capacity + (acts.map FifoAct.stores).sum := by
  induction run with
  | nil fifo => exact ⟨clear, rfl, by simp, nofun⟩
  | @store fifo last acts later ih =>
    simp only [List.map_cons, List.sum_cons, FifoAct.stores] at fits ⊢
    have clear' : (fifo.overflow || decide (fifo.level ≥ fifo.capacity)) = false := by
      rw [clear, Bool.false_or, decide_eq_false (by omega)]
    obtain ⟨overflow, capacity, level, credits⟩ := ih clear' (by dsimp only; omega)
    refine ⟨overflow, capacity, by dsimp only at level; omega, fun value last => ?_⟩
    have bound := credits value last
    dsimp only at bound
    omega
  | @take fifo last acts filled later ih =>
    simp only [List.map_cons, List.sum_cons, FifoAct.stores, Nat.zero_add] at fits ⊢
    obtain ⟨overflow, capacity, level, credits⟩ := ih clear (by dsimp only; omega)
    exact ⟨overflow, capacity, by dsimp only at level; omega, credits⟩
  | @advertise fifo last acts value free later ih =>
    simp only [List.map_cons, List.sum_cons, FifoAct.stores, Nat.zero_add] at fits ⊢
    obtain ⟨overflow, capacity, level, credits⟩ := ih clear fits
    refine ⟨overflow, capacity, level, fun advertised found => ?_⟩
    rw [List.flatMap_cons, FifoAct.credits, List.singleton_append] at found
    cases rest : acts.flatMap FifoAct.credits with
    | nil =>
      rw [rest, List.getLast?_singleton] at found
      cases found
      omega
    | cons first more =>
      rw [rest, List.getLast?_cons_cons, ← rest] at found
      exact credits advertised found

/-! ### What the receivers got -/

def frameOf : Status (Option Bytes) String → Option Bytes
  | .result (some frame) => some frame
  | _ => none

/-- The datagrams that were delivered, in the order of the receivers. -/
def delivered (futures : Table (Option Bytes) String) : List Bytes := futures.filterMap frameOf

/-- The receivers wait in the order in which they were posted, and none behind them was served. -/
structure Ordered (waiters : List Nat) (futures : Table (Option Bytes) String) : Prop where
  sorted : waiters.Pairwise (· < ·)
  known : ∀ waiter ∈ waiters, waiter < futures.length
  unserved : ∀ waiter ∈ waiters, ∀ i ≥ waiter, ∀ status, futures[i]? = some status → frameOf status = none

theorem delivered_set {futures : Table (Option Bytes) String} {future : Nat} (pending : futures.Pending future)
    (status : Status (Option Bytes) String) :
    delivered (futures.set future status) = delivered (futures.take future) ++ (frameOf status).toList ++
      delivered (futures.drop (future + 1)) := by
  rw [delivered, List.set_eq_take_append_cons_drop, if_pos pending.lt, List.filterMap_append, List.filterMap_cons]
  cases frameOf status with
  | none => rw [Option.toList_none, List.append_nil]; rfl
  | some frame => rw [Option.toList_some, List.append_assoc]; rfl

theorem set_pending {futures : Table (Option Bytes) String} {future : Nat} (pending : futures.Pending future) :
    futures.set future .pending = futures := by
  obtain ⟨inside, value⟩ := List.getElem?_eq_some_iff.mp pending
  rw [← value]
  exact List.set_getElem_self inside

theorem delivered_settle {futures : Table (Option Bytes) String} (future : Nat)
    {status : Status (Option Bytes) String} (other : frameOf status = none) :
    delivered (futures.settle future status) = delivered futures := by
  unfold settle
  split
  · rename_i pending
    have same := set_pending pending
    rw [delivered_set pending, other]
    conv_rhs => rw [← same, delivered_set pending]
    rfl
  · rfl

theorem delivered_frame {futures : Table (Option Bytes) String} {future : Nat} (pending : futures.Pending future)
    (unserved : ∀ i ≥ future, ∀ status, futures[i]? = some status → frameOf status = none) (frame : Bytes) :
    delivered (futures.settle future (.result (some frame))) = delivered futures ++ [frame] := by
  have nothing : delivered (futures.drop (future + 1)) = [] := by
    refine List.filterMap_eq_nil_iff.mpr fun status member => ?_
    obtain ⟨i, found⟩ := List.mem_iff_getElem?.mp member
    rw [List.getElem?_drop] at found
    exact unserved _ (by omega) status found
  have same := set_pending pending
  rw [settle, if_pos pending, delivered_set pending, nothing, List.append_nil]
  conv_rhs => rw [← same, delivered_set pending, nothing]
  simp only [frameOf, Option.toList_some, Option.toList_none, List.append_nil]

theorem Ordered.settle {waiters : List Nat} {futures : Table (Option Bytes) String} (ordered : Ordered waiters futures)
    (future : Nat) {status : Status (Option Bytes) String} (other : frameOf status = none) :
    Ordered waiters (futures.settle future status) where
  sorted := ordered.sorted
  known := fun waiter member => by
    rw [length_settle]
    exact ordered.known waiter member
  unserved := by
    intro waiter member i behind found here
    by_cases same : i = future
    · subst same
      by_cases pending : futures.Pending i
      · rw [settle_of_pending pending] at here
        cases here
        exact other
      · rw [Table.settle, if_neg pending] at here
        exact ordered.unserved waiter member i behind found here
    · rw [settle_of_ne same] at here
      exact ordered.unserved waiter member i behind found here

theorem Ordered.settleAll {waiters : List Nat} {futures : Table (Option Bytes) String} (ordered : Ordered waiters futures)
    (done : List Nat) {status : Status (Option Bytes) String} (other : frameOf status = none) :
    Ordered waiters (futures.settleAll done status) := by
  induction done generalizing futures with
  | nil => exact ordered
  | cons future done ih => exact ih (ordered.settle future other)

theorem delivered_settleAll {futures : Table (Option Bytes) String} (done : List Nat)
    {status : Status (Option Bytes) String} (other : frameOf status = none) :
    delivered (futures.settleAll done status) = delivered futures := by
  induction done generalizing futures with
  | nil => rfl
  | cons future done ih => exact ih.trans (delivered_settle future other)

/-! ### Invariants -/

/-- What the device will have reassembled when it has read the batch that is being shifted. -/
def ahead (received : Assembly) (worker : Worker) (lost : Nat) : Assembly :=
  match worker with
  | .shifting tdi _ _ => received.acceptAll (framesOf tdi lost)
  | _ => received

open ContinuousTransport

/-- What was posted is what the device has reassembled, and the queue. -/
structure Outgoing (worker : Worker) (queue : List TxItem) (received : Assembly) (posted : List Bytes) : Prop where
  fresh : Fresh queue
  split : ∀ lost ≤ tapRxLatency, ∃ done, ahead received worker lost = ⟨done, begun queue⟩ ∧
    posted = done ++ queue.map TxItem.data

/-- The credit is not more than the free space of the FIFO. -/
structure Credited (worker : Worker) (credit : Nat) (fifo : Fifo) : Prop where
  clear : fifo.overflow = false
  free : credit + fifo.level ≤ fifo.capacity
  batch : ∀ tdi sent done, worker = .shifting tdi sent done → sent ≤ credit ∧
    ∀ lost ≤ tapRxLatency, ((framesOf tdi lost).map Frame.dataBytes).sum = sent

/-- What the device has sent is what was delivered, and what waits for a receiver. -/
structure Incoming (futures : Table (Option Bytes) String) (waiters : List Nat) (rxFrames : List Bytes)
    (rxPartial : Bytes) (sent : Assembly) : Prop where
  split : sent = ⟨delivered futures ++ rxFrames, rxPartial⟩
  ordered : Ordered waiters futures
  served : waiters = [] ∨ rxFrames = []

structure Link.Sound (link : Link) : Prop where
  running : link.host.error = none
  begins : 0 < link.host.preambleCount
  outgoing : Outgoing link.host.worker link.host.txQueue link.peer.received link.posted
  credited : Credited link.host.worker link.host.rxCredit link.peer.fifo
  incoming : Incoming link.host.futures link.host.recvWaiters link.host.rxFrames link.host.rxPartial link.peer.sent

/-! ### Posting -/

theorem Outgoing.post {worker : Worker} {queue : List TxItem} {received : Assembly} {posted : List Bytes}
    (outgoing : Outgoing worker queue received posted) {item : TxItem} (whole : item.sent = 0) :
    Outgoing worker (queue ++ [item]) received (posted ++ [item.data]) := by
  have same : begun (queue ++ [item]) = begun queue := by
    cases queue with
    | nil =>
      change item.data.take item.sent = []
      rw [whole, List.take_zero]
    | cons head queue => rfl
  refine ⟨fun other member => ?_, fun lost latency => ?_⟩
  · cases queue with
    | nil => cases member
    | cons head queue =>
      rcases List.mem_append.mp (show other ∈ queue ++ [item] from member) with old | new
      · exact outgoing.fresh other old
      · rw [List.mem_singleton.mp new, whole]
  · obtain ⟨done, received, posted⟩ := outgoing.split lost latency
    exact ⟨done, by rw [same, received], by rw [posted, List.map_append, List.append_assoc]; rfl⟩

theorem Ordered.handOut {waiters : List Nat} {futures : Table (Option Bytes) String} (ordered : Ordered waiters futures)
    {status : Status (Option Bytes) String} (other : frameOf status = none) :
    Ordered (waiters ++ [futures.length]) (futures ++ [status]) where
  sorted := List.pairwise_append.mpr ⟨ordered.sorted, List.pairwise_singleton _ _, fun waiter member last same => by
    rw [List.mem_singleton.mp same]
    exact ordered.known waiter member⟩
  known := by
    intro waiter member
    rw [List.length_append, List.length_singleton]
    rcases List.mem_append.mp member with old | new
    · have inside := ordered.known waiter old
      omega
    · rw [List.mem_singleton.mp new]
      omega
  unserved := by
    intro waiter member i behind found here
    rcases List.mem_append.mp member with old | new
    · by_cases inside : i < futures.length
      · rw [List.getElem?_append_left inside] at here
        exact ordered.unserved waiter old i behind found here
      · rw [List.getElem?_append_right (by omega)] at here
        rw [List.mem_singleton.mp (List.mem_of_getElem? here)]
        exact other
    · rw [List.mem_singleton.mp new] at behind
      rw [List.getElem?_append_right behind] at here
      rw [List.mem_singleton.mp (List.mem_of_getElem? here)]
      exact other

theorem delivered_handOut {futures : Table (Option Bytes) String} {status : Status (Option Bytes) String}
    (other : frameOf status = none) : delivered (futures ++ [status]) = delivered futures := by
  rw [delivered, List.filterMap_append, List.filterMap_cons_none other, List.filterMap_nil, List.append_nil]
  rfl

theorem Ordered.sublist {waiters fewer : List Nat} {futures : Table (Option Bytes) String}
    (ordered : Ordered waiters futures) (sub : fewer.Sublist waiters) : Ordered fewer futures where
  sorted := ordered.sorted.sublist sub
  known := fun waiter member => ordered.known waiter (sub.subset member)
  unserved := fun waiter member => ordered.unserved waiter (sub.subset member)

theorem Incoming.settle {futures : Table (Option Bytes) String} {waiters : List Nat} {rxFrames : List Bytes}
    {rxPartial : Bytes} {sent : Assembly} (incoming : Incoming futures waiters rxFrames rxPartial sent) (future : Nat)
    {status : Status (Option Bytes) String} (other : frameOf status = none) :
    Incoming (futures.settle future status) waiters rxFrames rxPartial sent where
  split := by rw [delivered_settle future other, incoming.split]
  ordered := incoming.ordered.settle future other
  served := incoming.served

theorem Link.Sound.flushOp {link : Link} (sound : link.Sound) (op : Posted) :
    Link.Sound { link with host := link.host.flushOp op, posted := link.posted ++ datagrams [op] } := by
  obtain ⟨op, cancelled⟩ := op
  obtain ⟨running, begins, outgoing, credited, incoming⟩ := sound
  have other : frameOf (if cancelled then .cancelled else .pending) = none := by cases cancelled <;> rfl
  have ordered := incoming.ordered.handOut other
  have handed : Incoming (link.host.handOut cancelled).futures link.host.recvWaiters link.host.rxFrames
      link.host.rxPartial link.peer.sent :=
    ⟨by rw [handOut, delivered_handOut other, incoming.split], ordered.sublist (List.sublist_append_left _ _),
      incoming.served⟩
  rw [ContinuousTransport.flushOp, running]
  dsimp only
  cases op with
  | send data =>
    rw [accept]
    by_cases filled : 0 < data.length
    · rw [dif_pos filled]
      have one : datagrams [⟨.send data, cancelled⟩] = [data] := by
        simp only [datagrams, List.filterMap_cons, List.filterMap_nil, if_neg (List.length_pos_iff.mp filled)]
      rw [one]
      exact ⟨running, begins, outgoing.post rfl, credited, handed⟩
    · rw [dif_neg filled]
      have none : datagrams [⟨.send data, cancelled⟩] = [] := by
        simp only [datagrams, List.filterMap_cons, List.filterMap_nil,
          if_pos (List.length_eq_zero_iff.mp (Nat.eq_zero_of_not_pos filled))]
      rw [none, List.append_nil]
      exact ⟨running, begins, outgoing, credited, handed.settle _ rfl⟩
  | recv =>
    rw [accept, show datagrams [⟨.recv, cancelled⟩] = [] from rfl, List.append_nil]
    split
    · rename_i frame rest waiting
      have nobody : link.host.recvWaiters = [] := incoming.served.resolve_right
        fun empty => List.cons_ne_nil _ _ (waiting.symm.trans empty)
      split
      · rename_i pending
        refine ⟨running, begins, outgoing, credited, ?_, ?_, .inl nobody⟩
        · rw [handed.split, show link.host.rxFrames = _ from waiting,
            delivered_frame pending (ordered.unserved _ (List.mem_append_right _ List.mem_cons_self)), List.append_assoc]
          rfl
        · rw [show (link.host.handOut cancelled).recvWaiters = [] from nobody]
          exact ⟨List.Pairwise.nil, fun _ none => absurd none List.not_mem_nil, fun _ none => absurd none List.not_mem_nil⟩
      · exact ⟨running, begins, outgoing, credited, handed⟩
    · rename_i empty
      exact ⟨running, begins, outgoing, credited, handed.split, ordered, .inr empty⟩
  | other name =>
    rw [accept, show datagrams [⟨.other name, cancelled⟩] = [] from rfl, List.append_nil]
    exact ⟨running, begins, outgoing, credited, handed.settle _ rfl⟩

theorem Link.Sound.flushOps {link : Link} (sound : link.Sound) (batch : List Posted) :
    Link.Sound { link with host := link.host.flushOps batch, posted := link.posted ++ datagrams batch } := by
  induction batch generalizing link with
  | nil =>
    rw [datagrams, List.filterMap_nil, List.append_nil]
    exact sound
  | cons op batch ih =>
    have later := ih (sound.flushOp op)
    rw [List.append_assoc] at later
    have joined : datagrams [op] ++ datagrams batch = datagrams (op :: batch) := List.filterMap_append.symm
    rw [joined] at later
    exact later

/-! ### A batch -/

theorem acceptAll_append (assembly : Assembly) (front back : List Frame) :
    assembly.acceptAll (front ++ back) = (assembly.acceptAll front).acceptAll back := List.foldl_append

theorem acceptAll_behind (front : List Bytes) (assembly : Assembly) (sent : List Frame) :
    Assembly.acceptAll ⟨front ++ assembly.done, assembly.rest⟩ sent =
      ⟨front ++ (assembly.acceptAll sent).done, (assembly.acceptAll sent).rest⟩ := by
  induction sent generalizing assembly with
  | nil => rfl
  | cons frame sent ih =>
    have step : Assembly.accept ⟨front ++ assembly.done, assembly.rest⟩ frame =
        ⟨front ++ (assembly.accept frame).done, (assembly.accept frame).rest⟩ := by
      cases frame with
      | data last bytes => cases last <;> simp [Assembly.accept]
      | credit value => rfl
      | txLevel value => rfl
      | ignored header => rfl
    rw [Assembly.acceptAll, List.foldl_cons, step]
    exact ih (assembly.accept frame)

theorem Link.Sound.shift {link : Link} (sound : link.Sound) (ready : link.host.worker = .ready) :
    Link.Sound { link with host := link.host.buildTdi } := by
  obtain ⟨running, begins, outgoing, credited, incoming⟩ := sound
  have drains : ∃ sent completed, DrainReads link.host.txQueue link.host.drainQueue link.host.rxCredit sent completed :=
    drain_reads (Nat.le_refl _) outgoing.fresh
  obtain ⟨sent, completed, drained⟩ := drains
  refine ⟨running, begins, ⟨drained.fresh, fun lost latency => ?_⟩, ⟨credited.clear, credited.free, ?_⟩, incoming⟩
  · obtain ⟨done, received, posted⟩ := outgoing.split lost latency
    obtain ⟨front, back, framed, before, behind⟩ := framesOf_fill link.host drained.reads begins latency
    rw [ready] at received
    refine ⟨done ++ completed, ?_, by rw [posted, drained.split, List.append_assoc]; rfl⟩
    change link.peer.received.acceptAll (framesOf (link.host.fill _) lost) = _
    rw [framed, acceptAll_append, acceptAll_append, before.2, behind.2,
      show link.peer.received = _ from received, drained.assembled]
    rfl
  · intro tdi count done shifting
    cases shifting
    refine ⟨drained.allowed, fun lost latency => ?_⟩
    obtain ⟨front, back, framed, before, behind⟩ := framesOf_fill link.host drained.reads begins latency
    rw [framed, List.map_append, List.map_append, List.sum_append, List.sum_append, before.1, behind.1, Nat.zero_add,
      Nat.add_zero]
    exact drained.bytes

theorem foldl_parseFrame (sent : List Frame) (parsed : ContinuousTransport × Option Nat) :
    (⟨(sent.foldl parseFrame parsed).1.rxFrames, (sent.foldl parseFrame parsed).1.rxPartial⟩ : Assembly) =
        Assembly.acceptAll ⟨parsed.1.rxFrames, parsed.1.rxPartial⟩ sent ∧
      (sent.foldl parseFrame parsed).2 = (sent.flatMap Frame.credits).getLast?.or parsed.2 ∧
      (sent.foldl parseFrame parsed).1.rxCredit = parsed.1.rxCredit ∧
      (sent.foldl parseFrame parsed).1.preambleCount = parsed.1.preambleCount := by
  induction sent generalizing parsed with
  | nil => exact ⟨rfl, rfl, rfl, rfl⟩
  | cons frame sent ih =>
    obtain ⟨assembled, credit, same, count⟩ := ih (parseFrame parsed frame)
    rw [List.foldl_cons]
    cases frame with
    | data last bytes =>
      cases last with
      | true => exact ⟨assembled, credit, same, count⟩
      | false => exact ⟨assembled, credit, same, count⟩
    | credit value =>
      refine ⟨assembled, credit.trans ?_, same, count⟩
      rw [List.flatMap_cons, Frame.credits, List.singleton_append]
      cases sent.flatMap Frame.credits with
      | nil => rfl
      | cons first more =>
        rw [List.getLast?_cons_cons]
        cases last : (first :: more).getLast? with
        | none => exact absurd (List.getLast?_eq_none_iff.mp last) (List.cons_ne_nil _ _)
        | some value => rfl
    | txLevel value => exact ⟨assembled, credit, same, count⟩
    | ignored header => exact ⟨assembled, credit, same, count⟩

theorem dispatch_delivers {waiters : List Nat} (rxFrames : List Bytes) {futures : Table (Option Bytes) String}
    (ordered : Ordered waiters futures) :
    delivered (dispatch waiters rxFrames futures).2.2 ++ (dispatch waiters rxFrames futures).2.1 =
        delivered futures ++ rxFrames ∧
      Ordered (dispatch waiters rxFrames futures).1 (dispatch waiters rxFrames futures).2.2 ∧
      ((dispatch waiters rxFrames futures).1 = [] ∨ (dispatch waiters rxFrames futures).2.1 = []) := by
  induction waiters generalizing rxFrames futures with
  | nil => exact ⟨rfl, ordered, .inl rfl⟩
  | cons future waiters ih =>
    cases rxFrames with
    | nil => exact ⟨rfl, ordered, .inr rfl⟩
    | cons frame rxFrames =>
      rw [dispatch]
      split
      · rename_i pending
        have later : Ordered waiters (futures.settle future (.result (some frame))) := by
          refine ⟨(List.pairwise_cons.mp ordered.sorted).2, fun waiter member => ?_,
            fun waiter member i behind status found => ?_⟩
          · rw [length_settle]
            exact ordered.known waiter (List.mem_cons_of_mem _ member)
          · have above := (List.pairwise_cons.mp ordered.sorted).1 waiter member
            rw [settle_of_ne (by omega)] at found
            exact ordered.unserved waiter (List.mem_cons_of_mem _ member) i behind status found
        obtain ⟨all, rest, served⟩ := ih rxFrames later
        refine ⟨all.trans ?_, rest, served⟩
        rw [delivered_frame pending (ordered.unserved future List.mem_cons_self), List.append_assoc]
        rfl
      · exact ih (frame :: rxFrames) (ordered.sublist (List.sublist_cons_self _ _))

/-- A batch as the host reads it. -/
theorem parseTdo_carries (self : ContinuousTransport) {tdo : BitString} {sent : List Frame} (carries : Carries tdo sent)
    (count : Nat) :
    (⟨(self.parseTdo tdo count).rxFrames, (self.parseTdo tdo count).rxPartial⟩ : Assembly) =
        Assembly.acceptAll ⟨self.rxFrames, self.rxPartial⟩ sent ∧
      (self.parseTdo tdo count).rxCredit = (sent.flatMap Frame.credits).getLast?.getD self.rxCredit - count ∧
      (self.parseTdo tdo count).preambleCount = self.preambleCount := by
  obtain ⟨head, body, cut, tail, rfl, short, locked, reads, settled⟩ := carries.stream
  have items : (frames.read (extractBytes (head ++ bitsOf (body ++ cut) ++ tail) head.length)).items = sent := by
    rw [extractBytes_bitsOf head (body ++ cut) short, reads.append, settled.read]
    exact List.append_nil sent
  have adjusted : (self.adjustPad head.length).rxFrames = self.rxFrames ∧
      (self.adjustPad head.length).rxPartial = self.rxPartial ∧
      (self.adjustPad head.length).rxCredit = self.rxCredit ∧
      (self.adjustPad head.length).preambleCount = self.preambleCount := by
    rw [adjustPad]
    split
    · exact ⟨rfl, rfl, rfl, rfl⟩
    · split <;> exact ⟨rfl, rfl, rfl, rfl⟩
  obtain ⟨assembled, credit, same, preambles⟩ := foldl_parseFrame sent (self.adjustPad head.length, none)
  rw [adjusted.1, adjusted.2.1] at assembled
  rw [parseTdo, locked]
  dsimp only
  rw [parseFrames, items]
  refine ⟨assembled, ?_, preambles.trans adjusted.2.2.2⟩
  rw [updateCredit, credit, same, adjusted.2.2.1]
  dsimp only
  rw [Option.or_none]

theorem Link.Sound.returned {link : Link} (sound : link.Sound) {tdi : Bytes} {count : Nat} {done : List Nat}
    {tdo : BitString} {next : Peer} (shifting : link.host.worker = .shifting tdi count done)
    (exchange : Exchange link.peer tdi tdo next) :
    Link.Sound { link with host := link.host.complete tdo, peer := next } := by
  obtain ⟨running, begins, outgoing, credited, incoming⟩ := sound
  obtain ⟨lost, sent, acts, latency, carries, fifo, stores, credits, received, transmitted⟩ := exchange.batch
  obtain ⟨allowed, bytes⟩ := credited.batch tdi count done shifting
  have free := credited.free
  rw [bytes lost latency] at stores
  obtain ⟨clear, capacity, level, advertised⟩ := fifo.fits credited.clear (by omega)
  rw [stores, credits] at advertised
  rw [stores] at level
  obtain ⟨self, resolved⟩ : ∃ self : ContinuousTransport, self = { link.host with
      futures := link.host.futures.settleAll done (.result none), worker := .ready } := ⟨_, rfl⟩
  have completed : link.host.complete tdo = (self.parseTdo tdo count).dispatchRx := by
    rw [complete, shifting, resolved]
  rw [completed]
  have same := parseTdo_same self tdo count
  obtain ⟨assembled, credit, preambles⟩ := parseTdo_carries self carries count
  have quiet : delivered self.futures = delivered link.host.futures := by
    rw [resolved]
    exact delivered_settleAll done rfl
  have ordered : Ordered (self.parseTdo tdo count).recvWaiters (self.parseTdo tdo count).futures := by
    rw [same.recvWaiters, same.futures, resolved]
    exact incoming.ordered.settleAll done rfl
  have worker : (self.parseTdo tdo count).worker = .ready := by rw [same.worker, resolved]
  have queue : (self.parseTdo tdo count).txQueue = link.host.txQueue := by rw [same.txQueue, resolved]
  have error : (self.parseTdo tdo count).error = none := by rw [same.error, resolved, running]
  have left : self.rxCredit = link.host.rxCredit := by rw [resolved]
  have waiting : (⟨self.rxFrames, self.rxPartial⟩ : Assembly) = ⟨link.host.rxFrames, link.host.rxPartial⟩ := by
    rw [resolved]
  have begins : 0 < (self.parseTdo tdo count).preambleCount := by rwa [preambles, resolved]
  rw [left] at credit
  rw [waiting] at assembled
  have parsed := congrArg Assembly.done assembled
  have begun := congrArg Assembly.rest assembled
  dsimp only at parsed begun
  generalize self.parseTdo tdo count = self at *
  obtain ⟨all, rest, served⟩ := dispatch_delivers self.rxFrames ordered
  refine ⟨error, begins, ⟨?_, fun other _ => ?_⟩, ⟨clear, ?_, fun tdi sent done again => ?_⟩, ⟨?_, rest, served⟩⟩
  · change Fresh self.txQueue
    rw [queue]
    exact outgoing.fresh
  · obtain ⟨whole, reassembled, posted⟩ := outgoing.split lost latency
    refine ⟨whole, ?_, ?_⟩
    · change ahead next.received self.worker other = ⟨whole, ContinuousTransport.begun self.txQueue⟩
      rw [worker, queue, received]
      rw [shifting] at reassembled
      exact reassembled
    · change link.posted = whole ++ self.txQueue.map TxItem.data
      rw [queue, posted]
  · change self.rxCredit + next.fifo.level ≤ next.fifo.capacity
    rw [credit, capacity]
    cases last : (sent.flatMap Frame.credits).getLast? with
    | none =>
      change link.host.rxCredit - count + next.fifo.level ≤ link.peer.fifo.capacity
      omega
    | some value =>
      have bound := advertised value last
      change value - count + next.fifo.level ≤ link.peer.fifo.capacity
      omega
  · have working : self.worker = .shifting tdi sent done := again
    rw [worker] at working
    cases working
  · change next.sent = ⟨delivered (dispatch self.recvWaiters self.rxFrames self.futures).2.2 ++
      (dispatch self.recvWaiters self.rxFrames self.futures).2.1, self.rxPartial⟩
    rw [transmitted, incoming.split, all, same.futures, quiet, parsed, begun]
    exact acceptAll_behind (delivered link.host.futures) ⟨link.host.rxFrames, link.host.rxPartial⟩ sent

/-! ### Runs -/

theorem sound_start (preambleCount txBudget : Nat) {capacity level : Nat} (fits : level ≤ capacity) :
    (Link.start preambleCount txBudget capacity level).Sound where
  running := rfl
  begins := Nat.lt_of_lt_of_le (by decide) (Nat.le_max_left 2 preambleCount)
  outgoing := ⟨nofun, fun _ _ => ⟨[], rfl, rfl⟩⟩
  credited := ⟨rfl, by rwa [← Nat.zero_add level] at fits, nofun⟩
  incoming := ⟨rfl, ⟨List.Pairwise.nil, nofun, nofun⟩, .inl rfl⟩

theorem Link.Sound.step {link next : Link} (sound : link.Sound) (step : link.Step next) : next.Sound := by
  cases step with
  | flush batch => exact sound.flushOps batch
  | cancel future =>
    exact ⟨sound.running, sound.begins, sound.outgoing, sound.credited, sound.incoming.settle future rfl⟩
  | shift ready => exact sound.shift ready
  | returned shifting exchange => exact sound.returned shifting exchange

theorem Link.Reachable.sound {preambleCount txBudget capacity level : Nat} (fits : level ≤ capacity) {link : Link}
    (reachable : Link.Reachable preambleCount txBudget capacity level link) : link.Sound := by
  induction reachable with
  | refl => exact sound_start preambleCount txBudget fits
  | tail _ step ih => exact ih.step step

/-- The datagrams that the device reassembles are those that were posted, in order, and between two batches
only the queue is missing; the datagrams that were delivered or wait for a receiver are those that the device
sent, in order; a batch has no more data bytes than the credit, and the FIFO never overflows. -/
theorem Link.delivers (preambleCount txBudget : Nat) {capacity level : Nat} (fits : level ≤ capacity) {link : Link}
    (reachable : Link.Reachable preambleCount txBudget capacity level link) :
    link.peer.received.done <+: link.posted ∧
      (link.host.worker = .ready → link.posted = link.peer.received.done ++ link.host.txQueue.map TxItem.data) ∧
      link.peer.sent.done = delivered link.host.futures ++ link.host.rxFrames ∧
      (∀ tdi sent done, link.host.worker = .shifting tdi sent done → sent ≤ link.host.rxCredit ∧
        ∀ lost ≤ tapRxLatency, ((framesOf tdi lost).map Frame.dataBytes).sum = sent) ∧
      link.host.rxCredit + link.peer.fifo.level ≤ link.peer.fifo.capacity ∧ link.peer.fifo.overflow = false := by
  have sound := reachable.sound fits
  obtain ⟨whole, ahead, posted⟩ := sound.outgoing.split 0 (Nat.zero_le _)
  refine ⟨?_, fun ready => ?_, by rw [sound.incoming.split], sound.credited.batch, sound.credited.free,
    sound.credited.clear⟩
  · have grown : link.peer.received.done <+: whole := by
      cases working : link.host.worker with
      | shifting tdi sent done =>
        rw [working] at ahead
        have behind := acceptAll_behind link.peer.received.done ⟨[], link.peer.received.rest⟩ (framesOf tdi 0)
        rw [List.append_nil, show Assembly.acceptAll _ (framesOf tdi 0) = _ from ahead] at behind
        exact ⟨_, (congrArg Assembly.done behind).symm⟩
      | ready =>
        rw [working] at ahead
        exact ⟨[], (List.append_nil _).trans (congrArg Assembly.done ahead)⟩
      | stopped =>
        rw [working] at ahead
        exact ⟨[], (List.append_nil _).trans (congrArg Assembly.done ahead)⟩
    exact grown.trans ⟨_, posted.symm⟩
  · rw [ready] at ahead
    rw [posted, show link.peer.received.done = whole from congrArg Assembly.done ahead]

/-- A batch of the device: frames, and idle bytes up to the size of the shift. -/
def batchOf (size : Nat) (body : Bytes) : BitString := sync ++ bitsOf (body ++ List.replicate (size - 2 - body.length) idle)

/-- The first batch brings a credit of four bytes. The second one carries two datagrams in each direction, and the device
takes two bytes from its FIFO. -/
def exchanging : List Event :=
  [.shift, .returned (batchOf 16 [0xf1, 4, 0]),
    .flush [⟨.send [1, 2, 3], false⟩, ⟨.send [4], false⟩, ⟨.recv, false⟩, ⟨.recv, false⟩], .shift,
    .returned (batchOf 19 [0x41, 7, 8, 0x40, 9, 0xf1, 2, 0])]

set_option maxRecDepth 16384 in
theorem exchange_credit :
    Exchange ⟨⟨4, 0, false⟩, ⟨[], []⟩, ⟨[], []⟩⟩ ((start 2 4).run (exchanging.take 1)).worker.tdi
      (batchOf 16 [0xf1, 4, 0]) ⟨⟨4, 0, false⟩, ⟨[], []⟩, ⟨[], []⟩⟩ := by
  refine ⟨by decide, 0, .credit 4 :: List.replicate 11 (.ignored idle), [.advertise 4], Nat.zero_le _,
    ⟨sync, [0xf1, 4, 0] ++ List.replicate 11 idle, [], [], ?_⟩, .advertise rfl (.nil _), ?_, rfl, ?_, rfl⟩
  · exact ⟨(List.append_nil _).symm, by decide, by decide, rfl, rfl⟩
  · decide
  · decide

set_option maxRecDepth 16384 in
theorem exchange_data :
    Exchange ⟨⟨4, 0, false⟩, ⟨[], []⟩, ⟨[], []⟩⟩ ((start 2 4).run (exchanging.take 4)).worker.tdi
      (batchOf 19 [0x41, 7, 8, 0x40, 9, 0xf1, 2, 0]) ⟨⟨4, 2, false⟩, ⟨[[1, 2, 3], [4]], []⟩, ⟨[[7, 8], [9]], []⟩⟩ := by
  refine ⟨by decide, 0, [.data true [7, 8], .data true [9], .credit 2] ++ List.replicate 9 (.ignored idle),
    [.store, .store, .store, .store, .take, .take, .advertise 2], Nat.zero_le _,
    ⟨sync, [0x41, 7, 8, 0x40, 9, 0xf1, 2, 0] ++ List.replicate 9 idle, [], [], ?_⟩,
    .store (.store (.store (.store (.take (by decide) (.take (by decide) (.advertise rfl (.nil _))))))), ?_, rfl, ?_, rfl⟩
  · exact ⟨(List.append_nil _).symm, by decide, by decide, rfl, rfl⟩
  · decide
  · decide

set_option maxRecDepth 16384 in
theorem reachable_credit : Link.Reachable 2 4 4 0
    ⟨(start 2 4).run (exchanging.take 2), ⟨⟨4, 0, false⟩, ⟨[], []⟩, ⟨[], []⟩⟩, []⟩ := by
  have shifted : Link.Reachable 2 4 4 0 ⟨(start 2 4).run (exchanging.take 1), _, _⟩ :=
    .tail .refl (.shift _ rfl)
  exact .tail shifted (.returned _ (show _ = Worker.shifting _ 0 [] by decide) exchange_credit)

set_option maxRecDepth 16384 in
theorem reachable_data : Link.Reachable 2 4 4 0
    ⟨(start 2 4).run (exchanging.take 4), ⟨⟨4, 0, false⟩, ⟨[], []⟩, ⟨[], []⟩⟩, [[1, 2, 3], [4]]⟩ := by
  have flushed : Link.Reachable 2 4 4 0 ⟨(start 2 4).run (exchanging.take 3), _, _⟩ :=
    .tail reachable_credit
      (.flush _ [⟨.send [1, 2, 3], false⟩, ⟨.send [4], false⟩, ⟨.recv, false⟩, ⟨.recv, false⟩])
  exact .tail flushed (.shift _ (by decide))

set_option maxRecDepth 16384 in
theorem reachable_exchanging : Link.Reachable 2 4 4 0
    ⟨(start 2 4).run exchanging, ⟨⟨4, 2, false⟩, ⟨[[1, 2, 3], [4]], []⟩, ⟨[[7, 8], [9]], []⟩⟩, [[1, 2, 3], [4]]⟩ :=
  .tail reachable_data (.returned _ (show _ = Worker.shifting _ 4 [0, 1] by decide) exchange_data)

set_option maxRecDepth 16384 in
theorem delivers_exchanging :
    [[1, 2, 3], [4]] <+: ([[1, 2, 3], [4]] : List Bytes) ∧
      [[7, 8], [9]] = delivered ((start 2 4).run exchanging).futures ++ ((start 2 4).run exchanging).rxFrames ∧
      ((start 2 4).run exchanging).rxCredit + 2 ≤ 4 :=
  have all := Link.delivers 2 4 (show 0 ≤ 4 by decide) reachable_exchanging
  ⟨all.1, all.2.2.1, all.2.2.2.2.1⟩

end Acrobe.Nsl
