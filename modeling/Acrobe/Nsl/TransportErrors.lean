import Acrobe.Nsl.ContinuousTransport

/-!
# Futures of the continuous transport

Every pending future is in the queue, among the receivers, or in the local list of the batch that is
being shifted. When the shift raises, the futures of the first two are rejected.
-/

namespace Acrobe.Nsl.ContinuousTransport
open LittleEndian Incremental BitString Futures Table

/-- The places that will settle a future. -/
def owned (self : ContinuousTransport) : List Nat :=
  self.worker.done ++ (self.txQueue.map TxItem.future ++ self.recvWaiters)

/-- As long as the worker runs, every pending future has its place. -/
structure Accounted (transport : ContinuousTransport) : Prop where
  failed : transport.error ≠ none ↔ transport.worker = .stopped
  covers : transport.error = none → Covers transport.owned transport.futures

theorem accounted_start (preambleCount txBudget : Nat) : (start preambleCount txBudget).Accounted where
  failed := ⟨fun failed => absurd rfl failed, nofun⟩
  covers := fun _ => ⟨nofun, List.nodup_nil, nofun⟩

theorem drain_futures (fuel allowance : Nat) (queue : List TxItem) :
    (drain fuel allowance queue).done ++ (drain fuel allowance queue).queue.map TxItem.future =
      queue.map TxItem.future := by
  induction fuel generalizing allowance queue with
  | zero => rfl
  | succ fuel ih =>
    cases queue with
    | nil => rfl
    | cons item queue =>
      rw [drain]
      split
      · rfl
      · dsimp only
        split
        · exact ih _ _
        · exact congrArg (item.future :: ·) (ih _ _)

section
variable {self : ContinuousTransport}

theorem buildTdi_accounted (accounted : self.Accounted) (ready : self.worker = .ready) : self.buildTdi.Accounted where
  failed := by
    refine ⟨fun failed => ?_, nofun⟩
    rw [accounted.failed.mp failed] at ready
    cases ready
  covers := by
    intro running
    have covers := accounted.covers running
    rw [owned, ready] at covers
    rw [owned, ← List.append_assoc]
    change Covers ((drain _ _ _).done ++ (drain _ _ _).queue.map TxItem.future ++ self.recvWaiters) self.futures
    rw [drain_futures]
    exact covers

theorem accept_accounted {future : Nat} (failed : self.error ≠ none ↔ self.worker = .stopped)
    (covers : Covers (future :: self.owned) self.futures) (op : Op) : (self.accept future op).Accounted := by
  cases op with
  | send data =>
    rw [accept]
    split
    · refine ⟨failed, fun _ => covers.perm ?_⟩
      simp only [owned, List.map_append, List.map_cons, List.map_nil, List.append_assoc]
      exact List.perm_middle.symm.trans (List.Perm.append_left _ List.perm_middle.symm)
    · exact ⟨failed, fun _ => covers.release nofun⟩
  | recv =>
    rw [accept]
    split
    · split
      · exact ⟨failed, fun _ => covers.release nofun⟩
      · rename_i settled
        exact ⟨failed, fun _ => covers.drop settled⟩
    · refine ⟨failed, fun _ => covers.perm ?_⟩
      simp only [owned, ← List.append_assoc]
      exact (List.perm_append_singleton _ _).symm
  | other name => exact ⟨failed, fun _ => covers.release nofun⟩

theorem flushOp_accounted (accounted : self.Accounted) (posted : Posted) : (self.flushOp posted).Accounted := by
  rw [flushOp]
  split
  · rename_i text failed
    exact ⟨accounted.failed, fun running => absurd (running.symm.trans failed) nofun⟩
  · rename_i running
    have covers : Covers (self.futures.length :: self.owned) (self.handOut posted.cancelled).futures :=
      (accounted.covers running).handOut _
    have failed : (self.handOut posted.cancelled).error ≠ none ↔ (self.handOut posted.cancelled).worker = .stopped :=
      accounted.failed
    exact accept_accounted failed covers posted.op

theorem flushOps_accounted (accounted : self.Accounted) (batch : List Posted) : (self.flushOps batch).Accounted := by
  induction batch generalizing self with
  | nil => exact accounted
  | cons posted batch ih => exact ih (flushOp_accounted accounted posted)

theorem dispatch_covers {owned waiters : List Nat} (frames : List Bytes) {futures : Table (Option Bytes) String}
    (covers : Covers (waiters ++ owned) futures) :
    Covers ((dispatch waiters frames futures).1 ++ owned) (dispatch waiters frames futures).2.2 := by
  induction waiters generalizing frames futures with
  | nil => exact covers
  | cons future waiters ih =>
    cases frames with
    | nil => exact covers
    | cons frame frames =>
      rw [dispatch]
      split
      · exact ih _ (covers.release nofun)
      · rename_i settled
        exact ih _ (covers.drop settled)

/-- Nothing that has to do with futures differs. -/
structure SameFutures (transport other : ContinuousTransport) : Prop where
  error : transport.error = other.error
  worker : transport.worker = other.worker
  futures : transport.futures = other.futures
  txQueue : transport.txQueue = other.txQueue
  recvWaiters : transport.recvWaiters = other.recvWaiters

theorem SameFutures.refl (self : ContinuousTransport) : SameFutures self self := ⟨rfl, rfl, rfl, rfl, rfl⟩

theorem SameFutures.trans {first second third : ContinuousTransport} (same : SameFutures first second)
    (again : SameFutures second third) : SameFutures first third :=
  ⟨same.error.trans again.error, same.worker.trans again.worker, same.futures.trans again.futures,
    same.txQueue.trans again.txQueue, same.recvWaiters.trans again.recvWaiters⟩

theorem parseFrame_same (parsed : ContinuousTransport × Option Nat) (frame : Frame) :
    SameFutures (parseFrame parsed frame).1 parsed.1 := by
  cases frame with
  | data last bytes =>
    rw [parseFrame]
    split <;> exact ⟨rfl, rfl, rfl, rfl, rfl⟩
  | credit value => exact ⟨rfl, rfl, rfl, rfl, rfl⟩
  | txLevel value => exact ⟨rfl, rfl, rfl, rfl, rfl⟩
  | ignored header => exact ⟨rfl, rfl, rfl, rfl, rfl⟩

theorem parseFrames_same (self : ContinuousTransport) (payload : Bytes) :
    SameFutures (self.parseFrames payload).1 self := by
  have folded : ∀ (frames : List Frame) (parsed : ContinuousTransport × Option Nat),
      SameFutures (frames.foldl parseFrame parsed).1 parsed.1 := by
    intro frames
    induction frames with
    | nil => exact fun parsed => .refl parsed.1
    | cons frame frames ih => exact fun parsed => (ih _).trans (parseFrame_same parsed frame)
  exact folded _ (self, none)

theorem adjustPad_same (self : ContinuousTransport) (off : Nat) : SameFutures (self.adjustPad off) self := by
  rw [adjustPad]
  split
  · exact ⟨rfl, rfl, rfl, rfl, rfl⟩
  · split <;> exact ⟨rfl, rfl, rfl, rfl, rfl⟩

theorem parseTdo_same (self : ContinuousTransport) (tdo : BitString) (sent : Nat) :
    SameFutures (self.parseTdo tdo sent) self := by
  rw [parseTdo]
  cases findSof tdo with
  | none => exact ⟨rfl, rfl, rfl, rfl, rfl⟩
  | some off =>
    have parsed := (parseFrames_same (self.adjustPad off) (extractBytes tdo off)).trans (adjustPad_same self off)
    exact ⟨parsed.error, parsed.worker, parsed.futures, parsed.txQueue, parsed.recvWaiters⟩

theorem dispatchRx_accounted (accounted : self.Accounted) : self.dispatchRx.Accounted where
  failed := accounted.failed
  covers := by
    intro running
    have covers := accounted.covers running
    rw [owned, ← List.append_assoc] at covers
    have rest := dispatch_covers self.rxFrames (covers.perm List.perm_append_comm)
    have back := rest.perm List.perm_append_comm
    rw [List.append_assoc] at back
    exact back

theorem complete_accounted (accounted : self.Accounted) (tdo : BitString) : (self.complete tdo).Accounted := by
  rw [complete]
  split
  · rename_i tdi sent done working
    refine dispatchRx_accounted ?_
    have same := parseTdo_same { self with futures := self.futures.settleAll done (.result none), worker := .ready } tdo sent
    have running : self.error = none := by
      by_contra failed
      rw [accounted.failed.mp failed] at working
      cases working
    refine ⟨⟨fun failed => absurd (same.error.trans running) failed, fun stopped => ?_⟩, fun _ => ?_⟩
    · rw [same.worker] at stopped
      cases stopped
    · rw [owned, same.worker, same.txQueue, same.recvWaiters, same.futures]
      have covers := accounted.covers running
      rw [owned, working] at covers
      exact covers.releaseAll nofun
  · exact accounted

theorem step_accounted (accounted : self.Accounted) (event : Event) : (self.step event).Accounted := by
  cases event with
  | flush batch => exact flushOps_accounted accounted batch
  | cancel future => exact ⟨accounted.failed, fun running => (accounted.covers running).settle future nofun⟩
  | shift =>
    rw [step]
    split
    · rename_i ready
      exact buildTdi_accounted accounted ready
    · exact accounted
  | returned tdo => exact complete_accounted accounted tdo
  | raised text =>
    rw [step]
    split
    · exact ⟨⟨fun _ => rfl, nofun⟩, nofun⟩
    · exact accounted

theorem run_accounted (accounted : self.Accounted) (events : List Event) : (self.run events).Accounted := by
  induction events generalizing self with
  | nil => exact accounted
  | cons event events ih => exact ih (step_accounted accounted event)

/-! ### After an error -/

/-- The worker has stopped, and no future waits. -/
structure Settled (transport : ContinuousTransport) : Prop where
  failed : transport.error ≠ none
  stopped : transport.worker = .stopped
  futures : ∀ future, ¬transport.futures.Pending future

theorem flushOp_settled (settled : self.Settled) (posted : Posted) : (self.flushOp posted).Settled := by
  rw [flushOp]
  split
  · refine ⟨settled.failed, settled.stopped, fun future pending => ?_⟩
    have both := (pending_settle (by nofun)).mp pending
    rcases pending_append.mp both.1 with before | ⟨same, -⟩
    · exact settled.futures future before
    · exact both.2 same
  · rename_i running
    exact absurd running settled.failed

theorem step_settled (settled : self.Settled) (event : Event) : (self.step event).Settled := by
  cases event with
  | flush batch =>
    change (batch.foldl flushOp self).Settled
    induction batch generalizing self with
    | nil => exact settled
    | cons posted batch ih => exact ih (flushOp_settled settled posted)
  | cancel future =>
    exact ⟨settled.failed, settled.stopped, fun other pending =>
      settled.futures other ((pending_settle (by nofun)).mp pending).1⟩
  | shift =>
    rw [step, settled.stopped, if_neg nofun]
    exact settled
  | returned tdo =>
    rw [step, complete, settled.stopped]
    exact settled
  | raised text =>
    rw [step, settled.stopped]
    exact settled

theorem run_settled (settled : self.Settled) (events : List Event) : (self.run events).Settled := by
  induction events generalizing self with
  | nil => exact settled
  | cons event events ih => exact ih (step_settled settled event)

theorem pending_fail (accounted : self.Accounted) {tdi : Bytes} {sent : Nat} {done : List Nat}
    (shifting : self.worker = .shifting tdi sent done) (text : String) (future : Nat) :
    (self.fail text).futures.Pending future ↔ self.futures.Pending future ∧ future ∈ done := by
  have running : self.error = none := by
    by_contra failed
    rw [accounted.failed.mp failed] at shifting
    cases shifting
  have covers := accounted.covers running
  rw [owned, shifting] at covers
  have apart := (List.nodup_append.mp covers.distinct).2.2
  have rejected : (Status.exception text : Status (Option Bytes) String) ≠ .pending := nofun
  rw [fail]
  dsimp only
  rw [pending_settleAll rejected, pending_settleAll rejected, and_assoc]
  refine and_congr_right fun pending => ⟨fun outside => ?_, fun member => ?_⟩
  · refine (List.mem_append.mp (covers.pending future pending)).resolve_right fun rest => ?_
    exact (List.mem_append.mp rest).elim outside.1 outside.2
  · exact ⟨fun queued => apart _ member _ (List.mem_append_left _ queued) rfl,
      fun waiting => apart _ member _ (List.mem_append_right _ waiting) rfl⟩

/-- What was pending is rejected with the error, unless the batch would have completed it. -/
theorem fail_rejects {future : Nat} (pending : self.futures.Pending future) {text : String}
    (settled : ¬(self.fail text).futures.Pending future) :
    (self.fail text).futures[future]? = some (.exception text) := by
  rw [fail] at settled ⊢
  dsimp only at settled ⊢
  have done : (Status.exception text : Status (Option Bytes) String) ≠ .pending := nofun
  by_cases queued : future ∈ self.txQueue.map TxItem.future
  · exact settleAll_of_done (settleAll_of_mem pending queued done) done
  · have still : (self.futures.settleAll (self.txQueue.map TxItem.future) (.exception text)).Pending future :=
      (pending_settleAll done).mpr ⟨pending, queued⟩
    refine settleAll_of_mem still ?_ done
    by_contra outside
    exact settled ((pending_settleAll done).mpr ⟨still, outside⟩)

end

/-- When the shift raises, every pending future is rejected, and none is left pending afterwards, exactly
when the batch completes no datagram whose future is still pending. -/
theorem raised_rejects_iff (preambleCount txBudget : Nat) (events : List Event) (text : String) {tdi : Bytes}
    {sent : Nat} {done : List Nat}
    (shifting : ((start preambleCount txBudget).run events).worker = .shifting tdi sent done) :
    ((∀ future, ((start preambleCount txBudget).run events).futures.Pending future →
        ((start preambleCount txBudget).run (events ++ [.raised text])).futures[future]? = some (.exception text)) ∧
      ∀ later future, ¬((start preambleCount txBudget).run (events ++ .raised text :: later)).futures.Pending future) ↔
    ∀ future ∈ done, ¬((start preambleCount txBudget).run events).futures.Pending future := by
  have accounted := run_accounted (accounted_start preambleCount txBudget) events
  have reached : ∀ later, (start preambleCount txBudget).run (events ++ .raised text :: later) =
      (((start preambleCount txBudget).run events).fail text).run later := by
    intro later
    rw [run, List.foldl_append, List.foldl_cons]
    change (step ((start preambleCount txBudget).run events) (.raised text)).run later = _
    rw [step, shifting]
  generalize (start preambleCount txBudget).run events = self at *
  simp only [reached, show ∀ self : ContinuousTransport, self.run [] = self from fun _ => rfl]
  constructor
  · rintro ⟨-, settled⟩ future member pending
    exact settled [] future ((pending_fail accounted shifting text future).mpr ⟨pending, member⟩)
  · intro settled
    have none : ∀ future, ¬(self.fail text).futures.Pending future := fun future pending =>
      have both := (pending_fail accounted shifting text future).mp pending
      settled future both.2 both.1
    have after : (self.fail text).Settled := ⟨nofun, rfl, none⟩
    exact ⟨fun future pending => fail_rejects pending (none future),
      fun later => (run_settled after later).futures⟩

/-- A batch that completes the only datagram, and a second datagram that comes while it is shifted. -/
def sendsWithCredit : List Event :=
  [.shift, .returned (sync ++ BitString.ofNat 0x0004f1 24), .flush [⟨.send [1, 2], false⟩], .shift,
    .flush [⟨.send [3], false⟩, ⟨.recv, false⟩]]

theorem raised_rejects_cancelled :
    let events := sendsWithCredit ++ [.cancel 0]
    (∀ future, ((start 2 64).run events).futures.Pending future →
        ((start 2 64).run (events ++ [.raised "stuck"])).futures[future]? = some (.exception "stuck")) ∧
      ∀ later future, ¬((start 2 64).run (events ++ .raised "stuck" :: later)).futures.Pending future := by
  intro events
  have shifting : ((start 2 64).run events).worker = .shifting (((start 2 64).run events).worker.tdi) 2 [0] := by
    decide
  refine (raised_rejects_iff 2 64 events "stuck" shifting).mpr ?_
  decide

/-- The datagram that the failing batch would have completed stays pending, the others are rejected. -/
theorem completed_send_left_pending :
    ((start 2 64).run (sendsWithCredit ++ [.raised "stuck"])).futures =
      [.pending, .exception "stuck", .exception "stuck"] := by decide

end Acrobe.Nsl.ContinuousTransport
