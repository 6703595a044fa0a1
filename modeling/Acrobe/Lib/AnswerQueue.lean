import Acrobe.Lib.Futures

/-!
# Answers in the order of their commands

Nothing in an answer names its command. The commands that wait are kept in the order in which they were sent, those that
are no longer waited for included, and an answer is for the first of them.
-/

namespace Futures
open Table

variable {κ α β γ ε σ : Type}

/-- The commands without an answer, each with its future, and the futures of all commands. -/
structure AnswerQueue (κ α ε : Type) where
  pending : List (κ × Nat)
  futures : Table α ε

namespace AnswerQueue

variable [DecidableEq α] [DecidableEq ε]

def empty : AnswerQueue κ α ε := ⟨[], []⟩

def send (queue : AnswerQueue κ α ε) (command : κ) : AnswerQueue κ α ε :=
  ⟨queue.pending ++ [(command, queue.futures.length)], queue.futures ++ [.pending]⟩

def expire (queue : AnswerQueue κ α ε) (status : Status α ε) : AnswerQueue κ α ε :=
  { queue with futures := queue.futures.settleAll (queue.pending.map Prod.snd) status }

/-- An answer without a command is dropped, and so is one that comes late. -/
def answer (decode : κ → β → Status α ε) (queue : AnswerQueue κ α ε) (frame : β) : AnswerQueue κ α ε :=
  match queue.pending with
  | [] => queue
  | (command, future) :: pending => ⟨pending, queue.futures.settle future (decode command frame)⟩

/-! ### Matching -/

/-- The queue after commands and answers: what was answered was answered by the answer to it, unless it had expired. -/
structure Matches (decode : κ → β → Status α ε) (expired : Status α ε → Prop) (queue : AnswerQueue κ α ε)
    (commands : List κ) (answers : List β) : Prop where
  few : answers.length ≤ commands.length
  known : queue.futures.length = commands.length
  order : queue.pending = commands.zipIdx.drop answers.length
  settled : ∀ n command status, commands[n]? = some command → queue.futures[n]? = some status →
    status = .pending ∧ answers.length ≤ n ∨ expired status ∨
      ∃ frame, answers[n]? = some frame ∧ status = decode command frame

namespace Matches

variable {decode : κ → β → Status α ε} {expired : Status α ε → Prop} {queue : AnswerQueue κ α ε} {commands : List κ}
  {answers : List β}

omit [DecidableEq α] [DecidableEq ε] in
theorem empty : (empty : AnswerQueue κ α ε).Matches decode expired [] [] where
  few := Nat.le_refl _
  known := rfl
  order := rfl
  settled := nofun

omit [DecidableEq α] [DecidableEq ε] in
theorem mono {other : Status α ε → Prop} (matched : queue.Matches decode expired commands answers)
    (wider : ∀ status, expired status → other status) : queue.Matches decode other commands answers where
  few := matched.few
  known := matched.known
  order := matched.order
  settled := by
    intro n command status sent found
    obtain waits | expires | answered := matched.settled n command status sent found
    · exact Or.inl waits
    · exact Or.inr (Or.inl (wider status expires))
    · exact Or.inr (Or.inr answered)

omit [DecidableEq α] [DecidableEq ε] in
theorem send (matched : queue.Matches decode expired commands answers) (command : κ) :
    (queue.send command).Matches decode expired (commands ++ [command]) answers where
  few := by
    have few := matched.few
    rw [List.length_append]
    omega
  known := by
    rw [AnswerQueue.send, List.length_append, List.length_append, matched.known]
    rfl
  order := by
    have inside : answers.length ≤ commands.zipIdx.length := by
      rw [List.length_zipIdx]
      exact matched.few
    rw [AnswerQueue.send, matched.order, matched.known, List.zipIdx_append, List.drop_append_of_le_length inside, Nat.zero_add]
    rfl
  settled := by
    intro n other status sent found
    by_cases before : n < commands.length
    · rw [List.getElem?_append_left before] at sent
      rw [AnswerQueue.send, List.getElem?_append_left (by rw [matched.known]; exact before)] at found
      exact matched.settled n other status sent found
    · have last : n < (commands ++ [command]).length := (List.getElem?_eq_some_iff.mp sent).1
      rw [List.length_append, List.length_singleton] at last
      obtain rfl : n = queue.futures.length := by rw [matched.known]; omega
      rw [AnswerQueue.send, List.getElem?_concat_length] at found
      refine Or.inl ⟨(Option.some.inj found).symm, ?_⟩
      rw [matched.known]
      exact matched.few

theorem expire (matched : queue.Matches decode expired commands answers) {status : Status α ε} (expires : expired status) :
    (queue.expire status).Matches decode expired commands answers where
  few := matched.few
  known := (length_settleAll ..).trans matched.known
  order := matched.order
  settled := by
    intro n command kept sent found
    obtain before | rfl := settleAll_cases found
    · exact matched.settled n command kept sent before
    · exact Or.inr (Or.inl expires)

omit [DecidableEq α] [DecidableEq ε] in
theorem next (matched : queue.Matches decode expired commands answers) (more : answers.length < commands.length) :
    queue.pending = (commands[answers.length], answers.length) :: commands.zipIdx.drop (answers.length + 1) := by
  have inside : answers.length < commands.zipIdx.length := by rwa [List.length_zipIdx]
  rw [matched.order, List.drop_eq_getElem_cons inside, List.getElem_zipIdx, Nat.zero_add]

theorem answer (matched : queue.Matches decode expired commands answers) (more : answers.length < commands.length) {frame : β} :
    (queue.answer decode frame).Matches decode expired commands (answers ++ [frame]) := by
  have popped : queue.answer decode frame =
      ⟨commands.zipIdx.drop (answers.length + 1),
        queue.futures.settle answers.length (decode commands[answers.length] frame)⟩ := by
    rw [AnswerQueue.answer, matched.next more]
  have here : (answers ++ [frame])[answers.length]? = some frame := List.getElem?_concat_length
  rw [popped]
  refine ⟨by rw [List.length_append]; exact more, (length_settle ..).trans matched.known,
    by rw [List.length_append]; rfl, ?_⟩
  intro n command status sent found
  obtain before | ⟨rfl, rfl⟩ := settle_cases found
  · obtain ⟨rfl, waits⟩ | expires | ⟨other, answered, same⟩ := matched.settled n command status sent before
    · by_cases same : n = answers.length
      · subst same
        have now := settle_of_pending before (decode commands[answers.length] frame)
        rw [found] at now
        rw [List.getElem?_eq_getElem more] at sent
        obtain rfl := Option.some.inj sent
        exact Or.inr (Or.inr ⟨frame, here, Option.some.inj now⟩)
      · rw [List.length_append, List.length_singleton]
        exact Or.inl ⟨rfl, by omega⟩
    · exact Or.inr (Or.inl expires)
    · have inside : n < answers.length := (List.getElem?_eq_some_iff.mp answered).1
      exact Or.inr (Or.inr ⟨other, by rw [List.getElem?_append_left inside]; exact answered, same⟩)
  · rw [List.getElem?_eq_getElem more] at sent
    obtain rfl := Option.some.inj sent
    exact Or.inr (Or.inr ⟨frame, here, rfl⟩)

end Matches

end AnswerQueue

end Futures
