import Mathlib

/-!
# Sequential machines

A machine reads symbols one at a time and emits one output per symbol.
`finish` and `outputs` are homomorphisms for concatenation of the input, which
is what lets a stream be cut into consecutive calls.
-/

namespace Acrobe.Lib

structure Machine (σ α β : Type*) where
  step : σ → α → σ × β

namespace Machine
variable {σ α β : Type*} (M : Machine σ α β)

def finish (s : σ) : List α → σ
  | [] => s
  | x :: xs => finish (M.step s x).1 xs

def outputs (s : σ) : List α → List β
  | [] => []
  | x :: xs => (M.step s x).2 :: outputs (M.step s x).1 xs

@[simp] theorem finish_nil (s : σ) : M.finish s [] = s := rfl

@[simp] theorem finish_cons (s : σ) (x : α) (xs : List α) :
    M.finish s (x :: xs) = M.finish (M.step s x).1 xs := rfl

@[simp] theorem outputs_nil (s : σ) : M.outputs s [] = [] := rfl

@[simp] theorem outputs_cons (s : σ) (x : α) (xs : List α) :
    M.outputs s (x :: xs) = (M.step s x).2 :: M.outputs (M.step s x).1 xs := rfl

theorem finish_append (s : σ) (xs ys : List α) :
    M.finish s (xs ++ ys) = M.finish (M.finish s xs) ys := by
  induction xs generalizing s with
  | nil => rfl
  | cons x xs ih => exact ih _

theorem outputs_append (s : σ) (xs ys : List α) :
    M.outputs s (xs ++ ys) = M.outputs s xs ++ M.outputs (M.finish s xs) ys := by
  induction xs generalizing s with
  | nil => rfl
  | cons x xs ih => simp only [List.cons_append, outputs_cons, finish_cons, ih]

@[simp] theorem length_outputs (s : σ) (xs : List α) : (M.outputs s xs).length = xs.length := by
  induction xs generalizing s with
  | nil => rfl
  | cons x xs ih => simp only [outputs_cons, List.length_cons, ih]

end Machine
end Acrobe.Lib

/-!
## Machines that deliver items

A machine that completes an item at some of the symbols it reads. What it takes from a stream is what
it takes from the consecutive pieces of the stream.
-/

namespace Acrobe.Lib.Machine
variable {σ α β : Type*} (M : Machine σ α (Option β))

def delivered (s : σ) (xs : List α) : List β := (M.outputs s xs).reduceOption

theorem delivered_append (s : σ) (xs ys : List α) :
    M.delivered s (xs ++ ys) = M.delivered s xs ++ M.delivered (M.finish s xs) ys := by
  rw [delivered, outputs_append, List.reduceOption_append]
  rfl

/-- The symbols lead from the first state to the last one and deliver the items. -/
structure Takes (s : σ) (xs : List α) (items : List β) (last : σ) : Prop where
  finish : M.finish s xs = last
  delivered : M.delivered s xs = items

variable {M}

theorem takes_nil (s : σ) : M.Takes s [] [] s := ⟨rfl, rfl⟩

theorem takes_one {s next : σ} {x : α} {output : Option β} (step : M.step s x = (next, output)) :
    M.Takes s [x] output.toList next := by
  refine ⟨congrArg Prod.fst step, ?_⟩
  rw [Machine.delivered, outputs_cons, outputs_nil, step]
  cases output <;> rfl

theorem Takes.append {s middle last : σ} {xs ys : List α} {items later : List β} (first : M.Takes s xs items middle)
    (second : M.Takes middle ys later last) : M.Takes s (xs ++ ys) (items ++ later) last where
  finish := by rw [finish_append, first.finish, second.finish]
  delivered := by rw [delivered_append, first.finish, first.delivered, second.delivered]

theorem Takes.cons {s middle last : σ} {x : α} {ys : List α} {output : Option β} {later : List β}
    (step : M.step s x = (middle, output)) (rest : M.Takes middle ys later last) :
    M.Takes s (x :: ys) (output.toList ++ later) last := (takes_one step).append rest

theorem finish_take_append {s middle : σ} {front : List α} (whole : M.finish s front = middle) (back : List α)
    (cut : Nat) :
    M.finish s ((front ++ back).take cut) =
      if cut < front.length then M.finish s (front.take cut) else M.finish middle (back.take (cut - front.length)) := by
  rw [List.take_append]
  split
  · rename_i inside
    rw [Nat.sub_eq_zero_of_le (Nat.le_of_lt inside), List.take_zero, List.append_nil]
  · rename_i outside
    rw [List.take_of_length_le (Nat.le_of_not_lt outside), finish_append, whole]

end Acrobe.Lib.Machine
