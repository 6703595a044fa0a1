import Mathlib

/-!
# Event flags

The tasks that an event loop resumes, first come first served, and an event that some of them wait for.
Setting the event schedules the tasks that wait, in the order in which they began to.
-/

namespace Acrobe.Lib

structure EventFlag (τ : Type*) where
  value : Bool
  waiters : List τ
  ready : List τ
  /-- Nobody waits for an event that is set. -/
  heard : value = true → waiters = []

namespace EventFlag
variable {τ : Type*}

def start : EventFlag τ := { value := false, waiters := [], ready := [], heard := fun _ => rfl }

def schedule (self : EventFlag τ) (task : τ) : EventFlag τ := { self with ready := self.ready ++ [task] }

def set (self : EventFlag τ) : EventFlag τ :=
  if self.value then self
  else { value := true, waiters := [], ready := self.ready ++ self.waiters, heard := fun _ => rfl }

def resumed (self : EventFlag τ) : EventFlag τ := { self with ready := self.ready.tail }

/-- `clear()` and then `wait()` -/
def clearWait (self : EventFlag τ) (task : τ) : EventFlag τ :=
  { value := false, waiters := self.waiters ++ [task], ready := self.ready, heard := nofun }

/-- The tasks that have not come to their end. -/
def tasks (self : EventFlag τ) : List τ := self.ready ++ self.waiters

@[simp] theorem tasks_set (flag : EventFlag τ) : flag.set.tasks = flag.tasks := by
  unfold set
  split
  · rfl
  · exact List.append_nil _

@[simp] theorem waiters_set (flag : EventFlag τ) : flag.set.waiters = [] := by
  unfold set
  split
  · rename_i value
    exact flag.heard value
  · rfl

theorem tasks_schedule (flag : EventFlag τ) (task : τ) : (flag.schedule task).tasks.Perm (task :: flag.tasks) := by
  unfold tasks schedule
  rw [List.append_assoc]
  exact List.perm_middle

@[simp] theorem tasks_clearWait (flag : EventFlag τ) (task : τ) : (flag.clearWait task).tasks = flag.tasks ++ [task] :=
  (List.append_assoc ..).symm

theorem tasks_resumed {flag : EventFlag τ} {task : τ} {rest : List τ} (ready : flag.ready = task :: rest) :
    flag.tasks = task :: flag.resumed.tasks := by
  unfold tasks resumed
  rw [ready]
  rfl

end EventFlag
end Acrobe.Lib
