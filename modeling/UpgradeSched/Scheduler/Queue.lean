import Mathlib.Data.Multiset.OrderedMonoid
import UpgradeSched.Interleaving.System
import UpgradeSched.Scheduler.Task

/-!
# The task queues

`QueueSystem` of `queue.rs`: one injector per priority and one local deque per
worker, all first in, first out. The operations are the atomic steps of
crossbeam's injectors and deques. `steal_batch_and_pop` returns the front task of
an injector and moves `k` more, in order, to the back of a local deque; `k` is
the environment's choice.
-/

namespace UpgradeSched

/-- The outcome of a steal. -/
inductive Steal
  | success (task : Task)
  | empty
  | retry
  deriving DecidableEq, Repr

/-- The outcome of a search for work. -/
inductive PopResult
  | task (task : Task)
  | empty
  | retry
  deriving DecidableEq, Repr

/-- The injectors and the local deques, front first. The stealer of worker `j`
is the access to `locals[j]`. -/
structure QueueSystem where
  high : List Task
  normal : List Task
  low : List Task
  locals : List (List Task)
  deriving DecidableEq, Repr

namespace QueueSystem

def new (workerCount : ℕ) : QueueSystem :=
  ⟨[], [], [], List.replicate (max workerCount 1) []⟩

/-- The injector of a priority. -/
def injector (queues : QueueSystem) : TaskPriority → List Task
  | .high => queues.high
  | .normal => queues.normal
  | .low => queues.low

def setInjector (queues : QueueSystem) (tasks : List Task) : TaskPriority → QueueSystem
  | .high => { queues with high := tasks }
  | .normal => { queues with normal := tasks }
  | .low => { queues with low := tasks }

def pushGlobal (queues : QueueSystem) (task : Task) : QueueSystem :=
  queues.setInjector (queues.injector task.priority ++ [task]) task.priority

def workerCount (queues : QueueSystem) : ℕ := queues.locals.length

/-- The local deque of a worker; workers that do not exist have an empty one. -/
def deque (queues : QueueSystem) (w : ℕ) : List Task := queues.locals.getD w []

def setDeque (queues : QueueSystem) (w : ℕ) (tasks : List Task) : QueueSystem :=
  { queues with locals := queues.locals.set w tasks }

/-- Putting back what a deque holds. -/
theorem setDeque_deque (queues : QueueSystem) (w : ℕ) :
    queues.setDeque w (queues.deque w) = queues := by
  rcases Nat.lt_or_ge w queues.locals.length with hw | hw
  · simp [setDeque, deque, List.getD, hw]
  · simp [setDeque, List.set_eq_of_length_le hw]

theorem deque_setDeque (queues : QueueSystem) (v w : ℕ) (tasks : List Task) :
    (queues.setDeque v tasks).deque w =
      if v = w ∧ v < queues.locals.length then tasks else queues.deque w := by
  unfold deque setDeque
  by_cases hvw : v = w
  · subst hvw
    rcases Nat.lt_or_ge v queues.locals.length with hv | hv
    · simp [List.getD, hv]
    · simp [List.getD, Nat.not_lt.mpr hv]
  · simp [List.getD, hvw]

@[simp] theorem deque_setInjector (queues : QueueSystem) (tasks : List Task)
    (priority : TaskPriority) (w : ℕ) :
    (queues.setInjector tasks priority).deque w = queues.deque w := by
  cases priority <;> rfl

theorem injector_setInjector (queues : QueueSystem) (tasks : List Task)
    (priority priority' : TaskPriority) :
    (queues.setInjector tasks priority).injector priority' =
      if priority = priority' then tasks else queues.injector priority' := by
  cases priority <;> cases priority' <;> rfl

@[simp] theorem injector_setDeque (queues : QueueSystem) (w : ℕ) (tasks : List Task)
    (priority : TaskPriority) :
    (queues.setDeque w tasks).injector priority = queues.injector priority := by
  cases priority <;> rfl

@[simp] theorem deque_new (workerCount w : ℕ) : (new workerCount).deque w = [] := by
  simp only [deque, new, List.getD, List.getElem?_replicate]
  split <;> rfl

@[simp] theorem injector_new (workerCount : ℕ) (priority : TaskPriority) :
    (new workerCount).injector priority = [] := by
  cases priority <;> rfl

/-- An injector whose front task was taken and that holds `rest`: the next `k`
tasks move to the back of the deque of worker `w`. -/
def moveBatch (queues : QueueSystem) (priority : TaskPriority) (w k : ℕ)
    (rest : List Task) : QueueSystem :=
  (queues.setInjector (rest.drop k) priority).setDeque w (queues.deque w ++ rest.take k)

theorem deque_moveBatch (queues : QueueSystem) (priority : TaskPriority) {w k : ℕ}
    (rest : List Task) (hw : w < queues.locals.length) (v : ℕ) :
    (queues.moveBatch priority w k rest).deque v =
      if w = v then queues.deque v ++ rest.take k else queues.deque v := by
  have hlen : w < (queues.setInjector (rest.drop k) priority).locals.length := by
    cases priority <;> exact hw
  rw [moveBatch, deque_setDeque, deque_setInjector]
  by_cases hwv : w = v
  · subst hwv
    rw [if_pos ⟨rfl, hlen⟩, if_pos rfl]
  · rw [if_neg fun h => hwv h.1, if_neg hwv]

theorem injector_moveBatch (queues : QueueSystem) (priority priority' : TaskPriority)
    (w k : ℕ) (rest : List Task) :
    (queues.moveBatch priority w k rest).injector priority' =
      if priority = priority' then rest.drop k else queues.injector priority' := by
  rw [moveBatch, injector_setDeque, injector_setInjector]

/-- `Injector::steal_batch_and_pop` into the deque of worker `w`: the front task
is returned and `k` more move to the back of the deque. -/
def stealBatchAndPop (queues : QueueSystem) (priority : TaskPriority) (w k : ℕ) :
    Option (Steal × QueueSystem) :=
  match queues.injector priority with
  | [] => some (.empty, queues)
  | task :: rest =>
      if k ≤ rest.length ∧ w < queues.locals.length then
        some (.success task, queues.moveBatch priority w k rest)
      else none

/-- `Worker::pop` on the own deque. -/
def popLocal (queues : QueueSystem) (w : ℕ) : Option Task × QueueSystem :=
  match queues.deque w with
  | [] => (none, queues)
  | task :: rest => (some task, queues.setDeque w rest)

/-- `Stealer::steal` on the deque of another worker. -/
def steal (queues : QueueSystem) (victim : ℕ) : Steal × QueueSystem :=
  match queues.deque victim with
  | [] => (.empty, queues)
  | task :: rest => (.success task, queues.setDeque victim rest)

/-- Every queued task. -/
def tasks (queues : QueueSystem) : Multiset Task :=
  ↑queues.high + ↑queues.normal + ↑queues.low + ↑queues.locals.flatten

section Tasks

variable (queues : QueueSystem)

@[simp] theorem tasks_new (workerCount : ℕ) : (new workerCount).tasks = 0 := by
  simp [tasks, new]

theorem tasks_setInjector (tasks' : List Task) (priority : TaskPriority) :
    (queues.setInjector tasks' priority).tasks + ↑(queues.injector priority) =
      queues.tasks + ↑tasks' := by
  cases priority <;> simp only [setInjector, injector, tasks] <;> ac_rfl

theorem tasks_setDeque {w : ℕ} (hw : w < queues.locals.length) (tasks' : List Task) :
    (queues.setDeque w tasks').tasks + ↑(queues.deque w) = queues.tasks + ↑tasks' := by
  have hget : queues.locals[w]? = some (queues.deque w) := by
    simp [deque, List.getD, hw]
  have hset := Interleaving.sum_map_set_add (Multiset.ofList : List Task → Multiset Task)
    queues.locals tasks' hget
  have hflat : ∀ ls : List (List Task),
      (↑ls.flatten : Multiset Task) = (ls.map Multiset.ofList).sum := by
    intro ls
    induction ls with
    | nil => rfl
    | cons l ls ih => simp [← Multiset.coe_add, ih]
  simp only [tasks, setDeque, hflat, add_assoc]
  rw [hset]

theorem tasks_pushGlobal (task : Task) :
    (queues.pushGlobal task).tasks = queues.tasks + {task} := by
  have h := queues.tasks_setInjector (queues.injector task.priority ++ [task]) task.priority
  rw [← Multiset.coe_add, ← add_assoc, add_right_comm] at h
  exact add_right_cancel h

theorem deque_eq_nil_of_tasks {queues : QueueSystem} (h : queues.tasks = 0) (w : ℕ) :
    queues.deque w = [] := by
  have hlocals : ∀ l ∈ queues.locals, l = [] := by
    simp only [tasks, Multiset.coe_add, Multiset.coe_eq_zero] at h
    simp only [List.append_eq_nil_iff, List.flatten_eq_nil_iff] at h
    exact h.2
  rcases Nat.lt_or_ge w queues.locals.length with hw | hw
  · simpa [deque, List.getD, hw] using hlocals _ (List.getElem_mem hw)
  · simp [deque, List.getD, hw]

variable {queues} in
theorem mem_tasks_of_mem_injector {priority : TaskPriority} {task : Task}
    (h : task ∈ queues.injector priority) : task ∈ queues.tasks := by
  cases priority <;> simp_all [tasks, injector]

variable {queues} in
theorem mem_tasks_of_mem_deque {w : ℕ} {task : Task} (h : task ∈ queues.deque w) :
    task ∈ queues.tasks := by
  rcases Nat.lt_or_ge w queues.locals.length with hw | hw
  · have hget : queues.deque w = queues.locals[w] := by simp [deque, List.getD, hw]
    have hflat : task ∈ queues.locals.flatten :=
      List.mem_flatten.mpr ⟨_, List.getElem_mem hw, hget ▸ h⟩
    exact Multiset.mem_add.mpr (.inr (Multiset.mem_coe.mpr hflat))
  · simp [deque, List.getD, hw] at h

variable {queues} in
theorem injector_eq_nil_of_tasks (h : queues.tasks = 0) (priority : TaskPriority) :
    queues.injector priority = [] :=
  List.eq_nil_iff_forall_not_mem.mpr fun task hmem =>
    Multiset.notMem_zero task (h ▸ mem_tasks_of_mem_injector hmem)

variable {queues} in
theorem tasks_eq_zero (hinjector : ∀ priority, queues.injector priority = [])
    (hdeque : ∀ w, queues.deque w = []) : queues.tasks = 0 := by
  have hlocals : ∀ tasks ∈ queues.locals, tasks = [] := by
    intro tasks hmem
    obtain ⟨w, hw, rfl⟩ := List.getElem_of_mem hmem
    simpa [deque, List.getD, hw] using hdeque w
  have hhigh : queues.high = [] := hinjector .high
  have hnormal : queues.normal = [] := hinjector .normal
  have hlow : queues.low = [] := hinjector .low
  rw [tasks, hhigh, hnormal, hlow, List.flatten_eq_nil_iff.mpr hlocals]
  rfl

/-- Nothing is queued when the injectors and the deques of the workers are empty. -/
theorem tasks_eq_zero_iff : queues.tasks = 0 ↔
    (∀ priority, queues.injector priority = []) ∧
      ∀ w < queues.workerCount, queues.deque w = [] := by
  refine ⟨fun h => ⟨injector_eq_nil_of_tasks h, fun w _ => deque_eq_nil_of_tasks h w⟩, ?_⟩
  rintro ⟨hinjector, hdeque⟩
  refine tasks_eq_zero hinjector fun w => ?_
  by_cases hw : w < queues.workerCount
  · exact hdeque w hw
  · have hnone : queues.locals[w]? = none := List.getElem?_eq_none (Nat.le_of_not_lt hw)
    simp [deque, List.getD, hnone]

variable {queues} in
theorem mem_injector_or_deque_of_mem_tasks {task : Task} (h : task ∈ queues.tasks) :
    (∃ priority, task ∈ queues.injector priority) ∨ ∃ w, task ∈ queues.deque w := by
  simp only [tasks, Multiset.mem_add, Multiset.mem_coe] at h
  rcases h with ((h | h) | h) | h
  · exact .inl ⟨.high, h⟩
  · exact .inl ⟨.normal, h⟩
  · exact .inl ⟨.low, h⟩
  · obtain ⟨tasks, hmem, htask⟩ := List.mem_flatten.mp h
    obtain ⟨w, hw, rfl⟩ := List.getElem_of_mem hmem
    exact .inr ⟨w, by simpa [deque, List.getD, hw] using htask⟩

theorem length_pos_of_deque_eq_cons {w : ℕ} {task : Task} {rest : List Task}
    (h : queues.deque w = task :: rest) : w < queues.locals.length := by
  by_contra hw
  simp [deque, List.getD, List.getElem?_eq_none (Nat.le_of_not_lt hw)] at h

theorem tasks_setDeque_of_cons {w : ℕ} {task : Task} {rest : List Task}
    (h : queues.deque w = task :: rest) :
    (queues.setDeque w rest).tasks + {task} = queues.tasks := by
  have hset := queues.tasks_setDeque (queues.length_pos_of_deque_eq_cons h) rest
  rw [h, ← Multiset.cons_coe, ← Multiset.singleton_add, ← add_assoc] at hset
  exact add_right_cancel hset

theorem tasks_moveBatch {priority : TaskPriority} {w k : ℕ} {task : Task}
    {rest : List Task} (h : queues.injector priority = task :: rest)
    (hw : w < queues.locals.length) :
    (queues.moveBatch priority w k rest).tasks + {task} = queues.tasks := by
  have hlen : w < (queues.setInjector (rest.drop k) priority).locals.length := by
    cases priority <;> exact hw
  have hdeque : (queues.setInjector (rest.drop k) priority).deque w = queues.deque w := by
    cases priority <;> rfl
  have hinj := queues.tasks_setInjector (rest.drop k) priority
  have hmove := (queues.setInjector (rest.drop k) priority).tasks_setDeque hlen
    (queues.deque w ++ rest.take k)
  have hrest : (↑rest : Multiset Task) = ↑(rest.take k) + ↑(rest.drop k) := by
    rw [Multiset.coe_add, List.take_append_drop]
  rw [hdeque, ← Multiset.coe_add, add_comm (↑(queues.deque w) : Multiset Task),
    ← add_assoc] at hmove
  have hmoved := add_right_cancel hmove
  rw [h, ← Multiset.cons_coe, ← Multiset.singleton_add, hrest] at hinj
  rw [moveBatch, hmoved]
  refine add_right_cancel (b := (↑(rest.drop k) : Multiset Task)) ?_
  rw [← hinj]
  ac_rfl

end Tasks

end QueueSystem

end UpgradeSched
