import Mathlib.Data.Nat.Notation

/-!
# Tasks, priorities and statistics

The data of `queue.rs`, `scheduler.rs` and `stats.rs`. A task carries two
numbers that the code does not have and no function reads: `id` names the
submission that made the task, and `parent` the task whose callback made that
submission, if one did.
-/

namespace UpgradeSched

inductive TaskPriority
  | low
  | normal
  | high
  deriving DecidableEq, Repr

/-- A task: function pointer and argument as addresses, the priority, and the
group it belongs to. -/
structure Task where
  id : ℕ
  parent : Option ℕ
  function : ℕ
  argument : ℕ
  priority : TaskPriority
  group : Option ℕ
  deriving DecidableEq, Repr

inductive SchedulerError
  | workerCreationFailed
  | schedulerStopped
  | queueFull
  | internalError
  deriving DecidableEq, Repr

/-- The configuration of a scheduler. `workerCount = 0` asks for automatic
detection and `queueCapacity = 0` for an unlimited queue. -/
structure SchedulerConfig where
  workerCount : ℕ
  queueCapacity : ℕ
  deriving DecidableEq, Repr

/-- The worker count that `from_config` and `create` settle on, given the
number of detected CPUs. -/
def SchedulerConfig.resolve (config : SchedulerConfig) (cpuCount : ℕ) : SchedulerConfig :=
  { config with
    workerCount :=
      max (if config.workerCount = 0 then max cpuCount 1 else config.workerCount) 1 }

theorem SchedulerConfig.resolve_workerCount_pos (config : SchedulerConfig) (cpuCount : ℕ) :
    0 < (config.resolve cpuCount).workerCount :=
  Nat.lt_of_lt_of_le Nat.one_pos (Nat.le_max_right _ _)

@[simp] theorem SchedulerConfig.resolve_queueCapacity (config : SchedulerConfig)
    (cpuCount : ℕ) : (config.resolve cpuCount).queueCapacity = config.queueCapacity := rfl

/-! ## Priority fairness -/

def HIGH_BURST_LIMIT : ℕ := 32

/-- The number of HIGH tasks a worker has selected in a row. -/
structure PriorityState where
  highStreak : ℕ
  deriving DecidableEq, Repr

namespace PriorityState

def new : PriorityState := ⟨0⟩

def recordHigh (state : PriorityState) : PriorityState := ⟨state.highStreak + 1⟩

def reset (_ : PriorityState) : PriorityState := ⟨0⟩

def fairnessDue (state : PriorityState) : Bool :=
  HIGH_BURST_LIMIT ≤ state.highStreak

def recordTask (state : PriorityState) (task : Task) : PriorityState :=
  match task.priority with
  | .high => state.recordHigh
  | .normal | .low => state.reset

theorem recordTask_high (state : PriorityState) {task : Task} (h : task.priority = .high) :
    (state.recordTask task).highStreak = state.highStreak + 1 := by
  rw [recordTask, h]
  rfl

theorem recordTask_low (state : PriorityState) {task : Task} (h : task.priority ≠ .high) :
    (state.recordTask task).highStreak = 0 := by
  unfold recordTask
  split
  · rename_i heq
    exact absurd heq h
  · rfl
  · rfl

theorem recordTask_le (state : PriorityState) (task : Task) :
    (state.recordTask task).highStreak ≤ state.highStreak + 1 := by
  by_cases h : task.priority = .high
  · exact Nat.le_of_eq (state.recordTask_high h)
  · exact Nat.le_trans (Nat.le_of_eq (state.recordTask_low h)) (Nat.zero_le _)

end PriorityState

/-! ## Statistics -/

/-- The counters of `SchedulerStats`. -/
inductive Stat
  | submitted
  | completed
  | rejectedFull
  | stealsAttempted
  | stealsSucceeded
  | fairnessYields
  | stealFailures
  deriving DecidableEq, Repr

/-- The values of the counters. They are 64-bit in the code and are taken as
unbounded here. -/
structure SchedulerStats where
  submitted : ℕ
  completed : ℕ
  rejectedFull : ℕ
  stealsAttempted : ℕ
  stealsSucceeded : ℕ
  fairnessYields : ℕ
  stealFailures : ℕ
  deriving DecidableEq, Repr

namespace SchedulerStats

def new : SchedulerStats := ⟨0, 0, 0, 0, 0, 0, 0⟩

def get (stats : SchedulerStats) : Stat → ℕ
  | .submitted => stats.submitted
  | .completed => stats.completed
  | .rejectedFull => stats.rejectedFull
  | .stealsAttempted => stats.stealsAttempted
  | .stealsSucceeded => stats.stealsSucceeded
  | .fairnessYields => stats.fairnessYields
  | .stealFailures => stats.stealFailures

/-- The `record_*` functions: each adds one to its counter. -/
def record (stats : SchedulerStats) : Stat → SchedulerStats
  | .submitted => { stats with submitted := stats.submitted + 1 }
  | .completed => { stats with completed := stats.completed + 1 }
  | .rejectedFull => { stats with rejectedFull := stats.rejectedFull + 1 }
  | .stealsAttempted => { stats with stealsAttempted := stats.stealsAttempted + 1 }
  | .stealsSucceeded => { stats with stealsSucceeded := stats.stealsSucceeded + 1 }
  | .fairnessYields => { stats with fairnessYields := stats.fairnessYields + 1 }
  | .stealFailures => { stats with stealFailures := stats.stealFailures + 1 }

theorem get_record (stats : SchedulerStats) (f f' : Stat) :
    (stats.record f).get f' = stats.get f' + if f = f' then 1 else 0 := by
  cases f <;> cases f' <;> rfl

end SchedulerStats

/-- The order in which `SchedulerStats::snapshot` loads the counters. -/
def snapshotOrder : List Stat :=
  [.submitted, .completed, .rejectedFull, .stealsAttempted, .stealsSucceeded,
    .fairnessYields, .stealFailures]

end UpgradeSched
