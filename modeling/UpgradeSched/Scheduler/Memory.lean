import UpgradeSched.Interleaving.Gate
import UpgradeSched.Scheduler.Queue

/-!
# The shared memory and its atomic steps

`Mem` holds what several threads see: for every scheduler and every task group
the counter, the flag, the mutex and the condition variable (a `Gate`), and for
every scheduler the rest of `WorkerShared` with the configuration. One `Instr` is
one atomic step of a thread: an operation on a gate, an operation on a scheduler,
a thread-local step, the start of a call or the start of a worker thread, with
the local state that follows for each result.

`Mem.log` is a history: steps append to it and none reads it, except that its
length stamps the start of a call.
-/

namespace UpgradeSched

open Interleaving

/-- What counts tasks: a scheduler (`WorkerShared.tasks_in_flight`, `shutdown`,
`sleep_lock`, `wake`) or a group (`TaskGroup.tasks_in_flight`, `closed`,
`wait_lock`, `wake`). -/
inductive Obj
  | sched (s : ℕ)
  | group (g : ℕ)
  deriving DecidableEq, Repr

/-- Whether a scheduler exists and whether its handle has been returned. -/
inductive Phase
  | absent
  | starting
  | live
  deriving DecidableEq, Repr

/-- A scheduler without its gate: the fields of `Scheduler` and `WorkerShared`,
the number of worker threads started and the workers that have returned. -/
structure Sched where
  phase : Phase
  config : SchedulerConfig
  queues : QueueSystem
  sleepingWorkers : ℕ
  stats : SchedulerStats
  spawned : ℕ
  exited : List ℕ
  deriving DecidableEq, Repr

/-- The scheduler before it is created. -/
def Sched.absent : Sched :=
  ⟨.absent, ⟨0, 0⟩, ⟨[], [], [], []⟩, 0, .new, 0, []⟩

/-- The calls of the public interface that the model follows. -/
inductive ApiCall
  | push (s function argument : ℕ) (priority : TaskPriority) (group : Option ℕ)
  | wait (s : ℕ)
  | shutdown (s : ℕ)
  | create (s : ℕ) (config : SchedulerConfig) (cpuCount : ℕ)
  | destroy (s : ℕ)
  | getStats (s : ℕ)
  | groupWait (g : ℕ)
  | groupDestroy (g : ℕ)
  deriving DecidableEq, Repr

/-- The steps of the accounting of a task, in the order of `execute_task`: the
callback has returned, the completion is recorded, the scheduler slot is
released, the group registration is released. -/
inductive Stage
  | finished
  | recorded
  | released
  | groupReleased
  deriving DecidableEq, Repr

inductive Event
  | called (call : ApiCall)
  | published (s : ℕ) (task : Task)
  | selected (s w : ℕ) (task : Task)
  | done (stage : Stage) (s : ℕ) (task : Task)
  | stopped (x : Obj)
  | returned (s : ℕ) (task : Task) (result : Option SchedulerError)
  deriving DecidableEq, Repr

structure Mem where
  usizeBits : ℕ
  gates : Obj → Gate
  scheds : ℕ → Sched
  log : List Event

namespace Mem

def init (usizeBits : ℕ) : Mem :=
  ⟨usizeBits, fun _ => .new, fun _ => .absent, []⟩

def setGate (m : Mem) (x : Obj) (gate : Gate) : Mem :=
  { m with gates := fun y => if y = x then gate else m.gates y }

def setSched (m : Mem) (s : ℕ) (sched : Sched) : Mem :=
  { m with scheds := fun t => if t = s then sched else m.scheds t }

def emit (m : Mem) (events : List Event) : Mem :=
  { m with log := m.log ++ events }

/-- A call on a scheduler needs its handle; creation needs an unused number. -/
def Admits (m : Mem) : ApiCall → Prop
  | .push s _ _ _ _ | .wait s | .shutdown s | .destroy s | .getStats s =>
      (m.scheds s).phase = .live
  | .create s _ _ => (m.scheds s).phase = .absent
  | .groupWait _ | .groupDestroy _ => True

instance (m : Mem) (call : ApiCall) : Decidable (m.Admits call) := by
  cases call <;> unfold Admits <;> infer_instance

end Mem

/-! ## Atomic steps on a scheduler -/

/-- The atomic steps on the part of a scheduler outside its gate. `loadConfig`
and `getStealer` read fields that never change, `loadSpawned` reads the number of
worker handles, and `join` waits for a worker thread to return. -/
inductive SchedOp : Type → Type
  | create (config : SchedulerConfig) : SchedOp Unit
  | openHandle : SchedOp Unit
  | loadConfig : SchedOp SchedulerConfig
  | loadSleeping : SchedOp ℕ
  | addSleeping : SchedOp Unit
  | subSleeping : SchedOp Unit
  | pushGlobal (task : Task) : SchedOp Unit
  | stealBatchAndPop (priority : TaskPriority) (w : ℕ) : SchedOp Steal
  | popLocal (w : ℕ) : SchedOp (Option Task)
  | getStealer (victim : ℕ) : SchedOp Bool
  | steal (victim : ℕ) : SchedOp Steal
  | record (stat : Stat) : SchedOp Unit
  | loadStat (stat : Stat) : SchedOp ℕ
  | loadSpawned : SchedOp ℕ
  | exit (w : ℕ) : SchedOp Unit
  | join (w : ℕ) : SchedOp Unit

/-- The effect of one step on a scheduler; `none` when the step is blocked. A
worker that returns drops its local deque with what it holds. -/
def SchedOp.exec {α : Type} (turn : Turn) (sd : Sched) : SchedOp α → Option (α × Sched)
  | create config =>
      match turn, sd.phase with
      | .go, .absent =>
          some ((), ⟨.starting, config, .new config.workerCount, 0, .new, 0, []⟩)
      | _, _ => none
  | openHandle =>
      match turn with
      | .go => some ((), { sd with phase := .live })
      | _ => none
  | loadConfig =>
      match turn with
      | .go => some (sd.config, sd)
      | _ => none
  | loadSleeping =>
      match turn with
      | .go => some (sd.sleepingWorkers, sd)
      | _ => none
  | addSleeping =>
      match turn with
      | .go => some ((), { sd with sleepingWorkers := sd.sleepingWorkers + 1 })
      | _ => none
  | subSleeping =>
      match turn with
      | .go => some ((), { sd with sleepingWorkers := sd.sleepingWorkers - 1 })
      | _ => none
  | pushGlobal task =>
      match turn with
      | .go => some ((), { sd with queues := sd.queues.pushGlobal task })
      | _ => none
  | stealBatchAndPop priority w =>
      match turn with
      | .pick k =>
          (sd.queues.stealBatchAndPop priority w k).map fun r =>
            (r.1, { sd with queues := r.2 })
      | .spurious => some (.retry, sd)
      | .go => none
  | popLocal w =>
      match turn with
      | .go =>
          some ((sd.queues.popLocal w).1, { sd with queues := (sd.queues.popLocal w).2 })
      | _ => none
  | getStealer victim =>
      match turn with
      | .go => some (decide (victim < sd.queues.workerCount), sd)
      | _ => none
  | steal victim =>
      match turn with
      | .go =>
          some ((sd.queues.steal victim).1, { sd with queues := (sd.queues.steal victim).2 })
      | .spurious => some (.retry, sd)
      | .pick _ => none
  | record stat =>
      match turn with
      | .go => some ((), { sd with stats := sd.stats.record stat })
      | _ => none
  | loadStat stat =>
      match turn with
      | .go => some (sd.stats.get stat, sd)
      | _ => none
  | loadSpawned =>
      match turn with
      | .go => some (sd.spawned, sd)
      | _ => none
  | exit w =>
      match turn with
      | .go =>
          some ((), { sd with queues := sd.queues.setDeque w [], exited := w :: sd.exited })
      | _ => none
  | join w =>
      match turn with
      | .go => if w ∈ sd.exited then some ((), sd) else none
      | _ => none

/-- What one round of the spawn loop of `create` finds: the next local queue got
its worker thread, the thread could not be started, or no queue is left. -/
inductive SpawnResult
  | spawned (w : ℕ)
  | failed
  | exhausted
  deriving DecidableEq, Repr

def Sched.spawnNext (turn : Turn) (sd : Sched) : Option (SpawnResult × Sched) :=
  match turn with
  | .go =>
      if sd.spawned < sd.config.workerCount then
        some (.spawned sd.spawned, { sd with spawned := sd.spawned + 1 })
      else some (.exhausted, sd)
  | .spurious =>
      if sd.spawned < sd.config.workerCount then some (.failed, sd) else none
  | .pick _ => none

/-! ## Instructions -/

/-- One atomic step of a thread: what it does to the memory, the events it adds
to the history, and the local state that follows for each result. -/
inductive Instr (π : Type) : Type 1
  | gate {α : Type} (x : Obj) (op : GateOp α) (events : List Event) (next : α → π)
  | sched {α : Type} (s : ℕ) (op : SchedOp α) (events : α → List Event) (next : α → π)
  | silent (events : List Event) (next : π)
  | start (call : ApiCall) (next : ℕ → π)
  | spawn (s : ℕ) (next : SpawnResult → π)

/-- The same step with the local state embedded in a larger one. -/
def Instr.map {π ρ : Type} (f : π → ρ) : Instr π → Instr ρ
  | .gate x op events next => .gate x op events fun r => f (next r)
  | .sched s op events next => .sched s op events fun r => f (next r)
  | .silent events next => .silent events (f next)
  | .start call next => .start call fun now => f (next now)
  | .spawn s next => .spawn s fun r => f (next r)

/-- The step of thread `i` in the memory. The last component is the worker whose
thread the step starts: its scheduler and its number. -/
def Instr.exec {π : Type} (i : ℕ) (turn : Turn) (m : Mem) :
    Instr π → Option (π × Mem × Option (ℕ × ℕ))
  | .gate x op events next =>
      (op.exec i turn (m.gates x)).map fun r =>
        (next r.1, (m.setGate x r.2).emit events, none)
  | .sched s op events next =>
      (op.exec turn (m.scheds s)).map fun r =>
        (next r.1, (m.setSched s r.2).emit (events r.1), none)
  | .silent events next =>
      match turn with
      | .go => some (next, m.emit events, none)
      | _ => none
  | .start call next =>
      if m.Admits call then
        some (next m.log.length, m.emit [.called call], none)
      else none
  | .spawn s next =>
      ((m.scheds s).spawnNext turn).map fun r =>
        (next r.1, m.setSched s r.2,
          match r.1 with
          | .spawned w => some (s, w)
          | _ => none)

end UpgradeSched
