import UpgradeSched.Scheduler.Memory

/-!
# The calls of the interface

The control flow of the functions of `scheduler.rs`, `group.rs` and `stats.rs`
that client threads and callbacks call: for every place in a call the atomic step
made there, and for every result the place that follows. `none` as the following
place means that the call has returned.
-/

namespace UpgradeSched

open Interleaving

/-! ## Submission -/

/-- The places in `push_internal` for a task of the given group. The places of
`TaskGroup::add_task` and `task_completed` carry the group. -/
inductive PushPc (group : Option ℕ)
  | checkStop
  | readCapacity
  | reserve
  | loadCount (capacity : ℕ)
  | exchange (capacity current : ℕ)
  | rejectFull
  | recheckStop
  | groupCheck (g : ℕ) (h : group = some g)
  | groupAdd (g : ℕ) (h : group = some g)
  | groupRecheck (g : ℕ) (h : group = some g)
  | groupUndo (g : ℕ) (h : group = some g)
  | groupUndoNotify (g : ℕ) (h : group = some g)
  | finalCheck
  | release
  | rollback
  | unregister (g : ℕ) (h : group = some g)
  | unregisterNotify (g : ℕ) (h : group = some g)
  | publish
  | recordSubmission
  | wakeCheck
  | wakeNotify
  | ret (result : Option SchedulerError)

namespace PushPc

/-- The capacity test at the head of the loop of `reserve_task_slot`. -/
def tryReserve {group : Option ℕ} (capacity current : ℕ) : PushPc group :=
  if capacity ≤ current then .rejectFull else .exchange capacity current

/-- `add_task` when the task has a group, else the final check. -/
def register : {group : Option ℕ} → PushPc group
  | some g => .groupCheck g rfl
  | none => .finalCheck

/-- `task_completed` of the group when the task has one, else the return. -/
def unregisterOrReturn : {group : Option ℕ} → PushPc group
  | some g => .unregister g rfl
  | none => .ret (some .schedulerStopped)

def instr (s : ℕ) (task : Task) : PushPc task.group → Instr (Option (PushPc task.group))
  | .checkStop =>
      .gate (.sched s) .loadFlag [] fun stopped =>
        if stopped then some (.ret (some .schedulerStopped)) else some .readCapacity
  -- reserve_task_slot
  | .readCapacity =>
      .sched s .loadConfig (fun _ => []) fun config =>
        if config.queueCapacity = 0 then some .reserve
        else some (.loadCount config.queueCapacity)
  | .reserve =>
      .gate (.sched s) .fetchAdd [] fun _ => some .recheckStop
  | .loadCount capacity =>
      .gate (.sched s) .load [] fun current => some (tryReserve capacity current)
  | .exchange capacity current =>
      .gate (.sched s) (.compareExchangeWeak current) [] fun
        | .ok () => some .recheckStop
        | .error actual => some (tryReserve capacity actual)
  | .rejectFull =>
      .sched s (.record .rejectedFull) (fun _ => []) fun _ => some (.ret (some .queueFull))
  | .recheckStop =>
      .gate (.sched s) .loadFlag [] fun stopped =>
        if stopped then some .release else some register
  -- TaskGroup::add_task
  | .groupCheck g h =>
      .gate (.group g) .loadFlag [] fun closed =>
        if closed then some .release else some (.groupAdd g h)
  | .groupAdd g h =>
      .gate (.group g) .fetchAdd [] fun _ => some (.groupRecheck g h)
  | .groupRecheck g h =>
      .gate (.group g) .loadFlag [] fun closed =>
        if closed then some (.groupUndo g h) else some .finalCheck
  | .groupUndo g h =>
      .gate (.group g) .fetchSub [] fun previous =>
        if previous = 1 then some (.groupUndoNotify g h) else some .release
  | .groupUndoNotify g _ =>
      .gate (.group g) .notifyAll [] fun _ => some .release
  | .finalCheck =>
      .gate (.sched s) .loadFlag [] fun stopped =>
        if stopped then some .rollback else some .publish
  -- release_task_slot, without and with a group registration to give back
  | .release =>
      .gate (.sched s) .fetchSub [] fun _ => some (.ret (some .schedulerStopped))
  | .rollback =>
      .gate (.sched s) .fetchSub [] fun _ => some unregisterOrReturn
  | .unregister g h =>
      .gate (.group g) .fetchSub [] fun previous =>
        if previous = 1 then some (.unregisterNotify g h)
        else some (.ret (some .schedulerStopped))
  | .unregisterNotify g _ =>
      .gate (.group g) .notifyAll [] fun _ => some (.ret (some .schedulerStopped))
  | .publish =>
      .sched s (.pushGlobal task) (fun _ => [.published s task]) fun _ =>
        some .recordSubmission
  | .recordSubmission =>
      .sched s (.record .submitted) (fun _ => []) fun _ => some .wakeCheck
  -- wake_one
  | .wakeCheck =>
      .sched s .loadSleeping (fun _ => []) fun sleeping =>
        if sleeping ≠ 0 then some .wakeNotify else some (.ret none)
  | .wakeNotify =>
      .gate (.sched s) .notifyOne [] fun _ => some (.ret none)
  | .ret result =>
      .silent [.returned s task result] none

end PushPc

/-! ## Waiting -/

/-- The places in `Scheduler::wait` and in `TaskGroup::wait`, which run the same
loop on the gate of a scheduler and on the gate of a group. -/
inductive WaitPc
  | lock
  | check
  | park
  | parked
  | unlock
  | ret
  deriving DecidableEq, Repr

def WaitPc.instr (x : Obj) : WaitPc → Instr (Option WaitPc)
  | .lock => .gate x .lock [] fun _ => some .check
  | .check =>
      .gate x .load [] fun count => if count ≠ 0 then some .park else some .unlock
  | .park => .gate x .park [] fun _ => some .parked
  | .parked =>
      .gate x .wakeup [] fun locked => if locked then some .check else some .parked
  | .unlock => .gate x .unlock [] fun _ => some .ret
  | .ret => .silent [] none

/-! ## Stopping -/

/-- The places in `WorkerShared::begin_shutdown` and in `TaskGroup::close`: the
flag is stored, then every waiter is notified. -/
inductive StopPc
  | store
  | notify
  deriving DecidableEq, Repr

def StopPc.instr (x : Obj) : StopPc → Instr (Option StopPc)
  | .store => .gate x .storeFlag [.stopped x] fun _ => some .notify
  | .notify => .gate x .notifyAll [] fun _ => none

/-! ## Creation and destruction -/

/-- The places in `Drop for Scheduler`: `shutdown`, then `join_workers`, which
takes the handles from the end of the vector. -/
inductive DestroyPc
  | stop (pc : StopPc)
  | workers
  | join (ws : List ℕ)
  deriving DecidableEq, Repr

def DestroyPc.instr (s : ℕ) : DestroyPc → Instr (Option DestroyPc)
  | .stop pc =>
      (pc.instr (.sched s)).map fun
        | some pc => some (.stop pc)
        | none => some .workers
  | .workers =>
      .sched s .loadSpawned (fun _ => []) fun n => some (.join (List.range n).reverse)
  | .join [] => .silent [] none
  | .join (w :: ws) => .sched s (.join w) (fun _ => []) fun _ => some (.join ws)

/-- The places in `Scheduler::create`. When a worker thread cannot be started
the workers that were started are stopped and joined. -/
inductive CreatePc
  | new (config : SchedulerConfig) (cpuCount : ℕ)
  | spawn
  | openHandle
  | stop (pc : StopPc)
  | workers
  | join (ws : List ℕ)
  deriving DecidableEq, Repr

def CreatePc.instr (s : ℕ) : CreatePc → Instr (Option CreatePc)
  | .new config cpuCount =>
      .sched s (.create (config.resolve cpuCount)) (fun _ => []) fun _ => some .spawn
  | .spawn =>
      .spawn s fun
        | .spawned _ => some .spawn
        | .failed => some (.stop .store)
        | .exhausted => some .openHandle
  | .openHandle => .sched s .openHandle (fun _ => []) fun _ => none
  | .stop pc =>
      (pc.instr (.sched s)).map fun
        | some pc => some (.stop pc)
        | none => some .workers
  | .workers =>
      .sched s .loadSpawned (fun _ => []) fun n => some (.join (List.range n))
  | .join [] => .silent [] none
  | .join (w :: ws) => .sched s (.join w) (fun _ => []) fun _ => some (.join ws)

/-! ## Statistics -/

/-- The places in `cortlet_sched_get_stats`: the loads of the snapshot, in
order, then the load of the outstanding count. -/
inductive StatsPc
  | load (values : List (Stat × ℕ)) (todo : List Stat)
  | ret (values : List (Stat × ℕ)) (outstanding : ℕ)
  deriving DecidableEq, Repr

def StatsPc.instr (s : ℕ) : StatsPc → Instr (Option StatsPc)
  | .load values (stat :: todo) =>
      .sched s (.loadStat stat) (fun _ => []) fun n =>
        some (.load (values ++ [(stat, n)]) todo)
  | .load values [] =>
      .gate (.sched s) .load [] fun n => some (.ret values n)
  | .ret _ _ => .silent [] none

/-! ## Calls in progress -/

/-- A call in progress. `began` is the length of the history when the call was
made. -/
inductive Call
  | push (s : ℕ) (task : Task) (pc : PushPc task.group)
  | wait (x : Obj) (began : ℕ) (pc : WaitPc)
  | stop (x : Obj) (pc : StopPc)
  | create (s : ℕ) (pc : CreatePc)
  | destroy (s : ℕ) (pc : DestroyPc)
  | getStats (s : ℕ) (pc : StatsPc)

namespace Call

def instr : Call → Instr (Option Call)
  | .push s task pc => (pc.instr s task).map (·.map (.push s task))
  | .wait x began pc => (pc.instr x).map (·.map (.wait x began))
  | .stop x pc => (pc.instr x).map (·.map (.stop x))
  | .create s pc => (pc.instr s).map (·.map (.create s))
  | .destroy s pc => (pc.instr s).map (·.map (.destroy s))
  | .getStats s pc => (pc.instr s).map (·.map (.getStats s))

/-- The call at its first place. `now` is the stamp of the call and `parent` the
task whose callback makes it. -/
def start (now : ℕ) (parent : Option ℕ) : ApiCall → Call
  | .push s function argument priority group =>
      .push s ⟨now, parent, function, argument, priority, group⟩ .checkStop
  | .wait s => .wait (.sched s) now .lock
  | .shutdown s => .stop (.sched s) .store
  | .create s config cpuCount => .create s (.new config cpuCount)
  | .destroy s => .destroy s (.stop .store)
  | .getStats s => .getStats s (.load [] snapshotOrder)
  | .groupWait g => .wait (.group g) now .lock
  | .groupDestroy g => .stop (.group g) .store

end Call

/-! ## The variants of push

Every variant is `push_internal` with its own defaults.
-/

namespace ApiCall

def pushTask (s function argument : ℕ) : ApiCall :=
  .push s function argument .normal none

def pushPriority (s function argument : ℕ) (priority : TaskPriority) : ApiCall :=
  .push s function argument priority none

def pushGroup (s function argument g : ℕ) : ApiCall :=
  .push s function argument .normal (some g)

def pushGroupPriority (s function argument : ℕ) (priority : TaskPriority) (g : ℕ) :
    ApiCall :=
  .push s function argument priority (some g)

def tryPush (s function argument : ℕ) : ApiCall :=
  .push s function argument .normal none

def tryPushPriority (s function argument : ℕ) (priority : TaskPriority) : ApiCall :=
  .push s function argument priority none

def tryPushGroup (s function argument g : ℕ) : ApiCall :=
  .push s function argument .normal (some g)

def tryPushGroupPriority (s function argument : ℕ) (priority : TaskPriority) (g : ℕ) :
    ApiCall :=
  .push s function argument priority (some g)

end ApiCall

end UpgradeSched
