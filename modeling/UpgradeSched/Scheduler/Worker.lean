import UpgradeSched.Scheduler.Calls
import UpgradeSched.Scheduler.Steal

/-!
# The worker loop

The control flow of `pop_for_worker` (`queue.rs`) and of `execute_task` and
`worker_main` (`worker.rs`). The three searches of the worker loop are one search
at three sites: before the mutex is taken, under the mutex, and after the worker
has announced itself as sleeping.
-/

namespace UpgradeSched

open Interleaving

/-! ## The search for work -/

/-- The places in `pop_for_worker`. -/
inductive PopPc
  | fairnessYield
  | fairNormal
  | fairLow
  | popLocal
  | high
  | normal
  | low
  | getStealer (victim : ℕ) (rest : List ℕ)
  | attempt (victim : ℕ) (rest : List ℕ)
  | steal (victim : ℕ) (rest : List ℕ)
  | stealSuccess (task : Task)
  | stealFailure (rest : List ℕ)
  deriving DecidableEq, Repr

/-- The worker-local state that a search reads and updates. -/
structure Cursors where
  steal : StealState
  priority : PriorityState
  deriving DecidableEq, Repr

/-- Either a search is at some place or it has returned. -/
inductive Search
  | reach (pc : PopPc)
  | ret (result : PopResult)
  deriving DecidableEq, Repr

namespace PopPc

/-- The first place of a search: the fairness path when it is due. -/
def enter (cursors : Cursors) : PopPc :=
  if cursors.priority.fairnessDue then .fairnessYield else .popLocal

/-- `record_task` for the task that the search returns. -/
def found (cursors : Cursors) (task : Task) : Cursors × Search :=
  ({ cursors with priority := cursors.priority.recordTask task }, .ret (.task task))

/-- `try_priority_queue`: an empty queue leads on to `next`. -/
def tryPriorityQueue (cursors : Cursors) (next : Cursors × Search) :
    Steal → Cursors × Search
  | .success task => found cursors task
  | .retry => (cursors, .ret .retry)
  | .empty => next

/-- The loop of `steal_from_peers` at the remaining victims. -/
def probe : List ℕ → Search
  | [] => .ret .empty
  | victim :: rest => .reach (.getStealer victim rest)

/-- `steal_from_peers`: the victims of this search, with the cursor moved on. -/
def stealFromPeers (cursors : Cursors) : Cursors × Search :=
  ({ cursors with steal := cursors.steal.victims.2 }, probe cursors.steal.victims.1)

/-- The event of a selection, if the steal succeeded. -/
def selection (s w : ℕ) : Steal → List Event
  | .success task => [.selected s w task]
  | _ => []

def instr (s w : ℕ) (cursors : Cursors) : PopPc → Instr (Cursors × Search)
  | .fairnessYield =>
      .sched s (.record .fairnessYields) (fun _ => []) fun _ => (cursors, .reach .fairNormal)
  | .fairNormal =>
      .sched s (.stealBatchAndPop .normal w) (selection s w)
        (tryPriorityQueue cursors (cursors, .reach .fairLow))
  | .fairLow =>
      .sched s (.stealBatchAndPop .low w) (selection s w)
        (tryPriorityQueue cursors
          ({ cursors with priority := cursors.priority.reset }, .reach .popLocal))
  | .popLocal =>
      .sched s (.popLocal w)
        (fun
          | some task => [.selected s w task]
          | none => [])
        fun
          | some task => found cursors task
          | none => (cursors, .reach .high)
  | .high =>
      .sched s (.stealBatchAndPop .high w) (selection s w)
        (tryPriorityQueue cursors (cursors, .reach .normal))
  | .normal =>
      .sched s (.stealBatchAndPop .normal w) (selection s w)
        (tryPriorityQueue cursors (cursors, .reach .low))
  | .low =>
      .sched s (.stealBatchAndPop .low w) (selection s w)
        (tryPriorityQueue cursors (stealFromPeers cursors))
  | .getStealer victim rest =>
      .sched s (.getStealer victim) (fun _ => []) fun present =>
        if present then (cursors, .reach (.attempt victim rest)) else (cursors, probe rest)
  | .attempt victim rest =>
      .sched s (.record .stealsAttempted) (fun _ => []) fun _ =>
        (cursors, .reach (.steal victim rest))
  | .steal victim rest =>
      .sched s (.steal victim) (selection s w) fun
        | .success task => (cursors, .reach (.stealSuccess task))
        | .retry => (cursors, .ret .retry)
        | .empty => (cursors, .reach (.stealFailure rest))
  | .stealSuccess task =>
      .sched s (.record .stealsSucceeded) (fun _ => []) fun _ => found cursors task
  | .stealFailure rest =>
      .sched s (.record .stealFailures) (fun _ => []) fun _ => (cursors, probe rest)

end PopPc

/-! ## The loop -/

/-- Which of the three searches of the loop. -/
inductive Site
  | fast
  | locked
  | announced
  deriving DecidableEq, Repr

/-- What a worker does once it has left the slow path. -/
inductive Leave
  | execute (task : Task)
  | again
  | stop
  deriving DecidableEq, Repr

/-- The places in `worker_main`. -/
inductive WorkerPc
  | pop (site : Site) (pc : PopPc)
  | stopFlag (site : Site)
  | stopCount (site : Site)
  | lock
  | announce
  | park
  | parked
  | withdraw (leave : Leave)
  | unlock (leave : Leave)
  | callback (task : Task)
  | record (task : Task)
  | release (task : Task)
  | notify (task : Task)
  | groupRelease (task : Task) (g : ℕ) (h : task.group = some g)
  | groupNotify (task : Task) (g : ℕ) (h : task.group = some g)
  | exit
  | exited

/-- A worker: its scheduler, its number, its cursors and its place. -/
structure Worker where
  s : ℕ
  w : ℕ
  cursors : Cursors
  pc : WorkerPc

namespace Worker

/-- The start of `worker_main`. -/
def new (usizeBits s w workerCount : ℕ) : Worker :=
  ⟨s, w, ⟨.new usizeBits w workerCount .roundRobin, .new⟩, .pop .fast .popLocal⟩

/-- The worker at a place, with the cursors unchanged. -/
def goto (worker : Worker) (pc : WorkerPc) : Worker := { worker with pc := pc }

/-- The worker at the start of a search. -/
def search (worker : Worker) (site : Site) : Worker :=
  worker.goto (.pop site (.enter worker.cursors))

/-- Leaving the loop body: the task is executed, the loop starts again, or the
worker returns. -/
def proceed (worker : Worker) : Leave → Worker
  | .execute task => worker.goto (.callback task)
  | .again => worker.search .fast
  | .stop => worker.goto .exit

/-- Leaving the slow path at a site. After the announcement the sleeping count
is taken back first, and the mutex is released when it is held. -/
def leave (worker : Worker) : Site → Leave → Worker
  | .fast, how => worker.proceed how
  | .locked, how => worker.goto (.unlock how)
  | .announced, how => worker.goto (.withdraw how)

/-- What follows a search and a failed stop test at a site. -/
def deeper (worker : Worker) : Site → Worker
  | .fast => worker.goto .lock
  | .locked => worker.goto .announce
  | .announced => worker.goto .park

/-- What follows the search at a site. -/
def afterSearch (worker : Worker) (site : Site) : Search → Worker
  | .reach pc => worker.goto (.pop site pc)
  | .ret (.task task) => worker.leave site (.execute task)
  | .ret .retry => worker.leave site .again
  | .ret .empty => worker.goto (.stopFlag site)

/-- The end of `execute_task`: the group is told, if there is one. -/
def afterRelease (worker : Worker) (task : Task) : Worker :=
  match h : task.group with
  | some g => worker.goto (.groupRelease task g h)
  | none => worker.search .fast

section Fields

variable (worker : Worker)

@[simp] theorem goto_s (pc : WorkerPc) : (worker.goto pc).s = worker.s := rfl

@[simp] theorem goto_w (pc : WorkerPc) : (worker.goto pc).w = worker.w := rfl

@[simp] theorem goto_pc (pc : WorkerPc) : (worker.goto pc).pc = pc := rfl

@[simp] theorem search_s (site : Site) : (worker.search site).s = worker.s := rfl

@[simp] theorem search_w (site : Site) : (worker.search site).w = worker.w := rfl

@[simp] theorem search_pc (site : Site) :
    (worker.search site).pc = .pop site (.enter worker.cursors) := rfl

@[simp] theorem proceed_s (how : Leave) : (worker.proceed how).s = worker.s := by
  cases how <;> rfl

@[simp] theorem proceed_w (how : Leave) : (worker.proceed how).w = worker.w := by
  cases how <;> rfl

@[simp] theorem leave_s (site : Site) (how : Leave) :
    (worker.leave site how).s = worker.s := by
  cases site <;> simp [leave]

@[simp] theorem leave_w (site : Site) (how : Leave) :
    (worker.leave site how).w = worker.w := by
  cases site <;> simp [leave]

@[simp] theorem deeper_s (site : Site) : (worker.deeper site).s = worker.s := by
  cases site <;> rfl

@[simp] theorem deeper_w (site : Site) : (worker.deeper site).w = worker.w := by
  cases site <;> rfl

@[simp] theorem afterSearch_s (site : Site) (search : Search) :
    (worker.afterSearch site search).s = worker.s := by
  rcases search with _ | (_ | _ | _) <;> simp [afterSearch]

@[simp] theorem afterSearch_w (site : Site) (search : Search) :
    (worker.afterSearch site search).w = worker.w := by
  rcases search with _ | (_ | _ | _) <;> simp [afterSearch]

@[simp] theorem afterRelease_s (task : Task) :
    (worker.afterRelease task).s = worker.s := by
  unfold afterRelease
  split <;> rfl

@[simp] theorem afterRelease_w (task : Task) :
    (worker.afterRelease task).w = worker.w := by
  unfold afterRelease
  split <;> rfl

@[simp] theorem goto_cursors (pc : WorkerPc) :
    (worker.goto pc).cursors = worker.cursors := rfl

@[simp] theorem search_cursors (site : Site) :
    (worker.search site).cursors = worker.cursors := rfl

@[simp] theorem proceed_cursors (how : Leave) :
    (worker.proceed how).cursors = worker.cursors := by
  cases how <;> rfl

@[simp] theorem leave_cursors (site : Site) (how : Leave) :
    (worker.leave site how).cursors = worker.cursors := by
  cases site <;> simp [leave]

@[simp] theorem deeper_cursors (site : Site) :
    (worker.deeper site).cursors = worker.cursors := by
  cases site <;> rfl

@[simp] theorem afterSearch_cursors (site : Site) (search : Search) :
    (worker.afterSearch site search).cursors = worker.cursors := by
  rcases search with _ | (_ | _ | _) <;> simp [afterSearch]

@[simp] theorem afterRelease_cursors (task : Task) :
    (worker.afterRelease task).cursors = worker.cursors := by
  unfold afterRelease
  split <;> rfl

end Fields

/-- The step of a worker that is not running a call made by a callback. -/
def instr (worker : Worker) : Option (Instr Worker) :=
  match worker.pc with
  | .pop site pc =>
      some ((pc.instr worker.s worker.w worker.cursors).map fun r =>
        { worker with cursors := r.1 }.afterSearch site r.2)
  -- should_stop
  | .stopFlag site =>
      some (.gate (.sched worker.s) .loadFlag [] fun stopped =>
        if stopped then worker.goto (.stopCount site) else worker.deeper site)
  | .stopCount site =>
      some (.gate (.sched worker.s) .load [] fun count =>
        if count = 0 then worker.leave site .stop else worker.deeper site)
  | .lock =>
      some (.gate (.sched worker.s) .lock [] fun _ => worker.search .locked)
  | .announce =>
      some (.sched worker.s .addSleeping (fun _ => []) fun _ => worker.search .announced)
  | .park =>
      some (.gate (.sched worker.s) .park [] fun _ => worker.goto .parked)
  | .parked =>
      some (.gate (.sched worker.s) .wakeup [] fun locked =>
        if locked then worker.goto (.withdraw .again) else worker.goto .parked)
  | .withdraw how =>
      some (.sched worker.s .subSleeping (fun _ => []) fun _ => worker.goto (.unlock how))
  | .unlock how =>
      some (.gate (.sched worker.s) .unlock [] fun _ => worker.proceed how)
  -- execute_task
  | .callback task =>
      some (.silent [.done .finished worker.s task] (worker.goto (.record task)))
  | .record task =>
      some (.sched worker.s (.record .completed)
        (fun _ => [.done .recorded worker.s task]) fun _ => worker.goto (.release task))
  | .release task =>
      some (.gate (.sched worker.s) .fetchSub [.done .released worker.s task] fun previous =>
        if previous = 1 then worker.goto (.notify task) else worker.afterRelease task)
  | .notify task =>
      some (.gate (.sched worker.s) .notifyAll [] fun _ => worker.afterRelease task)
  | .groupRelease task g h =>
      some (.gate (.group g) .fetchSub [.done .groupReleased worker.s task] fun previous =>
        if previous = 1 then worker.goto (.groupNotify task g h) else worker.search .fast)
  | .groupNotify _ g _ =>
      some (.gate (.group g) .notifyAll [] fun _ => worker.search .fast)
  | .exit =>
      some (.sched worker.s (.exit worker.w) (fun _ => []) fun _ => worker.goto .exited)
  | .exited => none

end Worker

end UpgradeSched
