import UpgradeSched.Wakeups.SleepKinds

/-!
# Stopping and becoming idle

`begin_shutdown` stores the flag and notifies without the mutex, so a worker that
has read the flag as clear parks after the notification and is left behind. And
only `task_completed` looks at the count it found: when `release_task_slot` takes
the last slot, nobody is notified.
-/

namespace UpgradeSched

open Interleaving

section Stopping

variable {usizeBits clients : ℕ} {as : List Action} {world world' : World} {a : Action}

/-! ## Sleeping workers -/

/-- Client 0 shuts the scheduler down between the last stop test of the worker and
its park. -/
def shutdownBeforePark : List Action :=
  creation 0 ++ upToPark 1 ++ (0, .call (.shutdown 0)) :: steps 0 2 ++ steps 1 1

/-- A worker can be left behind on a stopped and idle scheduler. -/
theorem worker_leftAsleep :
    ∃ world, Reachable world ∧ (SleepKind.workers 0).LeftAsleep world :=
  ⟨.after 1 shutdownBeforePark (by decide +kernel), World.reachable_after _ _ _,
    ⟨rfl, rfl⟩, ⟨1, _, rfl, by decide +kernel, _, rfl, rfl, rfl⟩,
    Config.each_of_forall_mem (by decide +kernel)⟩

/-- In a run whose steps are careful about the workers of a scheduler, none of
them is left behind once it is stopped and idle. -/
theorem worker_not_leftAsleep (s : ℕ)
    (h : scheduler.Run (SleepKind.workers s).Careful (World.init usizeBits clients) as world) :
    ¬ (SleepKind.workers s).LeftAsleep world :=
  SleepKind.not_leftAsleep _ h

/-- The worker goes to sleep, and then client 0 shuts the scheduler down. -/
def shutdownAfterPark : List Action :=
  creation 0 ++ upToPark 1 ++ steps 1 1 ++ (0, .call (.shutdown 0)) :: steps 0 2

/-- The notification of the shutdown has reached the sleeping worker. -/
theorem worker_not_leftAsleep_shutdownAfterPark :
    let world := World.after 1 shutdownAfterPark (by decide +kernel)
    (SleepKind.workers 0).idle (world.mem.gates (.sched 0)) ∧
      (∃ p, world.threads[1]? = some p ∧ p.WorksAt 0 (· = .parked)) ∧
      ¬ (SleepKind.workers 0).LeftAsleep world :=
  ⟨⟨rfl, rfl⟩, ⟨_, rfl, _, rfl, rfl, rfl⟩,
    worker_not_leftAsleep 0 (World.run_after_of_runIf gentle
      (fun _ _ => SleepKind.careful_workers 0) _ (by decide +kernel))⟩

/-! ## The last slot -/

/-- Thread `i` is about to notify all sleepers of `x`: whatever the other threads
do first, its next step is not blocked and empties the wait set. -/
def NotifiesNext (x : Obj) (i : ℕ) (world : World) : Prop :=
  ∀ bs world', scheduler.Run (fun _ b => b.1 ≠ i) world bs world' →
    (scheduler.step world' (i, .turn .go)).isSome ∧
      ∀ e world'', scheduler.step world' (i, e) = some world'' →
        ∃ p p' access events, Step world' (i, e) world'' p p' access events ∧
          access.Notifies x ∧ (world''.mem.gates x).waiting = []

/-- `release_task_slot` is about to take the last slot of `s`. -/
def ReleasesLast (s : ℕ) (world : World) (a : Action) : Prop :=
  ∃ p, world.threads[a.1]? = some p ∧ p.Releasing s ∧
    (world.mem.gates (.sched s)).count = 1

theorem notifiesNext_of_notifying {x : Obj} {i : ℕ} {p : Thread}
    (hp : world.threads[i]? = some p) (hn : p.Notifying x) : NotifiesNext x i world := by
  intro bs world' hrun
  have hp' := hrun.thread_eq hp
  constructor
  · obtain ⟨next, hinstr⟩ := Thread.exists_instr_of_notifying hn
    simp [System.step, hp', scheduler, hinstr, Instr.exec, Choice.toTurn, GateOp.exec]
  · intro e world'' hstep
    obtain ⟨q, q', access, events, hs⟩ := exists_step hstep
    cases hp'.symm.trans hs.moves.thread
    have hnotifies := (hs.steps.notes (x := x)).1 hn
    exact ⟨p, q', access, events, hs, hnotifies, hs.fires.waiting_of_notifies hnotifies⟩

/-- Client 2 has reserved the only slot when client 0 shuts the scheduler down.
Client 1 waits, is woken up by the shutdown and parks again before client 2 reads
the flag and goes on to give its slot back. -/
def rollbackAfterShutdown : List Action :=
  creation 0 ++ (2, .call (.pushTask 0 7 9)) :: steps 2 3 ++
    (1, .call (.wait 0)) :: steps 1 3 ++ (0, .call (.shutdown 0)) :: steps 0 2 ++
    steps 1 3 ++ steps 2 1

/-- The last slot can be released by a submission that returns without telling a
waiter who is in the wait set at that moment. -/
theorem release_tells_nobody :
    ∃ world world' world'', Reachable world ∧
      scheduler.step world (2, .turn .go) = some world' ∧
      scheduler.step world' (2, .turn .go) = some world'' ∧
      (world.mem.gates (.sched 0)).count = 1 ∧ (world'.mem.gates (.sched 0)).count = 0 ∧
      (world.mem.gates (.sched 0)).waiting = [1] ∧
      (world''.mem.gates (.sched 0)).waiting = [1] ∧
      (∃ p, world''.threads[2]? = some p ∧ p.call.isNone) ∧
      ¬ NotifiesNext (.sched 0) 2 world' := by
  have hstep' : scheduler.step (World.after 3 (rollbackAfterShutdown ++ steps 2 1)
      (by decide +kernel)) (2, .turn .go) =
        some (World.after 3 (rollbackAfterShutdown ++ steps 2 2) (by decide +kernel)) := rfl
  refine ⟨.after 3 rollbackAfterShutdown (by decide +kernel), _, _, World.reachable_after _ _ _,
    rfl, hstep', rfl, rfl, by decide +kernel, by decide +kernel, ⟨_, rfl, rfl⟩, fun h => ?_⟩
  obtain ⟨_, _, _, _, -, -, hempty⟩ := (h [] _ .nil).2 _ _ hstep'
  revert hempty
  decide +kernel

/-- In a run in which `release_task_slot` never takes the last slot, every step
from one slot to none is followed by a notification of all sleepers, before the
thread does anything else. -/
theorem idle_transition_notifies (s : ℕ)
    (h : scheduler.Run (fun world a => ¬ ReleasesLast s world a)
      (World.init usizeBits clients) (as ++ [a]) world')
    (hbefore : scheduler.run (World.init usizeBits clients) as = some world)
    (hone : (world.mem.gates (.sched s)).count = 1)
    (hzero : (world'.mem.gates (.sched s)).count = 0) :
    NotifiesNext (.sched s) a.1 world' := by
  obtain ⟨world₀, hrun, hlast, hstep⟩ := h.exists_last
  cases hbefore.symm.trans hrun.run_eq
  obtain ⟨p, p', access, events, hs⟩ := exists_step hstep
  have hdrains : access.Drains (.sched s) := by
    refine (hs.fires.count_cases hzero).resolve_left fun hcount => ?_
    rw [hone] at hcount
    cases hcount
  rcases (hs.steps.notes (x := .sched s)).2.1 hdrains with hn | ⟨t, hx, hreleasing⟩
  · exact notifiesNext_of_notifying hs.moves.self hn
  · cases hx
    exact absurd ⟨p, hs.moves.thread, hreleasing, hone⟩ hlast

theorem idle_transition_notifies_gentleRun :
    NotifiesNext (.sched 0) 2 (.after 2 (gentleRun.take 24 ++ steps 2 1) (by decide +kernel)) := by
  refine idle_transition_notifies (a := (2, .turn .go)) 0 (World.run_after_of_runIf gentle
    (fun _ _ h => ?_) _ (by decide +kernel)) (World.run_after 2 _ (by decide +kernel))
    (by decide +kernel) (by decide +kernel)
  rintro ⟨p, hp, hr, -⟩
  exact not_releasing_of_gentle h hp hr

end Stopping

end UpgradeSched
