import UpgradeSched.Wakeups.SleepKinds

/-!
# Wakeups of waiting callers

`Scheduler::wait` and `TaskGroup::wait` check the counter and then park, and the
last completion decrements the counter and then notifies without the mutex. When
both steps of the completion fall between the check and the park, the waiter
parks on an idle gate and nobody wakes it up.
-/

namespace UpgradeSched

open Interleaving

section Waiting

variable {usizeBits clients : ℕ} {as : List Action} {world : World}

/-! ## Waiting for a scheduler -/

/-- Client 0 submits a task. Client 1 waits and has found the counter at one when
the worker completes the task. -/
def completionBeforePark : List Action :=
  creation 0 ++ (0, .call (.pushTask 0 7 9)) :: steps 0 9 ++
    (2, .turn .go) :: (2, .turn (.pick 0)) :: (2, .turn (.pick 0)) ::
    (1, .call (.wait 0)) :: steps 1 2 ++ steps 2 4 ++ steps 1 1

/-- The caller of `Scheduler::wait` can be left behind on an idle scheduler. -/
theorem waiter_leftAsleep :
    ∃ world, Reachable world ∧ (SleepKind.waiters (.sched 0)).LeftAsleep world :=
  ⟨.after 2 completionBeforePark (by decide +kernel), World.reachable_after _ _ _,
    rfl, ⟨1, _, rfl, by decide +kernel, 5, rfl⟩,
    Config.each_of_forall_mem (by decide +kernel)⟩

/-- In a run whose steps are careful about the callers of `Scheduler::wait`, none
of them is left behind on an idle scheduler. -/
theorem waiter_not_leftAsleep (s : ℕ)
    (h : scheduler.Run (SleepKind.waiters (.sched s)).Careful
      (World.init usizeBits clients) as world) :
    ¬ (SleepKind.waiters (.sched s)).LeftAsleep world :=
  SleepKind.not_leftAsleep _ h

theorem waiter_not_leftAsleep_gentleRun :
    ¬ (SleepKind.waiters (.sched 0)).LeftAsleep (.after 2 gentleRun isSome_gentleRun) :=
  waiter_not_leftAsleep 0 (World.run_after_of_runIf gentle
    (fun _ _ => SleepKind.careful_waiters (.sched 0)) _ (by decide +kernel))

/-! ## Waiting for a group -/

/-- Client 0 submits a task of the group 5. Client 1 waits for the group and has
found its counter at one when the worker completes the task. -/
def groupCompletionBeforePark : List Action :=
  creation 0 ++ (0, .call (.pushGroup 0 7 9 5)) :: steps 0 12 ++
    (2, .turn .go) :: (2, .turn (.pick 0)) :: (2, .turn (.pick 0)) ::
    (1, .call (.groupWait 5)) :: steps 1 2 ++ steps 2 6 ++ steps 1 1

/-- The caller of `TaskGroup::wait` can be left behind on an idle group. -/
theorem groupWaiter_leftAsleep :
    ∃ world, Reachable world ∧ (SleepKind.waiters (.group 5)).LeftAsleep world :=
  ⟨.after 2 groupCompletionBeforePark (by decide +kernel), World.reachable_after _ _ _,
    rfl, ⟨1, _, rfl, by decide +kernel, 5, rfl⟩,
    Config.each_of_forall_mem (by decide +kernel)⟩

/-- In a run in which no caller of `TaskGroup::wait` parks on an idle group
without a notification on its way, none of them is left behind. -/
theorem groupWaiter_not_leftAsleep (g : ℕ)
    (h : scheduler.Run (fun world a => ∀ p, world.threads[a.1]? = some p →
        p.WaitsAt (.group g) .park → (world.mem.gates (.group g)).count = 0 →
          Notified (.group g) world)
      (World.init usizeBits clients) as world) :
    ¬ (SleepKind.waiters (.group g)).LeftAsleep world :=
  SleepKind.not_leftAsleep _ (h.mono fun _ _ hC p hp => ⟨hC p hp, fun _ hx => by cases hx⟩)

/-- Client 0 submits a task of the group 5. Client 1 waits for the group and is asleep when
the worker completes the task. -/
def groupCompletionAfterPark : List Action :=
  creation 0 ++ (0, .call (.pushGroup 0 7 9 5)) :: steps 0 12 ++
    (1, .call (.groupWait 5)) :: steps 1 3 ++
    (2, .turn .go) :: (2, .turn (.pick 0)) :: (2, .turn (.pick 0)) :: steps 2 6

/-- The notification of the worker has reached the sleeping client. -/
theorem groupWaiter_not_leftAsleep_groupCompletionAfterPark :
    let world := World.after 2 groupCompletionAfterPark (by decide +kernel)
    (world.mem.gates (.group 5)).count = 0 ∧
      (∃ p, world.threads[1]? = some p ∧ p.WaitsAt (.group 5) .parked) ∧
      ¬ (SleepKind.waiters (.group 5)).LeftAsleep world :=
  ⟨rfl, ⟨_, rfl, _, rfl⟩,
    groupWaiter_not_leftAsleep 5 (World.run_after_of_runIf gentle
      (fun _ _ h _ hp hw hcount => absurd hcount (count_ne_zero_of_gentle h hp hw)) _
      (by decide +kernel))⟩

end Waiting

end UpgradeSched
