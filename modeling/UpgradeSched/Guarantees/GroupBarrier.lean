import UpgradeSched.Accounting.Submissions
import UpgradeSched.Guarantees.Barrier

/-!
# Waiting for a group is a barrier

`execute_task` releases the slot of a task before the group registration, so a
task that its group no longer counts has also left the counter of its scheduler.
Once the waits for all groups have returned, nothing is left for
`Scheduler::wait` to wait for.
-/

namespace UpgradeSched

open Interleaving

/-- The step is the return of a wait for the group `g` that began at the stamp
`began`. -/
structure GroupWaitReturns (g began : ℕ) (world : World) (a : Action) (world' : World) :
    Prop where
  waits : ∃ p, world.threads[a.1]? = some p ∧ p.call = some (.wait (.group g) began .ret)
  step : scheduler.step world a = some world'

/-- The task of `s` was covered by a wait for a group that has returned. -/
def Awaited (s : ℕ) (task : Task) (world : World) : Prop :=
  ∃ (g began : ℕ) (before after : World) (a : Action), Reachable before ∧
    GroupWaitReturns g began before a after ∧
      (Obj.group g).Covers began after.mem.log s task ∧ scheduler.Reachable after world

section GroupBarrier

variable {world world' : World} {a : Action} {g s began : ℕ} {task : Task}

/-- When a wait for a group returns, the tasks that it covers have passed the first
three stages of their accounting. -/
theorem GroupWaitReturns.completed (hr : GroupWaitReturns g began world a world')
    (h : Reachable world) (hc : (Obj.group g).Covers began world'.mem.log s task)
    {stage : Stage} (hstage : stage.rank ≤ Stage.released.rank) :
    task ∈ completed stage s world'.mem.log := by
  obtain ⟨p, hp, hcall⟩ := hr.waits
  have hdischarged := h.discharged_of_return hp hcall hr.step hc
  have hle : stage.rank ≤ (Obj.group g).stage.rank := hstage.trans (Nat.le_succ 2)
  exact (h.step hr.step).completed_of_discharged hle hdischarged

theorem Awaited.released (h : Awaited s task world) :
    task ∈ completed .released s world.mem.log := by
  obtain ⟨g, began, before, after, a, hbefore, hreturns, hc, hreach⟩ := h
  have hmem := hreturns.completed hbefore hc (le_refl Stage.released.rank)
  exact mem_completed.mpr ((log_prefix_of_reachable hreach).subset (mem_completed.mp hmem))

/-- Once every published task has been awaited and no submission is under way, the
counter of the scheduler is zero. -/
theorem Reachable.count_of_awaited (h : Reachable world)
    (hall : ∀ task ∈ published s world.mem.log, Awaited s task world)
    (hquiet : world.Each fun _ p _ => ¬ p.Submitting s) :
    (world.mem.gates (.sched s)).count = 0 := by
  have hreserved : world.sum (Thread.reserved (.sched s)) = 0 :=
    hquiet.sum_eq_zero fun _ p hp => p.reserved_eq_zero hp
  have hsubset : published s world.mem.log ⊆ completed .released s world.mem.log :=
    fun task hmem => (hall task hmem).released
  have hle := (List.subperm_of_subset (h.nodup_published s) hsubset).length_le
  have hslots := h.accounting.slots (.sched s)
  rw [Slots, discharged_sched, admitted_sched, hreserved, List.length_map,
    List.length_map] at hslots
  omega

/-- A wait that makes its check while the counter is zero does not park. -/
theorem Step.unlock_of_check {p p' : Thread} {access : Access} {events : List Event}
    {x : Obj} (h : Step world a world' p p' access events)
    (hcall : p.call = some (.wait x began .check)) (hcount : (world.mem.gates x).count = 0) :
    p'.call = some (.wait x began .unlock) := by
  obtain ⟨call', rfl, hout⟩ := h.steps.of_call hcall
  have hcheck : (Call.wait x began .check).instr.Forall fun call' access _ =>
      ∃ n, access = .gate x .load n ∧
        call' = some (.wait x began (if n ≠ 0 then .park else .unlock)) :=
    fun n => ⟨n, rfl, by by_cases hn : n = 0 <;> simp [hn]⟩
  obtain ⟨n, rfl, rfl⟩ := hout _ hcheck
  obtain rfl : n = 0 := h.fires.load_eq.trans hcount
  rfl

/-- Waiting for a group is a barrier for the scheduler as well. When the wait
returns, every task that it covers has finished its callback, is among the tasks
that the counter `completed` counts, and has released its slot. Once every
published task of a scheduler has been awaited in this way and no other submission
is under way, its counter is zero and the check of `Scheduler::wait` does not lead
to the condition variable. -/
theorem group_wait_barrier :
    (∀ (g began : ℕ) (world : World) (a : Action) (world' : World) (s : ℕ) (task : Task),
      Reachable world → GroupWaitReturns g began world a world' →
      (Obj.group g).Covers began world'.mem.log s task →
        task ∈ completed .finished s world'.mem.log ∧
        task ∈ completed .recorded s world'.mem.log ∧
        (world'.mem.scheds s).stats.completed =
          (completed .recorded s world'.mem.log).length ∧
        task ∈ completed .released s world'.mem.log ∧
        (world'.mem.gates (.sched s)).count + (completed .released s world'.mem.log).length =
          world'.sum (Thread.reserved (.sched s)) + (published s world'.mem.log).length) ∧
    ∀ (s : ℕ) (world : World), Reachable world →
      (∀ task ∈ published s world.mem.log, Awaited s task world) →
      (world.Each fun _ p _ => ¬ p.Submitting s) →
        (world.mem.gates (.sched s)).count = 0 ∧
        ∀ (a : Action) (world' : World) (p : Thread) (began : ℕ),
          world.threads[a.1]? = some p → p.call = some (.wait (.sched s) began .check) →
          scheduler.step world a = some world' →
            ∃ p', world'.threads[a.1]? = some p' ∧
              p'.call = some (.wait (.sched s) began .unlock) := by
  refine ⟨fun g began world a world' s task h hr hc => ?_,
    fun s world h hall hquiet => ⟨h.count_of_awaited hall hquiet, ?_⟩⟩
  · have hr' : Reachable world' := h.step hr.step
    have hslots := hr'.accounting.slots (.sched s)
    rw [Slots, discharged_sched, admitted_sched, List.length_map, List.length_map] at hslots
    exact ⟨hr.completed h hc (Nat.zero_le 2), hr.completed h hc (Nat.le_succ 1),
      hr'.tallied s, hr.completed h hc (Nat.le_refl 2), hslots⟩
  · intro a world' p began hp hcall hstep
    obtain ⟨q, q', access, events, hs⟩ := exists_step hstep
    cases hp.symm.trans hs.moves.thread
    exact ⟨q', hs.moves.self, hs.unlock_of_check hcall (h.count_of_awaited hall hquiet)⟩

/-- Client 1 waits for the group 5 after client 0 has submitted a task of the group,
whose callback submits another one. The wait is about to return. -/
def awaitNested : List Action :=
  creation 0 ++ (0, .call (.pushGroup 0 7 9 5)) :: steps 0 12 ++
    (1, .call (.groupWait 5)) :: steps 1 3 ++
    (2, .turn .go) :: (2, .turn (.pick 0)) :: (2, .turn (.pick 0)) ::
    (2, .call (.pushGroup 0 8 9 5)) :: steps 2 17 ++
    (2, .turn (.pick 0)) :: (2, .turn (.pick 0)) :: steps 2 6 ++ steps 1 3

/-- Client 0 waits for the scheduler after the wait for the group has returned. -/
def waitAfterGroups : List Action :=
  awaitNested ++ steps 1 1 ++ (0, .call (.wait 0)) :: steps 0 1

theorem group_wait_barrier_awaitNested :
    let returned := World.after 2 (awaitNested ++ steps 1 1) (by decide +kernel)
    let checking := World.after 2 waitAfterGroups (by decide +kernel)
    ⟨6, some 1, 8, 9, .normal, some 5⟩ ∈ completed .released 0 returned.mem.log ∧
      (checking.mem.gates (.sched 0)).count = 0 := by
  have hreturns : GroupWaitReturns 5 4 (World.after 2 awaitNested (by decide +kernel))
      (1, .turn .go) (World.after 2 (awaitNested ++ steps 1 1) (by decide +kernel)) :=
    ⟨⟨_, rfl, rfl⟩, rfl⟩
  have hfirst : (Obj.group 5).Covers 4 (World.after 2 (awaitNested ++ steps 1 1)
      (by decide +kernel)).mem.log 0 ⟨1, none, 7, 9, .normal, some 5⟩ :=
    .before rfl (by decide +kernel)
  have hsecond : (Obj.group 5).Covers 4 (World.after 2 (awaitNested ++ steps 1 1)
      (by decide +kernel)).mem.log 0 ⟨6, some 1, 8, 9, .normal, some 5⟩ :=
    .nested hfirst rfl rfl (by decide +kernel)
  have hreached := World.reachable_after 2 awaitNested (by decide +kernel)
  have hlater : scheduler.Reachable (World.after 2 (awaitNested ++ steps 1 1)
      (by decide +kernel)) (World.after 2 waitAfterGroups (by decide +kernel)) :=
    ⟨(0, .call (.wait 0)) :: steps 0 1, System.Run.of_run .nil rfl⟩
  have hawaited : ∀ task ∈ published 0
      (World.after 2 waitAfterGroups (by decide +kernel)).mem.log,
      Awaited 0 task (World.after 2 waitAfterGroups (by decide +kernel)) := by
    have hpublished : published 0 (World.after 2 waitAfterGroups (by decide +kernel)).mem.log =
        [⟨1, none, 7, 9, .normal, some 5⟩, ⟨6, some 1, 8, 9, .normal, some 5⟩] := by
      decide +kernel
    rw [hpublished]
    intro task hmem
    refine ⟨5, 4, _, _, _, hreached, hreturns, ?_, hlater⟩
    rcases List.mem_pair.mp hmem with rfl | rfl
    · exact hfirst
    · exact hsecond
  have hquiet : (World.after 2 waitAfterGroups (by decide +kernel)).Each
      fun _ p _ => ¬ p.Submitting 0 :=
    Config.each_of_forall_mem (by decide +kernel)
  obtain ⟨-, -, -, hreleased, -⟩ :=
    group_wait_barrier.1 5 4 _ _ _ 0 _ hreached hreturns hsecond
  exact ⟨hreleased, (group_wait_barrier.2 0 _ (World.reachable_after 2 waitAfterGroups _)
    hawaited hquiet).1⟩

end GroupBarrier

end UpgradeSched
