import UpgradeSched.Accounting.Numbering
import UpgradeSched.Priority.Swept
import UpgradeSched.Wakeups.Watchers

/-!
# The sleeping count

`sleeping_workers` counts the workers that have announced themselves and not yet
withdrawn. A submission that reads zero sends no notification. This is safe: a worker
that is not counted comes back to the injectors before it goes to sleep, so the task of
the submission cannot outlast it there, and a task in a local deque keeps the owner of
the deque awake.
-/

namespace UpgradeSched

open Interleaving

/-! ## The count is exact -/

section Count

variable {s : ℕ} {p : Thread}

theorem WorkerPc.announced_le_one (pc : WorkerPc) : pc.announced ≤ 1 := by
  cases pc with
  | pop site | stopFlag site | stopCount site =>
      cases site with
      | announced => exact le_rfl
      | _ => exact Nat.zero_le 1
  | park | parked | withdraw => exact le_rfl
  | _ => exact Nat.zero_le 1

theorem Thread.announced_le_workers (s : ℕ) (p : Thread) : p.announced s ≤ p.workers s := by
  unfold Thread.announced Thread.workers
  cases p.worker with
  | none => exact le_rfl
  | some worker =>
      by_cases hs : worker.s = s
      · simpa [hs] using worker.pc.announced_le_one
      · simp [hs]

/-- A worker at one of these places is counted as they are. -/
theorem Thread.announced_of_worksAt {places : WorkerPc → Prop} {n : ℕ} (h : p.WorksAt s places)
    (hplaces : ∀ pc, places pc → pc.announced = n) : p.announced s = n := by
  obtain ⟨worker, hw, hs, hpc⟩ := h
  simpa [Thread.announced, hw, hs] using hplaces _ hpc

/-- A thread that is in a call is not counted: if it is a worker, then it runs a callback. -/
theorem Thread.Proper.announced_eq_zero (h : p.Proper) (hcall : p.call.isSome) :
    p.announced s = 0 := by
  rcases h hcall with hnone | hsome
  · simp [Thread.announced, Option.isNone_iff_eq_none.mp hnone]
  · unfold Thread.running at hsome
    unfold Thread.announced
    split at hsome
    · cases hsome
    · rename_i worker hw
      split at hsome
      · rename_i task hpc
        simp [hw, hpc, WorkerPc.announced]
      · cases hsome

theorem Thread.announced_of_new {m : Mem} {access : Access} {q : Thread}
    (hq : q ∈ (access.started.map (workerThread m)).toList) : q.announced s = 0 := by
  obtain ⟨id, -, rfl⟩ := Access.exists_of_new hq
  exact ite_self _

variable {world world' : World} {a : Action} {p' : Thread} {access : Access}
  {events : List Event}

/-- A worker withdraws from a count in which it is included. -/
theorem Step.withdraws_le (h : Step world a world' p p' access events) (hr : Reachable world)
    (s : ℕ) : access.withdraws s ≤ (world.mem.scheds s).sleepingWorkers := by
  have hbalance := (h.steps.workers (s := s)).2
  have hle := world.le_sum (Thread.announced s) h.moves.thread
  have hnot : access.withdraws s = 0 ∨ access.announces s = 0 := by
    cases access with
    | sched t op r =>
        cases op <;> first | exact .inl (ite_self _) | exact .inr (ite_self _)
    | _ => exact .inl rfl
  rw [(hr.headcount s).sleeping]
  omega

theorem Reachable.sleeping_le (hr : Reachable world) (s : ℕ) :
    (world.mem.scheds s).sleepingWorkers ≤ (world.mem.scheds s).config.workerCount := by
  calc (world.mem.scheds s).sleepingWorkers
      = world.sum (Thread.announced s) := (hr.headcount s).sleeping
    _ ≤ world.sum (Thread.workers s) :=
        List.sum_le_sum fun p _ => p.announced_le_workers s
    _ = (world.mem.scheds s).spawned := (hr.headcount s).spawned
    _ ≤ (world.mem.scheds s).config.workerCount := (hr.numbered s).spawned

/-- The sleeping count is the number of workers that have announced themselves and not
yet withdrawn. No withdrawal finds it at zero, it does not exceed the number of workers,
it includes every sleeping worker and no thread in a call, and it is zero when all workers
have exited. -/
theorem sleeping_exact (hr : Reachable world) (s : ℕ) :
    (world.mem.scheds s).sleepingWorkers = world.sum (Thread.announced s) ∧
      (∀ a world' p p' access events, Step world a world' p p' access events →
        p'.announced s + access.withdraws s = p.announced s + access.announces s ∧
          access.withdraws s ≤ (world.mem.scheds s).sleepingWorkers ∧
          ∀ q ∈ (access.started.map (workerThread world'.mem)).toList, q.announced s = 0) ∧
      (world.mem.scheds s).sleepingWorkers ≤ (world.mem.scheds s).config.workerCount ∧
      (world.Each fun i p m => i ∈ (m.gates (.sched s)).waiting →
        p.WorksAt s (· = .parked) ∧ p.announced s = 1 ∨
          p.WaitsAt (.sched s) .parked ∧ p.announced s = 0) ∧
      (world.Each fun _ p _ => p.call.isSome → p.announced s = 0) ∧
      ((world.Each fun _ p _ => ∀ worker, p.worker = some worker → worker.s = s →
        worker.pc = .exited) → (world.mem.scheds s).sleepingWorkers = 0) := by
  have hcalls : world.Each fun _ p _ => p.call.isSome → p.announced s = 0 :=
    fun i p hp => (hr.proper i p hp).announced_eq_zero
  refine ⟨(hr.headcount s).sleeping, ?_, hr.sleeping_le s, ?_, hcalls, fun hexited => ?_⟩
  · intro a world' p p' access events h
    exact ⟨h.steps.workers.2, h.withdraws_le hr s, fun q => Thread.announced_of_new⟩
  · intro i p hp hmem
    obtain ⟨q, hq, hparked⟩ := (hr.sleepers (.sched s)).parked i hmem
    cases hp.symm.trans hq
    rcases hparked with hwaits | ⟨t, ⟨⟩, hworks⟩
    · obtain ⟨began, hcall⟩ := hwaits
      exact .inr ⟨⟨began, hcall⟩, hcalls i p hp (by rw [hcall]; rfl)⟩
    · exact .inl ⟨hworks, Thread.announced_of_worksAt hworks fun pc hpc => by rw [hpc]; rfl⟩
  · rw [(hr.headcount s).sleeping]
    refine hexited.sum_eq_zero fun i p hall => ?_
    cases hw : p.worker with
    | none => simp [Thread.announced, hw]
    | some worker =>
        by_cases hs : worker.s = s
        · simp [Thread.announced, hw, hall worker hw hs, WorkerPc.announced]
        · simp [Thread.announced, hw, hs]

/-- The only worker has announced itself and is asleep. -/
theorem sleeping_exact_parked :
    ((World.after 1 (creation 0 ++ upToPark 1 ++ steps 1 1) (by decide +kernel)).mem.scheds
        0).sleepingWorkers =
      (World.after 1 (creation 0 ++ upToPark 1 ++ steps 1 1) (by decide +kernel)).sum
        (Thread.announced 0) ∧
      ((World.after 1 (creation 0 ++ upToPark 1 ++ steps 1 1) (by decide +kernel)).mem.scheds
        0).sleepingWorkers = 1 :=
  ⟨(sleeping_exact (World.reachable_after _ _ _) 0).1, by decide +kernel⟩

end Count

/-! ## The skipped notification -/

section Skipped

variable {world world₁ world₂ : World} {s i : ℕ} {p : Thread} {task : Task}

/-- Every worker of `s` is enqueued on the condition variable. -/
def Asleep (s : ℕ) (world : World) : Prop :=
  world.Each fun i p m => ∀ worker, p.worker = some worker → worker.s = s →
    worker.pc = .parked ∧ i ∈ (m.gates (.sched s)).waiting

/-- Nobody on watch is enqueued. -/
theorem Asleep.not_onWatch (h : Asleep s world) (priority : TaskPriority) :
    ¬ world.Any (Thread.OnWatch s priority) := by
  rintro ⟨i, p, hp, ⟨worker, hw, hs, hpc⟩ | ⟨⟨worker, hw, hs, -⟩, hnot⟩⟩
  · rw [(h i p hp worker hw hs).1] at hpc
    exact hpc
  · exact hnot (h i p hp worker hw hs).2

/-- While all workers are enqueued, the local deques are empty. -/
theorem Asleep.deque_eq_nil (h : Asleep s world) (hr : Reachable world) (w : ℕ) :
    (world.mem.scheds s).queues.deque w = [] := by
  by_cases hw : world.Each fun _ p _ => p.number s ≠ some w
  · exact hr.deque_eq_nil hw
  · simp only [Config.Each, not_forall, not_not] at hw
    obtain ⟨i, p, hp, hnumber⟩ := hw
    obtain ⟨worker, hw, hs, rfl⟩ := Thread.number_eq_some.mp hnumber
    refine hr.swept s i p hp worker hw hs ?_
    rw [(h i p hp worker hw hs).1]
    trivial

/-- A submission that has read zero has published its task. If the task is still in an
injector, then a worker is on watch. -/
theorem onWatch_of_zero (hr : Reachable world) (hp : world.threads[i]? = some p)
    (hcall : p.call = some (.push s task .wakeCheck))
    (hzero : (world.mem.scheds s).sleepingWorkers = 0)
    (hlater : scheduler.Reachable world world₂) {priority : TaskPriority}
    (hmem : task ∈ (world₂.mem.scheds s).queues.injector priority) :
    world₂.Any (Thread.OnWatch s priority) := by
  have hpublished : task ∈ published s world.mem.log :=
    mem_published.mpr (hr.accepted.calls i p hp s task ⟨.wakeCheck, hcall, trivial⟩)
  revert hmem
  refine hlater.invariant (fun c => task ∈ (c.mem.scheds s).queues.injector priority →
    c.Any (Thread.OnWatch s priority)) ?_ fun c a c' hreach hc hstep hmem => ?_
  · exact fun hmem => hr.onWatch_of_sleeping hzero (List.ne_nil_of_mem hmem)
  · have hrc := hr.trans hreach
    have hold : task ∈ published s c.mem.log :=
      mem_published.mpr ((log_prefix_of_reachable hreach).subset (mem_published.mp hpublished))
    obtain ⟨q, q', access, events, hs⟩ := exists_step hstep
    have hbefore := hs.mem_injector_of_published (hrc.step hstep) hold hmem
    exact hs.onWatch hrc (hrc.step hstep) (List.ne_nil_of_mem hmem) (hc hbefore)

/-- The skipped notification is safe: after a submission has read zero, some worker is
not enqueued as long as the task is queued. -/
theorem not_asleep_of_zero (hr : Reachable world) (hp : world.threads[i]? = some p)
    (hcall : p.call = some (.push s task .wakeCheck))
    (hzero : (world.mem.scheds s).sleepingWorkers = 0)
    (hstep : scheduler.step world (i, .turn .go) = some world₁)
    (hlater : scheduler.Reachable world₁ world₂)
    (hqueued : task ∈ (world₂.mem.scheds s).queues.tasks) :
    ¬ Asleep s world₂ ∧ world₂.Any fun _ p _ => p.WorksAt s fun _ => True := by
  have hlater' : scheduler.Reachable world world₂ :=
    ((System.Reachable.refl world).step hstep).trans hlater
  have hr₂ := hr.trans hlater'
  refine ⟨fun hasleep => ?_, hr₂.exists_worker ((hr₂.opened s).published
    (List.ne_nil_of_mem (hr₂.mem_published_of_queued hqueued)))⟩
  rcases QueueSystem.mem_injector_or_deque_of_mem_tasks hqueued with
    ⟨priority, hmem⟩ | ⟨w, hmem⟩
  · exact hasleep.not_onWatch priority (onWatch_of_zero hr hp hcall hzero hlater' hmem)
  · rw [hasleep.deque_eq_nil hr₂ w] at hmem
    cases hmem

/-- Client 0 is about to read the count while the only worker has not searched yet. -/
def submissionBeforeSearch : List Action :=
  creation 0 ++ (0, .call (.pushTask 0 7 9)) :: steps 0 7

/-- The worker has found its deque empty when the submission is over. -/
theorem not_asleep_of_zero_submissionBeforeSearch :
    ¬ Asleep 0 (World.after 1 (submissionBeforeSearch ++ steps 0 1 ++ steps 1 1)
      (by decide +kernel)) := by
  have hstep : scheduler.step (World.after 1 submissionBeforeSearch (by decide +kernel))
      (0, .turn .go) =
        some (World.after 1 (submissionBeforeSearch ++ steps 0 1) (by decide +kernel)) :=
    rfl
  have hlater : scheduler.step (World.after 1 (submissionBeforeSearch ++ steps 0 1)
      (by decide +kernel)) (1, .turn .go) =
        some (World.after 1 (submissionBeforeSearch ++ steps 0 1 ++ steps 1 1)
          (by decide +kernel)) :=
    rfl
  have hqueued : (⟨1, none, 7, 9, .normal, none⟩ : Task) ∈ ((World.after 1
      (submissionBeforeSearch ++ steps 0 1 ++ steps 1 1) (by decide +kernel)).mem.scheds
        0).queues.tasks := by
    decide +kernel
  exact (not_asleep_of_zero (World.reachable_after 1 submissionBeforeSearch _) rfl rfl rfl hstep
    ((System.Reachable.refl _).step hlater) hqueued).1

end Skipped

end UpgradeSched
