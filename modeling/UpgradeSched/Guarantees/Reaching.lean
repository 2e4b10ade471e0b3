import UpgradeSched.Wakeups.SleepKinds

/-!
# Which thread a submission wakes up

Idle workers and the callers of `Scheduler::wait` sleep in one wait set, and a
submission notifies the one that has slept longest. When a worker parks behind a
waiting caller, that is the caller.
-/

namespace UpgradeSched

open Interleaving

/-- The thread with this number is at the place of a sleeping caller of
`Scheduler::wait`. -/
def IsWaiter (s : ℕ) (world : World) (i : ℕ) : Prop :=
  ∃ p, world.threads[i]? = some p ∧ p.WaitsAt (.sched s) .parked

/-- The thread with this number is at the place of a sleeping worker of `s`. -/
def IsWorker (s : ℕ) (world : World) (i : ℕ) : Prop :=
  ∃ p, world.threads[i]? = some p ∧ p.WorksAt s (· = .parked)

/-- No worker is in the wait set behind a waiting caller. -/
def Ordered (s : ℕ) (world : World) : Prop :=
  (world.mem.gates (.sched s)).waiting.Pairwise fun i j =>
    ¬ (IsWaiter s world i ∧ IsWorker s world j)

/-- When `wake_one` notifies the thread that has slept longest while a worker is
in the wait set, that thread is a worker. -/
def WakesAWorker (s : ℕ) (world : World) : Prop :=
  ∀ (i : ℕ) (p : Thread) (task : Task) (world' : World), world.threads[i]? = some p →
    p.call = some (.push s task .wakeNotify) →
    scheduler.step world (i, .turn (.pick 0)) = some world' →
    world.Enqueued (fun m => m.gates (.sched s)) (Thread.WorksAt s (· = .parked)) →
      ∃ j, IsWorker s world j ∧
        (world.mem.gates (.sched s)).waiting = j :: (world'.mem.gates (.sched s)).waiting

/-- The step does not park a worker while a caller of `Scheduler::wait` is in the
wait set. -/
def ParksFirst (s : ℕ) (world : World) (a : Action) : Prop :=
  ∀ p, world.threads[a.1]? = some p → p.WorksAt s (· = .park) →
    ∀ i ∈ (world.mem.gates (.sched s)).waiting, ¬ IsWaiter s world i

section Reaching

variable {usizeBits clients : ℕ} {as : List Action} {world world' : World} {a : Action}
  {p p' : Thread} {access : Access} {events : List Event} {s : ℕ}

/-- Client 2 has reserved a slot when client 1 waits and parks; the worker finds
nothing and parks behind it; then client 2 publishes its task. -/
def workerBehindWaiter : List Action :=
  creation 0 ++ (2, .call (.pushTask 0 7 9)) :: steps 2 3 ++
    (1, .call (.wait 0)) :: steps 1 3 ++ upToPark 3 ++ steps 3 1 ++ steps 2 5

/-- The thread that `wake_one` dequeues can be a waiting caller while a worker is
in the wait set. -/
theorem wake_one_wakes_waiter : ∃ world, Reachable world ∧ ¬ WakesAWorker 0 world := by
  refine ⟨.after 3 workerBehindWaiter (by decide +kernel), World.reachable_after _ _ _,
    fun h => ?_⟩
  have hstep : scheduler.step (World.after 3 workerBehindWaiter (by decide +kernel))
      (2, .turn (.pick 0)) = some (World.after 3 (workerBehindWaiter ++ [(2, .turn (.pick 0))])
        (by decide +kernel)) := rfl
  obtain ⟨j, ⟨p, hp, worker, hw, -⟩, hj⟩ := h 2 _ _ _ rfl rfl hstep
    ⟨3, _, rfl, by decide +kernel, _, rfl, rfl, rfl⟩
  have hwaiting : ((World.after 3 workerBehindWaiter (by decide +kernel)).mem.gates
      (.sched 0)).waiting = [1, 3] := by decide +kernel
  rw [hwaiting] at hj
  cases (List.cons.inj hj).1
  cases hp
  cases hw

theorem IsWaiter.of_step (h : Step world a world' p p' access events) {i : ℕ} (hi : i ≠ a.1)
    (hw : IsWaiter s world' i) : IsWaiter s world i := by
  obtain ⟨q, hq, hwaits⟩ := hw
  exact ⟨q, h.moves.of_other hi hq fun hnew => not_waitsAt_of_new hnew .parked hwaits, hwaits⟩

theorem IsWorker.of_step (h : Step world a world' p p' access events) {i : ℕ} (hi : i ≠ a.1)
    (hw : IsWorker s world' i) : IsWorker s world i := by
  obtain ⟨q, hq, hworks⟩ := hw
  refine ⟨q, h.moves.of_other hi hq fun hnew => ?_, hworks⟩
  exact not_worksAt_of_new hnew (by rintro ⟨⟩) hworks

theorem Step.ordered (h : Step world a world' p p' access events) (hr : Reachable world)
    (hparks : ParksFirst s world a) (ho : Ordered s world) : Ordered s world' := by
  have hkeep : ∀ {l : List ℕ}, l.Sublist (world.mem.gates (.sched s)).waiting →
      (∀ i ∈ l, i ∈ (world'.mem.gates (.sched s)).waiting) →
        l.Pairwise fun i j => ¬ (IsWaiter s world' i ∧ IsWorker s world' j) := by
    intro l hsub hmem
    have hne : ∀ i ∈ l, i ≠ a.1 := fun i hi => h.ne_of_mem hr (hsub.subset hi) (hmem i hi)
    exact (ho.sublist hsub).imp_of_mem fun hi hj hnot hbad =>
      hnot ⟨hbad.1.of_step h (hne _ hi), hbad.2.of_step h (hne _ hj)⟩
  rcases h.fires.waiting_cases (x := .sched s) with hsub | ⟨hacc, heq⟩
  · exact hkeep hsub fun _ hi => hi
  · have hmem : ∀ i ∈ (world.mem.gates (.sched s)).waiting,
        i ∈ (world'.mem.gates (.sched s)).waiting := fun i hi =>
      heq ▸ List.mem_append_left _ hi
    rw [Ordered, heq, List.pairwise_append]
    refine ⟨hkeep (List.Sublist.refl _) hmem, List.pairwise_singleton _ _, ?_⟩
    rintro i hi j hj ⟨hwaiter, q, hq, hworks⟩
    cases List.mem_singleton.mp hj
    cases h.moves.self.symm.trans hq
    have hproper := hr.proper _ _ h.moves.thread
    rcases h.steps.works_of_parked hproper hworks with hparked | hpark
    · exact Access.not_parks_of_wakes (h.steps.wakes_of_works hproper hparked) hacc
    · exact hparks p h.moves.thread hpark i hi
        (hwaiter.of_step h (h.ne_of_mem hr hi (hmem i hi)))

/-- In a run in which no worker parks behind a waiting caller, the thread that
`wake_one` dequeues is a worker whenever one is in the wait set. -/
theorem wake_one_wakes_worker (s : ℕ)
    (h : scheduler.Run (ParksFirst s) (World.init usizeBits clients) as world) :
    WakesAWorker s world := by
  have ho : Ordered s world := by
    refine invariant_of_run (Ordered s) ?_ (fun hs hr hC => hs.ordered hr hC) h
    rw [Ordered]
    exact List.Pairwise.nil
  have hr : Reachable world := ⟨usizeBits, clients, h.reachable⟩
  rintro i p task world' hp hcall hstep ⟨j, q, hq, hj, hworks⟩
  obtain ⟨p₀, p', access, events, hs⟩ := exists_step hstep
  cases hp.symm.trans hs.moves.thread
  obtain ⟨call', -, hout⟩ := hs.steps.of_call hcall
  have hacc := hout (fun _ access _ => access = .gate (.sched s) .notifyOne ()) fun _ => rfl
  subst hacc
  obtain ⟨k, hk, herase⟩ := hs.fires.waiting_of_notifyOne
  cases hk
  cases hwaiting : (world.mem.gates (.sched s)).waiting with
  | nil =>
      rw [hwaiting] at hj
      cases hj
  | cons first rest =>
      rw [hwaiting] at herase hj
      refine ⟨first, ?_, by rw [herase, List.eraseIdx_cons_zero]⟩
      rw [Ordered, hwaiting, List.pairwise_cons] at ho
      rcases List.mem_cons.mp hj with rfl | hrest
      · exact ⟨q, hq, hworks⟩
      · obtain ⟨q', hq', hparked⟩ := (hr.sleepers (.sched s)).parked first
          (hwaiting ▸ List.mem_cons_self)
        rcases hparked with hwaits | ⟨t, ht, hworks'⟩
        · exact absurd ⟨⟨q', hq', hwaits⟩, q, hq, hworks⟩ (ho.1 j hrest)
        · cases ht
          exact ⟨q', hq', hworks'⟩

/-- The run goes on with a submission that is about to notify the sleeping worker. -/
theorem wake_one_wakes_worker_gentleRun :
    WakesAWorker 0 (.after 2 (gentleRun ++ (0, .call (.pushTask 0 7 9)) :: steps 0 8)
      (by decide +kernel)) := by
  refine wake_one_wakes_worker 0 (World.run_after_of_runIf gentle
    (fun world a h p hp hw i hi => ?_) _ (by decide +kernel))
  rw [(park_of_gentle h hp hw).2] at hi
  cases hi

end Reaching

end UpgradeSched
