import UpgradeSched.Accounting.Identity
import UpgradeSched.Accounting.Statistics

/-!
# Waiting for a scheduler is a barrier

A waiter goes on after reading the counter as zero. At that moment every
published task has been released, in particular every task that was accepted
before the call and every task that such a task has submitted. The callbacks of
these tasks have returned, so they submit nothing more, and the tasks that the
wait covers stay the same until the call returns.
-/

namespace UpgradeSched

open Interleaving

/-- The tasks of `s` that a wait that began at the stamp `began` covers: those
accepted before, and those accepted from the callback of a covered task. -/
inductive Covered (s began : ℕ) (log : List Event) : Task → Prop
  | before {task : Task} (h : .returned s task none ∈ log.take began) : Covered s began log task
  | nested {parent task : Task} (hp : Covered s began log parent)
      (hparent : task.parent = some parent.id) (h : .returned s task none ∈ log) :
      Covered s began log task

/-! ## Callbacks and their submissions -/

/-- A submission made by a callback names the task of the callback. -/
def Parented (world : World) : Prop :=
  world.Each fun _ p _ => ∀ (s : ℕ) (task : Task) (pc : PushPc task.group),
    p.call = some (.push s task pc) → task.parent = p.running.map (·.id)

section Callbacks

variable {world world' : World} {a : Action} {p p' : Thread} {access : Access}
  {events : List Event} {s : ℕ}

theorem Thread.running_eq_of_worker (h : p'.worker = p.worker) : p'.running = p.running := by
  unfold Thread.running
  rw [h]

theorem Step.parented (h : Step world a world' p p' access events) (hp : Parented world) :
    Parented world' := by
  refine Config.Each.of_moves hp h.moves ?_ (fun _ _ _ _ hq => hq) ?_
  · intro hself s task pc' hcall
    rcases h.steps.to_push hcall with ⟨pc, hold, hworker, -⟩ | ⟨-, hworker, -, hparent, -⟩
    · rw [Thread.running_eq_of_worker hworker]
      exact hself s task pc hold
    · rw [Thread.running_eq_of_worker hworker]
      exact hparent
  · intro j q _ hq s task pc hcall
    cases (call_eq_none_of_new hq).symm.trans hcall

theorem Reachable.parented (h : Reachable world) : Parented world :=
  h.invariant Parented (fun _ _ => World.each_init fun _ _ _ _ hcall => by cases hcall)
    fun hs _ => hs.parented

/-- A task whose callback is running has been published and has not finished. -/
theorem Reachable.unfinished_of_callback (h : Reachable world) {i : ℕ}
    (hp : world.threads[i]? = some p) {worker : Worker} (hw : p.worker = some worker)
    {task : Task} (hpc : worker.pc = .callback task) :
    task ∈ published worker.s world.mem.log ∧
      task ∉ completed .finished worker.s world.mem.log := by
  have hheld : p.held .finished worker.s = {task} := by
    simp [Thread.held, hw, Worker.held, hpc, WorkerPc.carried, Stage.Concerns]
  have hle := Multiset.count_le_of_le task
    (world.le_sum (Thread.held .finished worker.s) hp)
  have hconcerns : Stage.finished.Concerns task := trivial
  have hcount := h.count_published hconcerns worker.s
  have hone := List.nodup_iff_count_le_one.mp (h.nodup_published worker.s) task
  rw [hheld, Multiset.count_singleton_self] at hle
  refine ⟨?_, fun hmem => ?_⟩
  · refine Multiset.mem_coe.mp (Multiset.one_le_count_iff_mem.mp ?_)
    omega
  · have hpos := Multiset.one_le_count_iff_mem.mpr (Multiset.mem_coe.mpr hmem)
    rw [Multiset.coe_count] at hcount
    omega

theorem Thread.callback_of_running {task : Task} (hrun : p.running = some task) :
    ∃ worker, p.worker = some worker ∧ worker.pc = .callback task := by
  unfold Thread.running at hrun
  split at hrun
  · cases hrun
  · rename_i worker hw
    split at hrun
    · rename_i task' hpc
      cases hrun
      exact ⟨worker, hw, hpc⟩
    · cases hrun

theorem Reachable.not_finished_of_running (h : Reachable world) {i : ℕ}
    (hp : world.threads[i]? = some p) {task : Task} (hrun : p.running = some task) :
    ∃ t, task ∈ published t world.mem.log ∧ task ∉ completed .finished t world.mem.log := by
  obtain ⟨worker, hw, hpc⟩ := Thread.callback_of_running hrun
  exact ⟨worker.s, h.unfinished_of_callback hp hw hpc⟩

/-- A task whose callback has finished submits nothing. -/
theorem Step.parent_ne_of_returned (h : Step world a world' p p' access events)
    (hr : Reachable world) {parent task : Task} {result : Option SchedulerError} {t : ℕ}
    (hfinished : parent ∈ completed .finished s world.mem.log)
    (hret : .returned t task result ∈ events) : task.parent ≠ some parent.id := by
  intro hparent
  rw [hr.parented _ _ h.moves.thread t task _ (h.steps.accepts.2 result hret)] at hparent
  obtain ⟨task', hrun, hid⟩ := Option.map_eq_some_iff.mp hparent
  obtain ⟨u, hpub, hnot⟩ := hr.not_finished_of_running h.moves.thread hrun
  have hpub' : parent ∈ published s world.mem.log :=
    Multiset.mem_of_le (hr.completed_le_published .finished s) hfinished
  cases hr.decision_inj (mem_published.mp hpub) (mem_published.mp hpub')
    (congrArg some hid) rfl
  exact hnot hfinished

end Callbacks

/-! ## What a wait establishes -/

/-- The tasks, with their schedulers, that a wait on `x` covers: those that `x`
counts and that were accepted before, and those that `x` counts and that were
accepted from the callback of a covered task. -/
inductive Obj.Covers (x : Obj) (began : ℕ) (log : List Event) : ℕ → Task → Prop
  | before {s : ℕ} {task : Task} (hx : x.Counts s task)
      (h : .returned s task none ∈ log.take began) : Covers x began log s task
  | nested {t s : ℕ} {parent task : Task} (hp : Covers x began log t parent)
      (hparent : task.parent = some parent.id) (hx : x.Counts s task)
      (h : .returned s task none ∈ log) : Covers x began log s task

/-- The waiter has read the counter as zero. -/
def WaitPc.Passed : WaitPc → Prop
  | .unlock | .ret => True
  | _ => False

/-- The tasks that a wait past its check covers have given back their
registration. -/
def Barrier (world : World) : Prop :=
  world.Each fun _ p m => ∀ (x : Obj) (began : ℕ) (pc : WaitPc),
    p.call = some (.wait x began pc) → began ≤ m.log.length ∧
      (pc.Passed → ∀ s task, x.Covers began m.log s task → (s, task) ∈ discharged x m.log)

section Barrier

variable {world world' : World} {a : Action} {p p' : Thread} {access : Access}
  {events : List Event} {x : Obj} {s began : ℕ} {task : Task}

theorem Obj.Covers.returned {log : List Event} (h : x.Covers began log s task) :
    .returned s task none ∈ log ∧ x.Counts s task := by
  cases h with
  | before hx h => exact ⟨List.mem_of_mem_take h, hx⟩
  | nested _ _ hx h => exact ⟨h, hx⟩

theorem Covered.covers {log : List Event} (h : Covered s began log task) :
    (Obj.sched s).Covers began log s task := by
  induction h with
  | before h => exact .before rfl h
  | nested _ hparent h ih => exact .nested ih hparent rfl h

theorem WaitPc.passed_of_instr (x : Obj) (pc : WaitPc) :
    (pc.instr x).Forall fun pc' access _ => ∀ next, pc' = some next → next.Passed →
      pc.Passed ∨ access = .gate x .load 0 := by
  cases pc with
  | check =>
      intro count
      beta_reduce
      split
      · rintro _ ⟨⟩ hp
        exact hp.elim
      · rename_i hcount
        obtain rfl := Decidable.not_not.mp hcount
        exact fun _ _ _ => .inr rfl
  | parked => rintro (_ | _) <;> exact fun _ h hp => by cases h; exact hp.elim
  | unlock => exact fun _ _ _ _ => .inl trivial
  | ret => nofun
  | _ => exact fun _ _ h hp => by cases h; exact hp.elim

/-- A task that has given back its registration with `x` has passed the stage in
which this is done, and all stages before. -/
theorem Reachable.completed_of_discharged (h : Reachable world) {stage : Stage}
    (hstage : stage.rank ≤ x.stage.rank) (hmem : (s, task) ∈ discharged x world.mem.log) :
    task ∈ completed stage s world.mem.log := by
  have hx := counts_of_mem_discharged hmem
  refine h.mem_completed hstage (Obj.concerns_of_counts hx) ?_
  rw [← Multiset.mem_coe, ← Multiset.one_le_count_iff_mem] at hmem ⊢
  rwa [count_discharged hx] at hmem

/-- While the counter of `x` is zero, every published task that `x` counts has given
back its registration. -/
theorem Reachable.discharged_of_published (h : Reachable world)
    (hcount : (world.mem.gates x).count = 0) (hx : x.Counts s task)
    (hpublished : .published s task ∈ world.mem.log) :
    (s, task) ∈ discharged x world.mem.log := by
  have hslots := h.accounting.slots x
  have hcard := length_discharged_le h.accounting.custody x
  rw [Slots, hcount, zero_add] at hslots
  have heq : (↑(discharged x world.mem.log) : Multiset (ℕ × Task)) =
      admitted x world.mem.log :=
    Multiset.eq_of_le_of_card_le (discharged_le_admitted h.accounting.custody x)
      (by simp only [Multiset.coe_card]; omega)
  rw [← Multiset.mem_coe, heq, Multiset.mem_coe]
  exact List.mem_filterMap.mpr ⟨_, hpublished, if_pos hx⟩

theorem Reachable.discharged_of_count (h : Reachable world)
    (hcount : (world.mem.gates x).count = 0) (hx : x.Counts s task)
    (hret : .returned s task none ∈ world.mem.log) : (s, task) ∈ discharged x world.mem.log :=
  h.discharged_of_published hcount hx (h.accepted.returns s task hret)

/-- Once the covered tasks have given back their registration, a step adds none. -/
theorem Step.covers_of_covers (h : Step world a world' p p' access events)
    (hr : Reachable world) (hbegan : began ≤ world.mem.log.length)
    (hall : ∀ s task, x.Covers began world.mem.log s task →
      (s, task) ∈ discharged x world.mem.log)
    (hc : x.Covers began world'.mem.log s task) : x.Covers began world.mem.log s task := by
  induction hc with
  | before hx hret =>
      rw [h.fires.log, List.take_append_of_le_length hbegan] at hret
      exact .before hx hret
  | @nested t s parent task _ hparent hx hret ih =>
      rw [h.fires.log] at hret
      refine .nested ih hparent hx ((List.mem_append.mp hret).resolve_right fun hnew => ?_)
      have hfinished : parent ∈ completed .finished t world.mem.log :=
        hr.completed_of_discharged (Nat.zero_le _) (hall t parent ih)
      exact h.parent_ne_of_returned hr hfinished hnew hparent

/-- The covered tasks that have given back their registration stay all the covered
tasks. -/
theorem Step.discharged_of_covers (h : Step world a world' p p' access events)
    (hr : Reachable world) (hbegan : began ≤ world.mem.log.length)
    (hall : ∀ s task, x.Covers began world.mem.log s task →
      (s, task) ∈ discharged x world.mem.log)
    (hc : x.Covers began world'.mem.log s task) : (s, task) ∈ discharged x world'.mem.log := by
  rw [h.fires.log, discharged_append]
  exact List.mem_append_left _ (hall s task (h.covers_of_covers hr hbegan hall hc))

theorem Step.barrier (h : Step world a world' p p' access events) (hr : Reachable world)
    (hb : Barrier world) : Barrier world' := by
  have hlength : world.mem.log.length ≤ world'.mem.log.length := by
    rw [h.fires.log, List.length_append]
    exact Nat.le_add_right _ _
  refine Config.Each.of_moves hb h.moves ?_ ?_ ?_
  · intro hself x began pc' hcall
    rcases h.steps.to_wait hcall with ⟨pc, hold, hout⟩ | ⟨-, rfl, api, rfl⟩
    · obtain ⟨hbegan, hpassed⟩ := hself x began pc hold
      refine ⟨hbegan.trans hlength, fun hp s task hc => ?_⟩
      refine h.discharged_of_covers hr hbegan ?_ hc
      rcases hout _ (pc.passed_of_instr x) pc' rfl hp with hold | rfl
      · exact hpassed hold
      · exact fun s task hc =>
          hr.discharged_of_count h.fires.load_eq.symm hc.returned.2 hc.returned.1
    · have hnow := h.fires.start_eq.1
      exact ⟨hnow ▸ hlength, False.elim⟩
  · intro j q _ _ hq x began pc hcall
    obtain ⟨hbegan, hpassed⟩ := hq x began pc hcall
    exact ⟨hbegan.trans hlength, fun hp s task hc =>
      h.discharged_of_covers hr hbegan (hpassed hp) hc⟩
  · intro j q _ hq x began pc hcall
    cases (call_eq_none_of_new hq).symm.trans hcall

theorem Reachable.barrier (h : Reachable world) : Barrier world :=
  h.invariant Barrier (fun _ _ => World.each_init fun _ _ _ _ hcall => by cases hcall)
    fun hs hr => hs.barrier hr

/-- When a wait returns, the tasks that it covers have given back their
registration. -/
theorem Reachable.discharged_of_return (h : Reachable world)
    (hp : world.threads[a.1]? = some p) (hcall : p.call = some (.wait x began .ret))
    (hstep : scheduler.step world a = some world')
    (hc : x.Covers began world'.mem.log s task) : (s, task) ∈ discharged x world'.mem.log := by
  obtain ⟨q, q', access, events, hs⟩ := exists_step hstep
  obtain ⟨hbegan, hpassed⟩ := h.barrier _ _ hp x began .ret hcall
  exact hs.discharged_of_covers h hbegan (hpassed trivial) hc

/-- Waiting is a barrier: when a wait returns, every task that it covers has
finished its callback and is among the tasks that the counter `completed` of the
statistics counts. -/
theorem wait_barrier (h : Reachable world) (hp : world.threads[a.1]? = some p)
    (hcall : p.call = some (.wait (.sched s) began .ret))
    (hstep : scheduler.step world a = some world')
    (hc : Covered s began world'.mem.log task) :
    task ∈ completed .finished s world'.mem.log ∧
      task ∈ completed .recorded s world'.mem.log ∧
      (world'.mem.scheds s).stats.completed =
        (completed .recorded s world'.mem.log).length := by
  have hr : Reachable world' := h.step hstep
  have hdischarged := h.discharged_of_return hp hcall hstep hc.covers
  have hfinished : Stage.finished.rank ≤ (Obj.sched s).stage.rank := Nat.zero_le _
  have hrecorded : Stage.recorded.rank ≤ (Obj.sched s).stage.rank := Nat.le_succ 1
  exact ⟨hr.completed_of_discharged hfinished hdischarged,
    hr.completed_of_discharged hrecorded hdischarged, hr.tallied s⟩

/-- Client 1 waits after client 0 has submitted a task, whose callback submits
another one. The wait is about to return. -/
def waitForNested : List Action :=
  creation 0 ++ (0, .call (.pushTask 0 7 9)) :: steps 0 9 ++
    (1, .call (.wait 0)) :: steps 1 3 ++
    (2, .turn .go) :: (2, .turn (.pick 0)) :: (2, .turn (.pick 0)) ::
    (2, .call (.pushTask 0 8 9)) :: steps 2 13 ++
    (2, .turn (.pick 0)) :: (2, .turn (.pick 0)) :: steps 2 4 ++ steps 1 3

theorem wait_barrier_waitForNested :
    let world := World.after 2 (waitForNested ++ steps 1 1) (by decide +kernel)
    ⟨6, some 1, 8, 9, .normal, none⟩ ∈ completed .finished 0 world.mem.log := by
  have hstep : scheduler.step (World.after 2 waitForNested (by decide +kernel))
      (1, .turn .go) = some (World.after 2 (waitForNested ++ steps 1 1) (by decide +kernel)) :=
    rfl
  have hfirst : Covered 0 4 (World.after 2 (waitForNested ++ steps 1 1)
      (by decide +kernel)).mem.log ⟨1, none, 7, 9, .normal, none⟩ := .before (by decide +kernel)
  exact (wait_barrier (World.reachable_after 2 waitForNested _) rfl rfl hstep
    (.nested hfirst rfl (by decide +kernel))).1

end Barrier

end UpgradeSched
