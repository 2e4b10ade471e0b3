import UpgradeSched.Accounting.Identity
import UpgradeSched.Accounting.Workforce
import UpgradeSched.Interleaving.Measure

/-!
# Graceful shutdown

Once a worker has left its loop the scheduler is drained, and it stays drained.
When all workers have exited, every accepted task has been executed and has
given back its registrations. A submission that starts after the flag is stored
reads it as set and returns, with its second step, without touching anything.
-/

namespace UpgradeSched

open Interleaving

/-! ## Drained for good -/

section Drained

variable {world world' : World} {s : ℕ}

/-- A drained scheduler stays drained, and nothing more is published to it. -/
theorem Drained.of_reachable (hd : Drained s world) (h : Reachable world)
    (hr : scheduler.Reachable world world') :
    Drained s world' ∧ published s world'.mem.log = published s world.mem.log := by
  refine hr.invariant
    (fun c => Drained s c ∧ published s c.mem.log = published s world.mem.log) ⟨hd, rfl⟩ ?_
  rintro c a c' hc ⟨hdc, hpub⟩ hstep
  obtain ⟨p, p', access, events, hs⟩ := exists_step hstep
  have hnone : published s events = [] :=
    hs.steps.published.resolve_right (hdc.unpublished _ _ hs.moves.thread)
  refine ⟨hs.drained (h.trans hc).present hdc, ?_⟩
  rw [hs.fires.log, published_append, hnone, List.append_nil, hpub]

/-- No worker of a drained scheduler runs a callback. -/
theorem Drained.not_running (hd : Drained s world) :
    world.Each fun _ p _ => ¬ p.WorksAt s fun pc => ∃ task, pc = .callback task := by
  rintro i p hp ⟨worker, hw, rfl, task, hpc⟩
  have hle := world.le_sum (Thread.held .released worker.s) hp
  rw [hd.held] at hle
  have hheld : p.held .released worker.s = {task} := by
    simp [Thread.held, hw, Worker.held, hpc, WorkerPc.carried, Stage.held, Stage.rank,
      Stage.Concerns]
  rw [hheld] at hle
  simp at hle

/-- When all workers of an open scheduler have exited, every published task has
passed every stage that concerns it. -/
theorem Reachable.completed_of_exited (h : Reachable world)
    (hexit : world.Each fun _ p _ => ∀ worker, p.worker = some worker → worker.s = s →
      worker.pc = .exited) (stage : Stage) :
    (↑(completed stage s world.mem.log) : Multiset Task) =
      (↑(published s world.mem.log) : Multiset Task).filter stage.Concerns := by
  have hheld : world.sum (Thread.held stage s) = 0 := by
    refine List.sum_eq_zero fun x hx => ?_
    obtain ⟨p, hp, rfl⟩ := List.mem_map.mp hx
    obtain ⟨i, hi⟩ := List.mem_iff_getElem?.mp hp
    cases hw : p.worker with
    | none => simp [Thread.held, hw]
    | some worker =>
        by_cases hs : worker.s = s
        · simp [Thread.held, hw, Worker.held, hexit i p hi worker hw hs, WorkerPc.carried]
        · simp [Thread.held, hw, Worker.held, hs]
  have hcustody := h.accounting.custody stage s
  by_cases hnone : published s world.mem.log = []
  · rw [Custody, hnone, hheld, add_zero] at hcustody
    rw [hnone]
    exact (add_eq_zero.mp hcustody.symm).2
  · obtain ⟨i, p, hp, worker, hw, hs, -⟩ := h.exists_worker ((h.opened s).published hnone)
    have hdrained := h.accounting.drained s
      ⟨i, p, hp, worker, hw, hs, by rw [hexit i p hp worker hw hs]; trivial⟩
    rw [Custody, hheld, hdrained.queues, Multiset.filter_zero, zero_add, zero_add] at hcustody
    exact hcustody.symm

end Drained

/-! ## Submissions after the flag -/

/-- The submission has done nothing, or was stopped by the flag. -/
def PushPc.Untouched {group : Option ℕ} : PushPc group → Prop
  | .checkStop | .ret (some .schedulerStopped) => True
  | _ => False

/-- How many steps a submission that the flag stops still takes. -/
def PushPc.stepsLeft {group : Option ℕ} : PushPc group → ℕ
  | .checkStop => 2
  | _ => 1

/-- What is known of submissions whose stamp comes after the flag was stored. -/
structure Late (world : World) : Prop where
  closed : ∀ x, .stopped x ∈ world.mem.log → (world.mem.gates x).closed = true
  calls : world.Each fun _ p m => ∀ (s : ℕ) (task : Task) (pc : PushPc task.group),
    p.call = some (.push s task pc) → task.id ≤ m.log.length ∧
      (.stopped (.sched s) ∈ m.log.take task.id → pc.Untouched)
  returns : ∀ s task result, .returned s task result ∈ world.mem.log →
    task.id ≤ world.mem.log.length ∧
      (.stopped (.sched s) ∈ world.mem.log.take task.id → result = some .schedulerStopped)

section Late

variable {world world' : World} {a : Action} {p p' : Thread} {access : Access}
  {events : List Event} {s : ℕ} {x : Obj}

/-- A submission that finds the flag set makes no change. -/
theorem PushPc.untouched_of_instr (s : ℕ) (task : Task) (pc : PushPc task.group)
    (h : pc.Untouched) :
    (pc.instr s task).Forall fun pc' access events =>
      (pc = .ret (some .schedulerStopped) ∧ access = .silent ∧ pc' = none ∧
          events = [.returned s task (some .schedulerStopped)]) ∨
        pc = .checkStop ∧ ∃ b, access = .gate (.sched s) .loadFlag b ∧
          (b = true → pc' = some (.ret (some .schedulerStopped))) := by
  cases pc with
  | checkStop => exact fun b => .inr ⟨rfl, b, rfl, fun hb => by subst hb; rfl⟩
  | ret result =>
      cases result with
      | none => exact h.elim
      | some error =>
          cases error with
          | schedulerStopped => exact .inl ⟨rfl, rfl, rfl, rfl⟩
          | _ => exact h.elim
  | _ => exact h.elim

theorem Event.ne_stopped_of_handles {t : ℕ} {carried carried' : Option (Task × Stage)}
    (h : Handles t carried access events carried') : .stopped x ∉ events := by
  cases h <;> simp

/-- The history shows the flag stored when it is stored. -/
theorem Call.stopped_of_instr (call : Call) :
    call.instr.Forall fun _ access events =>
      .stopped x ∈ events → access = .gate x .storeFlag () := by
  have hstop : ∀ (y : Obj) (pc : StopPc), (pc.instr y).Forall fun _ access events =>
      .stopped x ∈ events → access = .gate x .storeFlag () := by
    intro y pc
    cases pc with
    | store =>
        intro r h
        obtain rfl : x = y := by simpa using h
        rfl
    | notify => exact fun _ h => by simp at h
  cases call with
  | push t task pc =>
      refine Instr.Forall.map (Ψ := fun access events =>
        .stopped x ∈ events → access = .gate x .storeFlag ()) _ ?_
      cases pc <;> first | exact fun _ h => by simp at h | exact fun h => by simp at h
  | wait y began pc =>
      refine Instr.Forall.map (Ψ := fun access events =>
        .stopped x ∈ events → access = .gate x .storeFlag ()) _ ?_
      cases pc <;> first | exact fun _ h => by simp at h | exact fun h => by simp at h
  | stop y pc => exact (hstop y pc).map _
  | create t pc =>
      refine Instr.Forall.map (Ψ := fun access events =>
        .stopped x ∈ events → access = .gate x .storeFlag ()) _ ?_
      cases pc with
      | stop pc =>
          rw [CreatePc.instr]
          exact (hstop (.sched t) pc).map _
      | join ws => cases ws <;> first | exact fun _ h => by simp at h | exact fun h => by simp at h
      | _ => exact fun _ h => by simp at h
  | destroy t pc =>
      refine Instr.Forall.map (Ψ := fun access events =>
        .stopped x ∈ events → access = .gate x .storeFlag ()) _ ?_
      cases pc with
      | stop pc =>
          rw [DestroyPc.instr]
          exact (hstop (.sched t) pc).map _
      | join ws => cases ws <;> first | exact fun _ h => by simp at h | exact fun h => by simp at h
      | workers => exact fun _ h => by simp at h
  | getStats t pc =>
      refine Instr.Forall.map (Ψ := fun access events =>
        .stopped x ∈ events → access = .gate x .storeFlag ()) _ ?_
      cases pc with
      | load values todo => cases todo <;> exact fun _ h => by simp at h
      | ret => exact fun h => by simp at h

theorem Thread.Steps.stopped (h : p.Steps p' access events) (hx : .stopped x ∈ events) :
    access = .gate x .storeFlag () := by
  revert hx
  apply h.of_forall fun _ _ access events =>
    .stopped x ∈ events → access = .gate x .storeFlag ()
  · intro worker call
    exact call.stopped_of_instr
  · intro worker instr hi
    exact (worker.handles hi).mono fun _ _ _ h hx => absurd hx (Event.ne_stopped_of_handles h)
  · intro p api now _ hx
    simp at hx

/-- The flag is set after it is stored. -/
theorem Access.Fires.closed_of_store {i : ℕ} {turn : Turn} {m m' : Mem}
    (h : (Access.gate x .storeFlag ()).Fires i turn events m m') :
    (m'.gates x).closed = true := by
  cases h with
  | gate _ _ _ g h =>
      have hclosed : g.closed = true := h.closed_of_closes rfl
      simpa [Mem.emit, Mem.setGate] using hclosed

/-- Stamps and the prefix of the history before them do not change. -/
theorem take_log_eq {log : List Event} {n : ℕ} (h : n ≤ log.length) (events : List Event) :
    n ≤ (log ++ events).length ∧ (log ++ events).take n = log.take n :=
  ⟨List.length_append ▸ Nat.le_add_right_of_le h, List.take_append_of_le_length h⟩

theorem Step.late (h : Step world a world' p p' access events) (hl : Late world) :
    Late world' := by
  have hlog := h.fires.log
  refine ⟨?_, hl.calls.of_moves h.moves ?_ ?_ ?_, ?_⟩
  · intro x hx
    rw [hlog] at hx
    rcases List.mem_append.mp hx with hx | hx
    · exact h.fires.closed (hl.closed x hx)
    · have hacc := h.steps.stopped hx
      subst hacc
      exact h.fires.closed_of_store
  · intro hself s task pc' hcall
    rcases h.steps.to_push hcall with ⟨pc, hold, -, hout⟩ | ⟨-, -, rfl, -, api, hacc, hev⟩
    · obtain ⟨hle, hpc⟩ := hself s task pc hold
      obtain ⟨hle', htake⟩ := take_log_eq hle events
      rw [hlog, htake]
      refine ⟨hle', fun hstop => ?_⟩
      rcases hout _ (pc.untouched_of_instr s task (hpc hstop)) with ⟨-, -, hnone, -⟩ |
        ⟨-, b, rfl, hb⟩
      · cases hnone
      · have hclosed := hl.closed _ (List.mem_of_mem_take hstop)
        cases hb (h.fires.loadFlag_eq.trans hclosed)
        trivial
    · subst hacc
      have hnow := h.fires.start_eq.1
      rw [hlog, hnow]
      exact ⟨List.length_append ▸ Nat.le_add_right _ _, fun _ => trivial⟩
  · intro j q _ _ hq s task pc hcall
    obtain ⟨hle, hpc⟩ := hq s task pc hcall
    obtain ⟨hle', htake⟩ := take_log_eq hle events
    rw [hlog, htake]
    exact ⟨hle', hpc⟩
  · intro j q _ hq s task pc hcall
    cases (call_eq_none_of_new hq).symm.trans hcall
  · intro s task result hret
    rw [hlog] at hret ⊢
    rcases List.mem_append.mp hret with hret | hret
    · obtain ⟨hle, hresult⟩ := hl.returns s task result hret
      obtain ⟨hle', htake⟩ := take_log_eq hle events
      rw [htake]
      exact ⟨hle', hresult⟩
    · have hcall := h.steps.accepts.2 result hret
      obtain ⟨hle, hpc⟩ := hl.calls _ _ h.moves.thread s task _ hcall
      obtain ⟨hle', htake⟩ := take_log_eq hle events
      rw [htake]
      refine ⟨hle', fun hstop => ?_⟩
      have huntouched := hpc hstop
      cases result with
      | none => exact huntouched.elim
      | some error => cases error <;> first | rfl | exact huntouched.elim

theorem Reachable.late (h : Reachable world) : Late world := by
  refine h.invariant Late (fun _ _ => ⟨fun x hx => ?_,
    World.each_init fun i s task pc hcall => ?_, fun s task result hret => ?_⟩)
      fun hs _ => hs.late
  · cases hx
  · cases hcall
  · cases hret

/-- The steps of an untouched submission change nothing but the history. -/
theorem Step.frame_of_untouched (h : Step world a world' p p' access events) {task : Task}
    {pc : PushPc task.group} (hcall : p.call = some (.push s task pc)) (hpc : pc.Untouched) :
    world'.mem.gates = world.mem.gates ∧ world'.mem.scheds = world.mem.scheds := by
  obtain ⟨call', -, hout⟩ := h.steps.of_call hcall
  obtain ⟨pc', -, hout⟩ := hout.of_map
  have hfires := h.fires
  rcases hout _ (pc.untouched_of_instr s task hpc) with ⟨-, rfl, -, -⟩ | ⟨-, b, rfl, -⟩
  · generalize world'.mem = m' at hfires
    cases hfires
    exact ⟨rfl, rfl⟩
  · generalize world'.mem = m' at hfires
    cases hfires with
    | gate _ _ _ g hop =>
        cases hop.eq_of_keeps rfl
        refine ⟨funext fun y => ?_, rfl⟩
        by_cases hy : y = .sched s <;> simp [Mem.emit, Mem.setGate, hy]

/-- An untouched submission can go on. -/
theorem isSome_step_of_untouched {i : ℕ} (hp : world.threads[i]? = some p) {task : Task}
    {pc : PushPc task.group} (hcall : p.call = some (.push s task pc)) (hpc : pc.Untouched) :
    (scheduler.step world (i, .turn .go)).isSome := by
  cases pc with
  | checkStop | ret =>
      simp [System.step, hp, scheduler, Thread.instr, hcall, Call.instr, PushPc.instr,
        Instr.map, Instr.exec, Choice.toTurn, GateOp.exec]
  | _ => exact hpc.elim

/-- Thread `i` is in the submission of the task, which the flag stops, with `n` steps to go. -/
def World.Refuses (world : World) (i s : ℕ) (task : Task) (n : ℕ) : Prop :=
  .stopped (.sched s) ∈ world.mem.log.take task.id ∧ ∃ p pc, world.threads[i]? = some p ∧
    p.call = some (.push s task pc) ∧ pc.stepsLeft = n

theorem stopped_mem_take {log : List Event} {n : ℕ} (h : .stopped x ∈ log.take n)
    (events : List Event) : .stopped x ∈ (log ++ events).take n := by
  rw [List.take_append]
  exact List.mem_append_left _ h

/-- A step of the submission itself is its return or brings it one step nearer. -/
theorem Step.refuses (h : Step world a world' p p' access events) (hr : Reachable world)
    {task : Task} {n : ℕ} (hw : world.Refuses a.1 s task n) :
    .returned s task (some .schedulerStopped) ∈ world'.mem.log ∨
      ∃ m < n, world'.Refuses a.1 s task m := by
  obtain ⟨hstop, q, pc, hq, hcall, rfl⟩ := hw
  cases h.moves.thread.symm.trans hq
  have hpc := (hr.late.calls _ _ hq s task pc hcall).2 hstop
  obtain ⟨call', rfl, hout⟩ := h.steps.of_call hcall
  obtain ⟨pc', rfl, hnext⟩ := hout.of_map
  rcases hnext _ (pc.untouched_of_instr s task hpc) with ⟨rfl, -, -, rfl⟩ | ⟨rfl, b, rfl, hb⟩
  · rw [h.fires.log]
    exact .inl (List.mem_append_right _ (List.mem_singleton_self _))
  · have hclosed := hr.late.closed _ (List.mem_of_mem_take hstop)
    cases hb (h.fires.loadFlag_eq.trans hclosed)
    refine .inr ⟨1, Nat.one_lt_two, ?_, _, _, h.moves.self, rfl, rfl⟩
    rw [h.fires.log]
    exact stopped_mem_take hstop events

/-- A submission that the flag stops has returned when its thread has made two more steps. -/
theorem Reachable.returned_of_refuses (hr : Reachable world) {i n : ℕ} {task : Task}
    {as : List Action} (hw : world.Refuses i s task n)
    (hrun : scheduler.Run Always world as world')
    (hsteps : n ≤ as.countP fun a => decide (a.1 = i)) :
    .returned s task (some .schedulerStopped) ∈ world'.mem.log := by
  have hgoal := hrun.goal_or_count_add_le i
    (fun c => .returned s task (some .schedulerStopped) ∈ c.mem.log)
    (fun n c => World.Refuses c i s task n) ?_ ?_ ?_ hw
  · refine hgoal.resolve_right ?_
    rintro ⟨m, ⟨-, q, pc, -, -, rfl⟩, hle⟩
    have hpos : 1 ≤ pc.stepsLeft := by
      cases pc <;> simp [PushPc.stepsLeft]
    have hmore : as.countP (fun a => decide (a.1 = i)) + pc.stepsLeft ≤ n := hle
    omega
  · intro d a d' _ hs hret
    obtain ⟨p, p', access, events, h⟩ := exists_step hs
    rw [h.fires.log]
    exact List.mem_append_left _ hret
  · rintro n d a d' hd hs rfl hw
    obtain ⟨p, p', access, events, h⟩ := exists_step hs
    exact h.refuses (hr.trans hd) hw
  · rintro n d a d' _ hs hi ⟨hstop, q, pc, hq, hcall, hn⟩
    obtain ⟨p, p', access, events, h⟩ := exists_step hs
    refine ⟨?_, q, pc, h.moves.other (Ne.symm hi) hq, hcall, hn⟩
    rw [h.fires.log]
    exact stopped_mem_take hstop events

end Late

/-- Graceful shutdown. Once a worker has left its loop, in every later state
nothing is queued, no callback is running and nothing has been published since.
When all workers have exited, every accepted task has finished exactly once and
has given back its group registration. A submission that starts after the flag
is stored is never blocked, changes no gate, no queue and no statistic, and when
its thread has made two steps it has returned that the scheduler is stopped. -/
theorem shutdown_drains {world : World} (h : Reachable world) (s : ℕ) :
    ((world.Any fun _ p _ => p.WorksAt s WorkerPc.Leaving) →
        ∀ world', scheduler.Reachable world world' →
          (world'.mem.scheds s).queues.tasks = 0 ∧
            (world'.Each fun _ p _ => ¬ p.WorksAt s fun pc => ∃ task, pc = .callback task) ∧
            published s world'.mem.log = published s world.mem.log) ∧
      ((world.Each fun _ p _ => ∀ worker, p.worker = some worker → worker.s = s →
          worker.pc = .exited) →
        ∀ task, .returned s task none ∈ world.mem.log →
          (completed .finished s world.mem.log).count task = 1 ∧
            (task.group.isSome →
              (completed .groupReleased s world.mem.log).count task = 1)) ∧
      ∀ task : Task, .stopped (.sched s) ∈ world.mem.log.take task.id →
        (∀ result, .returned s task result ∈ world.mem.log →
            result = some .schedulerStopped) ∧
          ∀ i p pc, world.threads[i]? = some p → p.call = some (.push s task pc) →
            (scheduler.step world (i, .turn .go)).isSome ∧
              (∀ e world', scheduler.step world (i, e) = some world' →
                world'.mem.gates = world.mem.gates ∧
                  world'.mem.scheds = world.mem.scheds) ∧
              ∀ as world', scheduler.Run Always world as world' →
                2 ≤ as.countP (fun a => decide (a.1 = i)) →
                  .returned s task (some .schedulerStopped) ∈ world'.mem.log := by
  refine ⟨fun hleave world' hr => ?_, fun hexit task hret => ?_, fun task hstop => ⟨?_, ?_⟩⟩
  · obtain ⟨hd, hpub⟩ := (h.accounting.drained s hleave).of_reachable h hr
    exact ⟨hd.queues, hd.not_running, hpub⟩
  · have hmem := mem_published.mpr (h.accepted.returns s task hret)
    have hone : (published s world.mem.log).count task = 1 :=
      List.count_eq_one_of_mem (h.nodup_published s) hmem
    have hcount : ∀ stage : Stage, stage.Concerns task →
        (completed stage s world.mem.log).count task = 1 := by
      intro stage hc
      rw [← Multiset.coe_count, h.completed_of_exited hexit stage,
        Multiset.count_filter_of_pos hc, Multiset.coe_count, hone]
    exact ⟨hcount .finished trivial, hcount .groupReleased⟩
  · exact fun result hret => (h.late.returns s task result hret).2 hstop
  · intro i p pc hp hcall
    have hpc := (h.late.calls i p hp s task pc hcall).2 hstop
    refine ⟨isSome_step_of_untouched hp hcall hpc, fun e world' hstep => ?_,
      fun as world' hrun hsteps => ?_⟩
    · obtain ⟨q, q', access, events, hs⟩ := exists_step hstep
      cases Option.some.inj (hs.moves.thread.symm.trans hp)
      exact hs.frame_of_untouched hcall hpc
    · refine h.returned_of_refuses ⟨hstop, p, pc, hp, hcall, rfl⟩ hrun (le_trans ?_ hsteps)
      cases pc <;> simp [PushPc.stepsLeft]

/-- Client 0 submits a task, shuts the scheduler down and submits another one; the
worker runs the first and exits. -/
def runThenExit : List Action :=
  creation 0 ++ (0, .call (.pushTask 0 7 9)) :: steps 0 9 ++
    (0, .call (.shutdown 0)) :: steps 0 2 ++ (0, .call (.pushTask 0 7 9)) :: steps 0 1 ++
    (1, .turn .go) :: (1, .turn (.pick 0)) :: (1, .turn (.pick 0)) :: steps 1 5 ++
    [(1, .turn (.pick 0)), (1, .turn (.pick 0)), (1, .turn (.pick 0))] ++ steps 1 3

/-- The worker has run the first task and left its loop; the second submission, which is
about to return, does so while other calls are made. -/
theorem shutdown_drains_runThenExit :
    let world := World.after 1 runThenExit (by decide +kernel)
    (world.Any fun _ p _ => p.WorksAt 0 WorkerPc.Leaving) ∧
      (completed .finished 0 world.mem.log).length = 1 ∧
      (world.mem.scheds 0).queues.tasks = 0 ∧
      ∀ as world', scheduler.Run Always world as world' →
        2 ≤ as.countP (fun a => decide (a.1 = 0)) →
          .returned 0 ⟨6, none, 7, 9, .normal, none⟩ (some .schedulerStopped) ∈
            world'.mem.log := by
  have hleave : (World.after 1 runThenExit (by decide +kernel)).Any fun _ p _ =>
      p.WorksAt 0 WorkerPc.Leaving := ⟨1, _, rfl, _, rfl, rfl, trivial⟩
  have hdrains := shutdown_drains (World.reachable_after 1 runThenExit (by decide +kernel)) 0
  exact ⟨hleave, by decide +kernel, (hdrains.1 hleave _ (System.Reachable.refl _)).1,
    ((hdrains.2.2 _ (by decide +kernel)).2 0 _ _ rfl rfl).2.2⟩

end UpgradeSched
