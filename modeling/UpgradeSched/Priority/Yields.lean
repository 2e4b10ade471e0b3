import UpgradeSched.Accounting.Statistics
import UpgradeSched.Priority.Inversion
import UpgradeSched.Priority.Streak

/-!
# Fairness yields

A worker records a fairness yield when it starts the fairness probes, before it knows
what they find. The streak that makes it do so is what it pays with: a search that the
probes end, or that goes on after them, starts a new streak. As long as no fairness
probe has to be retried, every yield of a worker is thus paid for by a full burst of
HIGH tasks. A probe that is retried leaves the streak as it is, and the next search
records a yield for the same burst again.
-/

namespace UpgradeSched

open Interleaving

/-- The number of HIGH tasks in a list. -/
def highs (tasks : List Task) : ℕ := tasks.countP (·.priority = .high)

/-- The worker makes one of the two fairness probes. -/
def WorkerPc.Fair : WorkerPc → Prop
  | .pop _ .fairNormal | .pop _ .fairLow => True
  | _ => False

instance : DecidablePred WorkerPc.Fair := fun pc => by
  unfold WorkerPc.Fair
  split <;> infer_instance

/-- The streak, with a task that is taken and not yet recorded. -/
def Selector.potential (v : Selector) : ℕ :=
  match v.place with
  | .taken task => (v.priority.recordTask task).highStreak
  | _ => v.priority.highStreak

/-- What a worker can pay the next yield with. During the fairness probes the streak is
spent. -/
def Worker.credit (worker : Worker) : ℕ :=
  if worker.pc.Fair then 0 else worker.selector.potential

def Thread.credit (s : ℕ) (p : Thread) : ℕ :=
  p.worker.elim 0 fun worker => if worker.s = s then worker.credit else 0

/-- The step is not a fairness probe of a worker of `s` that has to be retried. -/
def ProbesAnswered (s : ℕ) (world : World) (a : Action) : Prop :=
  ∀ p worker, world.threads[a.1]? = some p → p.call = none → p.worker = some worker →
    worker.s = s → worker.pc.Fair → a.2 ≠ .turn .spurious

/-! ## One worker -/

section Worker

variable {s w : ℕ} {v v' : Selector} {access : Access} {events : List Event}

@[simp] theorem highs_append (tasks tasks' : List Task) :
    highs (tasks ++ tasks') = highs tasks + highs tasks' :=
  List.countP_append

theorem PriorityState.recordTask_le_highs (priority : PriorityState) (task : Task) :
    (priority.recordTask task).highStreak ≤ priority.highStreak + highs [task] := by
  by_cases h : task.priority = .high
  · rw [priority.recordTask_high h]
    simp [highs, h]
  · rw [priority.recordTask_low h]
    exact Nat.zero_le _

theorem Selector.potential_of_ne (hv : ∀ task, v.place ≠ .taken task) :
    v.potential = v.priority.highStreak := by
  unfold potential
  split
  · rename_i task heq
    exact absurd heq (hv task)
  · rfl

theorem Selector.potential_enter (priority : PriorityState) :
    (enter priority).potential = priority.highStreak := by
  refine potential_of_ne fun task => ?_
  unfold enter
  split <;> exact nofun

/-- The streak grows with the HIGH tasks that the worker selects. -/
theorem Selector.Moves.potential_le (h : v.Moves s w access events v') :
    v'.potential ≤ v.potential + highs (selections s w events) := by
  cases h with
  | stay | fairLow | high | lower | peers | record => exact Nat.le_add_right _ _
  | leave _ hv =>
      rw [potential_of_ne hv]
      exact Nat.le_add_right _ _
  | enter _ hv =>
      rw [potential_enter, potential_of_ne hv]
      exact Nat.le_add_right _ _
  | reset => exact Nat.zero_le _
  | batch _ priority task hprobes =>
      rw [selections_selected, potential_of_ne hprobes.ne_taken]
      exact v.priority.recordTask_le_highs task
  | pop priority task =>
      rw [selections_selected]
      exact priority.recordTask_le_highs task
  | steal priority victim task =>
      rw [selections_selected]
      exact priority.recordTask_le_highs task

theorem Worker.credit_le (worker : Worker) : worker.credit ≤ worker.selector.potential := by
  unfold credit
  split
  · exact Nat.zero_le _
  · exact le_rfl

/-- A fairness probe that is answered leaves no streak behind. -/
theorem PopPc.credit_tryPriorityQueue (worker : Worker) (site : Site) {priority : TaskPriority}
    (hne : priority ≠ .high) {next : Cursors × Search}
    (hnext : ({ worker with cursors := next.1 }.afterSearch site next.2).credit = 0) :
    (Instr.sched worker.s (.stealBatchAndPop priority worker.w) (selection worker.s worker.w)
      (tryPriorityQueue worker.cursors next)).Forall fun r access _ => access.Pure worker.s →
        (∀ priority, access ≠ .sched worker.s (.stealBatchAndPop priority worker.w) .retry) →
          ({ worker with cursors := r.1 }.afterSearch site r.2).credit = 0 := by
  rintro (task | _ | _) hpure hretry
  · have hlow : task.priority ≠ .high := by
      rw [hpure priority worker.w task rfl]
      exact hne
    have hselector := Worker.selector_execute
      { worker with cursors := (found worker.cursors task).1 } site task
    refine Nat.le_zero.mp ((Worker.credit_le _).trans ?_)
    exact (congrArg Selector.potential hselector).le.trans
      (worker.cursors.priority.recordTask_low hlow).le
  · exact hnext
  · exact absurd rfl (hretry priority)

theorem Worker.credit_fair (worker : Worker) {instr : Instr Worker}
    (hi : worker.instr = some instr) (hfair : worker.pc.Fair) :
    instr.Forall fun worker' access _ => access.Pure worker.s →
      (∀ priority, access ≠ .sched worker.s (.stealBatchAndPop priority worker.w) .retry) →
        worker'.credit = 0 := by
  obtain ⟨s, w, cursors, pc⟩ := worker
  cases pc with
  | pop site pc =>
      cases hi
      refine (Instr.forall_map _ _ _).mpr ?_
      cases pc with
      | fairNormal =>
          exact @PopPc.credit_tryPriorityQueue ⟨s, w, cursors, .pop site .fairNormal⟩ site
            .normal nofun (cursors, .reach .fairLow) (if_pos trivial)
      | fairLow =>
          exact @PopPc.credit_tryPriorityQueue ⟨s, w, cursors, .pop site .fairLow⟩ site
            .low nofun ({ cursors with priority := cursors.priority.reset }, .reach .popLocal)
            (if_neg id)
      | _ => exact hfair.elim
  | _ => exact hfair.elim

/-- A yield is paid for with a full burst, as long as no fairness probe is retried. -/
theorem Worker.credit_of_instr (worker : Worker) {instr : Instr Worker}
    (hi : worker.instr = some instr) (hsteady : worker.selector.Steady) :
    instr.Forall fun worker' access events => access.Pure worker.s →
      (worker.pc.Fair → ∀ priority,
        access ≠ .sched worker.s (.stealBatchAndPop priority worker.w) .retry) →
      HIGH_BURST_LIMIT * access.records .fairnessYields worker.s + worker'.credit ≤
        highs (selections worker.s worker.w events) + worker.credit := by
  by_cases hyield : ∃ site, worker.pc = .pop site .fairnessYield
  · obtain ⟨site, hpc⟩ := hyield
    obtain ⟨s, w, cursors, pc⟩ := worker
    obtain rfl : pc = .pop site .fairnessYield := hpc
    cases hi
    refine (Instr.forall_map _ _ _).mpr fun _ _ _ => ?_
    have hcredit : (⟨s, w, cursors, .pop site .fairnessYield⟩ : Worker).credit =
        HIGH_BURST_LIMIT := hsteady
    rw [hcredit]
    simp [Access.records, afterSearch, goto, credit, WorkerPc.Fair]
  have hrecording : worker.recording worker.s ≠ some .fairnessYields := by
    rw [Worker.recording, if_pos rfl]
    cases hpc : worker.pc with
    | pop site pc =>
        cases pc with
        | fairnessYield => exact absurd ⟨site, hpc⟩ hyield
        | _ => rintro ⟨⟩
    | _ => rintro ⟨⟩
  by_cases hfair : worker.pc.Fair
  · refine ((worker.credit_fair hi hfair).and
      (worker.records .fairnessYields worker.s hi)).mono ?_
    rintro worker' access events ⟨hspent, hrecords⟩ hpure hretry
    rw [hrecords, if_neg hrecording, Nat.mul_zero, hspent hpure (hretry hfair)]
    exact Nat.zero_le _
  · refine ((worker.moves hi).and (worker.records .fairnessYields worker.s hi)).mono ?_
    rintro worker' access events ⟨hmoves, hrecords⟩ - -
    have hcredit : worker.credit = worker.selector.potential := if_neg hfair
    rw [hrecords, if_neg hrecording, Nat.mul_zero, Nat.zero_add, Nat.add_comm, hcredit]
    exact worker'.credit_le.trans hmoves.potential_le

end Worker

/-! ## The threads -/

section Thread

variable {s w : ℕ} {p p' : Thread} {access : Access} {events : List Event}

theorem Thread.credit_eq {worker : Worker} (hw : p.worker = some worker) (hs : worker.s = s) :
    p.credit s = worker.credit := by
  simp [Thread.credit, hw, hs]

theorem Thread.credit_eq_zero (h : p.number s = none) : p.credit s = 0 := by
  unfold Thread.credit
  cases hw : p.worker with
  | none => rfl
  | some worker =>
      refine if_neg fun hs => ?_
      rw [Thread.number_eq_some.mpr ⟨worker, hw, hs, rfl⟩] at h
      cases h

/-- Yields are recorded by workers of `s` outside of calls. -/
theorem Thread.Steps.records_eq_zero (h : p.Steps p' access events)
    (hrecording : p.call.isSome ∨ p.number s = none) :
    access.records .fairnessYields s = 0 := by
  rw [h.records, if_neg]
  unfold Thread.recording
  cases hcall : p.call with
  | some call => exact call.recording_ne .fairnessYields nofun nofun
  | none =>
      have hnone : p.number s = none := hrecording.resolve_left (by simp [hcall])
      intro hrec
      obtain ⟨worker, hw, hrec⟩ := Option.bind_eq_some_iff.mp hrec
      unfold Worker.recording at hrec
      split at hrec
      · rename_i hs
        rw [Thread.number_eq_some.mpr ⟨worker, hw, hs, rfl⟩] at hnone
        cases hnone
      · cases hrec

/-- A step of a worker of `s`. -/
theorem Thread.Steps.credit_le (h : p.Steps p' access events) (hnumber : p.number s = some w)
    (hsteady : ∀ worker, p.worker = some worker → worker.selector.Steady)
    (hpure : access.Pure s)
    (hanswered : ∀ worker, p.call = none → p.worker = some worker → worker.pc.Fair →
      ∀ priority, access ≠ .sched s (.stealBatchAndPop priority w) .retry) :
    HIGH_BURST_LIMIT * access.records .fairnessYields s + p'.credit s ≤
      highs (selections s w events) + p.credit s := by
  cases h with
  | call hout =>
      rename_i worker call call'
      have hsteps : Thread.Steps ⟨worker, some call⟩ ⟨worker, call'⟩ access events := .call hout
      rw [hsteps.records_eq_zero (.inl rfl), Nat.mul_zero, Nat.zero_add]
      exact Nat.le_add_left _ _
  | worker hi hout =>
      rename_i worker worker' instr
      obtain ⟨_, hw, rfl, rfl⟩ := Thread.number_eq_some.mp hnumber
      cases hw
      have hs := (hout _ (worker.ids_of_instr hi)).1
      rw [Thread.credit_eq rfl hs, Thread.credit_eq rfl rfl]
      exact hout _ (worker.credit_of_instr hi (hsteady worker rfl)) hpure
        (hanswered worker rfl rfl)
  | start api now hmay => exact (Nat.zero_add _).le.trans (Nat.le_add_left _ _)

/-- A step of another thread. -/
theorem Thread.Steps.credit_eq_zero (h : p.Steps p' access events)
    (hnumber : p.number s = none) :
    access.records .fairnessYields s = 0 ∧ p'.credit s = 0 :=
  ⟨h.records_eq_zero (.inr hnumber),
    Thread.credit_eq_zero ((h.number_eq s).trans hnumber)⟩

end Thread

/-! ## Runs -/

/-- A batch steal is retried because the environment says so. -/
def SchedOp.Excused {α : Type} (turn : Turn) : SchedOp α → α → Prop
  | stealBatchAndPop _ _, .retry => turn = .spurious
  | _, _ => True

theorem SchedOp.Effect.excused {α : Type} {op : SchedOp α} {turn : Turn} {r : α}
    {sd sd' : Sched} (h : op.Effect turn r sd sd') : op.Excused turn r := by
  cases h with
  | batchRetry => exact rfl
  | _ => trivial

theorem Access.Fires.excused {α : Type} {op : SchedOp α} {i s : ℕ} {turn : Turn} {r : α}
    {events : List Event} {m m' : Mem} (h : (Access.sched s op r).Fires i turn events m m') :
    op.Excused turn r := by
  cases h with
  | sched _ _ _ sd h => exact h.excused

section Law

variable {world world' : World} {a : Action} {p p' : Thread} {access : Access}
  {events : List Event} {s w : ℕ}

theorem Step.not_retried (h : Step world a world' p p' access events)
    (hanswered : ProbesAnswered s world a) {worker : Worker} (hcall : p.call = none)
    (hw : p.worker = some worker) (hs : worker.s = s) (hfair : worker.pc.Fair)
    (priority : TaskPriority) :
    access ≠ .sched s (.stealBatchAndPop priority w) .retry := by
  rintro rfl
  exact hanswered p worker h.moves.thread hcall hw hs hfair (Choice.eq_spurious h.fires.excused)

/-- What a step of any thread does to the credit of the threads of `s`. -/
theorem Step.credit_le (h : Step world a world' p p' access events) (hr : Reachable world)
    (hanswered : ProbesAnswered s world a) (hnumber : p.number s = some w) :
    HIGH_BURST_LIMIT * access.records .fairnessYields s + p'.credit s ≤
      highs (selections s w events) + p.credit s := by
  refine h.steps.credit_le hnumber (hr.steady _ _ h.moves.thread) (h.pure hr s) ?_
  intro worker hcall hw hfair priority
  obtain ⟨_, hw', hs, -⟩ := Thread.number_eq_some.mp hnumber
  cases hw.symm.trans hw'
  exact h.not_retried hanswered hcall hw hs hfair priority

theorem yields_le_of_answered {usizeBits clients : ℕ} {as : List Action}
    (h : scheduler.Run (ProbesAnswered s) (World.init usizeBits clients) as world) :
    HIGH_BURST_LIMIT * (world.mem.scheds s).stats.get .fairnessYields +
      world.sum (Thread.credit s) ≤ highs (allSelections s world.mem.log) := by
  refine invariant_of_run (fun c => HIGH_BURST_LIMIT *
    (c.mem.scheds s).stats.get .fairnessYields + c.sum (Thread.credit s) ≤
      highs (allSelections s c.mem.log)) ?_ ?_ h
  · rw [World.sum_init _ rfl]
    exact Nat.zero_le _
  · intro c a c' p p' access events hs hr hanswered hc
    have hstats := hs.stats hr.present .fairnessYields s
    have hsum := hs.moves.sum_of_new_eq_zero (Thread.credit s) fun q hq => by
      obtain ⟨id, -, rfl⟩ := Access.exists_of_new hq
      exact ite_self _
    have hthread : HIGH_BURST_LIMIT * access.records .fairnessYields s + p'.credit s ≤
        highs (allSelections s events) + p.credit s := by
      cases hnumber : p.number s with
      | none =>
          obtain ⟨hrecords, hcredit⟩ := hs.steps.credit_eq_zero hnumber
          rw [hrecords, hcredit]
          exact Nat.zero_le _
      | some w =>
          have hle := hs.credit_le hr hanswered hnumber
          have hselected : highs (selections s w events) ≤ highs (allSelections s events) :=
            (selections_sublist s w events).countP_le
          omega
    rw [hs.fires.log, allSelections_append, highs_append, hstats, Nat.mul_add]
    omega

/-- A worker whose streak is spent can pay with what it has selected since. -/
theorem credit_le_of_answered {as : List Action} {i : ℕ} (hr : Reachable world)
    (h : scheduler.Run (ProbesAnswered s) world as world') (hp : world.threads[i]? = some p)
    (hnumber : p.number s = some w) (hspent : p.credit s = 0) :
    ∃ p', world'.threads[i]? = some p' ∧ p'.number s = some w ∧
      p'.credit s ≤ highs (selections s w (since world world')) := by
  refine h.invariant (fun c => ∃ q, c.threads[i]? = some q ∧ q.number s = some w ∧
    q.credit s ≤ highs (selections s w (since world c))) ⟨p, hp, hnumber, ?_⟩
      fun c a c' hreach hanswered hc hstep => ?_
  · exact hspent.le.trans (Nat.zero_le _)
  · obtain ⟨q, hq, hnumber, hcredit⟩ := hc
    have hrc := hr.trans hreach
    obtain ⟨p, p', access, events, hs⟩ := exists_step hstep
    rw [hs.since_eq hreach, selections_append, highs_append]
    by_cases hi : i = a.1
    · subst hi
      cases hs.moves.thread.symm.trans hq
      have hle := hs.credit_le hrc hanswered hnumber
      exact ⟨p', hs.moves.self, (hs.steps.number_eq s).trans hnumber, by omega⟩
    · exact ⟨q, hs.moves.other hi hq, hnumber, Nat.le_add_right_of_le hcredit⟩

/-- In a run in which no fairness probe is retried, every yield is preceded by a full burst
of HIGH selections, and so is every yield of a worker after its previous one. -/
theorem fairness_yields_le {usizeBits clients : ℕ} {as bs : List Action} (s : ℕ)
    (h : scheduler.Run (ProbesAnswered s) (World.init usizeBits clients) as world)
    (h' : scheduler.Run (ProbesAnswered s) world bs world') :
    HIGH_BURST_LIMIT * (world'.mem.scheds s).stats.fairnessYields ≤
        highs (allSelections s world'.mem.log) ∧
      ∀ (i : ℕ) (p p' : Thread) (worker worker' : Worker) (site site' : Site),
        world.threads[i]? = some p → p.worker = some worker → worker.s = s →
          worker.pc = .pop site .fairNormal →
          world'.threads[i]? = some p' → p'.worker = some worker' →
            worker'.pc = .pop site' .fairnessYield →
              HIGH_BURST_LIMIT ≤ highs (selections s worker.w (since world world')) := by
  have hr : Reachable world := ⟨usizeBits, clients, h.reachable⟩
  refine ⟨(Nat.le_add_right _ _).trans (yields_le_of_answered (h.append h')), ?_⟩
  rintro i p p' worker worker' site site' hp hw rfl hpc hp' hw' hpc'
  have hspent : p.credit worker.s = 0 := by
    rw [Thread.credit_eq hw rfl, Worker.credit, hpc]
    exact if_pos trivial
  obtain ⟨_, hp'', hnumber, hcredit⟩ := credit_le_of_answered hr h' hp
    (Thread.number_eq_some.mpr ⟨worker, hw, rfl, rfl⟩) hspent
  cases hp'.symm.trans hp''
  obtain ⟨_, hw'', hs, -⟩ := Thread.number_eq_some.mp hnumber
  cases hw'.symm.trans hw''
  have hsteady := (hr.trans h'.reachable).steady i p' hp' worker' hw'
  have hfull : worker'.credit = HIGH_BURST_LIMIT := by
    obtain ⟨t, w, cursors, pc⟩ := worker'
    obtain rfl : pc = .pop site' .fairnessYield := hpc'
    exact hsteady
  rwa [Thread.credit_eq hw' hs, hfull] at hcredit

/-- A search of the worker takes a HIGH task with `n` others behind it, and the worker runs
them all. -/
def highBatch (n : ℕ) : List Action :=
  (1, .turn .go) :: (1, .turn (.pick n)) :: steps 1 (4 * n + 3)

/-- Client 0 submits a NORMAL task and 32 HIGH tasks. The worker runs the HIGH tasks, of
which each search takes half of what is left. -/
def fullBurst : List Action :=
  creation 0 ++ (0, .call (.pushTask 0 7 9)) :: steps 0 9 ++
    (List.replicate 32 ((0, .call (.pushPriority 0 8 9 .high)) :: steps 0 9)).flatten ++
    ([15, 7, 3, 1, 0, 0].map highBatch).flatten

theorem fairness_yields_le_fullBurst :
    HIGH_BURST_LIMIT * ((World.after 1 (fullBurst ++ steps 1 1)
        (by decide +kernel)).mem.scheds 0).stats.fairnessYields ≤
      highs (allSelections 0 (World.after 1 (fullBurst ++ steps 1 1) (by decide +kernel)).mem.log) ∧
      ((World.after 1 (fullBurst ++ steps 1 1)
        (by decide +kernel)).mem.scheds 0).stats.fairnessYields = 1 := by
  have hrun : scheduler.Run (ProbesAnswered 0) (World.init 64 1) (fullBurst ++ steps 1 1)
      (World.after 1 (fullBurst ++ steps 1 1) (by decide +kernel)) :=
    World.run_after_of_runIf (fun _ a => decide (a.2 ≠ .turn .spurious))
      (fun _ _ hok _ _ _ _ _ _ _ => of_decide_eq_true hok) _ (by decide +kernel)
  exact ⟨(fairness_yields_le 0 hrun .nil).1, by decide +kernel⟩

/-- The first fairness probe after the burst is retried, and the worker records a second
yield for the same burst. -/
theorem yield_recorded_twice : ∃ world, Reachable world ∧
    (world.mem.scheds 0).stats.fairnessYields = 2 ∧
      highs (allSelections 0 world.mem.log) = 32 ∧
      ¬ HIGH_BURST_LIMIT * (world.mem.scheds 0).stats.fairnessYields ≤
        highs (allSelections 0 world.mem.log) :=
  ⟨.after 1 (fullBurst ++ [(1, .turn .go), (1, .turn .spurious), (1, .turn .go)])
    (by decide +kernel), World.reachable_after _ _ _, by decide +kernel⟩

end Law

end UpgradeSched
