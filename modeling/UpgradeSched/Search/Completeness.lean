import UpgradeSched.Interleaving.Solo
import UpgradeSched.Scheduler.World
import UpgradeSched.Search.Victims

/-!
# A search without disturbance

While no other thread makes a step and no steal has to be retried, a search finds a task
whenever there is one in an injector or a local deque. It takes the task from the queues
and leaves the rest in them; other workers lose at most this task. The streak that it
leaves behind depends on the priority of the task and on whether the fairness probes came
first and found nothing.
-/

namespace UpgradeSched

open Interleaving

/-- The task comes out of the queues and nothing else does. No deque changes but that of
worker `w`, except that the task may come from one. -/
structure QueueSystem.Loses (w : ℕ) (task : Task) (queues queues' : QueueSystem) : Prop where
  tasks : queues'.tasks + {task} = queues.tasks
  deque : ∀ v ≠ w, queues'.deque v = queues.deque v ∨ queues.deque v = task :: queues'.deque v

section Queues

variable {queues : QueueSystem} {w : ℕ} {task : Task} {rest : List Task}

theorem QueueSystem.loses_moveBatch {priority : TaskPriority} {k : ℕ}
    (h : queues.injector priority = task :: rest) (hw : w < queues.locals.length) :
    Loses w task queues (queues.moveBatch priority w k rest) :=
  ⟨queues.tasks_moveBatch h hw, fun v hv => .inl
    ((queues.deque_moveBatch priority rest hw v).trans (if_neg (Ne.symm hv)))⟩

theorem QueueSystem.loses_setDeque {v : ℕ} (h : queues.deque v = task :: rest) :
    Loses w task queues (queues.setDeque v rest) := by
  refine ⟨queues.tasks_setDeque_of_cons h, fun u _ => ?_⟩
  by_cases huv : v = u
  · subst huv
    rw [queues.deque_setDeque, if_pos ⟨rfl, queues.length_pos_of_deque_eq_cons h⟩]
    exact .inr h
  · rw [queues.deque_setDeque, if_neg fun hand => huv hand.1]
    exact .inl rfl

end Queues

/-! ## The operations of a search -/

namespace SchedOp

variable {turn : Turn} {sd sd' : Sched}

theorem exec_record {stat : Stat} {r : Unit}
    (h : (record stat).exec turn sd = some (r, sd')) : sd'.queues = sd.queues := by
  cases turn <;> cases h
  rfl

theorem exec_getStealer {victim : ℕ} {r : Bool}
    (h : (getStealer victim).exec turn sd = some (r, sd')) :
    r = decide (victim < sd.queues.workerCount) ∧ sd'.queues = sd.queues := by
  cases turn <;> cases h
  exact ⟨rfl, rfl⟩

theorem exec_stealBatchAndPop {priority : TaskPriority} {w : ℕ} {r : Steal}
    (h : (stealBatchAndPop priority w).exec turn sd = some (r, sd')) (hturn : turn ≠ .spurious) :
    (∃ task k rest, r = .success task ∧ sd.queues.injector priority = task :: rest ∧
      w < sd.queues.locals.length ∧ sd'.queues = sd.queues.moveBatch priority w k rest) ∨
        (r = .empty ∧ sd.queues.injector priority = [] ∧ sd'.queues = sd.queues) := by
  cases turn with
  | go => cases h
  | spurious => exact absurd rfl hturn
  | pick k =>
      simp only [exec, QueueSystem.stealBatchAndPop] at h
      split at h
      · rename_i hnil
        cases h
        exact .inr ⟨rfl, hnil, rfl⟩
      · rename_i task rest hcons
        split at h
        · rename_i hk
          cases h
          exact .inl ⟨task, k, rest, rfl, hcons, hk.2, rfl⟩
        · cases h

theorem exec_popLocal {w : ℕ} {r : Option Task}
    (h : (popLocal w).exec turn sd = some (r, sd')) :
    (∃ task rest, r = some task ∧ sd.queues.deque w = task :: rest ∧
      sd'.queues = sd.queues.setDeque w rest) ∨
        (r = none ∧ sd.queues.deque w = [] ∧ sd'.queues = sd.queues) := by
  cases turn with
  | go =>
      simp only [exec, QueueSystem.popLocal] at h
      split at h
      · rename_i hnil
        cases h
        exact .inr ⟨rfl, hnil, rfl⟩
      · rename_i task rest hcons
        cases h
        exact .inl ⟨task, rest, rfl, hcons, rfl⟩
  | _ => cases h

theorem exec_steal {victim : ℕ} {r : Steal}
    (h : (steal victim).exec turn sd = some (r, sd')) (hturn : turn ≠ .spurious) :
    (∃ task rest, r = .success task ∧ sd.queues.deque victim = task :: rest ∧
      sd'.queues = sd.queues.setDeque victim rest) ∨
        (r = .empty ∧ sd.queues.deque victim = [] ∧ sd'.queues = sd.queues) := by
  cases turn with
  | go =>
      simp only [exec, QueueSystem.steal] at h
      split at h
      · rename_i hnil
        cases h
        exact .inr ⟨rfl, hnil, rfl⟩
      · rename_i task rest hcons
        cases h
        exact .inl ⟨task, rest, rfl, hcons, rfl⟩
  | spurious => exact absurd rfl hturn
  | pick k => cases h

end SchedOp

/-! ## The steps of a search -/

/-- Thread `j` is `worker` at this point of a search, with the given queues. -/
structure Searches (j : ℕ) (worker : Worker) (site : Site) (cursors : Cursors)
    (search : Search) (queues : QueueSystem) (world : World) : Prop where
  thread : world.threads[j]? =
    some ⟨some ({ worker with cursors := cursors }.afterSearch site search), none⟩
  queues : (world.mem.scheds worker.s).queues = queues

/-- The choices of a thread that do not make a steal fail. -/
def NoRetry (choice : Choice) : Prop := choice ≠ .turn .spurious

section Step

variable {j : ℕ} {worker : Worker} {site : Site} {cursors : Cursors} {pc : PopPc}
  {queues : QueueSystem} {world : World} {goal : World → Prop}

/-- What follows a search does not depend on where the worker was. -/
theorem Worker.afterSearch_goto (worker : Worker) (place : WorkerPc) (cursors : Cursors)
    (site : Site) (search : Search) :
    { worker.goto place with cursors := cursors }.afterSearch site search =
      { worker with cursors := cursors }.afterSearch site search := by
  rcases search with pc | (task | _ | _)
  · rfl
  · cases site <;> rfl
  · rfl
  · cases site <;> rfl

/-- The instruction of a worker that searches. -/
theorem Worker.instr_afterSearch (site : Site) {α : Type} {op : SchedOp α}
    {events : α → List Event} {next : α → Cursors × Search}
    (hpc : pc.instr worker.s worker.w cursors = .sched worker.s op events next) :
    ({ worker with cursors := cursors }.afterSearch site (.reach pc)).instr =
      some (.sched worker.s op events fun r =>
        { worker with cursors := (next r).1 }.afterSearch site (next r).2) := by
  have hinstr : ({ worker with cursors := cursors }.afterSearch site (.reach pc)).instr =
      some ((pc.instr worker.s worker.w cursors).map fun r =>
        { { worker with cursors := cursors }.goto (.pop site pc) with
          cursors := r.1 }.afterSearch site r.2) :=
    rfl
  rw [hinstr, hpc, Instr.map]
  simp only [Worker.afterSearch_goto]

/-- A step of a worker that searches is a step on the queues. -/
theorem Searches.step_turn (h : Searches j worker site cursors (.reach pc) queues world)
    {α : Type} {op : SchedOp α} {events : α → List Event} {next : α → Cursors × Search}
    (hpc : pc.instr worker.s worker.w cursors = .sched worker.s op events next) (turn : Turn) :
    scheduler.step world (j, .turn turn) =
      (op.exec turn (world.mem.scheds worker.s)).map fun r =>
        ⟨(world.mem.setSched worker.s r.2).emit (events r.1), world.threads.set j
          ⟨some ({ worker with cursors := (next r.1).1 }.afterSearch site (next r.1).2),
            none⟩⟩ := by
  have hinstr := Worker.instr_afterSearch site hpc
  simp only [System.step, h.thread, scheduler, Thread.instr, hinstr, Option.map_some,
    Instr.map, Instr.exec, Option.map_map, Choice.toTurn]
  cases op.exec turn (world.mem.scheds worker.s) with
  | none => rfl
  | some r => simp [Thread.inWorker]

/-- The worker after a step of its search. -/
theorem Searches.exists_of_step (h : Searches j worker site cursors (.reach pc) queues world)
    {α : Type} {op : SchedOp α} {events : α → List Event} {next : α → Cursors × Search}
    (hpc : pc.instr worker.s worker.w cursors = .sched worker.s op events next) {turn : Turn}
    {world' : World} (hstep : scheduler.step world (j, .turn turn) = some world') :
    ∃ r sd, op.exec turn (world.mem.scheds worker.s) = some (r, sd) ∧
      Searches j worker site (next r).1 (next r).2 sd.queues world' := by
  rw [h.step_turn hpc] at hstep
  obtain ⟨⟨r, sd⟩, hexec, rfl⟩ := Option.map_eq_some_iff.mp hstep
  refine ⟨r, sd, hexec, ?_, ?_⟩
  · have hlt := (List.getElem?_eq_some_iff.mp h.thread).1
    simp [hlt]
  · simp [Mem.emit, Mem.setSched]

/-- The step of a worker that searches, when its result is known. -/
theorem Searches.exists_step (h : Searches j worker site cursors (.reach pc) queues world)
    {α : Type} {op : SchedOp α} {events : α → List Event} {next : α → Cursors × Search}
    (hpc : pc.instr worker.s worker.w cursors = .sched worker.s op events next) (turn : Turn)
    (r : α) {queues' : QueueSystem} (hexec : ∀ sd : Sched, sd.queues = queues →
      ∃ sd', op.exec turn sd = some (r, sd') ∧ sd'.queues = queues') :
    ∃ world', scheduler.step world (j, .turn turn) = some world' ∧
      Searches j worker site (next r).1 (next r).2 queues' world' := by
  obtain ⟨sd', hsome, rfl⟩ := hexec _ h.queues
  have hstep := (h.step_turn hpc turn).trans (congrArg (Option.map _) hsome)
  obtain ⟨_, _, hexec', hsearches⟩ := h.exists_of_step hpc hstep
  cases hsome.symm.trans hexec'
  exact ⟨_, hstep, hsearches⟩

/-- A worker that searches does not make a call. -/
theorem Searches.step_call (h : Searches j worker site cursors (.reach pc) queues world)
    (api : ApiCall) : scheduler.step world (j, .call api) = none := by
  have hmay : ¬ (⟨some ({ worker with cursors := cursors }.afterSearch site (.reach pc)),
      none⟩ : Thread).MayCall := by
    rintro ⟨-, hnone | hsome⟩
    · cases hnone
    · cases hsome
  simp only [System.step, h.thread, scheduler, Thread.instr, if_neg hmay, Option.map_none]

/-- One place of a search: it is enough that the operation can be made and that the goal
is inevitable after each of its results. -/
theorem Searches.inevitable (h : Searches j worker site cursors (.reach pc) queues world)
    {α : Type} {op : SchedOp α} {events : α → List Event} {next : α → Cursors × Search}
    (hpc : pc.instr worker.s worker.w cursors = .sched worker.s op events next)
    (hmoves : ∃ turn ≠ .spurious, (op.exec turn (world.mem.scheds worker.s)).isSome)
    (hnext : ∀ turn r sd, turn ≠ .spurious →
      op.exec turn (world.mem.scheds worker.s) = some (r, sd) → ∀ world',
        Searches j worker site (next r).1 (next r).2 sd.queues world' →
          scheduler.Inevitable j NoRetry goal world') :
    scheduler.Inevitable j NoRetry goal world := by
  refine .later ?_ fun choice world' hchoice hstep => ?_
  · obtain ⟨turn, hturn, hsome⟩ := hmoves
    have hstep : (scheduler.step world (j, .turn turn)).isSome := by
      rw [h.step_turn hpc, Option.isSome_map]
      exact hsome
    obtain ⟨world', hstep⟩ := Option.isSome_iff_exists.mp hstep
    exact ⟨.turn turn, world', fun heq => hturn (Choice.turn.inj heq), hstep⟩
  · cases choice with
    | call api =>
        rw [h.step_call] at hstep
        cases hstep
    | turn turn =>
        obtain ⟨r, sd, hexec, hsearches⟩ := h.exists_of_step hpc hstep
        exact hnext turn r sd (fun heq => hchoice (by rw [heq])) hexec _ hsearches

end Step

/-! ## The places of a search -/

/-- The search is over, with a result that the queues before it account for. `record` says
what the task does to the streak. -/
def Answered (j : ℕ) (worker : Worker) (site : Site) (queues : QueueSystem)
    (record : Task → PriorityState) (world : World) : Prop :=
  ∃ cursors result queues', Searches j worker site cursors (.ret result) queues' world ∧
    (result = .empty ∧ queues.tasks = 0 ∧ queues' = queues ∨
      ∃ task, result = .task task ∧ queues.Loses worker.w task queues' ∧
        cursors.priority = record task)

section Places

variable {j : ℕ} {worker : Worker} {site : Site} {cursors : Cursors} {queues : QueueSystem}
  {world : World} {record : Task → PriorityState}

theorem Searches.answered_found {task : Task} {queues' : QueueSystem}
    (h : Searches j worker site (PopPc.found cursors task).1 (PopPc.found cursors task).2
      queues' world) (hloses : queues.Loses worker.w task queues')
    (hrecord : cursors.priority.recordTask task = record task) :
    scheduler.Inevitable j NoRetry (Answered j worker site queues record) world :=
  .now ⟨_, _, _, h, .inr ⟨task, rfl, hloses, hrecord⟩⟩

/-- A probe of an injector. -/
theorem Searches.answered_injector {pc : PopPc} {priority : TaskPriority}
    {next : Cursors × Search} (h : Searches j worker site cursors (.reach pc) queues world)
    (hpc : pc.instr worker.s worker.w cursors =
      .sched worker.s (.stealBatchAndPop priority worker.w)
        (PopPc.selection worker.s worker.w) (PopPc.tryPriorityQueue cursors next))
    (hw : worker.w < queues.workerCount)
    (hrecord : queues.injector priority ≠ [] →
      ∀ task, cursors.priority.recordTask task = record task)
    (hnext : queues.injector priority = [] → ∀ world',
      Searches j worker site next.1 next.2 queues world' →
        scheduler.Inevitable j NoRetry (Answered j worker site queues record) world') :
    scheduler.Inevitable j NoRetry (Answered j worker site queues record) world := by
  refine h.inevitable hpc ⟨.pick 0, nofun, ?_⟩ fun turn r sd hturn hexec world' h' => ?_
  · simp only [SchedOp.exec, QueueSystem.stealBatchAndPop, h.queues]
    cases queues.injector priority with
    | nil => rfl
    | cons => simp [show worker.w < queues.locals.length from hw]
  · obtain rfl := h.queues
    rcases SchedOp.exec_stealBatchAndPop hexec hturn with
      ⟨task, k, rest, rfl, hinjector, hlt, hqueues⟩ | ⟨rfl, hinjector, hqueues⟩
    · rw [hqueues] at h'
      exact h'.answered_found (QueueSystem.loses_moveBatch hinjector hlt)
        (hrecord (by rw [hinjector]; exact nofun) task)
    · rw [hqueues] at h'
      exact hnext hinjector world' h'

/-- The attempt at one victim. -/
theorem Searches.answered_steal {victim : ℕ} {victims : List ℕ}
    (h : Searches j worker site cursors (.reach (.steal victim victims)) queues world)
    (hrecord : ∀ task, cursors.priority.recordTask task = record task)
    (hnext : queues.deque victim = [] → ∀ world',
      Searches j worker site cursors (PopPc.probe victims) queues world' →
        scheduler.Inevitable j NoRetry (Answered j worker site queues record) world') :
    scheduler.Inevitable j NoRetry (Answered j worker site queues record) world := by
  refine h.inevitable rfl ⟨.go, nofun, rfl⟩ fun turn r sd hturn hexec world₁ h₁ => ?_
  obtain rfl := h.queues
  rcases SchedOp.exec_steal hexec hturn with
    ⟨task, rest, rfl, hdeque, hqueues⟩ | ⟨rfl, hdeque, hqueues⟩
  · refine h₁.inevitable rfl ⟨.go, nofun, rfl⟩ fun turn r sd' _ hexec world₂ h₂ => ?_
    rw [SchedOp.exec_record hexec, h₁.queues, hqueues] at h₂
    exact h₂.answered_found (QueueSystem.loses_setDeque hdeque) (hrecord task)
  · refine h₁.inevitable rfl ⟨.go, nofun, rfl⟩ fun turn r sd' _ hexec world₂ h₂ => ?_
    rw [SchedOp.exec_record hexec, h₁.queues, hqueues] at h₂
    exact hnext hdeque world₂ h₂

/-- The victims one after the other: one of them has a task, or they are all idle. -/
theorem Searches.answered_probe {victims : List ℕ}
    (h : Searches j worker site cursors (PopPc.probe victims) queues world)
    (hvictims : ∀ victim ∈ victims, victim < queues.workerCount)
    (hrest : (∀ victim ∈ victims, queues.deque victim = []) → queues.tasks = 0)
    (hrecord : ∀ task, cursors.priority.recordTask task = record task) :
    scheduler.Inevitable j NoRetry (Answered j worker site queues record) world := by
  induction victims generalizing world with
  | nil => exact .now ⟨_, _, _, h, .inl ⟨rfl, hrest (by simp), rfl⟩⟩
  | cons victim victims ih =>
      refine h.inevitable rfl ⟨.go, nofun, rfl⟩ fun turn r sd _ hexec world₁ h₁ => ?_
      obtain ⟨rfl, hqueues⟩ := SchedOp.exec_getStealer hexec
      rw [hqueues, h.queues, decide_eq_true (hvictims victim List.mem_cons_self)] at h₁
      refine h₁.inevitable rfl ⟨.go, nofun, rfl⟩ fun turn r sd' _ hexec world₂ h₂ => ?_
      rw [SchedOp.exec_record hexec, h₁.queues] at h₂
      refine h₂.answered_steal hrecord fun hdeque world₃ h₃ => ?_
      refine ih h₃ (fun v hv => hvictims v (List.mem_cons_of_mem _ hv)) fun hidle => hrest ?_
      exact fun v hv => (List.mem_cons.mp hv).elim (fun heq => heq ▸ hdeque) (hidle v)

/-- The victims of a worker are all workers whose deques it has not looked at. -/
theorem QueueSystem.tasks_eq_zero_of_victims {steal : StealState}
    (hid : steal.workerId < steal.workerCount)
    (hcount : steal.workerCount ≤ 2 ^ (steal.usizeBits - 1))
    (hdeques : queues.workerCount = steal.workerCount)
    (hinjector : ∀ priority, queues.injector priority = [])
    (hown : queues.deque steal.workerId = [])
    (hvictims : ∀ victim ∈ steal.victims.1, queues.deque victim = []) : queues.tasks = 0 := by
  refine queues.tasks_eq_zero_iff.mpr ⟨hinjector, fun v hv => ?_⟩
  rw [hdeques] at hv
  by_cases hcaller : v = steal.workerId
  · rwa [hcaller]
  · exact hvictims v ((StealState.mem_victims hid hcount).mpr ⟨hcaller, hv⟩)

/-- The search from the local deque on. -/
theorem Searches.answered_popLocal
    (h : Searches j worker site cursors (.reach .popLocal) queues world)
    (hid : worker.w < queues.workerCount)
    (hsteal : cursors.steal.workerId = worker.w ∧
      cursors.steal.workerCount = queues.workerCount)
    (hcount : queues.workerCount ≤ 2 ^ (cursors.steal.usizeBits - 1))
    (hrecord : ∀ task, cursors.priority.recordTask task = record task) :
    scheduler.Inevitable j NoRetry (Answered j worker site queues record) world := by
  refine h.inevitable rfl ⟨.go, nofun, rfl⟩ fun turn r sd _ hexec world₁ h₁ => ?_
  obtain rfl := h.queues
  rcases SchedOp.exec_popLocal hexec with
    ⟨task, rest, rfl, hdeque, hqueues⟩ | ⟨rfl, hown, hqueues⟩
  · rw [hqueues] at h₁
    exact h₁.answered_found (QueueSystem.loses_setDeque hdeque) (hrecord task)
  rw [hqueues] at h₁
  refine h₁.answered_injector rfl hid (fun _ => hrecord) fun hhigh world₂ h₂ => ?_
  refine h₂.answered_injector rfl hid (fun _ => hrecord) fun hnormal world₃ h₃ => ?_
  refine h₃.answered_injector rfl hid (fun _ => hrecord) fun hlow world₄ h₄ => ?_
  obtain ⟨hworker, hdeques⟩ := hsteal
  rw [← hdeques] at hcount hid
  rw [← hworker] at hid hown
  refine Searches.answered_probe h₄ (fun victim hvictim => ?_) (fun hidle => ?_) hrecord
  · exact hdeques ▸ ((StealState.mem_victims hid hcount).mp hvictim).2
  · refine QueueSystem.tasks_eq_zero_of_victims hid hcount hdeques.symm (fun priority => ?_)
      hown hidle
    cases priority with
    | high => exact hhigh
    | normal => exact hnormal
    | low => exact hlow

/-- What a search does to the streak, from the streak and the injectors that it finds. -/
def recorded (priority : PriorityState) (queues : QueueSystem) (task : Task) : PriorityState :=
  if task.priority ≠ .high then ⟨0⟩
  else if priority.fairnessDue ∧ queues.normal = [] ∧ queues.low = [] then ⟨1⟩
  else ⟨priority.highStreak + 1⟩

theorem recordTask_eq_recorded {priority : PriorityState}
    (h : ¬(priority.fairnessDue ∧ queues.normal = [] ∧ queues.low = [])) (task : Task) :
    priority.recordTask task = recorded priority queues task := by
  unfold recorded PriorityState.recordTask
  rw [if_neg h]
  cases task.priority <;> rfl

theorem recordTask_reset_eq_recorded {priority : PriorityState}
    (h : priority.fairnessDue ∧ queues.normal = [] ∧ queues.low = []) (task : Task) :
    priority.reset.recordTask task = recorded priority queues task := by
  unfold recorded PriorityState.recordTask
  rw [if_pos h]
  cases task.priority <;> rfl

/-- A search from its start. -/
theorem Searches.answered
    (h : Searches j worker site cursors (.reach (.enter cursors)) queues world)
    (hid : worker.w < queues.workerCount)
    (hsteal : cursors.steal.workerId = worker.w ∧
      cursors.steal.workerCount = queues.workerCount)
    (hcount : queues.workerCount ≤ 2 ^ (cursors.steal.usizeBits - 1)) :
    scheduler.Inevitable j NoRetry
      (Answered j worker site queues (recorded cursors.priority queues)) world := by
  unfold PopPc.enter at h
  split at h
  · rename_i hdue
    refine h.inevitable rfl ⟨.go, nofun, rfl⟩ fun turn r sd _ hexec world₁ h₁ => ?_
    rw [SchedOp.exec_record hexec, h.queues] at h₁
    refine h₁.answered_injector rfl hid (fun hne => recordTask_eq_recorded fun hall =>
      hne hall.2.1) fun hnormal world₂ h₂ => ?_
    refine h₂.answered_injector rfl hid (fun hne => recordTask_eq_recorded fun hall =>
      hne hall.2.2) fun hlow world₃ h₃ => ?_
    exact Searches.answered_popLocal h₃ hid hsteal hcount
      (recordTask_reset_eq_recorded ⟨hdue, hnormal, hlow⟩)
  · rename_i hdue
    exact h.answered_popLocal hid hsteal hcount (recordTask_eq_recorded fun hall => hdue hall.1)

end Places

/-! ## The search as a whole -/

section Complete

variable {j bits cursor : ℕ} {policy : StealPolicy} {worker : Worker} {site : Site}
  {world : World}

/-- A search of a worker of `n` that nobody disturbs comes to an end and does not ask for a
retry. It finds nothing exactly when all injectors and deques are empty. Otherwise it
returns a task, and the queues lose this task and nothing else. -/
theorem search_complete (site : Site)
    (hthread : world.threads[j]? = some ⟨some (worker.search site), none⟩)
    (hid : worker.w < (world.mem.scheds worker.s).queues.workerCount)
    (hsteal : worker.cursors.steal =
      ⟨bits, worker.w, (world.mem.scheds worker.s).queues.workerCount, policy, cursor⟩)
    (hcount : (world.mem.scheds worker.s).queues.workerCount ≤ 2 ^ (bits - 1)) :
    scheduler.Inevitable j NoRetry
      (fun world' => ∃ cursors result,
        world'.threads[j]? = some ⟨some ({ worker with cursors := cursors }.afterSearch site
          (.ret result)), none⟩ ∧
        (result = .empty ↔
          (∀ priority, (world.mem.scheds worker.s).queues.injector priority = []) ∧
            ∀ v < (world.mem.scheds worker.s).queues.workerCount,
              (world.mem.scheds worker.s).queues.deque v = []) ∧
        (result ≠ .empty → ∃ task, result = .task task ∧
          (world'.mem.scheds worker.s).queues.tasks + {task} =
            (world.mem.scheds worker.s).queues.tasks ∧
          (∀ v ≠ worker.w,
            (world'.mem.scheds worker.s).queues.deque v =
                (world.mem.scheds worker.s).queues.deque v ∨
              (world.mem.scheds worker.s).queues.deque v =
                task :: (world'.mem.scheds worker.s).queues.deque v) ∧
          cursors.priority.highStreak =
            if task.priority ≠ .high then 0
            else if worker.cursors.priority.fairnessDue ∧
                (world.mem.scheds worker.s).queues.normal = [] ∧
                (world.mem.scheds worker.s).queues.low = [] then 1
            else worker.cursors.priority.highStreak + 1))
      world := by
  have h : Searches j worker site worker.cursors (.reach (.enter worker.cursors))
      (world.mem.scheds worker.s).queues world := ⟨hthread, rfl⟩
  refine (h.answered hid (by rw [hsteal]; exact ⟨rfl, rfl⟩) (by rwa [hsteal])).mono ?_
  rintro world' ⟨cursors, result, queues', hsearches, hresult⟩
  obtain rfl := hsearches.queues
  refine ⟨cursors, result, hsearches.thread, ?_, fun hne => ?_⟩
  · rw [← QueueSystem.tasks_eq_zero_iff]
    rcases hresult with ⟨rfl, hzero, -⟩ | ⟨task, rfl, hloses, -⟩
    · exact iff_of_true rfl hzero
    · exact iff_of_false nofun fun hzero =>
        Multiset.singleton_ne_zero task (add_eq_zero.mp (hloses.tasks.trans hzero)).2
  · rcases hresult with ⟨rfl, -⟩ | ⟨task, rfl, hloses, hrecord⟩
    · exact absurd rfl hne
    · refine ⟨task, rfl, hloses.tasks, hloses.deque, ?_⟩
      rw [hrecord]
      unfold recorded
      split
      · rfl
      · split <;> rfl

/-- One of two workers starts its first search after a submission, and finds the task. -/
theorem search_complete_afterSubmission : ∃ world',
    scheduler.Reachable (World.after 1 (creationOfTwo ++
      (0, .call (.pushTask 0 7 9)) :: steps 0 9) (by decide +kernel)) world' ∧
      ∃ cursors task, world'.threads[1]? = some ⟨some
        ({ Worker.new 64 0 0 2 with cursors := cursors }.afterSearch .fast
          (.ret (.task task))), none⟩ := by
  have hcomplete := @search_complete 1 64 0 .roundRobin (Worker.new 64 0 0 2)
    (World.after 1 (creationOfTwo ++ (0, .call (.pushTask 0 7 9)) :: steps 0 9)
      (by decide +kernel)) .fast rfl (by decide +kernel) rfl (by decide +kernel)
  obtain ⟨world', hreach, cursors, result, hthread, hempty, hfound⟩ := hcomplete.exists_reachable
  have hqueued : ((World.after 1 (creationOfTwo ++ (0, .call (.pushTask 0 7 9)) :: steps 0 9)
      (by decide +kernel)).mem.scheds 0).queues.injector .normal ≠ [] := by
    decide +kernel
  obtain ⟨task, rfl, -⟩ := hfound fun heq => hqueued ((hempty.mp heq).1 .normal)
  exact ⟨world', hreach, cursors, task, hthread⟩

end Complete

end UpgradeSched
