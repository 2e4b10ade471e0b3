import UpgradeSched.Accounting.Deques
import UpgradeSched.Wakeups.Sleepers

/-!
# Who will see a queued task

A task in an injector is seen by a worker that looks at this injector before it
goes to sleep, or a submission is still about to notify a worker. A worker that has
announced itself as sleeping searches once more, and after that search it is of no
use before it has been woken up.
-/

namespace UpgradeSched

open Interleaving

/-! ## Places -/

/-- From this place of the last search the worker still comes to the injector, or it
has a task. -/
def PopPc.Watches (priority : TaskPriority) : PopPc → Prop
  | .fairnessYield | .fairNormal | .fairLow | .popLocal | .high | .stealSuccess _ => True
  | .normal => priority ≠ .high
  | .low => priority = .low
  | _ => False

/-- The worker comes to the injector before it goes to sleep. -/
def WorkerPc.Watches (priority : TaskPriority) : WorkerPc → Prop
  | .pop .announced pc => pc.Watches priority
  | .stopFlag .announced | .stopCount .announced | .park | .parked => False
  | .withdraw .stop | .unlock .stop | .exit | .exited => False
  | _ => True

def Search.Watches (priority : TaskPriority) : Search → Prop
  | .reach pc => pc.Watches priority
  | .ret .empty => False
  | .ret _ => True

/-- The submission to `s` has published its task and may still notify a worker. -/
def Call.Announcing (s : ℕ) : Call → Prop
  | .push t _ .recordSubmission | .push t _ .wakeCheck | .push t _ .wakeNotify => t = s
  | _ => False

def Thread.Announcing (s : ℕ) (p : Thread) : Prop :=
  ∃ call, p.call = some call ∧ call.Announcing s

/-- The worker thread comes to the injector before it goes to sleep, or it has been
woken up. This goes by the place of the worker: one whose last search is past the
injector does not count, even if a later probe of this search gives it a task. -/
def Thread.OnWatch (s : ℕ) (priority : TaskPriority) (i : ℕ) (p : Thread) (m : Mem) : Prop :=
  p.WorksAt s (WorkerPc.Watches priority) ∨
    p.WorksAt s (· = .parked) ∧ i ∉ (m.gates (.sched s)).waiting

/-! ## The worker loop -/

section Control

variable {s : ℕ} {priority : TaskPriority}

section Places

variable (worker : Worker)

theorem Worker.watches_search (site : Site) :
    (worker.search site).pc.Watches priority := by
  have henter : (PopPc.enter worker.cursors).Watches priority := by
    unfold PopPc.enter
    split <;> trivial
  cases site with
  | announced => exact henter
  | _ => trivial

theorem Worker.watches_proceed {how : Leave} (h : how ≠ .stop) :
    (worker.proceed how).pc.Watches priority := by
  cases how with
  | stop => exact absurd rfl h
  | _ => trivial

theorem Worker.watches_leave (site : Site) {how : Leave} (h : how ≠ .stop) :
    (worker.leave site how).pc.Watches priority := by
  cases site with
  | fast => exact worker.watches_proceed h
  | _ =>
      cases how with
      | stop => exact absurd rfl h
      | _ => trivial

theorem Worker.leaving_of_stop (site : Site) : (worker.leave site .stop).pc.Leaving := by
  cases site <;> trivial

theorem Worker.watches_afterRelease (task : Task) :
    (worker.afterRelease task).pc.Watches priority := by
  unfold afterRelease
  split <;> trivial

theorem Worker.watches_afterSearch {site : Site} {search : Search}
    (h : site = .announced → search.Watches priority) :
    (worker.afterSearch site search).pc.Watches priority := by
  rcases search with pc | (task | _ | _)
  · cases site with
    | announced => exact h rfl
    | _ => trivial
  · exact worker.watches_leave site nofun
  · cases site with
    | announced => exact (h rfl).elim
    | _ => trivial
  · exact worker.watches_leave site nofun

end Places

theorem PopPc.watches_tryPriorityQueue (t w : ℕ) (cursors : Cursors) (drawn : TaskPriority)
    {next : Cursors × Search} (hnext : next.2.Watches priority ∨ drawn = priority) :
    (Instr.sched t (.stealBatchAndPop drawn w) (selection t w)
      (tryPriorityQueue cursors next)).Forall fun r access _ =>
        r.2.Watches priority ∨ access = .sched t (.stealBatchAndPop priority w) .empty := by
  rintro (task | _ | _)
  · exact .inl trivial
  · rcases hnext with hwatches | rfl
    · exact .inl hwatches
    · exact .inr rfl
  · exact .inl trivial

/-- A search leaves the injector behind when it finds it empty. -/
theorem PopPc.watches (t w : ℕ) (cursors : Cursors) (pc : PopPc) (h : pc.Watches priority) :
    (pc.instr t w cursors).Forall fun r access _ =>
      r.2.Watches priority ∨ access = .sched t (.stealBatchAndPop priority w) .empty := by
  cases pc with
  | fairnessYield | stealSuccess => exact fun _ => .inl trivial
  | fairNormal | fairLow => exact watches_tryPriorityQueue t w cursors _ (.inl trivial)
  | popLocal => rintro (_ | task) <;> exact .inl trivial
  | high =>
      refine watches_tryPriorityQueue t w cursors .high ?_
      cases priority with
      | high => exact .inr rfl
      | _ => exact .inl nofun
  | normal =>
      refine watches_tryPriorityQueue t w cursors .normal ?_
      cases priority with
      | high => exact absurd rfl h
      | normal => exact .inr rfl
      | low => exact .inl rfl
  | low => exact watches_tryPriorityQueue t w cursors .low (.inr h.symm)
  | _ => exact h.elim

/-- A worker stops watching an injector by finding it empty, or for good. -/
theorem Worker.watches (priority : TaskPriority) (worker : Worker) {instr : Instr Worker}
    (hi : worker.instr = some instr) :
    instr.Forall fun worker' access _ =>
      (worker.pc.Watches priority → worker'.pc.Watches priority ∨ worker'.pc.Leaving ∨
        access = .sched worker.s (.stealBatchAndPop priority worker.w) .empty) ∧
      (worker.pc = .parked → worker'.pc.Watches priority ∨ worker'.pc = .parked) := by
  obtain ⟨t, w, cursors, pc⟩ := worker
  cases pc with
  | pop site pc =>
      cases hi
      rw [Instr.forall_map]
      cases site with
      | announced =>
          by_cases hwatches : pc.Watches priority
          · refine (pc.watches t w cursors hwatches).mono fun r _ _ h => ⟨fun _ => ?_, by rintro ⟨⟩⟩
            rcases h with h | h
            · exact .inl (watches_afterSearch _ fun _ => h)
            · exact .inr (.inr h)
          · exact Instr.forall_of_all (fun _ _ _ => ⟨fun h => absurd h hwatches, by rintro ⟨⟩⟩) _
      | _ =>
          refine Instr.forall_of_all (fun _ _ _ => ?_) _
          exact ⟨fun _ => .inl (watches_afterSearch _ (by rintro ⟨⟩)), by rintro ⟨⟩⟩
  | stopFlag site =>
      cases hi
      rintro (_ | _) <;> cases site <;>
        first
        | exact ⟨False.elim, by rintro ⟨⟩⟩
        | exact ⟨fun _ => .inl trivial, by rintro ⟨⟩⟩
  | stopCount site =>
      cases hi
      intro count
      beta_reduce
      split
      · exact ⟨fun _ => .inr (.inl (leaving_of_stop _ site)), by rintro ⟨⟩⟩
      · cases site with
        | announced => exact ⟨False.elim, by rintro ⟨⟩⟩
        | _ => exact ⟨fun _ => .inl trivial, by rintro ⟨⟩⟩
  | lock =>
      cases hi
      exact fun _ => ⟨fun _ => .inl trivial, by rintro ⟨⟩⟩
  | announce =>
      cases hi
      exact fun _ => ⟨fun _ => .inl (watches_search _ .announced), by rintro ⟨⟩⟩
  | park =>
      cases hi
      exact fun _ => ⟨False.elim, by rintro ⟨⟩⟩
  | parked =>
      cases hi
      rintro (_ | _)
      · exact ⟨False.elim, fun _ => .inr rfl⟩
      · exact ⟨False.elim, fun _ => .inl trivial⟩
  | withdraw how =>
      cases hi
      refine fun _ => ⟨fun h => .inl ?_, by rintro ⟨⟩⟩
      cases how <;> exact h
  | unlock how =>
      cases hi
      refine fun _ => ⟨fun h => .inl (watches_proceed _ ?_), by rintro ⟨⟩⟩
      rintro rfl
      exact h
  | callback task =>
      cases hi
      exact ⟨fun _ => .inl trivial, by rintro ⟨⟩⟩
  | record task =>
      cases hi
      exact fun _ => ⟨fun _ => .inl trivial, by rintro ⟨⟩⟩
  | release task =>
      cases hi
      intro previous
      beta_reduce
      split
      · exact ⟨fun _ => .inl trivial, by rintro ⟨⟩⟩
      · exact ⟨fun _ => .inl (watches_afterRelease _ task), by rintro ⟨⟩⟩
  | notify task =>
      cases hi
      exact fun _ => ⟨fun _ => .inl (watches_afterRelease _ task), by rintro ⟨⟩⟩
  | groupRelease task g h =>
      cases hi
      intro previous
      beta_reduce
      split <;> exact ⟨fun _ => .inl trivial, by rintro ⟨⟩⟩
  | groupNotify task g h =>
      cases hi
      exact fun _ => ⟨fun _ => .inl trivial, by rintro ⟨⟩⟩
  | exit =>
      cases hi
      exact fun _ => ⟨False.elim, by rintro ⟨⟩⟩
  | exited => cases hi

variable {p p' : Thread} {access : Access} {events : List Event}

/-- A published task is announced next. -/
theorem Thread.Steps.announcing_of_pushed (h : p.Steps p' access events)
    (hpushed : access.pushed s ≠ 0) : p'.Announcing s := by
  obtain ⟨call, hcall, hp⟩ := h.publishing.2.resolve_right hpushed
  obtain ⟨call', rfl, hout⟩ := h.of_call hcall
  cases call with
  | push t task pc =>
      cases pc with
      | publish =>
          exact ⟨_, hout (fun call' _ _ => call' = some (.push t task .recordSubmission))
            fun _ => rfl, hp⟩
      | _ => exact hp.elim
  | _ => exact hp.elim

/-- The announcement ends with a notification, unless no worker is counted as
sleeping. -/
theorem Thread.Steps.announcing (h : p.Steps p' access events) (hp : p.Announcing s) :
    p'.Announcing s ∨ access = .sched s .loadSleeping 0 ∨
      ∃ task, p.call = some (.push s task .wakeNotify) := by
  obtain ⟨call, hcall, hannouncing⟩ := hp
  obtain ⟨call', rfl, hout⟩ := h.of_call hcall
  cases call with
  | push t task pc =>
      cases pc with
      | recordSubmission =>
          exact .inl ⟨_, hout (fun call' _ _ => call' = some (.push t task .wakeCheck))
            fun _ => rfl, hannouncing⟩
      | wakeCheck =>
          have hcheck := hout (fun call' access _ => call' = some (.push t task .wakeNotify) ∨
            access = .sched t .loadSleeping 0) fun sleeping => ?_
          · rcases hcheck with hnext | hnone
            · exact .inl ⟨_, hnext, hannouncing⟩
            · exact .inr (.inl (hannouncing ▸ hnone))
          · by_cases hzero : sleeping = 0
            · exact .inr (hzero ▸ rfl)
            · exact .inl (congrArg (Option.map (Call.push t task)) (if_pos hzero))
      | wakeNotify => exact .inr (.inr ⟨task, hannouncing ▸ hcall⟩)
      | _ => exact hannouncing.elim
  | _ => exact hannouncing.elim

/-- A worker that watches an injector goes on to do so, or it finds it empty, or it
leaves for good. -/
theorem Thread.Steps.watches (h : p.Steps p' access events)
    (hp : p.WorksAt s (WorkerPc.Watches priority)) :
    p'.WorksAt s (WorkerPc.Watches priority) ∨ p'.WorksAt s WorkerPc.Leaving ∨
      ∃ w, access = .sched s (.stealBatchAndPop priority w) .empty := by
  obtain ⟨worker, hw, rfl, hpc⟩ := hp
  cases h with
  | call => exact .inl ⟨worker, hw, rfl, hpc⟩
  | worker hi hout =>
      cases hw
      rename_i worker' instr
      obtain ⟨hs, -⟩ := hout _ (worker.ids_of_instr hi)
      rcases (hout _ (worker.watches priority hi)).1 hpc with hnext | hnext | hnext
      · exact .inl ⟨worker', rfl, hs, hnext⟩
      · exact .inr (.inl ⟨worker', rfl, hs, hnext⟩)
      · exact .inr (.inr ⟨worker.w, hnext⟩)
  | start => exact .inl ⟨worker, hw, rfl, hpc⟩

/-- A worker that wakes up watches every injector. -/
theorem Thread.Steps.woken (h : p.Steps p' access events) (hp : p.WorksAt s (· = .parked)) :
    p'.WorksAt s (WorkerPc.Watches priority) ∨ p'.WorksAt s (· = .parked) := by
  obtain ⟨worker, hw, rfl, hpc⟩ := hp
  cases h with
  | call => exact .inr ⟨worker, hw, rfl, hpc⟩
  | worker hi hout =>
      cases hw
      rename_i worker' instr
      obtain ⟨hs, -⟩ := hout _ (worker.ids_of_instr hi)
      rcases (hout _ (worker.watches priority hi)).2 hpc with hnext | hnext
      · exact .inl ⟨worker', rfl, hs, hnext⟩
      · exact .inr ⟨worker', rfl, hs, hnext⟩
  | start => exact .inr ⟨worker, hw, rfl, hpc⟩

end Control

/-! ## The law -/

/-- For every injector that is not empty there is a worker on watch, or a submission that
may still notify one. -/
def Served (s : ℕ) (world : World) : Prop :=
  ∀ priority, (world.mem.scheds s).queues.injector priority ≠ [] →
    world.Any (Thread.OnWatch s priority) ∨ world.Any fun _ p _ => p.Announcing s

/-- When the step is the notification of a submission, then for every injector that is not
empty a worker is on watch, another submission may still notify one, or the notification
goes to a sleeping worker. -/
def Summons (s : ℕ) (world : World) (a : Action) : Prop :=
  ∀ (p : Thread) (task : Task) (k : ℕ) (priority : TaskPriority),
    world.threads[a.1]? = some p → p.call = some (.push s task .wakeNotify) →
    a.2 = .turn (.pick k) → (world.mem.scheds s).queues.injector priority ≠ [] →
      world.Any (Thread.OnWatch s priority) ∨
      (world.Any fun i q _ => i ≠ a.1 ∧ q.Announcing s) ∨
      world.Any fun i q m =>
        (m.gates (.sched s)).waiting[k]? = some i ∧ q.WorksAt s (· = .parked)

/-- What a step that reads the sleeping count finds. -/
def SchedOp.ReadsSleeping {α : Type} (sleeping : ℕ) : SchedOp α → α → Prop
  | loadSleeping, r => sleeping = r
  | _, _ => True

theorem SchedOp.Effect.readsSleeping {α : Type} {op : SchedOp α} {turn : Turn} {r : α}
    {sd sd' : Sched} (h : op.Effect turn r sd sd') : op.ReadsSleeping sd'.sleepingWorkers r := by
  cases h with
  | loadSleeping => exact rfl
  | _ => trivial

theorem Access.Fires.readsSleeping {α : Type} {op : SchedOp α} {i s : ℕ} {turn : Turn} {r : α}
    {events : List Event} {m m' : Mem} (h : (Access.sched s op r).Fires i turn events m m') :
    op.ReadsSleeping (m'.scheds s).sleepingWorkers r := by
  cases h with
  | sched _ _ _ sd h => simpa [Mem.emit, Mem.setSched] using h.readsSleeping

section Law

variable {s : ℕ} {priority : TaskPriority} {world world' : World} {a : Action} {p p' : Thread}
  {access : Access} {events : List Event}

theorem Reachable.not_leaving (hr : Reachable world)
    (hne : (world.mem.scheds s).queues.injector priority ≠ []) :
    ¬ world.Any fun _ p _ => p.WorksAt s WorkerPc.Leaving := fun h =>
  hne (QueueSystem.injector_eq_nil_of_tasks (hr.accounting.drained s h).queues priority)

/-- As long as the injector is not empty, somebody stays on watch. -/
theorem Step.onWatch (h : Step world a world' p p' access events) (hr : Reachable world)
    (hr' : Reachable world') (hne : (world'.mem.scheds s).queues.injector priority ≠ [])
    (hw : world.Any (Thread.OnWatch s priority)) : world'.Any (Thread.OnWatch s priority) := by
  obtain ⟨j, q, hq, hwatch⟩ := hw
  by_cases hj : j = a.1
  · subst hj
    cases h.moves.thread.symm.trans hq
    rcases hwatch with hwatches | ⟨hparked, -⟩
    · rcases h.steps.watches hwatches with hnext | hleaving | ⟨w, rfl⟩
      · exact h.moves.any_self (.inl hnext)
      · exact absurd (h.moves.any_self hleaving) (hr'.not_leaving hne)
      · obtain ⟨hnil, heq⟩ := h.fires.takes
        rw [heq] at hne
        exact absurd hnil hne
    · have hwakes := h.steps.wakes_of_works (hr.proper _ _ h.moves.thread) hparked
      have hnot := h.fires.not_mem_of_wakes (hr.sleepers (.sched s)).nodup hwakes
      exact h.moves.any_self ((h.steps.woken hparked).imp id fun hnext => ⟨hnext, hnot⟩)
  · refine ⟨j, q, h.moves.other hj hq, hwatch.imp id fun hparked => ⟨hparked.1, fun hmem => ?_⟩⟩
    exact hparked.2 ((h.fires.mem_waiting hmem).resolve_right fun hparks => hj hparks.1)

/-- A worker that is not counted as sleeping is on watch, unless it leaves. -/
theorem WorkerPc.watches_of_announced (priority : TaskPriority) {pc : WorkerPc}
    (h : pc.announced = 0) :
    pc.Watches priority ∨ pc.Leaving := by
  cases pc with
  | pop site | stopFlag site | stopCount site =>
      cases site with
      | announced => cases h
      | _ => exact .inl trivial
  | park | parked | withdraw => cases h
  | unlock how =>
      cases how with
      | stop => exact .inr trivial
      | _ => exact .inl trivial
  | exit | exited => exact .inr trivial
  | _ => exact .inl trivial

/-- When no worker is counted as sleeping, one is on watch. -/
theorem Reachable.onWatch_of_sleeping (hr : Reachable world)
    (hzero : (world.mem.scheds s).sleepingWorkers = 0)
    (hne : (world.mem.scheds s).queues.injector priority ≠ []) :
    world.Any (Thread.OnWatch s priority) := by
  obtain ⟨task, hmem⟩ := List.exists_mem_of_ne_nil _ hne
  have hpublished : published s world.mem.log ≠ [] :=
    List.ne_nil_of_mem (hr.mem_published_of_queued (QueueSystem.mem_tasks_of_mem_injector hmem))
  obtain ⟨i, p, hp, worker, hw, hs, -⟩ := hr.exists_worker ((hr.opened s).published hpublished)
  have hannounced := world.eq_zero_of_sum_eq_zero (Thread.announced s)
    ((hr.headcount s).sleeping.symm.trans hzero) hp
  have hpc : worker.pc.announced = 0 := by
    simpa [Thread.announced, hw, hs] using hannounced
  rcases WorkerPc.watches_of_announced priority hpc with hwatches | hleaving
  · exact ⟨i, p, hp, .inl ⟨worker, hw, hs, hwatches⟩⟩
  · exact absurd ⟨i, p, hp, worker, hw, hs, hleaving⟩ (hr.not_leaving hne)

theorem Thread.Steps.eq_notifyOne {task : Task} (h : p.Steps p' access events)
    (hcall : p.call = some (.push s task .wakeNotify)) :
    access = .gate (.sched s) .notifyOne () ∧ p'.worker = p.worker := by
  obtain ⟨call', rfl, hout⟩ := h.of_call hcall
  exact ⟨hout (fun _ access _ => access = .gate (.sched s) .notifyOne ()) fun _ => rfl, rfl⟩

/-- A notification that takes a sleeping worker out of the wait set puts it on watch. -/
theorem Step.onWatch_of_summoned {task : Task} {k : ℕ}
    (h : Step world a world' p p' access events) (hr : Reachable world)
    (hcall : p.call = some (.push s task .wakeNotify)) (hk : a.2.toTurn = .pick k)
    (hw : world.Any fun i q m =>
      (m.gates (.sched s)).waiting[k]? = some i ∧ q.WorksAt s (· = .parked)) :
    world'.Any (Thread.OnWatch s priority) := by
  obtain ⟨i, q, hq, hi, hparked⟩ := hw
  obtain ⟨rfl, hworker⟩ := h.steps.eq_notifyOne hcall
  obtain ⟨k', hk', hwaiting⟩ := h.fires.waiting_of_notifyOne
  obtain rfl : k = k' := Turn.pick.inj (hk.symm.trans hk')
  have hnot : i ∉ (world'.mem.gates (.sched s)).waiting := by
    obtain ⟨hlt, rfl⟩ := List.getElem?_eq_some_iff.mp hi
    have hnodup := (hr.sleepers (.sched s)).nodup
    rw [hwaiting, ← hnodup.erase_getElem k hlt]
    exact hnodup.not_mem_erase
  by_cases hia : i = a.1
  · subst hia
    cases h.moves.thread.symm.trans hq
    obtain ⟨worker, hw, hs, hpc⟩ := hparked
    exact h.moves.any_self (.inr ⟨⟨worker, hworker.trans hw, hs, hpc⟩, hnot⟩)
  · exact ⟨i, q, h.moves.other hia hq, .inr ⟨hparked, hnot⟩⟩

theorem Step.served (h : Step world a world' p p' access events) (hr : Reachable world)
    (hr' : Reachable world') (hsummons : Summons s world a) (hc : Served s world) :
    Served s world' := by
  intro priority hne'
  by_cases hpushed : access.pushed s = 0
  · have hne : (world.mem.scheds s).queues.injector priority ≠ [] := by
      obtain ⟨task, hmem⟩ := List.exists_mem_of_ne_nil _ hne'
      refine List.ne_nil_of_mem ((h.fires.mem_injector hmem).resolve_right fun hpush => ?_)
      exact Multiset.singleton_ne_zero task (hpush.1.symm.trans hpushed)
    rcases hc priority hne with hw | ⟨j, q, hq, hannouncing⟩
    · exact .inl (h.onWatch hr hr' hne' hw)
    · by_cases hj : j = a.1
      · subst hj
        cases h.moves.thread.symm.trans hq
        rcases h.steps.announcing hannouncing with hnext | rfl | ⟨task, hcall⟩
        · exact .inr (h.moves.any_self hnext)
        · exact .inl (hr'.onWatch_of_sleeping h.fires.readsSleeping hne')
        · obtain ⟨rfl, -⟩ := h.steps.eq_notifyOne hcall
          obtain ⟨k, hk, -⟩ := h.fires.waiting_of_notifyOne
          rcases hsummons p task k priority h.moves.thread hcall (Choice.eq_of_toTurn hk) hne with
            hw | ⟨i, q, hq, hi, hother⟩ | hw
          · exact .inl (h.onWatch hr hr' hne' hw)
          · exact .inr ⟨i, q, h.moves.other hi hq, hother⟩
          · exact .inl (h.onWatch_of_summoned hr hcall hk hw)
      · exact .inr ⟨j, q, h.moves.other hj hq, hannouncing⟩
  · exact .inr (h.moves.any_self (h.steps.announcing_of_pushed hpushed))

/-- In a run in which every notification of a submission is of use, or is not needed, all
queued tasks are served. -/
theorem served_of_summons {usizeBits clients : ℕ} {as : List Action}
    (h : scheduler.Run (Summons s) (World.init usizeBits clients) as world) : Served s world := by
  refine invariant_of_run (Served s) (fun priority hne => ?_)
    (fun hs hr hC hc => hs.served hr (hs.reachable hr) hC hc) h
  cases priority <;> exact absurd rfl hne

end Law

end UpgradeSched
