import UpgradeSched.Interleaving.Solo
import UpgradeSched.Locks.Blocked
import UpgradeSched.Locks.Discipline
import UpgradeSched.Search.Completeness
import UpgradeSched.Search.Peers

/-!
# A worker that runs alone

While the other threads rest, a worker empties the queues of its scheduler and completes
every task in them, if it is awake and nobody else holds the mutex it may have to take.
Awake means that it will make a whole search before it goes to sleep. Between two searches
it comes closer to the next one with every step, and a search that nobody disturbs finds a
task as long as there is one.
-/

namespace UpgradeSched

open Interleaving

/-- The choices that neither make a step fail nor start a call. -/
def Undisturbed (choice : Choice) : Prop := ∃ turn : Turn, turn ≠ .spurious ∧ choice = .turn turn

/-- The places from which a worker may go to sleep without another whole search. -/
def WorkerPc.Dozing : WorkerPc → Prop
  | .pop .announced _ | .stopFlag .announced | .stopCount .announced | .park | .parked => True
  | _ => False

/-- How far the start of the next search is at most, for one of `n` workers that is awake. -/
def WorkerPc.distance (n : ℕ) : WorkerPc → ℕ
  | .pop _ pc => pc.rank n + 12
  | .stopFlag _ => 11
  | .stopCount _ => 10
  | .lock | .announce | .withdraw _ => 9
  | .unlock _ => 8
  | .callback _ => 7
  | .record _ => 6
  | .release _ => 5
  | .notify _ => 4
  | .groupRelease _ _ _ => 3
  | .groupNotify _ _ _ => 2
  | .exit => 1
  | .park | .parked | .exited => 0

def Worker.distance (worker : Worker) : ℕ :=
  worker.pc.distance worker.cursors.steal.workerCount

/-- The worker is at the start of a search. -/
def Worker.Begins (worker : Worker) : Prop := ∃ site, worker = worker.search site

/-- The worker starts a search, or is awake and less than the limit away from one. -/
def Worker.Nears (limit : ℕ) (worker : Worker) : Prop :=
  worker.Begins ∨ ¬ worker.pc.Dozing ∧ worker.distance < limit

section Places

variable (worker : Worker) {limit : ℕ}

theorem Worker.nears_search (site : Site) : (worker.search site).Nears limit :=
  .inl ⟨site, rfl⟩

theorem Worker.nears_goto {pc : WorkerPc} (hdozing : ¬ pc.Dozing)
    (hlt : pc.distance worker.cursors.steal.workerCount < limit) :
    (worker.goto pc).Nears limit :=
  .inr ⟨hdozing, hlt⟩

theorem Worker.nears_proceed (how : Leave) (hlt : 7 < limit) :
    (worker.proceed how).Nears limit := by
  cases how with
  | execute task => exact worker.nears_goto id hlt
  | again => exact worker.nears_search .fast
  | stop => exact worker.nears_goto id ((by decide : 1 ≤ 7).trans_lt hlt)

theorem Worker.nears_leave (site : Site) (how : Leave) (hlt : 9 < limit) :
    (worker.leave site how).Nears limit := by
  cases site with
  | fast => exact worker.nears_proceed how ((by decide : 7 ≤ 9).trans_lt hlt)
  | locked => exact worker.nears_goto id ((by decide : 8 ≤ 9).trans_lt hlt)
  | announced => exact worker.nears_goto id hlt

theorem Worker.nears_deeper {site : Site} (hsite : site ≠ .announced) (hlt : 9 < limit) :
    (worker.deeper site).Nears limit := by
  cases site with
  | announced => exact absurd rfl hsite
  | _ => exact worker.nears_goto id hlt

theorem Worker.nears_afterSearch {site : Site} (hsite : site ≠ .announced) (search : Search)
    (hlt : search.rank worker.cursors.steal.workerCount + 12 < limit) :
    (worker.afterSearch site search).Nears limit := by
  have hlimit : 12 < limit := lt_of_le_of_lt (Nat.le_add_left _ _) hlt
  rcases search with pc | (task | _ | _)
  · refine worker.nears_goto (fun hdozing => ?_) hlt
    cases site with
    | announced => exact hsite rfl
    | _ => exact hdozing
  · exact worker.nears_leave site _ ((by decide : 9 ≤ 12).trans_lt hlimit)
  · refine worker.nears_goto (fun hdozing => ?_) ((by decide : 11 ≤ 12).trans_lt hlimit)
    cases site with
    | announced => exact hsite rfl
    | _ => exact hdozing
  · exact worker.nears_leave site _ ((by decide : 9 ≤ 12).trans_lt hlimit)

theorem Worker.nears_afterRelease (task : Task) (hlt : 3 < limit) :
    (worker.afterRelease task).Nears limit := by
  unfold afterRelease
  split
  · exact worker.nears_goto id hlt
  · exact worker.nears_search .fast

/-- A step of a worker that is awake starts a search or brings it closer to one. -/
theorem Worker.nears_of_instr {instr : Instr Worker} (hi : worker.instr = some instr)
    (hdozing : ¬ worker.pc.Dozing) :
    instr.Forall fun worker' _ _ => worker'.Nears worker.distance := by
  obtain ⟨s, w, cursors, pc⟩ := worker
  cases pc with
  | pop site pc =>
      cases hi
      have hsite : site ≠ .announced := fun heq => hdozing (by rw [heq]; trivial)
      rw [Instr.forall_map]
      refine ((pc.rank_lt s w cursors).and (pc.workerCount_of_instr s w cursors)).mono ?_
      rintro ⟨cursors', search⟩ _ _ ⟨hrank, hcount⟩
      refine nears_afterSearch _ hsite search ?_
      rw [show (Worker.mk s w cursors' (.pop site pc)).cursors.steal.workerCount =
        cursors.steal.workerCount from hcount]
      exact Nat.add_lt_add_right hrank 12
  | stopFlag site =>
      cases hi
      have hsite : site ≠ .announced := fun heq => hdozing (by rw [heq]; trivial)
      intro stopped
      cases stopped with
      | true =>
          refine nears_goto _ (fun hcount => hdozing ?_) (by decide : 10 < 11)
          cases site <;> exact hcount
      | false => exact nears_deeper _ hsite (by decide : 9 < 11)
  | stopCount site =>
      cases hi
      have hsite : site ≠ .announced := fun heq => hdozing (by rw [heq]; trivial)
      intro count
      beta_reduce
      split
      · exact nears_leave _ site .stop (by decide : 9 < 10)
      · exact nears_deeper _ hsite (by decide : 9 < 10)
  | lock | announce =>
      cases hi
      exact fun _ => nears_search _ _
  | withdraw how =>
      cases hi
      exact fun _ => nears_goto _ id (by decide : 8 < 9)
  | unlock how =>
      cases hi
      exact fun _ => nears_proceed _ how (by decide : 7 < 8)
  | callback task =>
      cases hi
      exact nears_goto _ id (by decide : 6 < 7)
  | record task =>
      cases hi
      exact fun _ => nears_goto _ id (by decide : 5 < 6)
  | release task =>
      cases hi
      intro previous
      beta_reduce
      split
      · exact nears_goto _ id (by decide : 4 < 5)
      · exact nears_afterRelease _ task (by decide : 3 < 5)
  | notify task =>
      cases hi
      exact fun _ => nears_afterRelease _ task (by decide : 3 < 4)
  | groupRelease task g h =>
      cases hi
      intro previous
      beta_reduce
      split
      · exact nears_goto _ id (by decide : 2 < 3)
      · exact nears_search _ _
  | groupNotify task g h =>
      cases hi
      exact fun _ => nears_search _ _
  | exit =>
      cases hi
      exact fun _ => nears_goto _ id (by decide : 0 < 1)
  | park | parked => exact absurd trivial hdozing
  | exited => cases hi

end Places

/-! ## Alone -/

/-- Thread `j` is worker `w` of `s`, which knows its victims, and nobody else holds the
mutex of `s`. -/
structure Alone (j s w : ℕ) (world : World) : Prop where
  reachable : Reachable world
  thread : world.Any fun i p _ => i = j ∧ p.number s = some w
  owner : ∀ i, (world.mem.gates (.sched s)).owner = some i → i = j
  count : (world.mem.scheds s).queues.workerCount ≤ 2 ^ (world.mem.usizeBits - 1)

section Alone

variable {world world' : World} {a : Action} {p p' : Thread} {access : Access}
  {events : List Event} {j s w : ℕ} {worker : Worker}

theorem Step.owner_cases (h : Step world a world' p p' access events) (x : Obj) :
    (world'.mem.gates x).owner = none ∨ (world'.mem.gates x).owner = some a.1 ∨
      (world'.mem.gates x).owner = (world.mem.gates x).owner := by
  rcases h.fires.gate_cases x with ⟨heq, -⟩ | ⟨_, op, r, -, hop⟩
  · exact .inr (.inr (congrArg Gate.owner heq))
  by_cases hacquires : op.Acquires r
  · exact .inr (.inl (hop.owner_of_acquires hacquires).2)
  cases hfrees : op.frees with
  | true => exact .inl (hop.owner_of_frees hfrees)
  | false => exact .inr (.inr (hop.owner_eq hacquires hfrees))

theorem Alone.exists_worker (h : Alone j s w world) (hp : world.threads[j]? = some p) :
    ∃ worker, p.worker = some worker ∧ worker.s = s ∧ worker.w = w := by
  obtain ⟨_, q, hq, rfl, hnumber⟩ := h.thread
  cases hp.symm.trans hq
  exact Thread.number_eq_some.mp hnumber

theorem Alone.of_step (halone : Alone j s w world)
    (h : Step world a world' p p' access events) (ha : a.1 = j) : Alone j s w world' := by
  subst ha
  obtain ⟨worker, hw, rfl, rfl⟩ := halone.exists_worker h.moves.thread
  have hphase := halone.reachable.present.uses _ p h.moves.thread worker.s (.inl ⟨worker, hw, rfl⟩)
  refine ⟨h.reachable halone.reachable, ⟨a.1, p', h.moves.self, rfl, ?_⟩, fun i hi => ?_, ?_⟩
  · rw [h.steps.number_eq]
    exact Thread.number_eq_some.mpr ⟨worker, hw, rfl, rfl⟩
  · rcases h.owner_cases (.sched worker.s) with howner | howner | howner
    · cases howner.symm.trans hi
    · exact (Option.some.inj (howner.symm.trans hi)).symm
    · exact halone.owner i (howner.symm.trans hi)
  · rw [h.fires.usizeBits_eq, h.fires.workerCount_eq fun hcreates =>
      hphase (h.fires.phase_of_creates hcreates).1]
    exact halone.count

/-- The step of a worker that starts no call. -/
theorem Step.worker_of_turn {turn : Turn} {i : ℕ}
    (h : Step world (i, .turn turn) world' ⟨some worker, none⟩ p' access events) :
    ∃ instr worker', worker.instr = some instr ∧ p' = ⟨some worker', none⟩ ∧
      instr.Outcome worker' access events := by
  cases hsteps : h.steps with
  | worker hi hout => exact ⟨_, _, hi, rfl, hout⟩
  | start api now hmay => cases h.eq_of_start

/-- A worker adds nothing to the queues. -/
theorem Step.tasks_le_of_worker
    (h : Step world a world' ⟨some worker, none⟩ p' access events) (hr : Reachable world)
    (s : ℕ) : (world'.mem.scheds s).queues.tasks ≤ (world.mem.scheds s).queues.tasks := by
  have htasks := h.tasks_eq hr s
  have hpushed : access.pushed s = 0 := h.steps.publishing.2.resolve_left fun hpub => by
    obtain ⟨call, hcall, -⟩ := hpub
    cases hcall
  rw [hpushed, add_zero] at htasks
  rw [← htasks]
  exact Multiset.le_add_right _ _

/-- The mutex is free when the worker is about to take it. -/
theorem Alone.canMove (h : Alone j s w world) (hp : world.threads[j]? = some ⟨some worker, none⟩)
    (hparked : worker.pc ≠ .parked) (hexited : worker.pc ≠ .exited) : world.CanMove j := by
  obtain ⟨_, ⟨⟩, rfl, rfl⟩ := h.exists_worker hp
  refine (World.canMove_iff h.reachable hp).mpr fun hblocked => ?_
  replace hblocked : worker.Blocked j world.mem := hblocked
  unfold Worker.Blocked at hblocked
  cases hpc : worker.pc with
  | lock =>
      rw [hpc] at hblocked
      obtain ⟨i, hi⟩ := Option.ne_none_iff_exists'.mp hblocked
      obtain rfl := h.owner i hi
      rcases (h.reachable.exclusive (.sched worker.s)).inside_of_owner hp hi with hin | ⟨-, hin⟩
      · exact hin
      · rw [hpc] at hin
        exact hin
  | parked => exact hparked hpc
  | exited => exact hexited hpc
  | _ =>
      rw [hpc] at hblocked
      exact hblocked

end Alone

/-! ## From search to search -/

/-- At most `n` tasks are queued, and the worker is at a place of which `C` holds. -/
structure Working (C : Worker → Prop) (j s w n : ℕ) (world : World) : Prop where
  alone : Alone j s w world
  thread : ∃ worker, world.threads[j]? = some ⟨some worker, none⟩ ∧ C worker
  left : (world.mem.scheds s).queues.tasks.card ≤ n

/-- The worker has no task in hand, because a search has found nothing or because it is on its
way out. -/
def WorkerPc.Done : WorkerPc → Prop
  | .stopFlag _ | .stopCount _ => True
  | pc => pc.Leaving

/-- The queues are empty, and the worker is done. -/
structure Exhausted (j s w : ℕ) (world : World) : Prop where
  alone : Alone j s w world
  thread : ∃ worker, world.threads[j]? = some ⟨some worker, none⟩ ∧ worker.pc.Done
  left : (world.mem.scheds s).queues.tasks = 0

section Working

variable {world world' : World} {a : Action} {p p' : Thread} {access : Access}
  {events : List Event} {j s w n : ℕ} {worker : Worker} {C : Worker → Prop}

theorem WorkerPc.done_of_leaving {pc : WorkerPc} (h : pc.Leaving) : pc.Done := by
  cases pc <;> first | exact h | exact h.elim

theorem WorkerPc.carried_of_done {pc : WorkerPc} (h : pc.Done) : pc.carried = none := by
  cases pc with
  | withdraw how | unlock how =>
      cases how with
      | stop => rfl
      | _ => exact h.elim
  | stopFlag | stopCount | exit | exited => rfl
  | _ => exact h.elim

/-- A worker on its way out leaves nothing behind. -/
theorem Alone.exhausted_of_leaving (h : Alone j s w world)
    (hp : world.threads[j]? = some ⟨some worker, none⟩) (hleaving : worker.pc.Leaving) :
    Exhausted j s w world := by
  obtain ⟨_, ⟨⟩, rfl, rfl⟩ := h.exists_worker hp
  exact ⟨h, ⟨worker, hp, WorkerPc.done_of_leaving hleaving⟩, (h.reachable.accounting.drained
    worker.s ⟨j, _, hp, worker, rfl, rfl, hleaving⟩).queues⟩

/-- A worker that is awake comes to the next search, unless there is nothing to do. -/
theorem Working.inevitable (h : Working (fun worker => ¬ worker.pc.Dozing) j s w n world) :
    scheduler.Inevitable j Undisturbed
      (fun c => Working Worker.Begins j s w n c ∨ Exhausted j s w c) world := by
  refine System.Inevitable.of_measure
    (fun c : World => (c.threads[j]?.bind Thread.worker).elim 0 Worker.distance) ?_ ?_ h
  · rintro c hc hgoal
    obtain ⟨worker, hp, hdozing⟩ := hc.thread
    obtain ⟨turn, hturn, hstep⟩ := hc.alone.canMove hp
      (fun hparked => hdozing (by rw [hparked]; trivial)) fun hexited =>
        hgoal (.inr (hc.alone.exhausted_of_leaving hp (by rw [hexited]; trivial)))
    obtain ⟨c', hstep⟩ := Option.isSome_iff_exists.mp hstep
    exact ⟨.turn turn, c', ⟨turn, hturn, rfl⟩, hstep⟩
  · rintro c _ c' hc - ⟨turn, -, rfl⟩ hstep
    obtain ⟨worker, hp, hdozing⟩ := hc.thread
    obtain ⟨q, q', access, events, hs⟩ := exists_step hstep
    cases hs.moves.thread.symm.trans hp
    obtain ⟨instr, worker', hi, rfl, hout⟩ := hs.worker_of_turn
    have halone := hc.alone.of_step hs rfl
    have hleft : (c'.mem.scheds s).queues.tasks.card ≤ n :=
      (Multiset.card_le_card (hs.tasks_le_of_worker hc.alone.reachable s)).trans hc.left
    rcases hout _ (worker.nears_of_instr hi hdozing) with hbegins | ⟨hdozing', hlt⟩
    · exact .inl (.inl ⟨halone, ⟨worker', hs.moves.self, hbegins⟩, hleft⟩)
    · refine .inr ⟨⟨halone, ⟨worker', hs.moves.self, hdozing'⟩, hleft⟩, ?_⟩
      rw [hs.moves.self, hp]
      exact hlt

/-- A thread that can make an allowed step of a worker can make one that starts no call. -/
theorem Alone.exists_undisturbed {choice : Choice} (h : Alone j s w world)
    (hchoice : NoRetry choice) (hstep : scheduler.step world (j, choice) = some world') :
    ∃ choice' world'', Undisturbed choice' ∧ scheduler.step world (j, choice') = some world'' := by
  cases choice with
  | turn turn =>
      exact ⟨_, _, ⟨turn, fun heq => hchoice (congrArg Choice.turn heq), rfl⟩, hstep⟩
  | call api =>
      obtain ⟨q, q', access, events, hs⟩ := exists_step hstep
      obtain ⟨worker, hw, -⟩ := h.exists_worker hs.moves.thread
      have hmay : q.MayCall := by
        by_contra hno
        have hnext := hs.moves.next
        simp [scheduler, Thread.instr, hno] at hnext
      have hbusy : ¬ q.worker.isNone := by simp [hw]
      obtain ⟨task, hrunning⟩ := Option.isSome_iff_exists.mp (hmay.2.resolve_left hbusy)
      have hmoves : world.CanMove j := by
        refine (World.canMove_iff h.reachable hs.moves.thread).mpr fun hblocked => ?_
        obtain ⟨_ | ⟨t, v, cursors, pc⟩, call⟩ := q
        · cases hw
        obtain rfl := Option.isNone_iff_eq_none.mp hmay.1
        cases pc with
        | callback => exact hblocked
        | _ => cases hrunning
      obtain ⟨turn, hturn, hsome⟩ := hmoves
      obtain ⟨world'', hstep⟩ := Option.isSome_iff_exists.mp hsome
      exact ⟨.turn turn, world'', ⟨turn, hturn, rfl⟩, hstep⟩

/-- A search that nobody disturbs either finds the queues empty or takes a task to execute
out of them. -/
theorem Working.searched (h : Working Worker.Begins j s w n world) :
    scheduler.Inevitable j Undisturbed
      (fun c => Exhausted j s w c ∨
        ∃ m < n, Working (fun worker => ¬ worker.pc.Dozing) j s w m c) world := by
  obtain ⟨worker, hp, site, hsite⟩ := h.thread
  obtain ⟨_, ⟨⟩, rfl, rfl⟩ := h.alone.exists_worker hp
  have hinformed := h.alone.reachable.informed j _ hp worker rfl
  have hsearches : Searches j worker site worker.cursors (.reach (.enter worker.cursors))
      (world.mem.scheds worker.s).queues world := ⟨by rw [hp, hsite]; rfl, rfl⟩
  have hanswered := hsearches.answered hinformed.lt ⟨hinformed.id, hinformed.count⟩
    (by rw [hinformed.usizeBits]; exact h.alone.count)
  refine (hanswered.restrict h.alone ?_ ?_ fun c choice c' hc hchoice hstep =>
    hc.exists_undisturbed hchoice hstep).mono ?_
  · rintro c choice c' hc - hstep
    obtain ⟨q, q', access, events, hs⟩ := exists_step hstep
    exact hc.of_step hs rfl
  · rintro _ ⟨turn, hturn, rfl⟩ heq
    exact hturn (Choice.turn.inj heq)
  · rintro c ⟨⟨cursors, result, queues', hthread, hresult⟩, halone⟩
    obtain ⟨hc, rfl⟩ := hthread
    rcases hresult with ⟨rfl, hzero, hqueues⟩ | ⟨task, rfl, hloses, -⟩
    · exact .inl ⟨halone, ⟨_, hc, trivial⟩, by rw [hqueues, hzero]⟩
    · have hcard := congrArg Multiset.card hloses.tasks
      rw [Multiset.card_add, Multiset.card_singleton] at hcard
      have hleft := h.left
      refine .inr ⟨n - 1, by omega, halone, ⟨_, hc, fun hdozing => ?_⟩, by omega⟩
      cases site <;> exact hdozing

/-- Search after search the queues get empty. -/
theorem Working.exhausted (h : Working (fun worker => ¬ worker.pc.Dozing) j s w n world) :
    scheduler.Inevitable j Undisturbed (Exhausted j s w) world := by
  induction n using Nat.strong_induction_on generalizing world with
  | _ n ih =>
      refine h.inevitable.trans fun c hc => ?_
      rcases hc with hbegins | hexhausted
      · refine hbegins.searched.trans fun c' hc' => ?_
        rcases hc' with hexhausted | ⟨m, hm, hworking⟩
        · exact .now hexhausted
        · exact ih m hm hworking
      · exact .now hexhausted

/-- What has been published is completed, but for what other threads have in hand. -/
theorem Exhausted.completed (h : Exhausted j s w world) {task : Task} {stage : Stage}
    (hc : stage.Concerns task) (hpublished : task ∈ published s world.mem.log) :
    task ∈ completed stage s world.mem.log ∨
      world.Any fun i q _ => i ≠ j ∧ task ∈ q.held stage s := by
  have hqueued : task ∉ (world.mem.scheds s).queues.tasks := by
    rw [h.left]
    exact Multiset.notMem_zero task
  refine (h.alone.reachable.completed_or_held hc hpublished hqueued).imp_right ?_
  rintro ⟨i, q, hq, hheld⟩
  refine ⟨i, q, hq, ?_, hheld⟩
  rintro rfl
  obtain ⟨worker, hp, hdone⟩ := h.thread
  cases hq.symm.trans hp
  simp [Thread.held, Worker.held, WorkerPc.carried_of_done hdone] at hheld

end Working

/-! ## The work gets done -/

section Draining

variable {world : World} {j : ℕ} {worker : Worker}

/-- A worker that is awake and runs alone, with callbacks that return and make no calls,
empties all queues of its scheduler. After that every published task has passed every
stage, unless another thread has it in hand. -/
theorem drains_alone (hr : Reachable world)
    (hp : world.threads[j]? = some ⟨some worker, none⟩) (hdozing : ¬ worker.pc.Dozing)
    (howner : ∀ i, (world.mem.gates (.sched worker.s)).owner = some i → i = j)
    (hcount : (world.mem.scheds worker.s).queues.workerCount ≤ 2 ^ (world.mem.usizeBits - 1)) :
    scheduler.Inevitable j Undisturbed
      (fun c => (c.mem.scheds worker.s).queues.tasks = 0 ∧
        ∀ task ∈ published worker.s c.mem.log, ∀ stage : Stage, stage.Concerns task →
          task ∈ completed stage worker.s c.mem.log ∨
            c.Any fun i q _ => i ≠ j ∧ task ∈ q.held stage worker.s) world := by
  have halone : Alone j worker.s worker.w world :=
    ⟨hr, ⟨j, _, hp, rfl, Thread.number_eq_some.mpr ⟨worker, rfl, rfl, rfl⟩⟩, howner, hcount⟩
  have hworking : Working (fun worker => ¬ worker.pc.Dozing) j worker.s worker.w _ world :=
    ⟨halone, ⟨worker, hp, hdozing⟩, le_rfl⟩
  exact hworking.exhausted.mono fun c hc => ⟨hc.left, fun task hpublished stage hconcerns =>
    hc.completed hconcerns hpublished⟩

/-- Two tasks wait for the only worker, which is at its first search. -/
theorem drains_alone_afterSubmissions : ∃ world',
    scheduler.Reachable (World.after 1 (creation 0 ++ (0, .call (.pushTask 0 7 9)) :: steps 0 9 ++
      (0, .call (.pushTask 0 8 9)) :: steps 0 9) (by decide +kernel)) world' ∧
      (world'.mem.scheds 0).queues.tasks = 0 := by
  have hdrains := drains_alone (World.reachable_after 1 (creation 0 ++
    (0, .call (.pushTask 0 7 9)) :: steps 0 9 ++ (0, .call (.pushTask 0 8 9)) :: steps 0 9)
    (by decide +kernel)) (j := 1) rfl id
    (fun i hi => by cases hi) (by decide +kernel)
  obtain ⟨world', hreach, hqueues, -⟩ := hdrains.exists_reachable
  exact ⟨world', hreach, hqueues⟩

end Draining

end UpgradeSched
