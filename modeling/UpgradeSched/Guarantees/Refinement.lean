import UpgradeSched.Accounting.Numbering
import UpgradeSched.Guarantees.Execution
import UpgradeSched.Interleaving.Pool
import UpgradeSched.Priority.Inversion

/-!
# The scheduler implements a pool

Seen from outside, a scheduler is a pool of tasks: `Implements` relates its state to
that of a pool whose limit is the capacity, and every history is one that the pool
allows. The order of the events in a history follows.
-/

namespace UpgradeSched

open Interleaving

/-! ## The moves of a history -/

/-- The stages of `execute_task` as the phases of a task. -/
def stages : Lifecycle Task Stage where
  first := .finished
  next task stage := (stage.next task).map (·.2)
  frees := .released
  rank := Stage.rank
  rank_next := by
    intro task stage stage' h
    cases stage with
    | released =>
        cases hg : task.group with
        | none => simp [Stage.next, hg] at h
        | some g =>
            obtain rfl : Stage.groupReleased = stage' := by simpa [Stage.next, hg] using h
            exact Nat.lt_succ_self 2
    | groupReleased => cases h
    | _ =>
        cases h
        exact Nat.lt_succ_self _

theorem Stage.next_eq (task : Task) (stage : Stage) :
    stage.next task = (stages.next task stage).map (task, ·) := by
  cases stage with
  | released => cases hg : task.group <;> simp [stages, Stage.next, hg]
  | _ => rfl

/-- What the event is for the scheduler `s`. -/
def Event.move (s : ℕ) : Event → Option (Pool.Move Task Stage)
  | .published t task => if t = s then some (.submit task) else none
  | .selected t w task => if t = s then some (.take w task) else none
  | .done stage t task => if t = s then some (.pass stage task) else none
  | _ => none

/-- The moves of the scheduler `s` in a history. -/
def poolMoves (s : ℕ) (log : List Event) : List (Pool.Move Task Stage) :=
  log.filterMap (Event.move s)

@[simp] theorem poolMoves_append (s : ℕ) (log log' : List Event) :
    poolMoves s (log ++ log') = poolMoves s log ++ poolMoves s log' :=
  List.filterMap_append

@[simp] theorem poolMoves_nil (s : ℕ) : poolMoves s [] = [] := rfl

@[simp] theorem poolMoves_singleton (s : ℕ) (event : Event) :
    poolMoves s [event] = (event.move s).toList := by
  cases h : event.move s <;> simp [poolMoves, h]

theorem moves_eq_nil_of_inert {events : List Event} (h : ∀ event ∈ events, event.Inert)
    (s : ℕ) : poolMoves s events = [] := by
  refine List.filterMap_eq_nil_iff.mpr fun event hmem => ?_
  have hevent := h event hmem
  cases event <;> simp_all [Event.Inert, Event.move]

/-- The worker `w` of `s` has the task in hand, with the stage to pass next. -/
def Thread.Carries (s w : ℕ) (hand : Task × Stage) (p : Thread) : Prop :=
  ∃ worker, p.worker = some worker ∧ worker.s = s ∧ worker.w = w ∧
    worker.pc.carried = some hand

/-! ## The moves of a step -/

section Control

variable {s : ℕ} {p p' : Thread} {access : Access} {events : List Event}

/-- What a step of a thread from `p` to `p'` is for the pool of `s`. -/
inductive Plays (s : ℕ) (p p' : Thread) (access : Access) (events : List Event) : Prop
  | rest (hpushed : access.pushed s = 0) (htaken : access.taken s = 0)
      (hmoves : poolMoves s events = [])
      (hhands : ∀ w hand, p'.Carries s w hand ↔ p.Carries s w hand)
  | submit (task : Task) (hp : p.Publishing s) (hevents : events = [.published s task])
      (hpushed : access.pushed s = {task}) (htaken : access.taken s = 0)
      (hhands : ∀ w hand, p'.Carries s w hand ↔ p.Carries s w hand)
  | work (worker worker' : Worker) (hw : p.worker = some worker)
      (hw' : p'.worker = some worker') (hs : worker.s = s)
      (hids : worker'.s = worker.s ∧ worker'.w = worker.w) (hpushed : access.pushed s = 0)
      (h : Handles s worker.pc.carried access events worker'.pc.carried)

theorem Call.plays (call : Call) :
    call.instr.Forall fun _ access events => access.taken s = 0 ∧
      ((access.pushed s = 0 ∧ poolMoves s events = []) ∨
        ∃ task, call.Publishing s ∧ events = [.published s task] ∧
          access.pushed s = {task}) := by
  by_cases hpush : call.IsPush
  · cases call with
    | push t task pc =>
        refine (Instr.forall_map _ _ _).mpr ?_
        cases pc with
        | publish =>
            intro r
            by_cases hts : t = s
            · subst hts
              exact ⟨if_pos rfl, .inr ⟨task, rfl, rfl, if_pos rfl⟩⟩
            · exact ⟨if_neg hts, .inl ⟨if_neg hts, by simp [Event.move, hts]⟩⟩
        | ret => exact ⟨rfl, .inl ⟨rfl, rfl⟩⟩
        | _ => exact fun _ => ⟨by simp [Access.taken, SchedOp.taken],
            .inl ⟨by simp [Access.pushed, SchedOp.pushed], rfl⟩⟩
    | _ => exact hpush.elim
  · exact (call.inert hpush).mono fun _ access events h =>
      ⟨h.1.taken_eq s, .inl ⟨h.1.pushed_eq s, moves_eq_nil_of_inert h.2 s⟩⟩

theorem Handles.moves_eq_nil {t : ℕ} {carried carried' : Option (Task × Stage)}
    (h : Handles t carried access events carried') (hts : t ≠ s) : poolMoves s events = [] := by
  cases h <;> simp [Event.move, hts]

theorem Thread.Steps.plays (h : p.Steps p' access events) (s : ℕ) :
    Plays s p p' access events := by
  refine h.of_forall (Plays s) (fun worker call => ?_) (fun worker instr hi => ?_) ?_
  · refine (call.plays (s := s)).mono fun call' access events hcall => ?_
    obtain ⟨htaken, ⟨hpushed, hmoves⟩ | ⟨task, hp, hevents, hpushed⟩⟩ := hcall
    · exact .rest hpushed htaken hmoves fun _ _ => Iff.rfl
    · exact .submit task ⟨call, rfl, hp⟩ hevents hpushed htaken fun _ _ => Iff.rfl
  · refine ((worker.handles hi).and ((worker.pushed_eq s hi).and ((worker.ids_of_instr hi).and
      (worker.uses_of_touches (s := s) hi)))).mono fun worker' access events hall => ?_
    obtain ⟨hhandles, hpushed, hids, htouches⟩ := hall
    by_cases hs : worker.s = s
    · subst hs
      exact .work worker worker' rfl rfl rfl hids hpushed hhandles
    · refine .rest hpushed (Access.taken_eq_zero fun ht => hs (htouches ht))
        (hhandles.moves_eq_nil hs) fun w hand => iff_of_false ?_ ?_
      · rintro ⟨_, ⟨⟩, hs', -⟩
        exact hs (hids.1.symm.trans hs')
      · rintro ⟨_, ⟨⟩, hs', -⟩
        exact hs hs'
  · intro p api now _
    exact .rest rfl rfl rfl fun _ _ => Iff.rfl

end Control

/-! ## Hands -/

section Hands

variable {world world' : World} {a : Action} {p p' : Thread} {access : Access}
  {events : List Event} {s w : ℕ} {hand : Task × Stage}

theorem Thread.number_of_carries (h : p.Carries s w hand) : p.number s = some w := by
  obtain ⟨worker, hw, hs, hn, -⟩ := h
  exact Thread.number_eq_some.mpr ⟨worker, hw, hs, hn⟩

theorem not_carries_of_new {m : Mem} {q : Thread}
    (hq : q ∈ (access.started.map (workerThread m)).toList) : ¬ q.Carries s w hand := by
  obtain ⟨id, -, rfl⟩ := Access.exists_of_new hq
  rintro ⟨worker, ⟨⟩, -, -, hc⟩
  cases hc

/-- The hands stay as they are as long as that of the moving thread does. -/
theorem Step.carries_iff_of_eq (h : Step world a world' p p' access events)
    (hself : p'.Carries s w hand ↔ p.Carries s w hand) :
    (world'.Any fun _ q _ => q.Carries s w hand) ↔
      world.Any fun _ q _ => q.Carries s w hand := by
  constructor
  · rintro ⟨j, q, hq, hc⟩
    rcases h.moves.cases hq with ⟨rfl, rfl⟩ | ⟨-, hold⟩ | ⟨-, hnew⟩
    · exact ⟨a.1, p, h.moves.thread, hself.mp hc⟩
    · exact ⟨j, q, hold, hc⟩
    · exact absurd hc (not_carries_of_new hnew)
  · intro hany
    exact hany.of_moves h.moves (fun hc => h.moves.any_self (hself.mpr hc)) fun _ _ _ _ hc => hc

/-- The hand of a worker is what its thread carries. -/
theorem Reachable.carries_iff (hr : Reachable world) {i : ℕ} {worker : Worker}
    (hp : world.threads[i]? = some p) (hw : p.worker = some worker) (hs : worker.s = s) :
    (world.Any fun _ q _ => q.Carries s worker.w hand) ↔ worker.pc.carried = some hand := by
  constructor
  · rintro ⟨j, q, hq, hc⟩
    have hself : p.number s = some worker.w := Thread.number_eq_some.mpr ⟨_, hw, hs, rfl⟩
    obtain rfl := (hr.numbered s).distinct j i q p _ hq hp (Thread.number_of_carries hc) hself
    cases hq.symm.trans hp
    obtain ⟨_, hw', -, -, hcarried⟩ := hc
    cases hw'.symm.trans hw
    exact hcarried
  · exact fun hcarried => ⟨i, p, hp, worker, hw, hs, rfl, hcarried⟩

end Hands

/-! ## The simulation -/

/-- The state of the scheduler `s` is that of the pool. -/
structure Implements (s : ℕ) (world : World) (pool : Pool Task Stage) : Prop where
  pending : pool.pending = (world.mem.scheds s).queues.tasks
  hands : ∀ w hand, pool.hand w = some hand ↔ world.Any fun _ p _ => p.Carries s w hand
  seen : pool.seen = published s world.mem.log
  outstanding : pool.outstanding + (completed .released s world.mem.log).length =
    (published s world.mem.log).length

/-- The pool of `s`, limited by the capacity. -/
def poolSpec (s : ℕ) (m : Mem) : Spec (Pool Task Stage) (Pool.Move Task Stage) :=
  Pool.spec stages (m.scheds s).config.queueCapacity

section Simulation

variable {world world' : World} {a : Action} {p p' : Thread} {access : Access}
  {events : List Event} {s : ℕ} {pool : Pool Task Stage}

theorem published_of_moves {log : List Event} (h : poolMoves s log = []) :
    published s log = [] := by
  refine List.filterMap_eq_nil_iff.mpr fun event hmem => ?_
  have hmove := List.filterMap_eq_nil_iff.mp h event hmem
  cases event with
  | published t task =>
      by_cases hts : t = s
      · simp [Event.move, hts] at hmove
      · exact if_neg hts
  | _ => rfl

theorem completed_of_moves {log : List Event} (h : poolMoves s log = []) (stage : Stage) :
    completed stage s log = [] := by
  refine List.filterMap_eq_nil_iff.mpr fun event hmem => ?_
  have hmove := List.filterMap_eq_nil_iff.mp h event hmem
  cases event with
  | done stage' t task =>
      by_cases hts : t = s
      · simp [Event.move, hts] at hmove
      · exact if_neg fun heq => hts heq.2
  | _ => rfl

/-- Nothing has happened to a scheduler that has not been created. -/
theorem Reachable.moves_eq_nil (hr : Reachable world)
    (habsent : (world.mem.scheds s).phase = .absent) : poolMoves s world.mem.log = [] := by
  have hnone : published s world.mem.log = [] := by
    by_contra hne
    cases habsent.symm.trans ((hr.opened s).published hne)
  refine List.filterMap_eq_nil_iff.mpr fun event hmem => ?_
  cases event with
  | published t task =>
      refine if_neg fun hts => ?_
      subst hts
      exact absurd (mem_published.mpr hmem) (by simp [hnone])
  | selected t w task =>
      refine if_neg fun hts => ?_
      subst hts
      have hlt := hr.selected_lt hmem
      rw [(hr.present.absent t habsent).1] at hlt
      exact Nat.not_lt_zero w hlt
  | done stage t task =>
      refine if_neg fun hts => ?_
      subst hts
      have hle := Multiset.mem_of_le (hr.completed_le_published stage t)
        (UpgradeSched.mem_completed.mpr hmem)
      simp [hnone] at hle
  | _ => rfl

/-- A submission that publishes holds a slot, so it finds the pool below its limit. -/
theorem Reachable.lt_of_publishing (hr : Reachable world) {i : ℕ}
    (hp : world.threads[i]? = some p) (hpub : p.Publishing s)
    (hcapacity : (world.mem.scheds s).config.queueCapacity ≠ 0) :
    (published s world.mem.log).length <
      (completed .released s world.mem.log).length +
        (world.mem.scheds s).config.queueCapacity := by
  obtain ⟨call, hcall, hpub⟩ := hpub
  have hone : 0 < p.reserved (.sched s) := by
    cases call with
    | push t task pc =>
        cases pc with
        | publish =>
            obtain rfl : t = s := hpub
            simp [Thread.reserved, Thread.holds, hcall, Call.holds, PushPc.holds, counters]
        | _ => exact hpub.elim
    | _ => exact hpub.elim
  have hle := world.le_sum (Thread.reserved (.sched s)) hp
  have hslots := hr.accounting.slots (.sched s)
  unfold Slots at hslots
  rw [admitted_sched, discharged_sched, List.length_map, List.length_map] at hslots
  have hcount := (hr.bounded s).count hcapacity
  omega

/-- A step that leaves the queues and the hands alone leaves the pool alone. -/
theorem Implements.rest (hR : Implements s world pool)
    (h : Step world a world' p p' access events) (hmoves : poolMoves s events = [])
    (hqueues : (world'.mem.scheds s).queues.tasks = (world.mem.scheds s).queues.tasks)
    (hhands : ∀ w hand, p'.Carries s w hand ↔ p.Carries s w hand) :
    Implements s world' pool := by
  refine ⟨hR.pending.trans hqueues.symm, fun w hand => ?_, ?_, ?_⟩
  · rw [hR.hands, h.carries_iff_of_eq (hhands w hand)]
  · simp [h.fires.log, published_of_moves hmoves, hR.seen]
  · simpa [h.fires.log, published_of_moves hmoves, completed_of_moves hmoves] using
      hR.outstanding

theorem Implements.submit (hR : Implements s world pool)
    (h : Step world a world' p p' access events) {task : Task}
    (hevents : events = [.published s task])
    (hqueues : (world'.mem.scheds s).queues.tasks =
      (world.mem.scheds s).queues.tasks + {task})
    (hhands : ∀ w hand, p'.Carries s w hand ↔ p.Carries s w hand) :
    Implements s world'
      { pool with
        pending := task ::ₘ pool.pending
        seen := pool.seen ++ [task]
        outstanding := pool.outstanding + 1 } := by
  subst hevents
  have hpublished : published s world'.mem.log = published s world.mem.log ++ [task] := by
    simp [h.fires.log, Event.publication]
  have hcompleted : completed .released s world'.mem.log =
      completed .released s world.mem.log := by
    simp [h.fires.log, Event.completion]
  refine ⟨?_, fun w hand => ?_, ?_, ?_⟩
  · simp [hqueues, hR.pending, Multiset.add_comm, Multiset.singleton_add]
  · exact (hR.hands w hand).trans (h.carries_iff_of_eq (hhands w hand)).symm
  · simp [hpublished, hR.seen]
  · have hold := hR.outstanding
    rw [hpublished, hcompleted, List.length_append, List.length_singleton]
    exact (Nat.add_right_comm _ _ _).trans (congrArg (· + 1) hold)

/-- The hands after a step of a worker. -/
theorem Implements.hands_update (hR : Implements s world pool)
    (h : Step world a world' p p' access events) (hr : Reachable world)
    {worker worker' : Worker} (hw : p.worker = some worker) (hw' : p'.worker = some worker')
    (hs : worker.s = s) (hids : worker'.s = worker.s ∧ worker'.w = worker.w) (w : ℕ)
    (hand : Task × Stage) :
    Function.update pool.hand worker.w worker'.pc.carried w = some hand ↔
      world'.Any fun _ q _ => q.Carries s w hand := by
  by_cases hne : w = worker.w
  · subst hne
    have hiff : (world'.Any fun _ q _ => q.Carries s worker'.w hand) ↔
        worker'.pc.carried = some hand :=
      (h.reachable hr).carries_iff h.moves.self hw' (hids.1.trans hs)
    rw [hids.2] at hiff
    rw [Function.update_self, hiff]
  · rw [Function.update_of_ne hne, hR.hands]
    refine (h.carries_iff_of_eq (iff_of_false ?_ ?_)).symm
    · rintro ⟨v, hv, -, hvw, -⟩
      cases hw'.symm.trans hv
      exact hne (hvw.symm.trans hids.2)
    · rintro ⟨v, hv, -, hvw, -⟩
      cases hw.symm.trans hv
      exact hne hvw.symm

theorem Implements.hand_eq (hR : Implements s world pool) (hr : Reachable world) {i : ℕ}
    {worker : Worker} (hp : world.threads[i]? = some p) (hw : p.worker = some worker)
    (hs : worker.s = s) : pool.hand worker.w = worker.pc.carried := by
  refine Option.ext fun hand => ?_
  rw [hR.hands, hr.carries_iff hp hw hs]

theorem Step.number_of_selected {v : ℕ} {task : Task}
    (h : Step world a world' p p' access [.selected s v task]) : p.number s = some v := by
  by_contra hne
  simpa using (h.steps.unnoticed hne).selections

theorem Implements.take (hR : Implements s world pool) {v : ℕ} {task : Task}
    {hand : ℕ → Option (Task × Stage)}
    (h : Step world a world' p p' access [.selected s v task])
    (hqueues : (world'.mem.scheds s).queues.tasks + {task} = (world.mem.scheds s).queues.tasks)
    (hhands : ∀ w held, hand w = some held ↔ world'.Any fun _ q _ => q.Carries s w held) :
    Implements s world' { pool with pending := pool.pending.erase task, hand := hand } := by
  refine ⟨?_, hhands, ?_, ?_⟩
  · rw [hR.pending, ← hqueues, add_comm, Multiset.singleton_add, Multiset.erase_cons_head]
  · simp [h.fires.log, Event.publication, hR.seen]
  · simpa [h.fires.log, Event.publication, Event.completion] using hR.outstanding

/-- The slots that are left after a task has passed a stage. -/
theorem Implements.outstanding_pass (hR : Implements s world pool) {stage : Stage} {task : Task}
    (h : Step world a world' p p' access [.done stage s task])
    (hle : (completed .released s world'.mem.log : Multiset Task) ≤
      published s world'.mem.log) :
    let n := (published s world'.mem.log).length - (completed .released s world'.mem.log).length
    n + (if stage = stages.frees then 1 else 0) = pool.outstanding ∧
      n + (completed .released s world'.mem.log).length = (published s world'.mem.log).length := by
  have hcard : (completed .released s world'.mem.log).length ≤
      (published s world'.mem.log).length := Multiset.card_le_card hle
  have hpublished : published s world'.mem.log = published s world.mem.log := by
    simp [h.fires.log, Event.publication]
  have hcompleted : (completed .released s world'.mem.log).length =
      (completed .released s world.mem.log).length + if stage = stages.frees then 1 else 0 := by
    by_cases hstage : stage = .released <;>
      simp [h.fires.log, Event.completion, stages, hstage]
  have hout := hR.outstanding
  rw [hpublished] at hcard ⊢
  intro n
  omega

theorem Implements.pass (hR : Implements s world pool) {stage : Stage} {task : Task} {n : ℕ}
    {hand : ℕ → Option (Task × Stage)}
    (h : Step world a world' p p' access [.done stage s task])
    (hqueues : (world'.mem.scheds s).queues.tasks = (world.mem.scheds s).queues.tasks)
    (hhands : ∀ w held, hand w = some held ↔ world'.Any fun _ q _ => q.Carries s w held)
    (hn : n + (completed .released s world'.mem.log).length =
      (published s world'.mem.log).length) :
    Implements s world' { pool with hand := hand, outstanding := n } := by
  refine ⟨hR.pending.trans hqueues.symm, hhands, ?_, hn⟩
  simp [h.fires.log, Event.publication, hR.seen]

/-- The step is matched by the events that it adds to the history. -/
theorem Step.implements (h : Step world a world' p p' access events) (hr : Reachable world)
    (hR : Implements s world pool) :
    (poolMoves s world'.mem.log = poolMoves s world.mem.log ∧ Implements s world' pool) ∨
      ∃ l pool', poolMoves s world'.mem.log = poolMoves s world.mem.log ++ [l] ∧
        (poolSpec s world.mem).step pool l pool' ∧ Implements s world' pool' := by
  have hr' := h.reachable hr
  have hlog : poolMoves s world'.mem.log = poolMoves s world.mem.log ++ poolMoves s events := by
    rw [h.fires.log, poolMoves_append]
  have hqueues := h.tasks_eq hr s
  cases h.steps.plays s with
  | rest hpushed htaken hmoves hhands =>
      rw [hpushed, htaken, add_zero, add_zero] at hqueues
      exact .inl ⟨by simp [hlog, hmoves], hR.rest h hmoves hqueues hhands⟩
  | submit task hpub hevents hpushed htaken hhands =>
      rw [hpushed, htaken, add_zero] at hqueues
      refine .inr ⟨.submit task, _, by simp [hlog, hevents, Event.move], ?_,
        hR.submit h hevents hqueues hhands⟩
      refine .submit pool task (fun hmem => ?_) ?_
      · have hnodup := hr'.nodup_published s
        rw [hR.seen] at hmem
        rw [h.fires.log, published_append, hevents, List.nodup_append] at hnodup
        exact hnodup.2.2 task hmem task (by simp [Event.publication]) rfl
      · refine (Nat.eq_zero_or_pos _).imp_right fun hpos => ?_
        have hlt := hr.lt_of_publishing h.moves.thread hpub hpos.ne'
        have hout := hR.outstanding
        omega
  | work worker worker' hw hw' hs hids hpushed hhandles =>
      rw [hpushed, add_zero] at hqueues
      have hhand := hR.hand_eq hr h.moves.thread hw hs
      have hupdate := hR.hands_update h hr hw hw' hs hids
      generalize hfrom : worker.pc.carried = carried at hhandles hhand
      generalize hto : worker'.pc.carried = carried' at hhandles hupdate
      cases hhandles with
      | keep _ htaken =>
          rw [htaken, add_zero] at hqueues
          refine .inl ⟨by simp [hlog], hR.rest h rfl hqueues fun w hand => ?_⟩
          simp [Thread.Carries, hw, hw', hids, hfrom, hto]
      | take v task htaken =>
          obtain ⟨u, hu, -, rfl⟩ := Thread.number_eq_some.mp h.number_of_selected
          cases hw.symm.trans hu
          rw [htaken] at hqueues
          have hmem : task ∈ pool.pending := by simp [hR.pending, ← hqueues]
          exact .inr ⟨.take worker.w task, _, by simp [hlog, Event.move],
            .take pool worker.w task hhand hmem, hR.take h hqueues hupdate⟩
      | pass task stage hconcerns htaken =>
          rw [htaken, add_zero] at hqueues
          rw [Stage.next_eq] at hupdate
          have hcount := hR.outstanding_pass h (hr'.completed_le_published .released s)
          exact .inr ⟨.pass stage task, _, by simp [hlog, Event.move],
            .pass pool worker.w _ task stage hhand hcount.1, hR.pass h hqueues hupdate hcount.2⟩

theorem Step.moves_of_creates (h : Step world a world' p p' access events)
    (hr : Reachable world) (hc : access.Creates s) : poolMoves s events = [] := by
  have habsent := (h.fires.phase_of_creates hc).1
  cases h.steps.plays s with
  | rest _ _ hmoves => exact hmoves
  | submit task _ _ hpushed =>
      cases access with
      | sched t op r =>
          cases op <;> first | exact hc.elim | simp [Access.pushed, SchedOp.pushed] at hpushed
      | _ => exact hc.elim
  | work worker worker' hw _ hs =>
      have hnumber : p.number s = some worker.w := Thread.number_eq_some.mpr ⟨_, hw, hs, rfl⟩
      exact absurd habsent
        (hr.present.uses _ _ h.moves.thread s (Thread.uses_of_number hnumber))

theorem simulation (s usizeBits clients : ℕ) :
    Simulation scheduler (World.init usizeBits clients) (fun m => poolMoves s m.log)
      (poolSpec s) (Implements s) := by
  refine ⟨⟨rfl, ⟨rfl, fun w hand => ?_, rfl, rfl⟩⟩, ?_, ?_⟩
  · refine iff_of_false (by simp [poolSpec, Pool.spec]) ?_
    rintro ⟨i, p, hp, worker, hw, -⟩
    rw [World.eq_client_of_init hp] at hw
    cases hw
  · intro c c' x hreach hstep
    have hr : Reachable c := ⟨usizeBits, clients, hreach⟩
    obtain ⟨p, p', access, events, hs⟩ := exists_step hstep
    by_cases hc : access.Creates s
    · exact .inr ⟨hr.moves_eq_nil (hs.fires.phase_of_creates hc).1, rfl⟩
    · exact .inl (by rw [poolSpec, hs.fires.config_eq hc, ← poolSpec])
  · intro c c' x pool hreach hstep hR
    have hr : Reachable c := ⟨usizeBits, clients, hreach⟩
    obtain ⟨p, p', access, events, hs⟩ := exists_step hstep
    refine (hs.implements hr hR).imp_right fun hevent => ?_
    obtain ⟨l, pool', hlog, hl, hR'⟩ := hevent
    have hc : ¬ access.Creates s := by
      intro hc
      rw [hs.fires.log, poolMoves_append, hs.moves_of_creates hr hc] at hlog
      simp at hlog
    refine ⟨l, pool', hlog, ?_, hR'⟩
    rwa [poolSpec, hs.fires.config_eq hc, ← poolSpec]

/-- Every history of a scheduler is one of a pool that is limited by the capacity, and the
queues and the hands of the workers are in the state of that pool. -/
theorem refines_pool (hr : Reachable world) (s : ℕ) :
    ∃ pool, (poolSpec s world.mem).Trace (poolMoves s world.mem.log) pool ∧
      Implements s world pool := by
  obtain ⟨usizeBits, clients, hreach⟩ := hr
  exact (simulation s usizeBits clients).trace hreach

theorem refines_pool_oneTaskAndOneFailure :
    ∃ pool, (Pool.spec stages 1).Trace
      (poolMoves 0 (World.after 2 (oneTaskAndOneFailure.take 16) (by decide +kernel)).mem.log)
      pool := by
  obtain ⟨pool, htrace, -⟩ := refines_pool
    (World.reachable_after 2 (oneTaskAndOneFailure.take 16) (by decide +kernel)) 0
  exact ⟨pool, htrace⟩

end Simulation

/-! ## The order of the events -/

section Order

variable {world : World} {s w : ℕ} {task : Task} {stage stage' : Stage}
  {log log₁ log₂ : List Event}

theorem mem_poolMoves {event : Event} {move : Pool.Move Task Stage}
    (hmove : ∀ event', event'.move s = some move ↔ event' = event) :
    move ∈ poolMoves s log ↔ event ∈ log := by
  simp [poolMoves, List.mem_filterMap, hmove]

@[simp] theorem submit_mem_poolMoves :
    .submit task ∈ poolMoves s log ↔ .published s task ∈ log :=
  mem_poolMoves fun event => by cases event <;> simp [Event.move]

@[simp] theorem take_mem_poolMoves :
    .take w task ∈ poolMoves s log ↔ .selected s w task ∈ log :=
  mem_poolMoves fun event => by cases event <;> simp [Event.move]

@[simp] theorem pass_mem_poolMoves :
    .pass stage task ∈ poolMoves s log ↔ .done stage s task ∈ log := by
  refine mem_poolMoves fun event => ?_
  cases event with
  | done stage' t task' =>
      simp only [Event.move, Event.done.injEq]
      split <;> simp_all
  | _ => simp [Event.move]

theorem countP_submit (log : List Event) :
    (poolMoves s log).countP Pool.Move.isSubmit = (published s log).length := by
  rw [poolMoves, published, List.countP_filterMap, List.length_filterMap_eq_countP]
  refine List.countP_congr fun event _ => ?_
  cases event with
  | published t task | selected t w task | done stage t task =>
      by_cases hts : t = s <;> simp [Event.move, Event.publication, Pool.Move.isSubmit, hts]
  | _ => simp [Event.move, Event.publication]

theorem countP_pass (stage : Stage) (log : List Event) :
    (poolMoves s log).countP (Pool.Move.isPass stage) = (completed stage s log).length := by
  rw [poolMoves, completed, List.countP_filterMap, List.length_filterMap_eq_countP]
  refine List.countP_congr fun event _ => ?_
  cases event with
  | published t task | selected t w task =>
      by_cases hts : t = s <;> simp [Event.move, Event.completion, Pool.Move.isPass, hts]
  | done stage' t task =>
      by_cases hts : t = s <;> by_cases hstage : stage' = stage <;>
        simp [Event.move, Event.completion, Pool.Move.isPass, hts, hstage]
  | _ => simp [Event.move, Event.completion]

theorem Stage.rank_of_next (h : stages.next task stage = some stage') :
    stage'.rank = stage.rank + 1 := by
  cases stage with
  | released =>
      cases hg : task.group with
      | none => simp [stages, Stage.next, hg] at h
      | some g =>
          obtain rfl : Stage.groupReleased = stage' := by simpa [stages, Stage.next, hg] using h
          rfl
  | groupReleased => cases h
  | _ =>
      cases h
      rfl

theorem Stage.rank_injective : Function.Injective Stage.rank := by
  intro stage stage' h
  cases stage <;> cases stage' <;> first | rfl | cases h

/-- The last stage of a task comes after every stage that concerns it. -/
theorem Stage.rank_le_of_last (h : stages.next task stage = none)
    (hc : stage'.Concerns task) : stage'.rank ≤ stage.rank := by
  cases stage with
  | released =>
      cases hg : task.group with
      | none => cases stage' <;> simp_all [Stage.Concerns, Stage.rank]
      | some g => simp [stages, Stage.next, hg] at h
  | groupReleased => cases stage' <;> simp [Stage.rank]
  | _ => cases h

/-- A task that has passed a stage has passed the earlier ones. -/
theorem passed_of_rank_le {ls : List (Pool.Move Task Stage)} {pool : Pool Task Stage}
    (h : Pool.Sound stages ls pool) (hpass : .pass stage task ∈ ls)
    (hle : stage'.rank ≤ stage.rank) : .pass stage' task ∈ ls := by
  induction hn : stage.rank - stage'.rank generalizing stage with
  | zero =>
      obtain rfl : stage' = stage := Stage.rank_injective (by omega)
      exact hpass
  | succ n ih =>
      rcases (h.passed stage task hpass).2 with rfl | ⟨before, hnext, hbefore⟩
      · simp [stages, Stage.rank] at hn
      · have hrank := Stage.rank_of_next hnext
        exact ih hbefore (by omega) (by omega)

/-- At every event of a history: a task is published once and while fewer tasks than the
capacity are outstanding; a worker selects a task that has been published and that nobody
has selected, and it has then taken every task it selected before through all its stages;
and a task that has been selected passes each stage once and after the earlier ones. -/
theorem history_ordered (hr : Reachable world) (s : ℕ) {event : Event}
    (hlog : world.mem.log = log₁ ++ event :: log₂) :
    (∀ task, event = .published s task → .published s task ∉ log₁ ∧
      ((world.mem.scheds s).config.queueCapacity ≠ 0 → (published s log₁).length <
        (world.mem.scheds s).config.queueCapacity + (completed .released s log₁).length)) ∧
    (∀ w task, event = .selected s w task → .published s task ∈ log₁ ∧
      (∀ v, .selected s v task ∉ log₁) ∧
      ∀ task', .selected s w task' ∈ log₁ → ∀ stage : Stage, stage.Concerns task' →
        .done stage s task' ∈ log₁) ∧
    ∀ stage task, event = .done stage s task → .done stage s task ∉ log₁ ∧
      (∃ w, .selected s w task ∈ log₁) ∧
      ∀ stage', .done stage' s task ∈ log₁ ↔ stage'.rank < stage.rank := by
  obtain ⟨usizeBits, clients, hreach⟩ := hr
  obtain ⟨pool, htrace, -⟩ := (simulation s usizeBits clients).trace hreach
  have hfollows : ∀ move, event.move s = some move →
      move ∉ poolMoves s log₁ ∧ Pool.Follows stages
        (world.mem.scheds s).config.queueCapacity (poolMoves s log₁) move ∧
      ∃ pool₁, Pool.Sound stages (poolMoves s log₁) pool₁ := by
    intro move hmove
    have hsplit : poolMoves s world.mem.log =
        poolMoves s log₁ ++ move :: poolMoves s log₂ := by
      rw [hlog, poolMoves_append, poolMoves, poolMoves, List.filterMap_cons, hmove]
      rfl
    rw [hsplit] at htrace
    obtain ⟨hnew, hbefore⟩ := Pool.follows_of_trace htrace
    obtain ⟨pool₁, -, htrace₁, -⟩ := htrace.exists_step
    exact ⟨hnew, hbefore, pool₁, Pool.sound_of_trace htrace₁⟩
  refine ⟨?_, ?_, ?_⟩
  · rintro task rfl
    obtain ⟨hnew, hlimit, -⟩ := hfollows (.submit task) (if_pos rfl)
    refine ⟨by simpa using hnew, fun hne => ?_⟩
    simpa [countP_submit, countP_pass, stages] using hlimit hne
  · rintro w task rfl
    obtain ⟨-, ⟨hpublished, hnone, hserial⟩, pool₁, hs⟩ :=
      hfollows (.take w task) (if_pos rfl)
    refine ⟨by simpa using hpublished, fun v => by simpa using hnone v,
      fun task' hmem stage hc => ?_⟩
    obtain ⟨last, hlast, hpass⟩ := hserial task' (by simpa using hmem)
    simpa using passed_of_rank_le hs hpass (Stage.rank_le_of_last hlast hc)
  · rintro stage task rfl
    obtain ⟨hnew, ⟨hselected, hfrom, hbelow⟩, pool₁, hs⟩ :=
      hfollows (.pass stage task) (if_pos rfl)
    refine ⟨by simpa using hnew, by simpa using hselected, fun stage' =>
      ⟨fun hmem => ?_, fun hlt => ?_⟩⟩
    · exact hbelow stage' (by simpa using hmem)
    · rcases hfrom with rfl | ⟨before, hnext, hbefore⟩
      · simp [stages, Stage.rank] at hlt
      · have hrank := Stage.rank_of_next hnext
        simpa using passed_of_rank_le hs hbefore (show stage'.rank ≤ before.rank by omega)

/-- The callback that has just returned is that of a selected task. -/
theorem history_ordered_oneTaskAndOneFailure :
    let log := (World.after 2 (oneTaskAndOneFailure.take 20) (by decide +kernel)).mem.log
    ∃ w, .selected 0 w ⟨1, none, 7, 9, .normal, none⟩ ∈ log.take 5 := by
  intro log
  have hlog : log = log.take 5 ++
      .done .finished 0 ⟨1, none, 7, 9, .normal, none⟩ :: [] := by decide +kernel
  have hr := World.reachable_after 2 (oneTaskAndOneFailure.take 20) (by decide +kernel)
  exact ((history_ordered hr 0 hlog).2.2 _ _ rfl).2.1

end Order

end UpgradeSched
