import UpgradeSched.Accounting.Presence

/-!
# Where a published task is

A published task is in an injector, in a local deque, in the hand of one worker,
or past the stage of its accounting that one looks at: `Custody stage s` is this
equation between multisets, for every stage. It is kept by every step. The steps
that move tasks are the publication, the steals and the four steps of
`execute_task`; a worker that drops its local deque must find it empty.
-/

namespace UpgradeSched

open Interleaving

/-! ## The history of a scheduler -/

def Event.publication (s : ℕ) : Event → Option Task
  | .published t task => if t = s then some task else none
  | _ => none

def Event.completion (stage : Stage) (s : ℕ) : Event → Option Task
  | .done stage' t task => if stage' = stage ∧ t = s then some task else none
  | _ => none

/-- The tasks published to the scheduler `s`, in order. -/
def published (s : ℕ) (log : List Event) : List Task :=
  log.filterMap (Event.publication s)

/-- The tasks of the scheduler `s` that have passed a stage, in order. -/
def completed (stage : Stage) (s : ℕ) (log : List Event) : List Task :=
  log.filterMap (Event.completion stage s)

@[simp] theorem published_append (s : ℕ) (log log' : List Event) :
    published s (log ++ log') = published s log ++ published s log' :=
  List.filterMap_append

@[simp] theorem completed_append (stage : Stage) (s : ℕ) (log log' : List Event) :
    completed stage s (log ++ log') = completed stage s log ++ completed stage s log' :=
  List.filterMap_append

@[simp] theorem published_nil (s : ℕ) : published s [] = [] := rfl

@[simp] theorem completed_nil (stage : Stage) (s : ℕ) : completed stage s [] = [] := rfl

@[simp] theorem published_singleton (s : ℕ) (event : Event) :
    published s [event] = (event.publication s).toList := by
  cases h : event.publication s <;> simp [published, h]

@[simp] theorem completed_singleton (stage : Stage) (s : ℕ) (event : Event) :
    completed stage s [event] = (event.completion stage s).toList := by
  cases h : event.completion stage s <;> simp [completed, h]

theorem Event.publication_eq_some {s : ℕ} {event : Event} {task : Task} :
    event.publication s = some task ↔ event = .published s task := by
  cases event with
  | published t task' => simp [publication]
  | _ => simp [publication]

theorem Event.completion_eq_some {stage : Stage} {s : ℕ} {event : Event} {task : Task} :
    event.completion stage s = some task ↔ event = .done stage s task := by
  cases event with
  | done stage' t task' => simp [completion, and_assoc]
  | _ => simp [completion]

theorem mem_published {s : ℕ} {log : List Event} {task : Task} :
    task ∈ published s log ↔ Event.published s task ∈ log := by
  simp only [published, List.mem_filterMap, Event.publication_eq_some, exists_eq_right]

theorem mem_completed {stage : Stage} {s : ℕ} {log : List Event} {task : Task} :
    task ∈ completed stage s log ↔ Event.done stage s task ∈ log := by
  simp only [completed, List.mem_filterMap, Event.completion_eq_some, exists_eq_right]

/-! ## Tasks in hand -/

/-- The number of stages before this one. -/
def Stage.rank : Stage → ℕ
  | .finished => 0
  | .recorded => 1
  | .released => 2
  | .groupReleased => 3

/-- Only tasks of a group have a group registration. -/
def Stage.Concerns : Stage → Task → Prop
  | .groupReleased, task => task.group.isSome
  | _, _ => True

instance (stage : Stage) : DecidablePred stage.Concerns := fun task => by
  cases stage <;> unfold Stage.Concerns <;> infer_instance

theorem Stage.filter_concerns {stage : Stage} (h : stage ≠ .groupReleased)
    (tasks : Multiset Task) : tasks.filter stage.Concerns = tasks := by
  refine Multiset.filter_eq_self.mpr fun _ _ => ?_
  cases stage with
  | groupReleased => exact absurd rfl h
  | _ => trivial

/-- What a worker has in hand after a stage: the task with the stage that comes
next, or nothing when the accounting of the task is complete. -/
def Stage.next (task : Task) : Stage → Option (Task × Stage)
  | .finished => some (task, .recorded)
  | .recorded => some (task, .released)
  | .released => if task.group.isSome then some (task, .groupReleased) else none
  | .groupReleased => none

def PopPc.carried : PopPc → Option (Task × Stage)
  | .stealSuccess task => some (task, .finished)
  | _ => none

def Search.carried : Search → Option (Task × Stage)
  | .reach pc => pc.carried
  | .ret (.task task) => some (task, .finished)
  | .ret _ => none

def Leave.carried : Leave → Option (Task × Stage)
  | .execute task => some (task, .finished)
  | _ => none

/-- The task a worker has in hand, with the stage it is to pass next. -/
def WorkerPc.carried : WorkerPc → Option (Task × Stage)
  | .pop _ pc => pc.carried
  | .withdraw how | .unlock how => how.carried
  | .callback task => some (task, .finished)
  | .record task => Stage.next task .finished
  | .release task => Stage.next task .recorded
  | .notify task => Stage.next task .released
  | .groupRelease task _ _ => some (task, .groupReleased)
  | _ => none

/-- The task in hand as long as it has not passed the stage. -/
def Stage.held (stage : Stage) : Option (Task × Stage) → Multiset Task
  | some (task, next) => if next.rank ≤ stage.rank ∧ stage.Concerns task then {task} else 0
  | none => 0

/-- The task of the scheduler `s` in the hand of a worker, before the stage. -/
def Worker.held (stage : Stage) (s : ℕ) (worker : Worker) : Multiset Task :=
  if worker.s = s then stage.held worker.pc.carried else 0

def Thread.held (stage : Stage) (s : ℕ) (p : Thread) : Multiset Task :=
  p.worker.elim 0 (Worker.held stage s)

section Carried

variable (stage : Stage) (worker : Worker)

@[simp] theorem Stage.held_none : stage.held none = 0 := rfl

@[simp] theorem Stage.held_finished (task : Task) :
    stage.held (some (task, .finished)) = ({task} : Multiset Task).filter stage.Concerns := by
  simp [held, rank, Multiset.filter_singleton]

/-- Passing a stage. -/
theorem Stage.held_next (task : Task) (stage' : Stage) (h : stage'.Concerns task) :
    stage.held (stage'.next task) + (if stage' = stage then {task} else 0) =
      stage.held (some (task, stage')) := by
  cases hg : task.group <;> cases stage <;> cases stage' <;>
    simp_all [held, next, rank, Concerns]

/-- What has not passed a stage has not passed a later one. -/
theorem Thread.count_held_le (p : Thread) (s : ℕ) {stage stage' : Stage} {task : Task}
    (hle : stage.rank ≤ stage'.rank) (hc : stage'.Concerns task) :
    (p.held stage s).count task ≤ (p.held stage' s).count task := by
  have hheld : ∀ carried : Option (Task × Stage),
      (stage.held carried).count task ≤ (stage'.held carried).count task := by
    intro carried
    rcases carried with _ | ⟨task', next⟩
    · exact le_refl _
    · by_cases heq : task' = task
      · subst heq
        rw [Stage.held]
        split
        · rename_i hnext
          have hnext' : next.rank ≤ stage'.rank ∧ stage'.Concerns task' :=
            ⟨hnext.1.trans hle, hc⟩
          rw [Stage.held, if_pos hnext']
        · exact Nat.zero_le _
      · have hzero : (stage.held (some (task', next))).count task = 0 := by
          rw [Stage.held]
          split
          · rw [Multiset.count_singleton, if_neg (Ne.symm heq)]
          · exact Multiset.count_zero task
        rw [hzero]
        exact Nat.zero_le _
  unfold Thread.held
  cases p.worker with
  | none => exact le_refl _
  | some worker =>
      by_cases hs : worker.s = s
      · simpa only [Option.elim_some, Worker.held, if_pos hs] using hheld worker.pc.carried
      · simp only [Option.elim_some, Worker.held, if_neg hs, le_refl]

@[simp] theorem PopPc.carried_enter (cursors : Cursors) :
    (PopPc.enter cursors).carried = none := by
  unfold enter
  split <;> rfl

@[simp] theorem PopPc.carried_probe (victims : List ℕ) :
    (PopPc.probe victims).carried = none := by
  cases victims <;> rfl

theorem Worker.carried_search (site : Site) : (worker.search site).pc.carried = none :=
  PopPc.carried_enter worker.cursors

theorem Worker.carried_proceed (how : Leave) :
    (worker.proceed how).pc.carried = how.carried := by
  cases how with
  | again => exact worker.carried_search .fast
  | _ => rfl

theorem Worker.carried_leave (site : Site) (how : Leave) :
    (worker.leave site how).pc.carried = how.carried := by
  cases site with
  | fast => exact worker.carried_proceed how
  | _ => rfl

theorem Worker.carried_deeper (site : Site) : (worker.deeper site).pc.carried = none := by
  cases site <;> rfl

theorem Worker.carried_afterSearch (site : Site) (search : Search) :
    (worker.afterSearch site search).pc.carried = search.carried := by
  rcases search with _ | (task | _ | _)
  · rfl
  · exact worker.carried_leave site (.execute task)
  · rfl
  · exact worker.carried_leave site .again

theorem Worker.carried_afterRelease (task : Task) :
    (worker.afterRelease task).pc.carried = Stage.next task .released := by
  unfold afterRelease
  split
  · rename_i g hg
    simp [Stage.next, hg, WorkerPc.carried]
  · rename_i hg
    rw [worker.carried_search]
    simp [Stage.next, hg]

end Carried

/-! ## What accesses move -/

def Steal.taken : Steal → Multiset Task
  | .success task => {task}
  | _ => 0

/-- The task that a step takes out of the queues. -/
def SchedOp.taken {α : Type} : SchedOp α → α → Multiset Task
  | stealBatchAndPop _ _, r | steal _, r => r.taken
  | popLocal _, r => r.elim 0 fun task => {task}
  | _, _ => 0

/-- The task that a step puts into the queues. -/
def SchedOp.pushed {α : Type} : SchedOp α → Multiset Task
  | pushGlobal task => {task}
  | _ => 0

/-- The step drops the local deque of worker `w`. -/
def SchedOp.Drops {α : Type} (w : ℕ) : SchedOp α → Prop
  | exit v => v = w
  | _ => False

namespace Access

/-- The task that the access takes out of the queues of `s`. -/
def taken (s : ℕ) : Access → Multiset Task
  | .sched t op r => if t = s then op.taken r else 0
  | _ => 0

/-- The task that the access puts into the queues of `s`. -/
def pushed (s : ℕ) : Access → Multiset Task
  | .sched t op _ => if t = s then op.pushed else 0
  | _ => 0

/-- The access drops the local deque of worker `w` of `s`. -/
def Drops (s w : ℕ) : Access → Prop
  | .sched t op _ => t = s ∧ op.Drops w
  | _ => False

/-- The access neither counts nor moves tasks, and does not start a call. -/
def Inert : Access → Prop
  | .gate _ op r => op.adds r = 0 ∧ op.subs = 0
  | .sched _ op r => op.taken r = 0 ∧ op.pushed = 0
  | .start _ _ => False
  | _ => True

theorem Inert.taken_eq {access : Access} (h : access.Inert) (s : ℕ) :
    access.taken s = 0 := by
  cases access with
  | sched t op r =>
      have hop : op.taken r = 0 := h.1
      simp [Access.taken, hop]
  | _ => rfl

theorem Inert.pushed_eq {access : Access} (h : access.Inert) (s : ℕ) :
    access.pushed s = 0 := by
  cases access with
  | sched t op r =>
      have hop : op.pushed = 0 := h.2
      simp [Access.pushed, hop]
  | _ => rfl

end Access

/-- The event is the start of a call or the closing of a gate. -/
def Event.Inert : Event → Prop
  | .called _ | .stopped _ => True
  | _ => False

section Calls

theorem StopPc.inert (x : Obj) (pc : StopPc) :
    (pc.instr x).Forall fun _ access events =>
      access.Inert ∧ ∀ event ∈ events, event.Inert := by
  cases pc with
  | store => exact fun _ => ⟨⟨rfl, rfl⟩, by simp [Event.Inert]⟩
  | notify => exact fun _ => ⟨⟨rfl, rfl⟩, List.forall_mem_nil _⟩

theorem WaitPc.inert (x : Obj) (pc : WaitPc) :
    (pc.instr x).Forall fun _ access events =>
      access.Inert ∧ ∀ event ∈ events, event.Inert := by
  cases pc with
  | ret => exact ⟨trivial, List.forall_mem_nil _⟩
  | _ => exact fun _ => ⟨⟨rfl, rfl⟩, List.forall_mem_nil _⟩

theorem CreatePc.inert (s : ℕ) (pc : CreatePc) :
    (pc.instr s).Forall fun _ access events =>
      access.Inert ∧ ∀ event ∈ events, event.Inert := by
  cases pc with
  | stop pc =>
      rw [instr]
      exact (pc.inert (.sched s)).map _
  | spawn => exact fun _ => ⟨trivial, List.forall_mem_nil _⟩
  | join ws =>
      cases ws with
      | nil => exact ⟨trivial, List.forall_mem_nil _⟩
      | cons w ws => exact fun _ => ⟨⟨rfl, rfl⟩, List.forall_mem_nil _⟩
  | _ => exact fun _ => ⟨⟨rfl, rfl⟩, List.forall_mem_nil _⟩

theorem DestroyPc.inert (s : ℕ) (pc : DestroyPc) :
    (pc.instr s).Forall fun _ access events =>
      access.Inert ∧ ∀ event ∈ events, event.Inert := by
  cases pc with
  | stop pc =>
      rw [instr]
      exact (pc.inert (.sched s)).map _
  | join ws =>
      cases ws with
      | nil => exact ⟨trivial, List.forall_mem_nil _⟩
      | cons w ws => exact fun _ => ⟨⟨rfl, rfl⟩, List.forall_mem_nil _⟩
  | workers => exact fun _ => ⟨⟨rfl, rfl⟩, List.forall_mem_nil _⟩

theorem StatsPc.inert (s : ℕ) (pc : StatsPc) :
    (pc.instr s).Forall fun _ access events =>
      access.Inert ∧ ∀ event ∈ events, event.Inert := by
  cases pc with
  | load values todo =>
      cases todo <;> exact fun _ => ⟨⟨rfl, rfl⟩, List.forall_mem_nil _⟩
  | ret => exact ⟨trivial, List.forall_mem_nil _⟩

/-- The call is a submission. -/
def Call.IsPush : Call → Prop
  | .push _ _ _ => True
  | _ => False

/-- Only submissions and workers count and move tasks. -/
theorem Call.inert (call : Call) (h : ¬ call.IsPush) :
    call.instr.Forall fun _ access events =>
      access.Inert ∧ ∀ event ∈ events, event.Inert := by
  cases call with
  | push s task pc => exact absurd trivial h
  | wait x began pc => exact (pc.inert x).map _
  | stop x pc => exact (pc.inert x).map _
  | create s pc => exact (pc.inert s).map _
  | destroy s pc => exact (pc.inert s).map _
  | getStats s pc => exact (pc.inert s).map _

/-- A call stays the call that it is. -/
theorem Call.not_isPush_of_instr (call : Call) (h : ¬ call.IsPush) :
    call.instr.Forall fun call' _ _ => ∀ next, call' = some next → ¬ next.IsPush := by
  cases call with
  | push s task pc => exact absurd trivial h
  | _ =>
      refine (Instr.forall_map _ _ _).mpr (Instr.forall_of_all (fun pc _ _ next hn => ?_) _)
      cases pc <;> cases hn
      exact id

theorem published_eq_nil_of_inert {events : List Event}
    (h : ∀ event ∈ events, event.Inert) (s : ℕ) : published s events = [] := by
  refine List.filterMap_eq_nil_iff.mpr fun event hmem => ?_
  have hevent := h event hmem
  cases event <;> simp_all [Event.Inert, Event.publication]

theorem completed_eq_nil_of_inert {events : List Event}
    (h : ∀ event ∈ events, event.Inert) (stage : Stage) (s : ℕ) :
    completed stage s events = [] := by
  refine List.filterMap_eq_nil_iff.mpr fun event hmem => ?_
  have hevent := h event hmem
  cases event <;> simp_all [Event.Inert, Event.completion]

end Calls

section Control

variable (stage : Stage) (s : ℕ)

/-- A submission puts into the queues what it publishes. -/
theorem PushPc.custody (t : ℕ) (task : Task) (pc : PushPc task.group) :
    (pc.instr t task).Forall fun _ access events =>
      (↑(published s events) : Multiset Task) = access.pushed s ∧
        access.taken s = 0 ∧ completed stage s events = [] := by
  have hframe : ∀ {α : Type} (op : SchedOp α) (r : α), op.pushed = 0 → op.taken r = 0 →
      Access.pushed s (.sched t op r) = 0 ∧ Access.taken s (.sched t op r) = 0 := by
    intro α op r hpushed htaken
    simp [Access.pushed, Access.taken, hpushed, htaken]
  cases pc with
  | publish =>
      intro r
      by_cases hts : t = s <;>
        simp [Access.pushed, Access.taken, SchedOp.pushed, SchedOp.taken, Event.publication,
          Event.completion, hts]
  | ret => exact ⟨rfl, rfl, rfl⟩
  | readCapacity | rejectFull | recordSubmission | wakeCheck =>
      exact fun r => ⟨(hframe _ r rfl rfl).1.symm, (hframe _ r rfl rfl).2, rfl⟩
  | _ => exact fun _ => ⟨rfl, rfl, rfl⟩

theorem Call.custody (call : Call) :
    call.instr.Forall fun _ access events =>
      (↑(published s events) : Multiset Task) = access.pushed s ∧
        access.taken s = 0 ∧ completed stage s events = [] := by
  by_cases hpush : call.IsPush
  · cases call with
    | push t task pc => exact (pc.custody stage s t task).map _
    | _ => exact hpush.elim
  · refine (call.inert hpush).mono fun _ access events h => ?_
    rw [h.1.pushed_eq, h.1.taken_eq, published_eq_nil_of_inert h.2,
      completed_eq_nil_of_inert h.2]
    exact ⟨rfl, rfl, rfl⟩

/-- What a step of a worker of the scheduler `t` does to the task in its hand: it
keeps it, it takes one out of the queues, or it passes a stage with it. -/
inductive Handles (t : ℕ) :
    Option (Task × Stage) → Access → List Event → Option (Task × Stage) → Prop
  | keep {access : Access} (carried : Option (Task × Stage)) (h : access.taken t = 0) :
      Handles t carried access [] carried
  | take {access : Access} (w : ℕ) (task : Task) (h : access.taken t = {task}) :
      Handles t none access [.selected t w task] (some (task, .finished))
  | pass {access : Access} (task : Task) (stage : Stage) (hc : stage.Concerns task)
      (h : access.taken t = 0) :
      Handles t (some (task, stage)) access [.done stage t task] (stage.next task)

section Handles

variable {s t : ℕ} {stage : Stage} {carried carried' : Option (Task × Stage)}
  {access : Access} {events : List Event}

theorem Handles.published_eq (h : Handles t carried access events carried') :
    published s events = [] := by
  cases h <;> rfl

theorem Handles.completed_eq_nil (h : Handles t carried access events carried')
    (hst : s ≠ t) : completed stage s events = [] := by
  cases h with
  | pass => simp [Event.completion, Ne.symm hst]
  | _ => rfl

theorem Handles.held_eq (h : Handles t carried access events carried') :
    stage.held carried' + ↑(completed stage t events) =
      stage.held carried + (access.taken t).filter stage.Concerns := by
  cases h with
  | keep _ h => simp [h]
  | take w task h => simp [h, Event.completion]
  | pass task stage' hc h =>
      rw [h, ← stage.held_next task stage' hc]
      by_cases heq : stage' = stage <;> simp [Event.completion, heq]

end Handles

theorem PopPc.handles_tryPriorityQueue (t w : ℕ) (cursors : Cursors)
    (priority : TaskPriority) {next : Cursors × Search} (hnext : next.2.carried = none) :
    (Instr.sched t (.stealBatchAndPop priority w) (selection t w)
      (tryPriorityQueue cursors next)).Forall fun r access events =>
        Handles t none access events r.2.carried := by
  rintro (task | _ | _)
  · exact .take w task (if_pos rfl)
  · rw [tryPriorityQueue, hnext]
    exact .keep none (if_pos rfl)
  · exact .keep none (if_pos rfl)

theorem PopPc.handles (t w : ℕ) (cursors : Cursors) (pc : PopPc) :
    (pc.instr t w cursors).Forall fun r access events =>
      Handles t pc.carried access events r.2.carried := by
  cases pc with
  | fairNormal | fairLow | high | normal =>
      exact handles_tryPriorityQueue t w cursors _ rfl
  | low =>
      exact handles_tryPriorityQueue t w cursors _ (carried_probe cursors.steal.victims.1)
  | popLocal =>
      rintro (_ | task)
      · exact .keep none (if_pos rfl)
      · exact .take w task (if_pos rfl)
  | steal victim rest =>
      rintro (task | _ | _)
      · exact .take w task (if_pos rfl)
      · exact .keep none (if_pos rfl)
      · exact .keep none (if_pos rfl)
  | getStealer victim rest =>
      rintro (_ | _)
      · beta_reduce
        rw [if_neg Bool.false_ne_true, carried_probe]
        exact .keep none (if_pos rfl)
      · exact .keep none (if_pos rfl)
  | stealFailure rest =>
      intro r
      rw [carried_probe]
      exact .keep none (if_pos rfl)
  | _ => exact fun r => .keep _ (if_pos rfl)

theorem Worker.handles (worker : Worker) {instr : Instr Worker}
    (hi : worker.instr = some instr) :
    instr.Forall fun worker' access events =>
      Handles worker.s worker.pc.carried access events worker'.pc.carried := by
  obtain ⟨t, w, cursors, pc⟩ := worker
  cases pc with
  | pop site pc =>
      cases hi
      rw [Instr.forall_map]
      refine (pc.handles t w cursors).mono fun r access events h => ?_
      rw [carried_afterSearch]
      exact h
  | stopFlag site =>
      cases hi
      rintro (_ | _)
      · beta_reduce
        rw [if_neg Bool.false_ne_true, carried_deeper]
        exact .keep none rfl
      · exact .keep none rfl
  | stopCount site =>
      cases hi
      intro r
      beta_reduce
      split
      · rw [carried_leave]
        exact .keep none rfl
      · rw [carried_deeper]
        exact .keep none rfl
  | lock | announce =>
      cases hi
      intro r
      rw [carried_search]
      exact .keep none (by simp [Access.taken, SchedOp.taken])
  | park =>
      cases hi
      exact fun r => .keep none rfl
  | parked =>
      cases hi
      rintro (_ | _) <;> exact .keep none rfl
  | withdraw how =>
      cases hi
      exact fun r => .keep _ (if_pos rfl)
  | unlock how =>
      cases hi
      intro r
      rw [carried_proceed]
      exact .keep _ rfl
  | callback task =>
      cases hi
      exact .pass task .finished trivial rfl
  | record task =>
      cases hi
      exact fun r => .pass task .recorded trivial (if_pos rfl)
  | release task =>
      cases hi
      intro r
      have hpass : Handles t (some (task, .released)) (.gate (.sched t) .fetchSub r)
          [.done .released t task] (Stage.released.next task) := .pass task .released trivial rfl
      beta_reduce
      split
      · exact hpass
      · rw [carried_afterRelease]
        exact hpass
  | notify task =>
      cases hi
      intro r
      rw [carried_afterRelease]
      exact .keep _ rfl
  | groupRelease task g h =>
      cases hi
      intro r
      have hpass : Handles t (some (task, .groupReleased)) (.gate (.group g) .fetchSub r)
          [.done .groupReleased t task] (Stage.groupReleased.next task) :=
        .pass task .groupReleased (by simp [Stage.Concerns, h]) rfl
      beta_reduce
      split
      · exact hpass
      · rw [carried_search]
        exact hpass
  | groupNotify task g h =>
      cases hi
      intro r
      rw [carried_search]
      exact .keep none rfl
  | exit =>
      cases hi
      exact fun r => .keep none (if_pos rfl)
  | exited => cases hi

theorem Worker.pushed_eq (s : ℕ) (worker : Worker) {instr : Instr Worker}
    (hi : worker.instr = some instr) :
    instr.Forall fun _ access _ => access.pushed s = 0 := by
  obtain ⟨t, w, cursors, pc⟩ := worker
  cases pc with
  | pop site pc =>
      cases hi
      refine Instr.Forall.map (Ψ := fun access _ => access.pushed s = 0) _ ?_
      cases pc <;> exact fun _ => ite_self _
  | exited => cases hi
  | announce | withdraw | record | exit =>
      cases hi
      exact fun _ => ite_self _
  | callback =>
      cases hi
      rfl
  | _ =>
      cases hi
      exact fun _ => rfl

end Control

/-! ## What accesses move, in the memory -/

section Memory

variable {s : ℕ}

theorem SchedOp.Effect.tasks_eq {α : Type} {op : SchedOp α} {turn : Turn} {r : α}
    {sd sd' : Sched} (h : op.Effect turn r sd sd')
    (habsent : sd.phase = .absent → sd.queues.tasks = 0)
    (hdrop : ∀ w, op.Drops w → sd.queues.deque w = []) :
    sd'.queues.tasks + op.taken r = sd.queues.tasks + op.pushed := by
  cases h with
  | create _ config hphase => simp [SchedOp.taken, SchedOp.pushed, habsent hphase]
  | pushGlobal _ task =>
      simp [SchedOp.taken, SchedOp.pushed, QueueSystem.tasks_pushGlobal]
  | batch _ priority w k task rest h hk hw =>
      exact (sd.queues.tasks_moveBatch h hw).trans (add_zero _).symm
  | popped _ w task rest h =>
      exact (sd.queues.tasks_setDeque_of_cons h).trans (add_zero _).symm
  | stolen _ victim task rest h =>
      exact (sd.queues.tasks_setDeque_of_cons h).trans (add_zero _).symm
  | exit _ w =>
      have hempty : sd.queues.deque w = [] := hdrop w rfl
      rw [← hempty, QueueSystem.setDeque_deque]
      rfl
  | _ => rfl

theorem Access.Fires.tasks_eq {i : ℕ} {turn : Turn} {access : Access}
    {events : List Event} {m m' : Mem} (h : access.Fires i turn events m m')
    (habsent : (m.scheds s).phase = .absent → (m.scheds s).queues.tasks = 0)
    (hdrop : ∀ w, access.Drops s w → (m.scheds s).queues.deque w = []) :
    (m'.scheds s).queues.tasks + access.taken s =
      (m.scheds s).queues.tasks + access.pushed s := by
  cases h with
  | sched t op r sd h =>
      by_cases hts : t = s
      · subst hts
        have heq := h.tasks_eq habsent fun w hw => hdrop w ⟨rfl, hw⟩
        simpa [Mem.emit, Mem.setSched, Access.taken, Access.pushed] using heq
      · simp [Mem.emit, Mem.setSched, Access.taken, Access.pushed, hts, Ne.symm hts]
  | spawn t r sd h =>
      by_cases hts : t = s
      · subst hts
        cases h <;> simp [Mem.emit, Mem.setSched, Access.taken, Access.pushed]
      · simp [Mem.emit, Mem.setSched, Access.taken, Access.pushed, Ne.symm hts]
  | _ => rfl

/-- Only accesses that touch a scheduler take tasks from it. -/
theorem Access.taken_eq_zero {access : Access} (h : ¬ access.Touches s) :
    access.taken s = 0 := by
  cases access with
  | sched t op r =>
      refine ite_eq_right_iff.mpr fun hts => ?_
      cases op <;> first | rfl | exact absurd hts h
  | _ => rfl

end Memory

/-! ## The law of custody -/

/-- Every published task that a stage concerns is queued, in hand before the
stage, or past it. -/
def Custody (stage : Stage) (s : ℕ) (world : World) : Prop :=
  (↑(published s world.mem.log) : Multiset Task).filter stage.Concerns =
    (world.mem.scheds s).queues.tasks.filter stage.Concerns +
      world.sum (Thread.held stage s) + ↑(completed stage s world.mem.log)

section Law

variable (stage : Stage) (s : ℕ) {p p' : Thread} {access : Access} {events : List Event}

/-- A step of a thread, as far as custody goes: what it publishes it puts into
the queues, and what it takes out of them it has in hand or past the stage. -/
theorem Thread.Steps.custody (h : p.Steps p' access events) :
    (↑(published s events) : Multiset Task) = access.pushed s ∧
      p'.held stage s + ↑(completed stage s events) =
        p.held stage s + (access.taken s).filter stage.Concerns := by
  apply h.of_forall fun p p' access events =>
    (↑(published s events) : Multiset Task) = access.pushed s ∧
      p'.held stage s + ↑(completed stage s events) =
        p.held stage s + (access.taken s).filter stage.Concerns
  · intro worker call
    refine (call.custody stage s).mono fun call' access events h => ?_
    rw [h.2.1, h.2.2]
    exact ⟨h.1, rfl⟩
  · intro worker instr hi
    refine ((worker.handles hi).and ((worker.pushed_eq s hi).and
      ((worker.ids_of_instr hi).and (worker.uses_of_touches (s := s) hi)))).mono
        fun worker' access events h => ?_
    obtain ⟨hhandles, hpushed, ⟨hs, -⟩, htouches⟩ := h
    refine ⟨by rw [hhandles.published_eq, hpushed]; rfl, ?_⟩
    by_cases hws : worker.s = s
    · subst hws
      simpa [Thread.held, Worker.held, hs] using hhandles.held_eq
    · have htaken : access.taken s = 0 := Access.taken_eq_zero fun ht => hws (htouches ht)
      rw [htaken, hhandles.completed_eq_nil (Ne.symm hws)]
      simp [Thread.held, Worker.held, hs, hws]
  · intro p api now _
    exact ⟨rfl, rfl⟩

variable {stage s} in
theorem Step.custody {world world' : World} {a : Action}
    (h : Step world a world' p p' access events) (hpresent : Present world)
    (hdrop : ∀ w, access.Drops s w → (world.mem.scheds s).queues.deque w = [])
    (hc : Custody stage s world) : Custody stage s world' := by
  have hqueue := h.fires.tasks_eq (s := s)
    (fun habsent => by simp [(hpresent.absent s habsent).1, Sched.absent, QueueSystem.tasks]) hdrop
  obtain ⟨hpub, hheld⟩ := h.steps.custody stage s
  have hsum := h.moves.sum_of_new_eq_zero (Thread.held stage s) fun q hq => by
    obtain ⟨id, -, rfl⟩ := Access.exists_of_new hq
    simp [Thread.held, workerThread, Worker.held, Worker.new, WorkerPc.carried,
      PopPc.carried]
  have hfilter := congrArg (Multiset.filter stage.Concerns) hqueue
  simp only [Multiset.filter_add] at hfilter
  unfold Custody at hc ⊢
  rw [h.fires.log, published_append, completed_append, ← Multiset.coe_add,
    ← Multiset.coe_add, Multiset.filter_add, hpub, hc]
  refine add_right_cancel (b := p.held stage s + (access.taken s).filter stage.Concerns) ?_
  calc _ = ((world.mem.scheds s).queues.tasks.filter stage.Concerns +
          (access.pushed s).filter stage.Concerns) + world.sum (Thread.held stage s) +
          ↑(completed stage s world.mem.log) +
          (p.held stage s + (access.taken s).filter stage.Concerns) := by ac_rfl
    _ = ((world'.mem.scheds s).queues.tasks.filter stage.Concerns +
          (access.taken s).filter stage.Concerns) +
          (world.sum (Thread.held stage s) + p'.held stage s) +
          ↑(completed stage s world.mem.log) + ↑(completed stage s events) := by
        rw [hfilter, ← hheld]
        ac_rfl
    _ = _ := by
        rw [← hsum]
        ac_rfl

end Law

end UpgradeSched
