import UpgradeSched.Priority.Inversion
import UpgradeSched.Priority.Swept

/-!
# The order of execution

Every queue is first in, first out, so with one worker the tasks of a priority are
executed in the order in which they were published, as long as the worker does not
take tasks from the injector while older ones of that priority are in its deque.
Only the fairness path can do so.
-/

namespace UpgradeSched

open Interleaving

/-! ## Selected and executed -/

/-- The task that a worker has selected and not yet executed. -/
def inHand : Option (Task × Stage) → List Task
  | some (task, .finished) => [task]
  | _ => []

def Thread.inHand (s : ℕ) (p : Thread) : List Task :=
  match p.worker with
  | some worker => if worker.s = s then UpgradeSched.inHand worker.pc.carried else []
  | none => []

section Control

variable {s t : ℕ} {carried carried' : Option (Task × Stage)} {access : Access}
  {events log log' : List Event} {p p' : Thread}

theorem allSelections_eq_nil (h : ∀ w, selections s w events = []) :
    allSelections s events = [] := by
  refine List.filterMap_eq_nil_iff.mpr fun event hmem => ?_
  cases event with
  | selected t w task =>
      refine if_neg fun hts => ?_
      have hnone := List.filterMap_eq_nil_iff.mp (h w) _ hmem
      rw [Event.selection, if_pos ⟨hts, rfl⟩] at hnone
      cases hnone
  | _ => rfl

theorem Handles.inHand_eq (h : Handles t carried access events carried') :
    inHand carried ++ allSelections t events = completed .finished t events ++ inHand carried' := by
  cases h with
  | keep => exact List.append_nil _
  | take w task h => simp [inHand, allSelections, Event.anySelection, completed, Event.completion]
  | pass task stage hc h =>
      cases stage <;> cases hg : task.group <;>
        simp [inHand, allSelections, Event.anySelection, completed, Event.completion,
          Stage.next, hg]

theorem Handles.allSelections_eq_nil (h : Handles t carried access events carried')
    (hst : s ≠ t) : allSelections s events = [] := by
  cases h with
  | take => simp [allSelections, Event.anySelection, Ne.symm hst]
  | _ => rfl

theorem Handles.allSelections_eq (h : Handles t carried access events carried') :
    (↑(allSelections t events) : Multiset Task) = access.taken t := by
  cases h with
  | keep _ h => exact h.symm
  | take w task h => simp [h, allSelections, Event.anySelection]
  | pass task stage hc h => simp [h, allSelections, Event.anySelection]

/-- What a thread selects it has in hand until it is executed. -/
theorem Thread.Steps.inHand_eq (h : p.Steps p' access events) (s : ℕ) :
    p.inHand s ++ allSelections s events = completed .finished s events ++ p'.inHand s ∧
      (↑(allSelections s events) : Multiset Task) = access.taken s := by
  cases h with
  | call hout =>
      obtain ⟨-, htaken, hcompleted⟩ := hout _ (Call.custody .finished s _)
      have hnone := allSelections_eq_nil fun w =>
        (hout _ (Call.unnoticed (s := s) (w := w) _)).selections
      rw [hnone, hcompleted, htaken]
      exact ⟨List.append_nil _, rfl⟩
  | worker hi hout =>
      rename_i worker worker' instr
      have hhandles := hout _ (worker.handles hi)
      obtain ⟨hs', -⟩ := hout _ (worker.ids_of_instr hi)
      by_cases hs : worker.s = s
      · subst hs
        simpa [Thread.inHand, hs'] using And.intro hhandles.inHand_eq hhandles.allSelections_eq
      · have htaken : access.taken s = 0 := Access.taken_eq_zero fun ht =>
          hs (hout _ (worker.uses_of_touches hi) ht)
        rw [hhandles.allSelections_eq_nil (Ne.symm hs), hhandles.completed_eq_nil (Ne.symm hs),
          htaken]
        simp [Thread.inHand, hs', hs]
  | start => exact ⟨List.append_nil _, rfl⟩

end Control

/-! ## Waiting in line -/

/-- The queued tasks of a priority, when there is one worker: those in its deque and
then those in the injector. -/
def QueueSystem.line (queues : QueueSystem) (priority : TaskPriority) : List Task :=
  (queues.deque 0).filter (fun task => task.priority = priority) ++ queues.injector priority

/-- The step takes a batch from the injector of the priority. -/
def SchedOp.Draws {α : Type} (priority : TaskPriority) : SchedOp α → α → Prop
  | stealBatchAndPop priority' _, .success _ => priority' = priority
  | _, _ => False

/-- The access takes a batch from the injector of the priority of `s`. -/
def Access.Draws (s : ℕ) (priority : TaskPriority) : Access → Prop
  | .sched t op r => t = s ∧ op.Draws priority r
  | _ => False

theorem Access.Draws.exists_fills {s : ℕ} {priority : TaskPriority} {access : Access}
    (h : access.Draws s priority) : ∃ w, access.Fills s w := by
  cases access with
  | sched t op r =>
      obtain ⟨hts, hop⟩ := h
      cases op with
      | stealBatchAndPop drawn w =>
          cases r with
          | success task => exact ⟨w, hts, rfl⟩
          | _ => exact hop.elim
      | _ => exact hop.elim
  | _ => exact h.elim

section Memory

variable {i s : ℕ} {turn : Turn} {access : Access} {events : List Event} {m m' : Mem}
  {priority : TaskPriority} {queues : QueueSystem}

theorem QueueSystem.line_pushGlobal (queues : QueueSystem) (task : Task)
    (priority : TaskPriority) :
    (queues.pushGlobal task).line priority =
      queues.line priority ++ [task].filter (fun task => task.priority = priority) := by
  rw [line, line, pushGlobal, deque_setInjector, injector_setInjector, List.append_assoc]
  by_cases h : task.priority = priority
  · rw [if_pos h, List.filter_singleton, h]
    simp
  · simp [h]

/-- Taking the front task of the only deque. -/
theorem QueueSystem.line_setDeque (hone : queues.workerCount ≤ 1) {w : ℕ} {task : Task}
    {rest : List Task} (h : queues.deque w = task :: rest) (priority : TaskPriority) :
    [task].filter (fun task => task.priority = priority) ++ (queues.setDeque w rest).line priority =
      queues.line priority := by
  have hw := queues.length_pos_of_deque_eq_cons h
  obtain rfl : w = 0 := Nat.lt_one_iff.mp (hw.trans_le hone)
  rw [line, line, injector_setDeque, deque_setDeque, if_pos ⟨rfl, hw⟩, h, ← List.append_assoc,
    ← List.filter_append]
  rfl

/-- Taking a batch keeps the line, when the deque has nothing of that priority. -/
theorem QueueSystem.line_moveBatch (hone : queues.workerCount ≤ 1) {w k : ℕ} {task : Task}
    {rest : List Task} {taken : TaskPriority} (hw : w < queues.locals.length)
    (h : queues.injector taken = task :: rest) (htaken : ∀ t ∈ task :: rest, t.priority = taken)
    (hnone : taken = priority →
      (queues.deque 0).filter (fun task => task.priority = priority) = []) :
    [task].filter (fun task => task.priority = priority) ++
        (queues.moveBatch taken w k rest).line priority = queues.line priority := by
  obtain rfl : w = 0 := Nat.lt_one_iff.mp (hw.trans_le hone)
  rw [line, line, injector_moveBatch, deque_moveBatch _ _ _ hw, if_pos rfl, List.filter_append]
  by_cases hpriority : taken = priority
  · subst hpriority
    have hall : ∀ t ∈ task :: rest, decide (t.priority = taken) = true := fun t hmem =>
      decide_eq_true (htaken t hmem)
    have hmoved : (rest.take k).filter (fun task => task.priority = taken) = rest.take k :=
      List.filter_eq_self.mpr fun t hmem =>
        hall t (List.mem_cons_of_mem _ (List.mem_of_mem_take hmem))
    rw [if_pos rfl, hnone rfl, hmoved, h, List.nil_append, List.nil_append, List.take_append_drop,
      List.filter_singleton, hall task List.mem_cons_self]
    rfl
  · have hother : ∀ t ∈ task :: rest, ¬ decide (t.priority = priority) = true := by
      intro t hmem ht
      exact hpriority ((htaken t hmem).symm.trans (of_decide_eq_true ht))
    have hmoved : (rest.take k).filter (fun task => task.priority = priority) = [] :=
      List.filter_eq_nil_iff.mpr fun t hmem =>
        hother t (List.mem_cons_of_mem _ (List.mem_of_mem_take hmem))
    have htask : [task].filter (fun task => task.priority = priority) = [] :=
      List.filter_cons_of_neg (hother task List.mem_cons_self)
    rw [if_neg hpriority, hmoved, List.append_nil, htask]
    rfl

/-- The line moves on: the tasks taken come from its front, the tasks pushed go to its
end. -/
def QueueSystem.Advances (priority : TaskPriority) (queues queues' : QueueSystem)
    (taken pushed : Multiset Task) : Prop :=
  ∀ front back : List Task, ↑front = taken → ↑back = pushed →
    front.filter (fun task => task.priority = priority) ++ queues'.line priority =
      queues.line priority ++ back.filter (fun task => task.priority = priority)

theorem QueueSystem.Advances.idle {queues queues' : QueueSystem}
    (h : queues'.line priority = queues.line priority) :
    queues.Advances priority queues' 0 0 := by
  intro front back hfront hback
  rw [(Multiset.coe_eq_zero _).mp hfront, (Multiset.coe_eq_zero _).mp hback, h]
  exact (List.append_nil _).symm

theorem QueueSystem.Advances.take {queues queues' : QueueSystem} {task : Task}
    (h : [task].filter (fun task => task.priority = priority) ++ queues'.line priority =
      queues.line priority) : queues.Advances priority queues' {task} 0 := by
  intro front back hfront hback
  rw [Multiset.coe_eq_singleton.mp hfront, (Multiset.coe_eq_zero _).mp hback, h]
  exact (List.append_nil _).symm

theorem QueueSystem.Advances.push (queues : QueueSystem) (task : Task) :
    queues.Advances priority (queues.pushGlobal task) 0 {task} := by
  intro front back hfront hback
  rw [(Multiset.coe_eq_zero _).mp hfront, Multiset.coe_eq_singleton.mp hback,
    queues.line_pushGlobal]
  rfl

theorem SchedOp.Effect.advances {α : Type} {op : SchedOp α} {r : α} {sd sd' : Sched}
    (h : op.Effect turn r sd sd') (hone : sd.queues.workerCount ≤ 1)
    (habsent : sd.phase = .absent → sd.queues.line priority = [])
    (hsorted : ∀ drawn, ∀ task ∈ sd.queues.injector drawn, task.priority = drawn)
    (hdrop : ∀ w, op.Drops w → sd.queues.deque w = [])
    (hdraws : op.Draws priority r →
      (sd.queues.deque 0).filter (fun task => task.priority = priority) = []) :
    sd.queues.Advances priority sd'.queues (op.taken r) op.pushed := by
  cases h with
  | create _ config hphase =>
      refine .idle (Eq.trans ?_ (habsent hphase).symm)
      simp [QueueSystem.line]
  | pushGlobal _ task => exact .push _ task
  | batch _ drawn w k task rest hinj hk hw =>
      exact .take (QueueSystem.line_moveBatch hone hw hinj (hinj ▸ hsorted drawn) hdraws)
  | popped _ w task rest hw => exact .take (QueueSystem.line_setDeque hone hw priority)
  | stolen _ victim task rest hv => exact .take (QueueSystem.line_setDeque hone hv priority)
  | exit _ w =>
      have hnil := hdrop w rfl
      have hsame : sd.queues.setDeque w [] = sd.queues := hnil ▸ sd.queues.setDeque_deque w
      exact .idle (congrArg (QueueSystem.line · priority) hsame)
  | _ => exact .idle rfl

theorem Access.Fires.advances (h : access.Fires i turn events m m')
    (hone : (m.scheds s).queues.workerCount ≤ 1)
    (habsent : (m.scheds s).phase = .absent → (m.scheds s).queues.line priority = [])
    (hsorted : ∀ drawn, ∀ task ∈ (m.scheds s).queues.injector drawn, task.priority = drawn)
    (hdrop : ∀ w, access.Drops s w → (m.scheds s).queues.deque w = [])
    (hdraws : access.Draws s priority →
      ((m.scheds s).queues.deque 0).filter (fun task => task.priority = priority) = []) :
    (m.scheds s).queues.Advances priority (m'.scheds s).queues (access.taken s)
      (access.pushed s) := by
  cases h with
  | sched t op r sd h =>
      by_cases hts : t = s
      · subst hts
        have heq := h.advances hone habsent hsorted (fun w hw => hdrop w ⟨rfl, hw⟩)
          fun hd => hdraws ⟨rfl, hd⟩
        simpa [Mem.emit, Mem.setSched, Access.taken, Access.pushed] using heq
      · rw [Access.taken, Access.pushed, if_neg hts, if_neg hts]
        refine .idle ?_
        simp [Mem.emit, Mem.setSched, Ne.symm hts]
  | spawn t r sd h =>
      refine .idle ?_
      by_cases hts : t = s
      · subst hts
        cases h <;> simp [Mem.emit, Mem.setSched]
      · simp [Mem.emit, Mem.setSched, Ne.symm hts]
  | _ => exact .idle rfl

/-- The injector was not empty. -/
theorem Access.Fires.of_draws (h : access.Fires i turn events m m')
    (hd : access.Draws s priority) :
    (∃ k, turn = .pick k) ∧ (m.scheds s).queues.injector priority ≠ [] := by
  cases h with
  | sched t op r sd h =>
      obtain ⟨rfl, hd⟩ := hd
      cases h with
      | batch _ drawn w k task rest hinj hk hw =>
          cases hd
          exact ⟨⟨k, rfl⟩, hinj ▸ List.cons_ne_nil _ _⟩
      | _ => exact hd.elim
  | _ => exact hd.elim

end Memory

/-! ## Overtaking -/

/-- The fairness probe of an injector. -/
def PopPc.FairnessProbe (priority : TaskPriority) : PopPc → Prop
  | .fairNormal => priority = .normal
  | .fairLow => priority = .low
  | _ => False

/-- The step takes tasks from the injector in the fairness path, while the worker still
has a task of that priority in its deque. -/
structure Overtakes (s : ℕ) (priority : TaskPriority) (world : World) (a : Action)
    (p : Thread) (worker : Worker) : Prop where
  thread : world.threads[a.1]? = some p
  call : p.call = none
  isWorker : p.worker = some worker
  sched : worker.s = s
  probes : ∃ site pc, worker.pc = .pop site pc ∧ pc.FairnessProbe priority
  picks : ∃ k, a.2 = .turn (.pick k)
  injector : (world.mem.scheds s).queues.injector priority ≠ []
  deque : ∃ task ∈ (world.mem.scheds s).queues.deque worker.w, task.priority = priority

/-- No task of the priority is overtaken in the step. -/
def KeepsOrder (s : ℕ) (priority : TaskPriority) (world : World) (a : Action) : Prop :=
  ∀ p worker, ¬ Overtakes s priority world a p worker

section Steps

variable {s : ℕ} {priority : TaskPriority} {world world' : World} {a : Action} {p p' : Thread}
  {access : Access} {events : List Event}

variable (s priority) in
theorem PopPc.draws (t w : ℕ) (cursors : Cursors) (pc : PopPc) :
    (pc.instr t w cursors).Forall fun _ access _ => access.Draws s priority →
      t = s ∧ (pc.PastLocal ∨ pc.FairnessProbe priority) := by
  cases pc with
  | fairNormal | fairLow =>
      rintro (task | _ | _) ⟨hts, hd⟩
      · exact ⟨hts, .inr hd.symm⟩
      · exact hd.elim
      · exact hd.elim
  | fairnessYield | popLocal | stealSuccess => exact fun _ h => h.2.elim
  | _ => exact fun _ h => ⟨h.1, .inl trivial⟩

variable (s priority) in
theorem Worker.draws (worker : Worker) {instr : Instr Worker} (hi : worker.instr = some instr) :
    instr.Forall fun _ access _ => access.Draws s priority → worker.s = s ∧
      (worker.pc.PastLocal ∨ ∃ site pc, worker.pc = .pop site pc ∧ pc.FairnessProbe priority) := by
  obtain ⟨t, w, cursors, pc⟩ := worker
  cases pc with
  | pop site pc =>
      cases hi
      refine (Instr.forall_map _ _ _).mpr
        ((pc.draws s priority t w cursors).mono fun _ _ _ h hd => ?_)
      exact ⟨(h hd).1, (h hd).2.imp id fun hprobe => ⟨site, pc, rfl, hprobe⟩⟩
  | announce | withdraw | record | exit =>
      cases hi
      exact fun _ h => h.2.elim
  | callback =>
      cases hi
      exact False.elim
  | exited => cases hi
  | _ =>
      cases hi
      exact fun _ => False.elim

/-- A batch is taken in the fairness path, or when the own deque is empty. -/
theorem Thread.Steps.draws (h : p.Steps p' access events) (hd : access.Draws s priority) :
    p.call = none ∧ ∃ worker, p.worker = some worker ∧ worker.s = s ∧
      (worker.pc.PastLocal ∨
        ∃ site pc, worker.pc = .pop site pc ∧ pc.FairnessProbe priority) := by
  cases h with
  | call hout =>
      obtain ⟨w, hfills⟩ := hd.exists_fills
      exact absurd hfills (hout _ (Call.unnoticed _)).fills
  | worker hi hout => exact ⟨rfl, _, rfl, hout _ (Worker.draws s priority _ hi) hd⟩
  | start => exact hd.elim

theorem Reachable.workerCount_le (hr : Reachable world)
    (hone : (world.mem.scheds s).config.workerCount ≤ 1) :
    (world.mem.scheds s).queues.workerCount ≤ 1 := by
  by_cases hphase : (world.mem.scheds s).phase = .absent
  · rw [(hr.present.absent s hphase).1]
    exact Nat.zero_le _
  · exact ((hr.numbered s).queues hphase).trans_le (max_le hone (le_refl _))

/-- Only worker 0. -/
theorem Reachable.eq_zero_of_number (hr : Reachable world)
    (hone : (world.mem.scheds s).config.workerCount ≤ 1) {i w : ℕ}
    (hp : world.threads[i]? = some p) (hw : p.number s = some w) : w = 0 :=
  Nat.lt_one_iff.mp
    ((((hr.numbered s).below i p hp w hw).trans_le (hr.numbered s).spawned).trans_le hone)

/-- A step of a scheduler with one worker. -/
theorem Step.line_eq (h : Step world a world' p p' access events) (hr : Reachable world)
    (hone : (world.mem.scheds s).config.workerCount ≤ 1) (hkeeps : KeepsOrder s priority world a) :
    (allSelections s events).filter (fun task => task.priority = priority) ++
        (world'.mem.scheds s).queues.line priority =
      (world.mem.scheds s).queues.line priority ++
        (published s events).filter (fun task => task.priority = priority) := by
  refine h.fires.advances (hr.workerCount_le hone) (fun habsent => ?_) (hr.sorted s)
    (fun w hw => ?_) (fun hd => ?_) _ _ (h.steps.inHand_eq s).2 (h.steps.custody .finished s).1
  · rw [(hr.present.absent s habsent).1]
    cases priority <;> rfl
  · have hleaving := (h.steps.leaving w).2.2 hw
    exact QueueSystem.deque_eq_nil_of_tasks
      (hr.accounting.drained s ⟨a.1, p, h.moves.thread, hleaving⟩).queues w
  · obtain ⟨hcall, worker, hw, hs, hwhere⟩ := h.steps.draws hd
    have hzero := hr.eq_zero_of_number hone h.moves.thread
      (Thread.number_eq_some.mpr ⟨worker, hw, hs, rfl⟩)
    rcases hwhere with hpast | hprobes
    · have hnil := hr.swept s _ _ h.moves.thread worker hw hs hpast
      rw [← hzero, hnil]
      rfl
    · obtain ⟨⟨k, hk⟩, hinjector⟩ := h.fires.of_draws hd
      refine List.filter_eq_nil_iff.mpr fun task hmem htask => hkeeps p worker ?_
      exact ⟨h.moves.thread, hcall, hw, hs, hprobes, ⟨k, Choice.eq_of_toTurn hk⟩,
        hinjector, task, hzero ▸ hmem, of_decide_eq_true htask⟩

/-- What the only worker has selected it has executed, up to the task in its hand. -/
def Executing (s : ℕ) (world : World) : Prop :=
  ((world.Each fun _ p _ => p.number s = none) ∧
      completed .finished s world.mem.log = allSelections s world.mem.log) ∨
    world.Any fun _ p m => p.number s = some 0 ∧
      completed .finished s m.log ++ p.inHand s = allSelections s m.log

theorem Thread.inHand_eq_nil (h : p.number s = none) : p.inHand s = [] := by
  unfold Thread.inHand
  split
  · rename_i worker hw
    refine if_neg fun hs => ?_
    have hsome := Thread.number_eq_some.mpr ⟨worker, hw, hs, rfl⟩
    cases h.symm.trans hsome
  · rfl

/-- A step of another thread. -/
theorem Thread.Steps.idle (h : p.Steps p' access events) (hnumber : p.number s = none) :
    allSelections s events = [] ∧ completed .finished s events = [] := by
  have hne : ∀ w, p.number s ≠ some w := fun w hw =>
    Option.some_ne_none w (hw.symm.trans hnumber)
  have hnone := allSelections_eq_nil fun w => (h.unnoticed (hne w)).selections
  have heq := (h.inHand_eq s).1
  rw [Thread.inHand_eq_nil hnumber, Thread.inHand_eq_nil ((h.number_eq s).trans hnumber), hnone,
    List.append_nil, List.append_nil] at heq
  exact ⟨hnone, heq.symm⟩

theorem Step.executing (h : Step world a world' p p' access events) (hr : Reachable world)
    (hr' : Reachable world') (hone : (world.mem.scheds s).config.workerCount ≤ 1)
    (hone' : (world'.mem.scheds s).config.workerCount ≤ 1) (hc : Executing s world) :
    Executing s world' := by
  rcases hc with ⟨hnone, heq⟩ | ⟨j, q, hq, hnumber, heq⟩
  · obtain ⟨hselected, hcompleted⟩ := h.steps.idle (hnone _ _ h.moves.thread)
    have heq' : completed .finished s world'.mem.log = allSelections s world'.mem.log := by
      rw [h.fires.log, completed_append, allSelections_append, hselected, hcompleted, heq]
    by_cases hstill : world'.Each fun _ p _ => p.number s = none
    · exact .inl ⟨hstill, heq'⟩
    · simp only [Config.Each, not_forall] at hstill
      obtain ⟨j, q, hq, hsome⟩ := hstill
      obtain ⟨w, hw⟩ := Option.ne_none_iff_exists'.mp hsome
      obtain rfl := hr'.eq_zero_of_number hone' hq hw
      rcases h.moves.cases hq with ⟨rfl, rfl⟩ | ⟨-, hold⟩ | ⟨-, hmem⟩
      · exact absurd ((h.steps.number_eq s).trans (hnone _ _ h.moves.thread)) hsome
      · exact absurd (hnone _ _ hold) hsome
      · obtain ⟨id, -, rfl⟩ := Access.exists_of_new hmem
        refine .inr ⟨j, _, hq, hw, ?_⟩
        have hnil : (workerThread world'.mem id).inHand s = [] := ite_self _
        rw [hnil, List.append_nil, heq']
  · by_cases hj : j = a.1
    · subst hj
      cases h.moves.thread.symm.trans hq
      refine .inr (h.moves.any_self ⟨(h.steps.number_eq s).trans hnumber, ?_⟩)
      rw [h.fires.log, completed_append, allSelections_append, List.append_assoc,
        ← (h.steps.inHand_eq s).1, ← List.append_assoc, heq]
    · have hother : p.number s = none := by
        by_contra hsome
        obtain ⟨w, hw⟩ := Option.ne_none_iff_exists'.mp hsome
        obtain rfl := hr.eq_zero_of_number hone h.moves.thread hw
        exact hj ((hr.numbered s).distinct _ _ _ _ _ hq h.moves.thread hnumber hw)
      obtain ⟨hselected, hcompleted⟩ := h.steps.idle hother
      refine .inr ⟨j, q, h.moves.other hj hq, hnumber, ?_⟩
      rw [h.fires.log, completed_append, allSelections_append, hselected, hcompleted,
        List.append_nil, List.append_nil, heq]

theorem Step.config_workerCount_le (h : Step world a world' p p' access events)
    (hr : Reachable world) : (world.mem.scheds s).config.workerCount ≤
      (world'.mem.scheds s).config.workerCount := by
  by_cases hcreates : access.Creates s
  · rw [(hr.present.absent s (h.fires.phase_of_creates hcreates).1).1]
    exact Nat.zero_le _
  · exact (congrArg SchedulerConfig.workerCount (h.fires.config_eq hcreates)).ge

end Steps

/-- The fairness path does not probe the HIGH injector. -/
theorem keepsOrder_high (s : ℕ) (world : World) (a : Action) : KeepsOrder s .high world a := by
  rintro p worker ⟨-, -, -, -, ⟨site, pc, -, hprobe⟩, -, -, -⟩
  cases pc <;> cases hprobe

/-- First in, first out within a priority: when `s` has one worker, the tasks of a priority
that have been executed are the first ones of those published, in their order. For HIGH
tasks this is so in every run, for others when no fairness probe overtakes one of them. -/
theorem executed_in_order {usizeBits clients : ℕ} {as : List Action} {world : World} (s : ℕ)
    (priority : TaskPriority)
    (h : scheduler.Run (fun c a => priority ≠ .high → KeepsOrder s priority c a)
      (World.init usizeBits clients) as world)
    (hone : (world.mem.scheds s).config.workerCount ≤ 1) :
    (completed .finished s world.mem.log).filter (fun task => task.priority = priority) <+:
      (published s world.mem.log).filter (fun task => task.priority = priority) := by
  have hinv := invariant_of_run (fun c => (c.mem.scheds s).config.workerCount ≤ 1 →
    Executing s c ∧ (allSelections s c.mem.log).filter (fun task => task.priority = priority) ++
        (c.mem.scheds s).queues.line priority =
      (published s c.mem.log).filter (fun task => task.priority = priority)) ?_ ?_ h
  · obtain ⟨hexecuting, hline⟩ := hinv hone
    have hexecuted : completed .finished s world.mem.log <+: allSelections s world.mem.log := by
      rcases hexecuting with ⟨-, heq⟩ | ⟨j, q, -, -, heq⟩
      · rw [heq]
      · exact ⟨q.inHand s, heq⟩
    exact (hexecuted.filter _).trans ⟨_, hline⟩
  · intro _
    exact ⟨.inl ⟨World.each_init fun _ => rfl, rfl⟩, by cases priority <;> rfl⟩
  · intro c a c' p p' access events hs hr hkeeps hc hone'
    have hone := (hs.config_workerCount_le hr).trans hone'
    have hkeeps : KeepsOrder s priority c a := by
      by_cases hhigh : priority = .high
      · exact hhigh ▸ keepsOrder_high s c a
      · exact hkeeps hhigh
    obtain ⟨hexecuting, hline⟩ := hc hone
    refine ⟨hs.executing hr (hs.reachable hr) hone hone' hexecuting, ?_⟩
    rw [hs.fires.log, allSelections_append, published_append, List.filter_append,
      List.filter_append, List.append_assoc, hs.line_eq hr hone hkeeps, ← List.append_assoc, hline]

/-- A step of a worker that is not in the fairness path. -/
def outsideFairness (world : World) (a : Action) : Bool :=
  (world.threads[a.1]?.bind Thread.worker).all fun worker =>
    worker.pc.place ≠ .fair ∧ worker.pc.place ≠ .fairLow

theorem keepsOrder_of_outsideFairness {s : ℕ} {priority : TaskPriority} {world : World}
    {a : Action} (h : outsideFairness world a = true) : KeepsOrder s priority world a := by
  rintro p worker ⟨hp, -, hw, -, ⟨site, pc, hpc, hprobe⟩, -, -, -⟩
  simp only [outsideFairness, hp, Option.bind_some, hw, Option.all_some, hpc, WorkerPc.place,
    decide_eq_true_eq] at h
  cases pc with
  | fairNormal => exact h.1 rfl
  | fairLow => exact h.2 rfl
  | _ => exact hprobe.elim

/-- Two NORMAL tasks are submitted and executed. -/
def twoNormal : List Action :=
  creation 0 ++ (0, .call (.pushTask 0 7 9)) :: steps 0 9 ++
    (0, .call (.pushTask 0 8 9)) :: steps 0 9 ++
    (1, .turn .go) :: (1, .turn (.pick 0)) :: (1, .turn (.pick 1)) :: steps 1 5

theorem executed_in_order_twoNormal :
    let log := (World.after 1 twoNormal (by decide +kernel)).mem.log
    (completed .finished 0 log).filter (fun task => task.priority = .normal) <+:
        (published 0 log).filter (fun task => task.priority = .normal) ∧
      (completed .finished 0 log).length = 2 :=
  ⟨executed_in_order 0 .normal (World.run_after_of_runIf outsideFairness
    (fun _ _ hok _ => keepsOrder_of_outsideFairness hok) _ (by decide +kernel)) (by decide +kernel),
    by decide +kernel⟩

/-- Tasks of one priority are not executed in the other order than published. -/
def ExecutesInOrder (s : ℕ) (world : World) : Prop :=
  ∀ task task' : Task, task.priority = task'.priority →
    [task, task'].Sublist (published s world.mem.log) →
      ¬ [task', task].Sublist (completed .finished s world.mem.log)

/-- After 31 HIGH tasks the worker takes a batch of 33, and then a batch of two NORMAL tasks
in the fairness path. Behind the HIGH tasks the second one has to wait until the fairness
path takes a third NORMAL task. -/
def overtaking : List Action :=
  creation 0 ++
    (List.replicate 64 ((0, .call (.pushPriority 0 8 9 .high)) :: steps 0 9)).flatten ++
    (List.replicate 3 ((0, .call (.pushTask 0 7 9)) :: steps 0 9)).flatten ++
    (1, .turn .go) :: (1, .turn (.pick 30)) :: steps 1 124 ++
    (1, .turn (.pick 32)) :: steps 1 4 ++ (1, .turn (.pick 1)) :: steps 1 132 ++
    (1, .turn (.pick 0)) :: steps 1 5

theorem not_executesInOrder : ¬ ∀ (usizeBits clients : ℕ) (as : List Action) (world : World)
    (s : ℕ), scheduler.Run (Batched 32) (World.init usizeBits clients) as world →
      (world.mem.scheds s).config.workerCount = 1 → ExecutesInOrder s world := by
  intro h
  have hrun : scheduler.Run (Batched 32) (World.init 64 1) overtaking
      (World.after 1 overtaking (by decide +kernel)) :=
    World.run_after_of_runIf (fun _ => picksAtMost 32) (fun _ _ => batched_of_picksAtMost) _
      (by decide +kernel)
  obtain ⟨hpublished, hcompleted⟩ :
      (published 0 (World.after 1 overtaking (by decide +kernel)).mem.log).drop 65 =
          [⟨196, none, 7, 9, .normal, none⟩, ⟨199, none, 7, 9, .normal, none⟩] ∧
        (completed .finished 0 (World.after 1 overtaking (by decide +kernel)).mem.log).drop 65 =
          [⟨199, none, 7, 9, .normal, none⟩, ⟨196, none, 7, 9, .normal, none⟩] := by
    decide +kernel
  refine h 64 1 overtaking _ 0 hrun (by decide +kernel) ⟨196, none, 7, 9, .normal, none⟩
    ⟨199, none, 7, 9, .normal, none⟩ rfl ?_ ?_
  · exact hpublished ▸ List.drop_sublist 65 _
  · exact hcompleted ▸ List.drop_sublist 65 _

end UpgradeSched
