import UpgradeSched.Accounting.Deques
import UpgradeSched.Accounting.Numbering

/-!
# The selections of one worker

As far as its selections go, a worker is a small machine: the streak of HIGH
tasks and a place in the search. `Selector.Moves` lists the steps of this machine,
and every step of the system is one of them for every worker: the steps of its own
search, and for all other steps nothing that the machine could notice.
-/

namespace UpgradeSched

open Interleaving

/-- The places of a search, as far as selections go: the two fairness probes, the
own deque, the HIGH injector, the other injectors, the peers, and between the steal
of a task and its record. -/
inductive Place
  | free
  | fair
  | fairLow
  | own
  | high
  | lower
  | peers
  | taken (task : Task)
  deriving DecidableEq, Repr

def PopPc.place : PopPc → Place
  | .fairnessYield | .fairNormal => .fair
  | .fairLow => .fairLow
  | .popLocal => .own
  | .high => .high
  | .normal | .low => .lower
  | .getStealer _ _ | .attempt _ _ | .steal _ _ | .stealFailure _ => .peers
  | .stealSuccess task => .taken task

def WorkerPc.place : WorkerPc → Place
  | .pop _ pc => pc.place
  | _ => .free

/-- The injectors that a batch steal at this place takes from. -/
def Place.Probes : Place → TaskPriority → Prop
  | .fair, priority => priority = .normal
  | .fairLow, priority => priority = .low
  | .high, priority => priority = .high
  | .lower, priority => priority ≠ .high
  | _, _ => False

/-- The streak and the place of a worker. -/
structure Selector where
  priority : PriorityState
  place : Place

namespace Selector

/-- The start of a search. -/
def enter (priority : PriorityState) : Selector :=
  ⟨priority, if priority.fairnessDue then .fair else .own⟩

/-- The task is selected. -/
def select (priority : PriorityState) (task : Task) : Selector :=
  ⟨priority.recordTask task, .free⟩

end Selector

def Worker.selector (worker : Worker) : Selector :=
  ⟨worker.cursors.priority, worker.pc.place⟩

def Event.selection (s w : ℕ) : Event → Option Task
  | .selected t v task => if t = s ∧ v = w then some task else none
  | _ => none

/-- The tasks that worker `w` of `s` has selected, in order. -/
def selections (s w : ℕ) (log : List Event) : List Task :=
  log.filterMap (Event.selection s w)

@[simp] theorem selections_append (s w : ℕ) (log log' : List Event) :
    selections s w (log ++ log') = selections s w log ++ selections s w log' :=
  List.filterMap_append

@[simp] theorem selections_selected (s w : ℕ) (task : Task) :
    selections s w [.selected s w task] = [task] := by
  simp [selections, Event.selection]

/-- The step is not a batch steal into the deque of worker `w`, nor a selection of
that worker. -/
structure Unnoticed (s w : ℕ) (access : Access) (events : List Event) : Prop where
  fills : ¬ access.Fills s w
  selections : selections s w events = []

/-- The steps of a worker, as far as its selections go. -/
inductive Selector.Moves (s w : ℕ) : Selector → Access → List Event → Selector → Prop
  | stay {access : Access} {events : List Event} (v : Selector)
      (h : Unnoticed s w access events) : Moves s w v access events v
  | leave {access : Access} {events : List Event} (v : Selector)
      (hv : ∀ task, v.place ≠ .taken task) (h : Unnoticed s w access events) :
      Moves s w v access events ⟨v.priority, .free⟩
  | enter {access : Access} {events : List Event} (v : Selector)
      (hv : ∀ task, v.place ≠ .taken task) (h : Unnoticed s w access events) :
      Moves s w v access events (.enter v.priority)
  | fairLow (priority : PriorityState) : Moves s w ⟨priority, .fair⟩
      (.sched s (.stealBatchAndPop .normal w) .empty) [] ⟨priority, .fairLow⟩
  | reset (priority : PriorityState) : Moves s w ⟨priority, .fairLow⟩
      (.sched s (.stealBatchAndPop .low w) .empty) [] ⟨priority.reset, .own⟩
  | high (priority : PriorityState) : Moves s w ⟨priority, .own⟩
      (.sched s (.popLocal w) none) [] ⟨priority, .high⟩
  | lower (priority : PriorityState) : Moves s w ⟨priority, .high⟩
      (.sched s (.stealBatchAndPop .high w) .empty) [] ⟨priority, .lower⟩
  | peers (priority : PriorityState) : Moves s w ⟨priority, .lower⟩
      (.sched s (.stealBatchAndPop .low w) .empty) [] ⟨priority, .peers⟩
  | batch (v : Selector) (priority : TaskPriority) (task : Task)
      (h : v.place.Probes priority) : Moves s w v
      (.sched s (.stealBatchAndPop priority w) (.success task)) [.selected s w task]
      (.select v.priority task)
  | pop (priority : PriorityState) (task : Task) : Moves s w ⟨priority, .own⟩
      (.sched s (.popLocal w) (some task)) [.selected s w task] (.select priority task)
  | steal (priority : PriorityState) (victim : ℕ) (task : Task) :
      Moves s w ⟨priority, .peers⟩ (.sched s (.steal victim) (.success task))
        [.selected s w task] ⟨priority, .taken task⟩
  | record {access : Access} {events : List Event} (priority : PriorityState) (task : Task)
      (h : Unnoticed s w access events) :
      Moves s w ⟨priority, .taken task⟩ access events (.select priority task)

/-! ## The worker loop -/

section Control

variable {s w : ℕ}

section Places

variable (worker : Worker)

theorem Worker.selector_search (site : Site) :
    (worker.search site).selector = .enter worker.cursors.priority := by
  have hplace : (PopPc.enter worker.cursors).place =
      if worker.cursors.priority.fairnessDue then .fair else .own := by
    unfold PopPc.enter
    split <;> rfl
  exact congrArg (Selector.mk worker.cursors.priority) hplace

theorem Worker.selector_deeper (site : Site) :
    (worker.deeper site).selector = ⟨worker.cursors.priority, .free⟩ := by
  cases site <;> rfl

theorem Worker.selector_execute (site : Site) (task : Task) :
    (worker.leave site (.execute task)).selector = ⟨worker.cursors.priority, .free⟩ := by
  cases site <;> rfl

theorem Worker.selector_stop (site : Site) :
    (worker.leave site .stop).selector = ⟨worker.cursors.priority, .free⟩ := by
  cases site <;> rfl

end Places

section Moves

variable {v : Selector} {access : Access} {events : List Event} (worker : Worker)

/-- Going on in the loop without a task. -/
theorem Worker.moves_search (hv : ∀ task, v.place ≠ .taken task)
    (h : Unnoticed s w access events) (hp : worker.cursors.priority = v.priority)
    (site : Site) : v.Moves s w access events (worker.search site).selector := by
  rw [worker.selector_search, hp]
  exact .enter v hv h

theorem Worker.moves_again (hv : ∀ task, v.place ≠ .taken task)
    (h : Unnoticed s w access events) (hp : worker.cursors.priority = v.priority)
    (site : Site) : v.Moves s w access events (worker.leave site .again).selector := by
  cases site with
  | fast => exact worker.moves_search hv h hp .fast
  | _ =>
      have hfree : v.Moves s w access events ⟨v.priority, .free⟩ := .leave v hv h
      rwa [← hp] at hfree

theorem Worker.moves_afterRelease (hv : ∀ task, v.place ≠ .taken task)
    (h : Unnoticed s w access events) (hp : worker.cursors.priority = v.priority)
    (task : Task) : v.Moves s w access events (worker.afterRelease task).selector := by
  unfold afterRelease
  split
  · have hfree : v.Moves s w access events ⟨v.priority, .free⟩ := .leave v hv h
    rwa [← hp] at hfree
  · exact worker.moves_search hv h hp .fast

theorem Worker.moves_probe (hv : ∀ task, v.place ≠ .taken task)
    (h : Unnoticed s w access events) (hp : worker.cursors.priority = v.priority)
    (hpeers : v.Moves s w access events ⟨v.priority, .peers⟩) (site : Site)
    (victims : List ℕ) :
    v.Moves s w access events (worker.afterSearch site (PopPc.probe victims)).selector := by
  have hfree : v.Moves s w access events ⟨v.priority, .free⟩ := .leave v hv h
  rw [← hp] at hfree hpeers
  cases victims with
  | nil => exact hfree
  | cons => exact hpeers

end Moves

theorem Place.Probes.ne_taken {place : Place} {priority : TaskPriority}
    (h : place.Probes priority) (task : Task) : place ≠ .taken task := by
  rintro rfl
  exact h

/-- A batch steal: only what follows an empty injector depends on the place. -/
theorem PopPc.moves_tryPriorityQueue (worker : Worker) (site : Site) (place : Place)
    (priority : TaskPriority) (hprobes : place.Probes priority) {next : Cursors × Search}
    (hnext : Selector.Moves worker.s worker.w ⟨worker.cursors.priority, place⟩
      (.sched worker.s (.stealBatchAndPop priority worker.w) .empty) []
      ({ worker with cursors := next.1 }.afterSearch site next.2).selector) :
    (Instr.sched worker.s (.stealBatchAndPop priority worker.w) (selection worker.s worker.w)
      (tryPriorityQueue worker.cursors next)).Forall fun r access events =>
        Selector.Moves worker.s worker.w ⟨worker.cursors.priority, place⟩ access events
          ({ worker with cursors := r.1 }.afterSearch site r.2).selector := by
  rintro (task | _ | _)
  · have hselect := Worker.selector_execute { worker with
      cursors := (found worker.cursors task).1 } site task
    exact hselect ▸ .batch _ priority task hprobes
  · exact hnext
  · refine worker.moves_again hprobes.ne_taken ?_ rfl site
    exact ⟨fun h => h.2, rfl⟩

/-- A step of a search. -/
theorem PopPc.moves (worker : Worker) (site : Site) (pc : PopPc) :
    (pc.instr worker.s worker.w worker.cursors).Forall fun r access events =>
      Selector.Moves worker.s worker.w ⟨worker.cursors.priority, pc.place⟩ access events
        ({ worker with cursors := r.1 }.afterSearch site r.2).selector := by
  have hpeers : ∀ task, Place.peers ≠ .taken task := nofun
  cases pc with
  | fairnessYield | attempt =>
      intro r
      refine .stay _ ?_
      exact ⟨fun h => h.2, rfl⟩
  | fairNormal => exact moves_tryPriorityQueue worker site .fair .normal rfl (.fairLow _)
  | fairLow => exact moves_tryPriorityQueue worker site .fairLow .low rfl (.reset _)
  | popLocal =>
      rintro (_ | task)
      · exact .high _
      · have hselect := Worker.selector_execute { worker with
          cursors := (found worker.cursors task).1 } site task
        exact hselect ▸ .pop _ task
  | high => exact moves_tryPriorityQueue worker site .high .high rfl (.lower _)
  | normal =>
      refine moves_tryPriorityQueue worker site .lower .normal nofun (.stay _ ?_)
      exact ⟨fun h => h.2, rfl⟩
  | low =>
      refine moves_tryPriorityQueue worker site .lower .low nofun ?_
      refine Worker.moves_probe { worker with cursors := (stealFromPeers worker.cursors).1 }
        (fun _ => ?_) ?_ rfl (.peers _) site _
      · exact nofun
      · exact ⟨fun h => h.2, rfl⟩
  | getStealer victim rest =>
      rintro (_ | _)
      · refine worker.moves_probe hpeers ?_ rfl (.stay _ ?_) site rest <;>
          exact ⟨fun h => h.2, rfl⟩
      · refine .stay _ ?_
        exact ⟨fun h => h.2, rfl⟩
  | steal victim rest =>
      rintro (task | _ | _)
      · exact .steal _ victim task
      · refine .stay _ ?_
        exact ⟨fun h => h.2, rfl⟩
      · refine worker.moves_again hpeers ?_ rfl site
        exact ⟨fun h => h.2, rfl⟩
  | stealSuccess task =>
      intro r
      have hselect := Worker.selector_execute { worker with
        cursors := (found worker.cursors task).1 } site task
      refine hselect ▸ .record _ task ?_
      exact ⟨fun h => h.2, rfl⟩
  | stealFailure rest =>
      intro r
      refine worker.moves_probe hpeers ?_ rfl (.stay _ ?_) site rest <;>
        exact ⟨fun h => h.2, rfl⟩

theorem Worker.moves (worker : Worker) {instr : Instr Worker}
    (hi : worker.instr = some instr) :
    instr.Forall fun worker' access events =>
      worker.selector.Moves worker.s worker.w access events worker'.selector := by
  obtain ⟨s, w, cursors, pc⟩ := worker
  have hfree : ∀ task, Place.free ≠ .taken task := nofun
  cases pc with
  | pop site pc =>
      cases hi
      exact (Instr.forall_map _ _ _).mpr (pc.moves ⟨s, w, cursors, .pop site pc⟩ site)
  | stopFlag site =>
      cases hi
      rintro (_ | _)
      · beta_reduce
        rw [if_neg Bool.false_ne_true, selector_deeper]
        exact .stay _ ⟨id, rfl⟩
      · exact .stay _ ⟨id, rfl⟩
  | stopCount site =>
      cases hi
      intro r
      beta_reduce
      split
      · rw [selector_stop]
        exact .stay _ ⟨id, rfl⟩
      · rw [selector_deeper]
        exact .stay _ ⟨id, rfl⟩
  | lock =>
      cases hi
      intro r
      refine moves_search _ hfree ?_ rfl .locked
      exact ⟨id, rfl⟩
  | announce =>
      cases hi
      intro r
      refine moves_search _ hfree ?_ rfl .announced
      exact ⟨fun h => h.2, rfl⟩
  | park =>
      cases hi
      exact fun r => .stay _ ⟨id, rfl⟩
  | parked =>
      cases hi
      rintro (_ | _) <;> exact .stay _ ⟨id, rfl⟩
  | unlock how =>
      cases hi
      intro r
      cases how with
      | again =>
          refine moves_search _ hfree ?_ rfl .fast
          exact ⟨id, rfl⟩
      | _ => exact .stay _ ⟨id, rfl⟩
  | callback task =>
      cases hi
      exact .stay _ ⟨id, rfl⟩
  | withdraw | record | exit =>
      cases hi
      intro r
      refine .stay _ ?_
      exact ⟨fun h => h.2, rfl⟩
  | release task =>
      cases hi
      intro r
      beta_reduce
      split
      · exact .stay _ ⟨id, rfl⟩
      · refine moves_afterRelease _ hfree ?_ rfl task
        exact ⟨id, rfl⟩
  | notify task =>
      cases hi
      intro r
      refine moves_afterRelease _ hfree ?_ rfl task
      exact ⟨id, rfl⟩
  | groupRelease task g h =>
      cases hi
      intro r
      beta_reduce
      split
      · exact .stay _ ⟨id, rfl⟩
      · refine moves_search _ hfree ?_ rfl .fast
        exact ⟨id, rfl⟩
  | groupNotify task g h =>
      cases hi
      intro r
      refine moves_search _ hfree ?_ rfl .fast
      exact ⟨id, rfl⟩
  | exited => cases hi

/-! ## The other threads -/

theorem Access.taken_ne_zero {access : Access} (h : access.Fills s w) : access.taken s ≠ 0 := by
  cases access with
  | sched t op r =>
      obtain ⟨rfl, hop⟩ := h
      cases op with
      | stealBatchAndPop priority v =>
          cases r with
          | success task => simp [Access.taken, SchedOp.taken, Steal.taken]
          | _ => exact hop.elim
      | _ => exact hop.elim
  | _ => exact h.elim

theorem PushPc.selections_eq (t : ℕ) (task : Task) (pc : PushPc task.group) :
    (pc.instr t task).Forall fun _ _ events => selections s w events = [] := by
  cases pc with
  | ret => exact rfl
  | _ => exact fun _ => rfl

theorem Call.unnoticed (call : Call) :
    call.instr.Forall fun _ access events => Unnoticed s w access events := by
  have hevents : call.instr.Forall fun _ _ events => selections s w events = [] := by
    by_cases hpush : call.IsPush
    · cases call with
      | push t task pc => exact (Instr.forall_map _ _ _).mpr (pc.selections_eq t task)
      | _ => exact hpush.elim
    · refine (call.inert hpush).mono fun _ _ events h => ?_
      refine List.filterMap_eq_nil_iff.mpr fun event hmem => ?_
      have hinert := h.2 event hmem
      cases event <;> first | rfl | exact hinert.elim
  exact ((call.custody .finished s).and hevents).mono fun _ _ _ h =>
    ⟨fun hf => Access.taken_ne_zero hf h.1.2.1, h.2⟩

/-- A worker fills no other deque than its own, and it logs its own selections. -/
theorem Worker.unnoticed (worker : Worker) (hne : ¬ (worker.s = s ∧ worker.w = w))
    {instr : Instr Worker} (hi : worker.instr = some instr) :
    instr.Forall fun _ access events => Unnoticed s w access events := by
  obtain ⟨t, v, cursors, pc⟩ := worker
  have hselected : ∀ task : Task, selections s w [.selected t v task] = [] := by
    intro task
    simp only [selections, List.filterMap_cons, Event.selection, if_neg hne, List.filterMap_nil]
  have hbatch : ∀ (priority : TaskPriority) (r : Steal),
      Unnoticed s w (.sched t (.stealBatchAndPop priority v) r) (PopPc.selection t v r) := by
    intro priority r
    cases r with
    | success task => exact ⟨hne, hselected task⟩
    | _ => exact ⟨fun h => h.2, rfl⟩
  cases pc with
  | pop site pc =>
      cases hi
      refine Instr.Forall.map (Ψ := Unnoticed s w) _ ?_
      cases pc with
      | fairNormal | fairLow | high | normal | low => exact hbatch _
      | popLocal =>
          rintro (_ | task)
          · exact ⟨fun h => h.2, rfl⟩
          · exact ⟨fun h => h.2, hselected task⟩
      | steal victim rest =>
          rintro (task | _ | _)
          · exact ⟨fun h => h.2, hselected task⟩
          · exact ⟨fun h => h.2, rfl⟩
          · exact ⟨fun h => h.2, rfl⟩
      | _ => exact fun _ => ⟨fun h => h.2, rfl⟩
  | announce | withdraw | record | exit =>
      cases hi
      exact fun _ => ⟨fun h => h.2, rfl⟩
  | callback task =>
      cases hi
      exact ⟨id, rfl⟩
  | exited => cases hi
  | _ =>
      cases hi
      exact fun _ => ⟨id, rfl⟩

theorem Thread.Steps.unnoticed {p p' : Thread} {access : Access} {events : List Event}
    (h : p.Steps p' access events) (hne : p.number s ≠ some w) :
    Unnoticed s w access events := by
  cases h with
  | call hout => exact hout _ (Call.unnoticed _)
  | worker hi hout =>
      refine hout _ (Worker.unnoticed _ (fun heq => hne ?_) hi)
      exact Thread.number_eq_some.mpr ⟨_, rfl, heq⟩
  | start => exact ⟨id, rfl⟩

/-! ## Steps of the system -/

/-- The thread is the worker `w` of `s`, and its selector is `v`. -/
def Thread.Selects (s w : ℕ) (v : Selector) (p : Thread) : Prop :=
  ∃ worker, p.worker = some worker ∧ worker.s = s ∧ worker.w = w ∧ worker.selector = v

theorem Thread.Selects.number {v : Selector} {p : Thread} (h : p.Selects s w v) :
    p.number s = some w := by
  obtain ⟨worker, hw, hs, hw', -⟩ := h
  exact Thread.number_eq_some.mpr ⟨worker, hw, hs, hw'⟩

/-- The steps of a worker thread, with those of the calls of its callbacks. -/
theorem Thread.Steps.selects {p p' : Thread} {access : Access} {events : List Event}
    {v : Selector} (h : p.Steps p' access events) (hv : p.Selects s w v) :
    ∃ v', p'.Selects s w v' ∧ v.Moves s w access events v' := by
  cases h with
  | call hout => exact ⟨v, hv, .stay v (hout _ (Call.unnoticed _))⟩
  | worker hi hout =>
      rename_i worker worker' instr
      obtain ⟨_, hw, rfl, rfl, rfl⟩ := hv
      cases hw
      obtain ⟨hs, hw⟩ := hout _ (worker.ids_of_instr hi)
      exact ⟨worker'.selector, ⟨worker', rfl, hs, hw, rfl⟩, hout _ (worker.moves hi)⟩
  | start => exact ⟨v, hv, .stay v ⟨id, rfl⟩⟩

/-- Every step of the system is a step of every selector. -/
theorem Step.selects {world world' : World} {a : Action} {p p' : Thread} {access : Access}
    {events : List Event} {v : Selector} (h : Step world a world' p p' access events)
    (hn : Numbered s world) (hv : world.Any fun _ p _ => p.Selects s w v) :
    ∃ v', (world'.Any fun _ p _ => p.Selects s w v') ∧ v.Moves s w access events v' := by
  obtain ⟨j, q, hq, hselects⟩ := hv
  by_cases hj : j = a.1
  · subst hj
    cases h.moves.thread.symm.trans hq
    obtain ⟨v', hv', hmoves⟩ := h.steps.selects hselects
    exact ⟨v', h.moves.any_self hv', hmoves⟩
  · have hne : p.number s ≠ some w := fun hw =>
      hj (hn.distinct j a.1 q p w hq h.moves.thread hselects.number hw)
    exact ⟨v, ⟨j, q, h.moves.other hj hq, hselects⟩, .stay v (h.steps.unnoticed hne)⟩

end Control

end UpgradeSched
