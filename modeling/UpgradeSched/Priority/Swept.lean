import UpgradeSched.Priority.Selector

/-!
# Workers that have looked at their own deque

A worker looks at its own deque before it looks at the injectors. When it has found
the deque empty, the deque stays empty until the worker comes back to the start of a
search, as nobody else puts tasks into it.
-/

namespace UpgradeSched

open Interleaving

def PopPc.PastLocal : PopPc → Prop
  | .high | .normal | .low | .getStealer _ _ | .attempt _ _ | .steal _ _ | .stealFailure _ => True
  | _ => False

/-- The worker has found its own deque empty, and has no task. -/
def WorkerPc.PastLocal : WorkerPc → Prop
  | .pop _ pc => pc.PastLocal
  | .stopFlag _ | .stopCount _ | .lock | .announce | .park | .parked => True
  | _ => False

/-- The same after a search. -/
def Search.PastLocal : Search → Prop
  | .reach pc => pc.PastLocal
  | .ret .empty => True
  | .ret _ => False

section Control

variable (worker : Worker)

theorem PopPc.not_pastLocal_enter (cursors : Cursors) : ¬ (enter cursors).PastLocal := by
  unfold enter
  split <;> exact id

theorem Worker.not_pastLocal_search (site : Site) : ¬ (worker.search site).pc.PastLocal :=
  PopPc.not_pastLocal_enter worker.cursors

theorem Worker.not_pastLocal_proceed (how : Leave) : ¬ (worker.proceed how).pc.PastLocal := by
  cases how with
  | again => exact worker.not_pastLocal_search .fast
  | _ => exact id

theorem Worker.not_pastLocal_leave (site : Site) (how : Leave) :
    ¬ (worker.leave site how).pc.PastLocal := by
  cases site with
  | fast => exact worker.not_pastLocal_proceed how
  | _ => exact id

theorem Worker.not_pastLocal_afterRelease (task : Task) :
    ¬ (worker.afterRelease task).pc.PastLocal := by
  unfold afterRelease
  split
  · exact id
  · exact worker.not_pastLocal_search .fast

theorem Worker.pastLocal_afterSearch {site : Site} {search : Search}
    (h : (worker.afterSearch site search).pc.PastLocal) : search.PastLocal := by
  rcases search with pc | (task | _ | _)
  · exact h
  · exact worker.not_pastLocal_leave site _ h
  · trivial
  · exact worker.not_pastLocal_leave site _ h

/-- How a step comes to or stays at such a place: the own deque turned out to be
empty, or the worker was there before and did not fill it. -/
def Sweeps (s w : ℕ) (before : Prop) (access : Access) : Prop :=
  access = .sched s (.popLocal w) none ∨ before ∧ ¬ access.Fills s w

theorem PopPc.sweeps_tryPriorityQueue (s w : ℕ) (cursors : Cursors) (priority : TaskPriority)
    {before : Prop} {next : Cursors × Search} (hnext : next.2.PastLocal → before) :
    (Instr.sched s (.stealBatchAndPop priority w) (selection s w)
      (tryPriorityQueue cursors next)).Forall fun r access _ =>
        r.2.PastLocal → Sweeps s w before access := by
  rintro (task | _ | _)
  · exact False.elim
  · exact fun h => .inr ⟨hnext h, fun hf => hf.2⟩
  · exact False.elim

theorem PopPc.sweeps (s w : ℕ) (cursors : Cursors) (pc : PopPc) :
    (pc.instr s w cursors).Forall fun r access _ =>
      r.2.PastLocal → Sweeps s w pc.PastLocal access := by
  cases pc with
  | fairNormal | fairLow => exact sweeps_tryPriorityQueue s w cursors _ id
  | high | normal | low => exact sweeps_tryPriorityQueue s w cursors _ fun _ => trivial
  | popLocal =>
      rintro (_ | task)
      · exact fun _ => .inl rfl
      · exact False.elim
  | steal victim rest =>
      rintro (task | _ | _)
      · exact False.elim
      · exact fun _ => .inr ⟨trivial, fun hf => hf.2⟩
      · exact False.elim
  | fairnessYield | stealSuccess => exact fun _ => False.elim
  | _ => exact fun _ _ => .inr ⟨trivial, fun hf => hf.2⟩

theorem Worker.sweeps {instr : Instr Worker} (hi : worker.instr = some instr) :
    instr.Forall fun worker' access _ =>
      worker'.pc.PastLocal → Sweeps worker.s worker.w worker.pc.PastLocal access := by
  obtain ⟨s, w, cursors, pc⟩ := worker
  cases pc with
  | pop site pc =>
      cases hi
      refine (Instr.forall_map _ _ _).mpr
        ((pc.sweeps s w cursors).mono fun r access _ h hpast => ?_)
      exact h (pastLocal_afterSearch _ hpast)
  | stopFlag | stopCount | park | parked =>
      cases hi
      exact fun _ _ => .inr ⟨trivial, id⟩
  | lock =>
      cases hi
      exact fun _ h => absurd h (not_pastLocal_search _ .locked)
  | announce =>
      cases hi
      exact fun _ h => absurd h (not_pastLocal_search _ .announced)
  | withdraw how =>
      cases hi
      exact fun _ => False.elim
  | unlock how =>
      cases hi
      exact fun _ h => absurd h (not_pastLocal_proceed _ how)
  | callback task =>
      cases hi
      exact False.elim
  | record task | exit =>
      cases hi
      exact fun _ => False.elim
  | release task =>
      cases hi
      intro previous h
      beta_reduce at h
      split at h
      · exact h.elim
      · exact absurd h (not_pastLocal_afterRelease _ task)
  | notify task =>
      cases hi
      exact fun _ h => absurd h (not_pastLocal_afterRelease _ task)
  | groupRelease task g hg =>
      cases hi
      intro previous h
      beta_reduce at h
      split at h
      · exact h.elim
      · exact absurd h (not_pastLocal_search _ .fast)
  | groupNotify task g hg =>
      cases hi
      exact fun _ h => absurd h (not_pastLocal_search _ .fast)
  | exited => cases hi

end Control

/-- The deques of the workers of `s` that have found them empty are empty. -/
def Swept (s : ℕ) (world : World) : Prop :=
  world.Each fun _ p m => ∀ worker, p.worker = some worker → worker.s = s →
    worker.pc.PastLocal → (m.scheds s).queues.deque worker.w = []

section Law

variable {s : ℕ} {world world' : World} {a : Action} {p p' : Thread} {access : Access}
  {events : List Event}

theorem Thread.Steps.sweeps {worker' : Worker} (h : p.Steps p' access events)
    (hw : p'.worker = some worker') (hpast : worker'.pc.PastLocal) :
    ∃ worker, p.worker = some worker ∧ worker.s = worker'.s ∧ worker.w = worker'.w ∧
      Sweeps worker.s worker.w worker.pc.PastLocal access := by
  cases h with
  | call hout =>
      exact ⟨worker', hw, rfl, rfl, .inr ⟨hpast, (hout _ (Call.unnoticed _)).fills⟩⟩
  | worker hi hout =>
      cases hw
      rename_i worker instr
      obtain ⟨hs, hw⟩ := hout _ (worker.ids_of_instr hi)
      exact ⟨worker, rfl, hs.symm, hw.symm, hout _ (worker.sweeps hi) hpast⟩
  | start => exact ⟨worker', hw, rfl, rfl, .inr ⟨hpast, id⟩⟩

theorem Step.swept (h : Step world a world' p p' access events) (hn : Numbered s world)
    (hswept : Swept s world) : Swept s world' := by
  intro j q hq worker hw hs hpast
  rcases h.moves.cases hq with ⟨rfl, rfl⟩ | ⟨hj, hold⟩ | ⟨-, hmem⟩
  · obtain ⟨before, hbefore, hs', hw', hempty | ⟨hpast', hfills⟩⟩ := h.steps.sweeps hw hpast
    · subst hempty
      obtain ⟨hnil, heq⟩ := h.fires.takes
      rw [← hs, ← hs', ← hw', heq]
      exact hnil
    · have hnil := hswept _ _ h.moves.thread before hbefore (hs'.trans hs) hpast'
      rw [hs', hs] at hfills
      have hsuffix := h.fires.deque_suffix hfills
      rw [hnil] at hsuffix
      exact hw' ▸ List.suffix_nil.mp hsuffix
  · have hne : p.number s ≠ some worker.w := fun hnumber =>
      hj (hn.distinct _ _ _ _ _ hold h.moves.thread
        (Thread.number_eq_some.mpr ⟨worker, hw, hs, rfl⟩) hnumber)
    have hsuffix := h.fires.deque_suffix (h.steps.unnoticed hne).fills
    rw [hswept j q hold worker hw hs hpast] at hsuffix
    exact List.suffix_nil.mp hsuffix
  · obtain ⟨id, -, rfl⟩ := Access.exists_of_new hmem
    cases hw
    exact hpast.elim

theorem Reachable.swept (h : Reachable world) (s : ℕ) : Swept s world :=
  h.invariant (Swept s) (fun _ _ => World.each_init fun _ _ hw => by cases hw)
    fun hs hr => hs.swept (hr.numbered s)

/-- The deque of a worker that has not been started is empty. -/
theorem Reachable.deque_eq_nil (h : Reachable world) {w : ℕ}
    (hw : world.Each fun _ p _ => p.number s ≠ some w) :
    (world.mem.scheds s).queues.deque w = [] := by
  revert hw
  refine h.invariant (fun c => (c.Each fun _ p _ => p.number s ≠ some w) →
    (c.mem.scheds s).queues.deque w = []) (fun _ _ _ => rfl) ?_
  intro c a c' p p' access events hs _ hc hw
  have hold : c.Each fun _ p _ => p.number s ≠ some w := by
    intro j q hq
    by_cases hj : j = a.1
    · subst hj
      cases hs.moves.thread.symm.trans hq
      rw [← hs.steps.number_eq s]
      exact hw _ _ hs.moves.self
    · exact hw j q (hs.moves.other hj hq)
  have hsuffix := hs.fires.deque_suffix
    (hs.steps.unnoticed (hold _ _ hs.moves.thread)).fills
  rw [hc hold] at hsuffix
  exact List.suffix_nil.mp hsuffix

end Law

end UpgradeSched
