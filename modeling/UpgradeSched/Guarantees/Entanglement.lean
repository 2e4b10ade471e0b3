import UpgradeSched.Guarantees.Barrier
import UpgradeSched.Wakeups.Sleepers

/-!
# Callbacks that wait for each other

A callback may call `wait`, and then it waits for its own scheduler, for its own group
or for the group of a task whose callback waits in turn. None of these calls returns:
`entangled_forever`.
-/

namespace UpgradeSched

open Interleaving

/-- The thread runs the callback of a task that `x` counts. -/
def Thread.Runs (x : Obj) (p : Thread) : Prop :=
  ∃ worker task, p.worker = some worker ∧ worker.pc = .callback task ∧ x.Counts worker.s task

/-- The thread waits for `x` and has not found it idle. -/
def Thread.Awaits (x : Obj) (p : Thread) : Prop :=
  ∃ began pc, p.call = some (.wait x began pc) ∧ ¬ pc.Passed

/-- Each of the threads waits for something that counts a task which one of them runs. -/
def Entangled (W : Set ℕ) (world : World) : Prop :=
  ∀ i ∈ W, ∃ p x, world.threads[i]? = some p ∧ p.Awaits x ∧
    ∃ j ∈ W, ∃ q, world.threads[j]? = some q ∧ q.Runs x

section Control

variable {p p' : Thread} {access : Access} {events : List Event} {x : Obj}

/-- A waiting thread keeps waiting unless it reads zero. -/
theorem WaitPc.awaits_of_instr (y : Obj) (pc : WaitPc) (hpc : ¬ pc.Passed) :
    (pc.instr y).Forall fun pc' access _ =>
      access = .gate y .load 0 ∨ ∃ next, pc' = some next ∧ ¬ next.Passed := by
  cases pc with
  | lock | park => exact fun _ => .inr ⟨_, rfl, id⟩
  | parked =>
      rintro (_ | _) <;> exact .inr ⟨_, rfl, id⟩
  | check =>
      intro n
      by_cases hn : n = 0
      · exact .inl (hn ▸ rfl)
      · exact .inr ⟨.park, if_pos hn, id⟩
  | unlock | ret => exact absurd trivial hpc

theorem Thread.Steps.awaits (h : p.Steps p' access events) (hp : p.Awaits x) :
    access = .gate x .load 0 ∨ (p'.Awaits x ∧ p'.worker = p.worker) := by
  obtain ⟨began, pc, hcall, hpc⟩ := hp
  obtain ⟨call', rfl, hout⟩ := h.of_call hcall
  obtain ⟨next, rfl, hout'⟩ := Instr.Outcome.of_map hout
  refine (hout' _ (WaitPc.awaits_of_instr x pc hpc)).imp_right fun hnext => ?_
  obtain ⟨pc', rfl, hpc'⟩ := hnext
  exact ⟨⟨began, pc', rfl, hpc'⟩, rfl⟩

end Control

section Law

variable {world world' : World} {a : Action} {p p' q : Thread} {access : Access}
  {events : List Event} {x : Obj} {W : Set ℕ}

/-- While the callback of a task runs, what counts the task is not idle. -/
theorem Reachable.count_ne_zero_of_runs (hr : Reachable world) {j : ℕ}
    (hq : world.threads[j]? = some q) (hruns : q.Runs x) : (world.mem.gates x).count ≠ 0 := by
  obtain ⟨worker, task, hw, hpc, hx⟩ := hruns
  obtain ⟨hpublished, hunfinished⟩ := hr.unfinished_of_callback hq hw hpc
  intro hcount
  have hdischarged := hr.discharged_of_published hcount hx (mem_published.mp hpublished)
  exact hunfinished (hr.completed_of_discharged (Nat.zero_le _) hdischarged)

theorem Step.entangled (h : Step world a world' p p' access events) (hr : Reachable world)
    (he : Entangled W world) :
    Entangled W world' ∧ ∀ i ∈ W, ∀ q, world.threads[i]? = some q →
      ∃ q', world'.threads[i]? = some q' ∧ q'.worker = q.worker ∧
        ∀ x, q.Awaits x → q'.Awaits x := by
  -- whether it is the thread that moves or not, a thread of `W` keeps waiting
  have hkeep : ∀ i ∈ W, ∀ q, world.threads[i]? = some q →
      ∃ q', world'.threads[i]? = some q' ∧ q'.worker = q.worker ∧
        ∀ x, q.Awaits x → q'.Awaits x := by
    intro i hi q hq
    obtain ⟨r, x, hr', hawaits, j, -, t, ht, hruns⟩ := he i hi
    cases hq.symm.trans hr'
    by_cases hia : i = a.1
    · subst hia
      cases hq.symm.trans h.moves.thread
      rcases h.steps.awaits hawaits with rfl | ⟨hawaits', hworker⟩
      · exact absurd h.fires.load_eq.symm (hr.count_ne_zero_of_runs ht hruns)
      · refine ⟨p', h.moves.self, hworker, fun y hy => ?_⟩
        obtain ⟨_, _, hcall, -⟩ := hawaits
        obtain ⟨_, _, hcall', -⟩ := hy
        cases hcall.symm.trans hcall'
        exact hawaits'
    · exact ⟨q, h.moves.other hia hq, rfl, fun _ => id⟩
  refine ⟨fun i hi => ?_, hkeep⟩
  obtain ⟨q, x, hq, hawaits, j, hj, t, ht, hruns⟩ := he i hi
  obtain ⟨q', hq', -, hawaits'⟩ := hkeep i hi q hq
  obtain ⟨t', ht', hworker, -⟩ := hkeep j hj t ht
  refine ⟨q', x, hq', hawaits' x hawaits, j, hj, t', ht', ?_⟩
  obtain ⟨worker, task, hw, hpc, hx⟩ := hruns
  exact ⟨worker, task, hworker.trans hw, hpc, hx⟩

/-- Callbacks that wait for each other do so for ever: none of the calls returns and none of
the callbacks, whatever the other threads do. -/
theorem entangled_forever (hr : Reachable world) (he : Entangled W world)
    (hlater : scheduler.Reachable world world') :
    Entangled W world' ∧ ∀ i ∈ W, ∀ p, world.threads[i]? = some p →
      ∃ p', world'.threads[i]? = some p' ∧ p'.worker = p.worker ∧
        ∀ x, p.Awaits x → p'.Awaits x := by
  refine hlater.invariant (fun c => Entangled W c ∧ ∀ i ∈ W, ∀ p, world.threads[i]? = some p →
    ∃ p', c.threads[i]? = some p' ∧ p'.worker = p.worker ∧ ∀ x, p.Awaits x → p'.Awaits x)
    ⟨he, fun i _ p hp => ⟨p, hp, rfl, fun _ => id⟩⟩ ?_
  intro c a c' hreach hc hstep
  obtain ⟨q, q', access, events, hs⟩ := exists_step hstep
  obtain ⟨hentangled, hkeep⟩ := hs.entangled (hr.trans hreach) hc.1
  refine ⟨hentangled, fun i hi p hp => ?_⟩
  obtain ⟨p₁, hp₁, hw₁, hawaits₁⟩ := hc.2 i hi p hp
  obtain ⟨p₂, hp₂, hw₂, hawaits₂⟩ := hkeep i hi p₁ hp₁
  exact ⟨p₂, hp₂, hw₂.trans hw₁, fun x hx => hawaits₂ x (hawaits₁ x hx)⟩

/-- The callback of a task waits for its own scheduler. -/
def waitInCallback : List Action :=
  creation 0 ++ (0, .call (.pushTask 0 7 9)) :: steps 0 9 ++
    (1, .turn .go) :: (1, .turn (.pick 0)) :: (1, .turn (.pick 0)) ::
    (1, .call (.wait 0)) :: steps 1 3

theorem entangled_forever_waitInCallback :
    let world := World.after 1 waitInCallback (by decide +kernel)
    ∀ world', scheduler.Reachable world world' →
      ∃ p, world'.threads[1]? = some p ∧ p.Awaits (.sched 0) := by
  intro world world' hlater
  have hawaits : ∃ p, world.threads[1]? = some p ∧ p.Awaits (.sched 0) ∧ p.Runs (.sched 0) :=
    ⟨_, rfl, ⟨5, .parked, rfl, id⟩, ⟨_, _, rfl, rfl, rfl⟩⟩
  obtain ⟨p, hp, hwait, hruns⟩ := hawaits
  have he : Entangled {1} world := by
    rintro i rfl
    exact ⟨p, .sched 0, hp, hwait, 1, rfl, p, hp, hruns⟩
  obtain ⟨p', hp', -, hwait'⟩ := (entangled_forever
    (World.reachable_after 1 waitInCallback (by decide +kernel)) he hlater).2 1 rfl p hp
  exact ⟨p', hp', hwait' _ hwait⟩

end Law

end UpgradeSched
