import UpgradeSched.Accounting.Identity
import UpgradeSched.Accounting.Submissions

/-!
# Closing is final

Once the flag of a scheduler or of a group is set, the only tasks it counts that are
still published are those whose submission had read the flag for the last time before.
-/

namespace UpgradeSched

open Interleaving

/-- The submission does not read the flag of `x` any more and may still publish. -/
def PushPc.Past : Obj → {group : Option ℕ} → PushPc group → Prop
  | .sched _, _, .publish => True
  | .group _, _, .finalCheck | .group _, _, .publish => True
  | _, _, _ => False

/-- Thread `i` is in a submission of the task that is past the flag of `x`. -/
def Committed (x : Obj) (world : World) (i s : ℕ) (task : Task) : Prop :=
  ∃ p pc, world.threads[i]? = some p ∧ p.call = some (.push s task pc) ∧ pc.Past x

section Control

variable {x : Obj} {s : ℕ} {task : Task}

/-- A submission is past the flag of what counts its task because it has found it unset. -/
theorem PushPc.past_of_instr (hx : x.Counts s task) (pc : PushPc task.group) :
    (pc.instr s task).Forall fun pc' access _ => ∀ next, pc' = some next → next.Past x →
      pc.Past x ∨ access = .gate x .loadFlag false := by
  have htry : ∀ capacity n, ¬ (tryReserve capacity n : PushPc task.group).Past x := by
    intro capacity n
    unfold tryReserve
    split <;> cases x <;> exact id
  have hregister : ¬ (register : PushPc task.group).Past x := by
    cases x with
    | sched t => cases task.group <;> exact id
    | group g =>
        have hg : task.group = some g := hx
        rw [hg]
        exact id
  have hreturn : ¬ (unregisterOrReturn : PushPc task.group).Past x := by
    cases task.group <;> cases x <;> exact id
  cases pc with
  | checkStop | readCapacity | groupCheck | groupUndo | unregister | wakeCheck =>
      intro r
      beta_reduce
      split <;> rintro _ ⟨⟩ hpast <;> cases x <;> exact hpast.elim
  | loadCount capacity =>
      rintro n _ ⟨⟩ hpast
      exact absurd hpast (htry capacity n)
  | exchange capacity current =>
      rintro (n | _) <;> rintro _ ⟨⟩ hpast
      · exact absurd hpast (htry capacity n)
      · cases x <;> exact hpast.elim
  | recheckStop =>
      rintro (_ | _) <;> rintro _ ⟨⟩ hpast
      · exact absurd hpast hregister
      · cases x <;> exact hpast.elim
  | rollback =>
      rintro r _ ⟨⟩ hpast
      exact absurd hpast hreturn
  | groupRecheck g hg =>
      rintro (_ | _) <;> rintro _ ⟨⟩ hpast
      · cases x with
        | sched t => exact hpast.elim
        | group g' =>
            cases hg.symm.trans (show task.group = some g' from hx)
            exact .inr rfl
      · cases x <;> exact hpast.elim
  | finalCheck =>
      rintro (_ | _) <;> rintro _ ⟨⟩ hpast
      · cases x with
        | sched t =>
            cases (show t = s from hx)
            exact .inr rfl
        | group g => exact .inl trivial
      · cases x <;> exact hpast.elim
  | ret => rintro _ ⟨⟩
  | _ =>
      rintro r _ ⟨⟩ hpast
      cases x <;> exact hpast.elim

theorem PushPc.publish_of_instr (s : ℕ) (task : Task) (pc : PushPc task.group) :
    (pc.instr s task).Forall fun _ _ events => ∀ task', .published s task' ∈ events →
      task' = task ∧ pc = .publish := by
  cases pc with
  | publish =>
      intro r task' hmem
      cases List.mem_singleton.mp hmem
      exact ⟨rfl, rfl⟩
  | ret => exact fun task' hmem => by simp at hmem
  | _ => exact fun r task' hmem => absurd hmem List.not_mem_nil

variable {p p' : Thread} {access : Access} {events : List Event}

theorem Thread.Steps.past (h : p.Steps p' access events) (hx : x.Counts s task)
    {pc' : PushPc task.group} (hcall : p'.call = some (.push s task pc')) (hpast : pc'.Past x) :
    (∃ pc : PushPc task.group, p.call = some (.push s task pc) ∧ pc.Past x) ∨
      access = .gate x .loadFlag false := by
  rcases h.to_push hcall with ⟨pc, hold, -, hout⟩ | ⟨-, -, rfl, -⟩
  · exact (hout _ (pc.past_of_instr hx) pc' rfl hpast).imp_left fun h => ⟨pc, hold, h⟩
  · cases x <;> exact hpast.elim

/-- A published task is that of a submission that is past all flags. -/
theorem Thread.Steps.past_of_published (h : p.Steps p' access events) (x : Obj)
    (hmem : .published s task ∈ events) :
    ∃ pc : PushPc task.group, p.call = some (.push s task pc) ∧ pc.Past x := by
  rcases h.submission_cases s with ⟨task', pc, pc', hcall, -, hout⟩ |
    ⟨_, _, _, _, _, _, -, -, -, rfl⟩ | ⟨hquiet, -, -⟩
  · obtain ⟨rfl, rfl⟩ := hout _ (pc.publish_of_instr s task') task hmem
    exact ⟨.publish, hcall, by cases x <;> trivial⟩
  · cases List.mem_singleton.mp hmem
  · have hpublished := mem_published.mpr hmem
    rw [hquiet.published] at hpublished
    cases hpublished

end Control

section Law

variable {world world' : World} {x : Obj} {i s : ℕ} {task : Task} {a : Action}
  {p p' : Thread} {access : Access} {events : List Event}

/-- While the flag of `x` is set nobody gets past it. -/
theorem Step.committed (h : Step world a world' p p' access events)
    (hclosed : (world.mem.gates x).closed = true) (hx : x.Counts s task)
    (hc : Committed x world' i s task) : Committed x world i s task := by
  obtain ⟨q, pc', hq, hcall, hpast⟩ := hc
  rcases h.moves.cases hq with ⟨rfl, rfl⟩ | ⟨-, hold⟩ | ⟨-, hnew⟩
  · rcases h.steps.past hx hcall hpast with ⟨pc, hbefore, hpast'⟩ | rfl
    · exact ⟨p, pc, h.moves.thread, hbefore, hpast'⟩
    · cases hclosed.symm.trans h.fires.loadFlag_eq.symm
  · exact ⟨q, pc', hold, hcall, hpast⟩
  · cases (call_eq_none_of_new hnew).symm.trans hcall

/-- When the flag of `x` is set, what is published from then on of the tasks that `x` counts
was already past the flag; so no submission that starts later is accepted. -/
theorem closing_final (hr : Reachable world) (hclosed : (world.mem.gates x).closed = true)
    (hlater : scheduler.Reachable world world') (hx : x.Counts s task) :
    (.published s task ∈ world'.mem.log →
        .published s task ∈ world.mem.log ∨ ∃ i, Committed x world i s task) ∧
      (.returned s task none ∈ world'.mem.log → task.id < world.mem.log.length) := by
  have hpublished : .published s task ∈ world'.mem.log →
      .published s task ∈ world.mem.log ∨ ∃ i, Committed x world i s task := by
    refine (hlater.invariant (fun c => (c.mem.gates x).closed = true ∧
      (∀ i, Committed x c i s task → Committed x world i s task) ∧
      (.published s task ∈ c.mem.log → .published s task ∈ world.mem.log ∨
        ∃ i, Committed x world i s task)) ⟨hclosed, fun _ => id, .inl⟩ ?_).2.2
    rintro c a c' - ⟨hclosed, hcommitted, hpublished⟩ hstep
    obtain ⟨p, p', access, events, hs⟩ := exists_step hstep
    refine ⟨hs.fires.closed hclosed, fun i hc => hcommitted i (hs.committed hclosed hx hc),
      fun hmem => ?_⟩
    rw [hs.fires.log] at hmem
    rcases List.mem_append.mp hmem with hold | hnew
    · exact hpublished hold
    · obtain ⟨pc, hcall, hpast⟩ := hs.steps.past_of_published x hnew
      exact .inr ⟨a.1, hcommitted a.1 ⟨p, pc, hs.moves.thread, hcall, hpast⟩⟩
  refine ⟨hpublished, fun hret => ?_⟩
  have hd := hr.distinct
  rcases hpublished ((hr.trans hlater).accepted.returns s task hret) with hold | ⟨i, hc⟩
  · exact hd.lt _ (Multiset.mem_add.mpr (.inr (Multiset.mem_coe.mpr
      (List.mem_filterMap.mpr ⟨_, hold, rfl⟩))))
  · obtain ⟨p, pc, hp, hcall, hpast⟩ := hc
    have hpending : task.id ∈ p.pending := by
      rw [Thread.pending, hcall, Option.elim_some, Call.pending]
      cases pc with
      | finalCheck | publish => exact Multiset.mem_singleton_self _
      | _ => cases x <;> exact hpast.elim
    exact hd.lt _ (Multiset.mem_add.mpr (.inl
      (Multiset.mem_of_le (world.le_sum Thread.pending hp) hpending)))

/-- Client 1 is about to publish its task when client 0 shuts the scheduler down. This is
the only submission that can still be accepted. -/
theorem closing_final_inFlight :
    let world := World.after 2 (creation 0 ++ (1, .call (.pushTask 0 7 9)) :: steps 1 5 ++
      (0, .call (.shutdown 0)) :: steps 0 1) (by decide +kernel)
    Committed (.sched 0) world 1 0 ⟨1, none, 7, 9, .normal, none⟩ ∧
      ∀ world' task, scheduler.Reachable world world' → .published 0 task ∈ world'.mem.log →
        ∃ i, Committed (.sched 0) world i 0 task := by
  intro world
  refine ⟨⟨_, .publish, rfl, rfl, trivial⟩, fun world' task hlater hmem => ?_⟩
  refine ((closing_final (World.reachable_after 2 (creation 0 ++
    (1, .call (.pushTask 0 7 9)) :: steps 1 5 ++ (0, .call (.shutdown 0)) :: steps 0 1)
    (by decide +kernel)) (by decide +kernel) hlater
    (show (Obj.sched 0).Counts 0 task from rfl)).1 hmem).resolve_left fun hold => ?_
  have hnone : published 0 world.mem.log = [] := by decide +kernel
  have hpublished := mem_published.mpr hold
  rw [hnone] at hpublished
  cases hpublished

end Law

end UpgradeSched
