import UpgradeSched.Priority.Selector

/-!
# The streak of a worker

The streak of HIGH tasks is below the burst limit wherever a worker takes tasks from its
deque, the HIGH injector or its peers, and at the limit where it makes the fairness
probes. What these find is not HIGH, so no run takes the streak over the limit, however
many steals have to be retried.
-/

namespace UpgradeSched

open Interleaving

/-- What the place of a worker says about its streak. -/
def Place.Allows (streak : ℕ) : Place → Prop
  | .free => streak ≤ HIGH_BURST_LIMIT
  | .fair | .fairLow => streak = HIGH_BURST_LIMIT
  | .own | .high | .lower | .peers | .taken _ => streak < HIGH_BURST_LIMIT

/-- The streak is one that the place of the worker allows. -/
def Selector.Steady (v : Selector) : Prop := v.place.Allows v.priority.highStreak

/-- A batch steal brings tasks of the priority of the injector. -/
def Access.Pure (s : ℕ) (access : Access) : Prop :=
  ∀ priority w task, access = .sched s (.stealBatchAndPop priority w) (.success task) →
    task.priority = priority

section Selector

variable {s w : ℕ} {v v' : Selector} {access : Access} {events : List Event}

theorem Place.Allows.le {place : Place} {streak : ℕ} (h : place.Allows streak) :
    streak ≤ HIGH_BURST_LIMIT := by
  cases place with
  | free => exact h
  | fair | fairLow => exact Nat.le_of_eq h
  | _ => exact Nat.le_of_lt h

theorem Selector.steady_enter {priority : PriorityState}
    (h : priority.highStreak ≤ HIGH_BURST_LIMIT) : (Selector.enter priority).Steady := by
  unfold Steady enter
  by_cases hdue : HIGH_BURST_LIMIT ≤ priority.highStreak
  · simpa [PriorityState.fairnessDue, hdue, Place.Allows] using Nat.le_antisymm h hdue
  · simpa [PriorityState.fairnessDue, hdue, Place.Allows] using Nat.lt_of_not_le hdue

/-- A selection brings the streak to the limit at most. -/
theorem Selector.steady_select {priority : PriorityState} {task : Task}
    (h : priority.highStreak < HIGH_BURST_LIMIT ∨ task.priority ≠ .high) :
    (Selector.select priority task).Steady := by
  rcases h with hlt | hlow
  · exact (priority.recordTask_le task).trans hlt
  · exact (Nat.le_of_eq (priority.recordTask_low hlow)).trans (Nat.zero_le _)

theorem Selector.Moves.steady (h : v.Moves s w access events v') (hpure : access.Pure s)
    (hv : v.Steady) : v'.Steady := by
  cases h with
  | stay => exact hv
  | leave => exact hv.le
  | enter => exact steady_enter hv.le
  | fairLow | high | lower | peers => exact hv
  | reset => exact Nat.zero_lt_succ _
  | batch _ priority task hprobes =>
      refine steady_select ?_
      obtain ⟨streak, place⟩ := v
      cases place with
      | fair | fairLow =>
          obtain rfl := hprobes
          exact .inr (by rw [hpure _ w task rfl]; exact nofun)
      | high | lower => exact .inl hv
      | _ => exact hprobes.elim
  | pop => exact steady_select (.inl hv)
  | steal => exact hv
  | record => exact steady_select (.inl hv)

end Selector

section Law

variable {world world' : World} {a : Action} {p p' : Thread} {access : Access}
  {events : List Event}

theorem Step.pure (h : Step world a world' p p' access events) (hr : Reachable world) (s : ℕ) :
    access.Pure s := by
  rintro priority w task rfl
  obtain ⟨k, rest, -, hinjector, -⟩ := h.fires.takes
  exact hr.sorted s priority task (hinjector ▸ List.mem_cons_self)

/-- The streak of no worker gets past the burst limit. -/
theorem Reachable.steady (h : Reachable world) :
    world.Each fun _ p _ => ∀ worker, p.worker = some worker → worker.selector.Steady := by
  refine h.invariant (fun c => c.Each fun _ p _ => ∀ worker, p.worker = some worker →
    worker.selector.Steady) (fun _ _ => World.each_init fun _ worker hw => ?_) fun hs hr hc => ?_
  · cases hw
  · refine hc.of_moves hs.moves (fun hself worker' hw' => ?_) (fun _ _ _ _ hq => hq) ?_
    · obtain ⟨worker, hw, hsame, hsame'⟩ := hs.steps.exists_worker hw'
      obtain ⟨v', ⟨worker'', hw'', -, -, rfl⟩, hmoves⟩ :=
        hs.steps.selects ⟨worker, hw, hsame, hsame', rfl⟩
      cases hw'.symm.trans hw''
      exact hmoves.steady (hs.pure hr _) (hself worker hw)
    · intro j q _ hq worker hw
      obtain ⟨id, -, rfl⟩ := Access.exists_of_new hq
      cases hw
      exact Nat.zero_lt_succ _

end Law

end UpgradeSched
