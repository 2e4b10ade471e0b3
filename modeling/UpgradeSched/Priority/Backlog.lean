import UpgradeSched.Priority.Layout

/-!
# How much a worker hoards

A local deque is filled when it is empty, and once more by each intervention of fairness,
before the batch that it already holds is used up. Yet fairness intervenes only after a
whole burst of HIGH tasks, so the batches do not pile up: two of them is the most that a
deque ever holds.
-/

namespace UpgradeSched

open Interleaving

/-- The number of tasks in a local deque. -/
def Layout.length (l : Layout) : ℕ := l.high.length + l.low.length

section Turns

variable {queues : QueueSystem} {l l' : Layout} {new : List Task}

/-- A batch of another priority finds at most one batch in the deque. -/
theorem Layout.WellFormed.length_of_probing (hl : l.WellFormed) {probed : TaskPriority}
    (hprobes : l.place.Probes probed) : l.length ≤ HIGH_BURST_LIMIT := by
  rcases hl.probing hprobes with hstreak | ⟨hhigh, hlow⟩
  · by_cases hlow : l.low = []
    · rw [length, hlow, List.length_nil, Nat.add_zero]
      exact hl.length_high
    · have hfront := hl.front hlow
      have hshallow : ¬ HIGH_BURST_LIMIT < l.low.length := fun hdeep => by
        have hlt := hl.deep hdeep
        omega
      unfold length
      omega
  · simp [length, hhigh, hlow]

theorem Layout.Turns.length_le (ht : l.Turns queues new l') (hl : l.WellFormed)
    (h : l.length ≤ 2 * HIGH_BURST_LIMIT) : l'.length ≤ 2 * HIGH_BURST_LIMIT := by
  cases ht with
  | quiet hselector hdeque =>
      refine le_trans ?_ h
      unfold length
      rcases hdeque with ⟨hlow, hhigh⟩ | ⟨hhigh, hlow⟩
      · rw [hlow]
        exact Nat.add_le_add_right hhigh.length_le _
      · rw [hhigh, List.length_nil, Nat.zero_add]
        exact hlow.length_le.trans (Nat.le_add_left _ _)
  | batchHigh hpriority hlength =>
      simp only [length, List.length_nil]
      omega
  | batchLow probed hprobes hne hinjector hpriority hlength =>
      have hone := hl.length_of_probing hprobes
      simp only [length, List.length_append] at hone ⊢
      omega
  | popHigh | popLow =>
      simp only [length, List.length_cons] at h ⊢
      omega
  | _ => exact h

end Turns

section Run

variable {usizeBits clients : ℕ} {as : List Action} {world : World}

/-- As long as a batch moves at most 32 tasks, a local deque never holds more than 64. The
HIGH ones among them come first. -/
theorem backlog_bounded
    (h : scheduler.Run (Batched HIGH_BURST_LIMIT) (World.init usizeBits clients) as world)
    (s w : ℕ) : ∃ high low, (world.mem.scheds s).queues.deque w = high ++ low ∧
      (∀ task ∈ high, task.priority = .high) ∧ (∀ task ∈ low, task.priority ≠ .high) ∧
      high.length + low.length ≤ 64 := by
  have hall : Unstarted s w world ∨
      ∃ l : Layout, Laid s w l world ∧ l.length ≤ 2 * HIGH_BURST_LIMIT := by
    refine invariant_of_run (fun c => Unstarted s w c ∨
      ∃ l : Layout, Laid s w l c ∧ l.length ≤ 2 * HIGH_BURST_LIMIT) ?_ ?_ h
    · exact .inl ⟨World.each_init fun _ => nofun, rfl⟩
    · rintro c a c' p p' access events hs hr hb (hu | ⟨l, hl, hlength⟩)
      · refine (hs.unstarted hu).2.imp_right fun hlaid => ⟨.fresh, hlaid, Nat.zero_le _⟩
      · obtain ⟨l', hl', hturns⟩ := hs.laid hr hb hl
        exact .inr ⟨l', hl', hturns.length_le hl.wellFormed hlength⟩
  rcases hall with hu | ⟨l, hl, hlength⟩
  · exact ⟨[], [], hu.deque, by simp, by simp, Nat.zero_le _⟩
  · exact ⟨l.high, l.low, hl.deque, hl.wellFormed.high, hl.wellFormed.low, hlength⟩

/-- Three tasks are submitted, and the worker takes all of them in one batch. -/
def wholeBatch : List Action :=
  creation 0 ++ (0, .call (.pushTask 0 7 9)) :: steps 0 9 ++
    (0, .call (.pushTask 0 8 9)) :: steps 0 9 ++ (0, .call (.pushTask 0 9 9)) :: steps 0 9 ++
      (1, .turn .go) :: (1, .turn (.pick 0)) :: [(1, .turn (.pick 2))]

theorem isSome_wholeBatch : (scheduler.run (World.init 64 1) wholeBatch).isSome := by
  decide +kernel

theorem backlog_bounded_wholeBatch : ∃ high low,
    ((World.after 1 wholeBatch isSome_wholeBatch).mem.scheds 0).queues.deque 0 = high ++ low ∧
      high.length + low.length ≤ 64 := by
  have hrun : scheduler.Run (Batched HIGH_BURST_LIMIT) (World.init 64 1) wholeBatch
      (World.after 1 wholeBatch isSome_wholeBatch) :=
    World.run_after_of_runIf (fun _ => picksAtMost HIGH_BURST_LIMIT)
      (fun _ _ => batched_of_picksAtMost) _ (by decide +kernel)
  obtain ⟨high, low, hdeque, -, -, hlength⟩ := backlog_bounded hrun 0 0
  exact ⟨high, low, hdeque, hlength⟩

end Run

end UpgradeSched
