import UpgradeSched.Accounting.Submissions
import UpgradeSched.Guarantees.Answers

/-!
# What the counters report

The counters of a scheduler say what the callers have been told: `submitted` counts the
submissions that returned without an error, `rejected_full` those that returned `QueueFull`,
and the calls that neither of them counts have returned `SchedulerStopped`. While calls are
in progress a counter is ahead of the answers, never behind.
-/

namespace UpgradeSched

open Interleaving

section Law

variable {world : World} {s : ℕ}

theorem Thread.submitsAt_unrecorded_le (p : Thread) (s : ℕ) :
    p.submitsAt s PushPc.unrecorded ≤ p.submitsAt s PushPc.accepted := by
  unfold Thread.submitsAt
  split
  · rename_i t task pc _
    cases pc <;> simp [PushPc.unrecorded, PushPc.accepted]
  · exact le_rfl

/-- In every state `submitted` lies between the submissions that have returned without an
error and the published tasks, `rejected_full` is not behind the answers `QueueFull`, and
`completed` not ahead of the callbacks that have finished. While no submission is in
progress, the first two are exactly these numbers of answers, and every other call has
returned `SchedulerStopped`. -/
theorem counters_report (hr : Reachable world) (s : ℕ) :
    ((answered none s world.mem.log).length ≤ (world.mem.scheds s).stats.submitted ∧
      (world.mem.scheds s).stats.submitted ≤ (published s world.mem.log).length ∧
      (answered (some .queueFull) s world.mem.log).length ≤
        (world.mem.scheds s).stats.rejectedFull ∧
      (world.mem.scheds s).stats.completed ≤ (completed .finished s world.mem.log).length) ∧
    ((world.Each fun _ p _ => ¬ p.Submitting s) →
      (world.mem.scheds s).stats.submitted = (answered none s world.mem.log).length ∧
      (world.mem.scheds s).stats.rejectedFull =
        (answered (some .queueFull) s world.mem.log).length ∧
      (attempted s world.mem.log).length = (world.mem.scheds s).stats.submitted +
        (world.mem.scheds s).stats.rejectedFull +
        (answered (some .schedulerStopped) s world.mem.log).length) := by
  have hsubmitted := hr.submitted_eq s
  have haccepted := hr.accepted_eq s
  have hrejected := hr.rejected_eq s
  refine ⟨⟨?_, ?_, ?_, ?_⟩, fun hidle => ?_⟩
  · have hle : world.sum (Thread.submitsAt s PushPc.unrecorded) ≤
        world.sum (Thread.submitsAt s PushPc.accepted) :=
      List.sum_le_sum fun p _ => p.submitsAt_unrecorded_le s
    omega
  · omega
  · omega
  · have htallied : (world.mem.scheds s).stats.completed = _ := hr.tallied s
    have hpublished : (published s world.mem.log : Multiset Task).Nodup := hr.nodup_published s
    have hnodup : (completed .recorded s world.mem.log : Multiset Task).Nodup :=
      Multiset.nodup_of_le (hr.completed_le_published .recorded s) hpublished
    have hsub : completed .recorded s world.mem.log ⊆ completed .finished s world.mem.log :=
      fun task hmem => hr.mem_completed
        (show Stage.finished.rank ≤ Stage.recorded.rank by decide) trivial hmem
    rw [htallied]
    exact (List.subperm_of_subset hnodup hsub).length_le
  · have hquiet : ∀ place, world.sum (Thread.submitsAt s place) = 0 := fun place =>
      hidle.sum_eq_zero fun i p hp => p.submitsAt_eq_zero place hp
    have hattempted := hr.attempted_eq s
    rw [hquiet, add_zero] at hsubmitted haccepted hrejected hattempted
    have hended : (ended s world.mem.log).length = _ :=
      length_ended_of_answers fun _ _ hmem => hr.error_of_returned hmem
    omega

/-- Of two submissions one has been accepted and one refused. -/
theorem counters_report_fullQueue :
    let world := World.after 2 (fullQueue ++ steps 2 1) (by decide +kernel)
    (attempted 0 world.mem.log).length = (world.mem.scheds 0).stats.submitted +
      (world.mem.scheds 0).stats.rejectedFull +
      (answered (some .schedulerStopped) 0 world.mem.log).length :=
  ((counters_report (World.reachable_after 2 (fullQueue ++ steps 2 1) (by decide +kernel)) 0).2
    (by decide +kernel)).2.2

end Law

end UpgradeSched
