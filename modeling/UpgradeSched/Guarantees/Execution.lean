import UpgradeSched.Accounting.Capacity
import UpgradeSched.Accounting.Identity

/-!
# Exactly-once execution and the capacity

The laws of custody, of identity and of the counters, read together at any
reachable state: a published task is in exactly one place, and the slots of a
scheduler are the submissions under way and the published tasks not yet
released.
-/

namespace UpgradeSched

open Interleaving

/-- The tasks of `s` that are queued, the tasks that a worker has taken and not
finished, and the tasks whose callback has finished. -/
def accounted (s : ℕ) (world : World) : Multiset Task :=
  (world.mem.scheds s).queues.tasks + world.sum (Thread.held .finished s) +
    ↑(completed .finished s world.mem.log)

section Execution

variable {world : World} {s : ℕ}

theorem Reachable.published_eq_accounted (h : Reachable world) (s : ℕ) :
    (↑(published s world.mem.log) : Multiset Task) = accounted s world := by
  have hall : ∀ tasks : Multiset Task, tasks.filter Stage.finished.Concerns = tasks :=
    fun tasks => Multiset.filter_eq_self.mpr fun _ _ => trivial
  have hcustody := h.accounting.custody .finished s
  rwa [Custody, hall, hall] at hcustody

/-- A task whose submission returned an error is nowhere. -/
theorem Reachable.not_accounted_of_error (h : Reachable world) {task : Task}
    {error : SchedulerError} (hret : .returned s task (some error) ∈ world.mem.log) (t : ℕ) :
    task.id ∉ (accounted t world).map Task.id := by
  rw [← h.published_eq_accounted, Multiset.mem_map]
  rintro ⟨task', hmem, hid⟩
  have hpub := mem_published.mp (Multiset.mem_coe.mp hmem)
  cases h.decision_inj hpub hret (n := task.id) (congrArg some hid) rfl

/-- Exactly-once execution: the published tasks of a scheduler are the queued
ones, the ones taken and not finished, and the finished ones, and no submission
occurs twice among them. The task of a submission that returned success is among
them, and the task of one that returned an error is on no scheduler. -/
theorem exactly_once (h : Reachable world) (s : ℕ) :
    (↑(published s world.mem.log) : Multiset Task) = accounted s world ∧
      ((accounted s world).map Task.id).Nodup ∧
      (∀ task, .returned s task none ∈ world.mem.log → task ∈ accounted s world) ∧
      (∀ task error, .returned s task (some error) ∈ world.mem.log →
        ∀ t, task.id ∉ (accounted t world).map Task.id) := by
  refine ⟨h.published_eq_accounted s, ?_, fun task hret => ?_, fun task error hret t => ?_⟩
  · rw [← h.published_eq_accounted]
    exact Multiset.coe_nodup.mpr (h.nodup_published_id s)
  · rw [← h.published_eq_accounted]
    exact Multiset.mem_coe.mpr (mem_published.mpr (h.accepted.returns s task hret))
  · exact h.not_accounted_of_error hret t

/-- Client 0 submits a task, which the worker runs, and shuts the scheduler down;
the submission of client 1 fails. -/
def oneTaskAndOneFailure : List Action :=
  creation 1 ++ (0, .call (.pushTask 0 7 9)) :: steps 0 10 ++
    (2, .turn .go) :: (2, .turn (.pick 0)) :: (2, .turn (.pick 0)) :: steps 2 1 ++
    (0, .call (.shutdown 0)) :: steps 0 2 ++ (1, .call (.pushTask 0 7 9)) :: steps 1 2

theorem exactly_once_oneTaskAndOneFailure :
    let world := World.after 2 oneTaskAndOneFailure (by decide +kernel)
    (completed .finished 0 world.mem.log).length = 1 ∧
      (↑(published 0 world.mem.log) : Multiset Task) = accounted 0 world :=
  ⟨by decide +kernel, (exactly_once (World.reachable_after 2 oneTaskAndOneFailure _) 0).1⟩

/-! ## Slots -/

/-- The tasks queued or in hand are at most the slots in use. -/
theorem Reachable.card_le_count (h : Reachable world) (s : ℕ) :
    Multiset.card ((world.mem.scheds s).queues.tasks + world.sum (Thread.held .released s)) ≤
      (world.mem.gates (.sched s)).count := by
  have hall := Stage.filter_concerns (show Stage.released ≠ .groupReleased from nofun)
  have hcustody := congrArg Multiset.card (h.accounting.custody .released s)
  have hslots := h.accounting.slots (.sched s)
  unfold Slots at hslots
  rw [admitted_sched, discharged_sched, List.length_map, List.length_map] at hslots
  simp only [hall, Multiset.card_add, Multiset.coe_card] at hcustody ⊢
  omega

/-- Slot accounting: the counter is the number of submissions that hold a
reservation plus the number of published tasks whose slot has not been released.
Every `fetch_sub` finds it positive. It is within the capacity, and so is the
number of tasks that are queued or in the hand of a worker, the executing ones
among them. -/
theorem slot_accounting (h : Reachable world) (s : ℕ) :
    (world.mem.gates (.sched s)).count =
        world.sum (Thread.reserved (.sched s)) +
          Multiset.card ((↑(published s world.mem.log) : Multiset Task) -
            (↑(completed .released s world.mem.log) : Multiset Task)) ∧
      (∀ a world' p p' previous events,
        Step world a world' p p' (.gate (.sched s) .fetchSub previous) events →
          0 < previous) ∧
      ((world.mem.scheds s).config.queueCapacity ≠ 0 →
        (world.mem.gates (.sched s)).count ≤ (world.mem.scheds s).config.queueCapacity ∧
          Multiset.card ((world.mem.scheds s).queues.tasks +
            world.sum (Thread.held .released s)) ≤
              (world.mem.scheds s).config.queueCapacity) := by
  refine ⟨?_, ?_, fun hcap => ?_⟩
  · have hslots := h.accounting.slots (.sched s)
    have hle := Multiset.card_le_card (h.completed_le_published .released s)
    unfold Slots at hslots
    rw [admitted_sched, discharged_sched, List.length_map, List.length_map] at hslots
    rw [Multiset.card_sub (h.completed_le_published .released s)]
    simp only [Multiset.coe_card] at hle ⊢
    omega
  · intro a world' p p' previous events hstep
    have hsub := hstep.subs_le h.present h.accounting (.sched s)
    rw [← hstep.fires.fetchSub_eq] at hsub
    exact Nat.one_le_iff_ne_zero.mp (by simpa [Access.subs, GateOp.subs] using hsub) |>
      Nat.pos_of_ne_zero
  · have hcount := (h.bounded s).count hcap
    exact ⟨hcount, (h.card_le_count s).trans hcount⟩

theorem slot_accounting_oneTaskAndOneFailure :
    let world := World.after 2 (oneTaskAndOneFailure.take 15) (by decide +kernel)
    (world.mem.scheds 0).config.queueCapacity ≠ 0 ∧ (world.mem.gates (.sched 0)).count = 1 ∧
      (world.mem.gates (.sched 0)).count ≤ (world.mem.scheds 0).config.queueCapacity := by
  have hcap : ((World.after 2 (oneTaskAndOneFailure.take 15) (by decide +kernel)).mem.scheds
      0).config.queueCapacity ≠ 0 := by decide +kernel
  exact ⟨hcap, by decide +kernel,
    ((slot_accounting (World.reachable_after 2 (oneTaskAndOneFailure.take 15) _) 0).2.2
      hcap).1⟩

end Execution

end UpgradeSched
