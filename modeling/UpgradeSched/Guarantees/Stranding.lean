import UpgradeSched.Guarantees.Sleeping
import UpgradeSched.Wakeups.Notifiers

/-!
# Stranded tasks

A submission publishes its task, reads the number of sleeping workers and notifies one
thread, without the mutex of the wait set. A worker that has made its last search but
has not yet enqueued itself is counted as sleeping and misses the notification. When
all workers are in this position or asleep, the task stays where it is.
-/

namespace UpgradeSched

open Interleaving

/-- A task is in a queue, all workers are in the wait set, and nobody submits a task to the
scheduler or shuts it down. -/
structure Stranded (s : ℕ) (world : World) : Prop where
  queued : (world.mem.scheds s).queues.tasks ≠ 0
  asleep : world.Each fun i p m => ∀ worker, p.worker = some worker → worker.s = s →
    worker.pc = .parked ∧ i ∈ (m.gates (.sched s)).waiting
  quiet : world.Each fun _ p _ => ∀ call, p.call = some call → ¬ call.UnderWay (.sched s)

section Stranding

variable {usizeBits clients : ℕ} {as : List Action} {world : World}

/-- Client 0 submits a task between the last search of the worker and its park. -/
def submissionBeforePark : List Action :=
  creation 0 ++ upToPark 1 ++ (0, .call (.pushTask 0 7 9)) :: steps 0 8 ++
    (0, .turn (.pick 0)) :: steps 0 1 ++ steps 1 1

/-- A task can be left behind. -/
theorem task_stranded : ∃ world, Reachable world ∧ Stranded 0 world := by
  refine ⟨.after 1 submissionBeforePark (by decide +kernel), World.reachable_after _ _ _,
    by decide +kernel, ?_, ?_⟩
  · rintro (_ | _ | i) p hp worker hw hs
    · cases hp
      cases hw
    · cases hp
      cases hw
      exact ⟨rfl, by decide +kernel⟩
    · cases hp
  · rintro (_ | _ | i) p hp call hcall
    · cases hp
      cases hcall
    · cases hp
      cases hcall
    · cases hp

theorem Call.underWay_of_announcing {s : ℕ} {call : Call} (h : call.Announcing s) :
    call.UnderWay (.sched s) := by
  cases call with
  | push t task pc => cases pc <;> first | exact h | exact h.elim
  | _ => exact h.elim

/-- In a run in which every notification of a submission is of use, or is not needed, no
task is left behind. -/
theorem not_stranded (s : ℕ)
    (h : scheduler.Run (Summons s) (World.init usizeBits clients) as world) :
    ¬ Stranded s world := by
  rintro ⟨hqueued, hasleep, hquiet⟩
  have hr : Reachable world := ⟨usizeBits, clients, h.reachable⟩
  have hasleep : Asleep s world := hasleep
  refine hqueued (QueueSystem.tasks_eq_zero (fun priority => ?_) fun w => ?_)
  · by_contra hne
    rcases served_of_summons h priority hne with hwatch | ⟨i, p, hp, hannouncing⟩
    · exact hasleep.not_onWatch priority hwatch
    · obtain ⟨call, hcall, hannouncing⟩ := hannouncing
      exact hquiet i p hp call hcall (Call.underWay_of_announcing hannouncing)
  · exact hasleep.deque_eq_nil hr w

/-- If the step is the notification of a submission, it goes to a sleeping worker. -/
def notifiesWorker (world : World) (a : Action) : Bool :=
  match world.threads[a.1]?.bind Thread.call, a.2 with
  | some (.push s _ .wakeNotify), .turn (.pick k) =>
      match (world.mem.gates (.sched s)).waiting[k]? with
      | some i =>
          match world.threads[i]?.bind Thread.worker with
          | some ⟨t, _, _, .parked⟩ => t = s
          | _ => false
      | none => false
  | _, _ => true

theorem summons_of_notifiesWorker {s : ℕ} {a : Action} (h : notifiesWorker world a = true) :
    Summons s world a := by
  intro p task k priority hp hcall ha _
  simp only [notifiesWorker, hp, Option.bind_some, hcall, ha] at h
  split at h
  · rename_i i hi
    split at h
    · rename_i t w cursors hw
      obtain ⟨q, hq, hworker⟩ := Option.bind_eq_some_iff.mp hw
      exact .inr (.inr ⟨i, q, hq, hi, _, hworker, of_decide_eq_true h, rfl⟩)
    · cases h
  · cases h

/-- The worker goes to sleep first, and the submission wakes it up. -/
def submissionAfterPark : List Action :=
  creation 0 ++ upToPark 1 ++ steps 1 1 ++ (0, .call (.pushTask 0 7 9)) :: steps 0 8 ++
    (0, .turn (.pick 0)) :: steps 0 1

theorem not_stranded_submissionAfterPark :
    ¬ Stranded 0 (.after 1 submissionAfterPark (by decide +kernel)) :=
  not_stranded 0 (World.run_after_of_runIf notifiesWorker
    (fun _ _ => summons_of_notifiesWorker) _ (by decide +kernel))

end Stranding

end UpgradeSched
