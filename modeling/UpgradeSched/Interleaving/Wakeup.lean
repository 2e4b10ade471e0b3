import UpgradeSched.Interleaving.Gate
import UpgradeSched.Interleaving.System

/-!
# Sleepers and the notification on its way

Threads sleep in the wait set of a gate until the gate is idle, and whoever makes
it idle notifies them all. A notification is on its way while some thread is about
to make it. `Config.Answered` says that an idle gate with a sleeper has a
notification on its way, so that no sleeper is left behind. It is kept as long as
nobody goes to sleep, and nobody makes the gate idle over the head of a sleeper,
without a notification on its way; the rule is `Config.Answered.of_moves`.
-/

namespace Interleaving

section Wakeup

variable {σ π ε : Type*} (gate : σ → Gate) (idle : Gate → Prop) (asleep notifying : π → Prop)

/-- Some sleeper is in the wait set. -/
def Config.Enqueued (c : Config σ π) : Prop :=
  c.Any fun i p m => i ∈ (gate m).waiting ∧ asleep p

/-- Some thread is about to notify all sleepers. -/
def Config.Pending (c : Config σ π) : Prop := c.Any fun _ p _ => notifying p

/-- An idle gate with a sleeper has a notification on its way. -/
def Config.Answered (c : Config σ π) : Prop :=
  idle (gate c.mem) → c.Enqueued gate asleep → c.Pending notifying

variable {gate idle asleep notifying} {S : System σ π ε} {c c' : Config σ π} {a : ℕ × ε}
  {p p' : π} {ns : List π}

theorem Config.not_enqueued_of_empty (h : (gate c.mem).waiting = []) :
    ¬ c.Enqueued gate asleep := by
  rintro ⟨i, p, -, hi, -⟩
  rw [h] at hi
  cases hi

/-- A sleeper stays a sleeper until it moves itself or leaves the wait set. -/
theorem Config.Enqueued.of_moves (hc : c'.Enqueued gate asleep) (h : S.Moves c a c' p p' ns)
    (hself : a.1 ∈ (gate c'.mem).waiting → asleep p' → c.Enqueued gate asleep)
    (hwaiting : ∀ j, j ≠ a.1 → j ∈ (gate c'.mem).waiting → j ∈ (gate c.mem).waiting)
    (hnew : ∀ q ∈ ns, ¬ asleep q) : c.Enqueued gate asleep := by
  obtain ⟨j, q, hq, hj, hasleep⟩ := hc
  rcases h.cases hq with ⟨rfl, rfl⟩ | ⟨hne, hold⟩ | ⟨-, hmem⟩
  · exact hself hj hasleep
  · exact ⟨j, q, hold, hwaiting j hne hj, hasleep⟩
  · exact absurd hasleep (hnew q hmem)

/-- The rule for one step. A thread that was about to notify has emptied the wait
set. A sleeper was there before, or was allowed to go to sleep. The gate was idle
before, or the step that makes it so is followed by a notification, or that step
was allowed. -/
theorem Config.Answered.of_moves (hc : c.Answered gate idle asleep notifying)
    (h : S.Moves c a c' p p' ns) (hself : notifying p → (gate c'.mem).waiting = [])
    (hasleep : c'.Enqueued gate asleep →
      c.Enqueued gate asleep ∨ (idle (gate c'.mem) → c.Pending notifying))
    (hidle : idle (gate c'.mem) → idle (gate c.mem) ∨ notifying p' ∨
      (c.Enqueued gate asleep → c.Pending notifying)) :
    c'.Answered gate idle asleep notifying := by
  intro hgate henqueued
  have hkeep : c.Pending notifying → c'.Pending notifying := fun hpending =>
    Config.Any.of_moves hpending h
      (fun hp => absurd henqueued (Config.not_enqueued_of_empty (hself hp)))
      fun _ _ _ _ hq => hq
  rcases hasleep henqueued with hold | hallowed
  · rcases hidle hgate with hidle | hnotifying | hallowed
    · exact hkeep (hc hidle hold)
    · exact h.any_self (φ := fun _ p _ => notifying p) hnotifying
    · exact hkeep (hallowed hold)
  · exact hkeep (hallowed hgate)

end Wakeup

end Interleaving
