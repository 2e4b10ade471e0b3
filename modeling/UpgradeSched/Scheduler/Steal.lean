import Mathlib.Algebra.Group.Nat.Defs

/-!
# Victim selection

`StealState` of `steal.rs`: the rotating cursor of one worker and the order in
which it probes the other workers. The cursor is a `usize`, so it wraps modulo
`2 ^ usizeBits`; the sums of `round_robin_victims` wrap in the same way, as they
do in the release profile.
-/

namespace UpgradeSched

inductive StealPolicy
  | roundRobin
  | adaptive
  deriving DecidableEq, Repr

structure StealState where
  usizeBits : ℕ
  workerId : ℕ
  workerCount : ℕ
  policy : StealPolicy
  cursor : ℕ
  deriving DecidableEq, Repr

namespace StealState

def new (usizeBits workerId workerCount : ℕ) (policy : StealPolicy) : StealState :=
  ⟨usizeBits, workerId, max workerCount 1, policy, 0⟩

/-- The value of a sum of `usize` operands, with wraparound. -/
def wrap (state : StealState) (n : ℕ) : ℕ := n % 2 ^ state.usizeBits

/-- The loop of `round_robin_victims` over the remaining offsets: the caller is
skipped, and the loop ends early when every peer has been listed. -/
def victimLoop (state : StealState) (first : ℕ) : List ℕ → List ℕ → List ℕ
  | [], victims => victims
  | offset :: offsets, victims =>
      let victim := state.wrap (first + offset) % state.workerCount
      if victim = state.workerId then victimLoop state first offsets victims
      else
        let victims := victims ++ [victim]
        if victims.length = state.workerCount - 1 then victims
        else victimLoop state first offsets victims

/-- The victims of this search, and the state with the cursor moved on. A single
worker has no victims and leaves the cursor alone. -/
def roundRobinVictims (state : StealState) : List ℕ × StealState :=
  if state.workerCount ≤ 1 then ([], state)
  else
    let rotation := state.cursor
    let first := state.wrap (state.workerId + 1 + rotation) % state.workerCount
    (victimLoop state first (List.range state.workerCount) [],
      { state with cursor := state.wrap (state.cursor + 1) })

def victims (state : StealState) : List ℕ × StealState :=
  match state.policy with
  | .roundRobin => state.roundRobinVictims
  | .adaptive => state.roundRobinVictims

end StealState

end UpgradeSched
