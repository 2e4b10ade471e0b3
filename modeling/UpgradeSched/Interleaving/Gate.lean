import Mathlib.Data.List.Basic
import Mathlib.Data.List.Nodup
import Mathlib.Logic.Function.Basic

/-!
# Counted gates with a monitor

A `Gate` is a counter and a closing flag, both atomic, together with a mutex
and a condition variable whose waiters wait for the counter to reach zero. The
operations are the atomic steps on these four fields. A condition variable
remembers nothing: a notification takes threads out of the wait set that are
already in it, and is lost when the wait set is empty. Going to sleep enqueues
the caller and releases the mutex in one step; waking up takes the mutex again.
-/

namespace Interleaving

/-- How the environment resolves the choice of a step: the plain outcome, a
spurious one (a failed exchange, a spurious wakeup, a retry), or a number where
there is one to pick. -/
inductive Turn
  | go
  | spurious
  | pick (k : ℕ)
  deriving DecidableEq, Repr

/-- The counter, the flag, the owner of the mutex and the wait set of the
condition variable, longest-enqueued thread first. -/
structure Gate where
  count : ℕ
  closed : Bool
  owner : Option ℕ
  waiting : List ℕ
  deriving DecidableEq, Repr

namespace Gate

/-- The open gate with nothing counted and nobody waiting. -/
def new : Gate := ⟨0, false, none, []⟩

end Gate

/-- The atomic steps on a gate, with the type of what they return. -/
inductive GateOp : Type → Type
  | load : GateOp ℕ
  | fetchAdd : GateOp Unit
  | compareExchangeWeak (current : ℕ) : GateOp (Except ℕ Unit)
  | fetchSub : GateOp ℕ
  | loadFlag : GateOp Bool
  | storeFlag : GateOp Unit
  | lock : GateOp Unit
  | unlock : GateOp Unit
  | park : GateOp Unit
  | wakeup : GateOp Bool
  | notifyOne : GateOp Unit
  | notifyAll : GateOp Unit

/-- The effect of one step of thread `i` on the gate; `none` when the step is
blocked. `wakeup` returns `true` when the thread was notified and holds the
mutex again, and `false` for a spurious wakeup, after which the mutex is still
to be taken. -/
def GateOp.exec {α : Type} (i : ℕ) (turn : Turn) (g : Gate) : GateOp α → Option (α × Gate)
  | load =>
      match turn with
      | .go => some (g.count, g)
      | _ => none
  | fetchAdd =>
      match turn with
      | .go => some ((), { g with count := g.count + 1 })
      | _ => none
  | compareExchangeWeak current =>
      match turn with
      | .go =>
          if g.count = current then some (.ok (), { g with count := current + 1 })
          else some (.error g.count, g)
      | .spurious => some (.error g.count, g)
      | .pick _ => none
  | fetchSub =>
      match turn with
      | .go => some (g.count, { g with count := g.count - 1 })
      | _ => none
  | loadFlag =>
      match turn with
      | .go => some (g.closed, g)
      | _ => none
  | storeFlag =>
      match turn with
      | .go => some ((), { g with closed := true })
      | _ => none
  | lock =>
      match turn, g.owner with
      | .go, none => some ((), { g with owner := some i })
      | _, _ => none
  | unlock =>
      match turn with
      | .go => some ((), { g with owner := none })
      | _ => none
  | park =>
      match turn with
      | .go => some ((), { g with owner := none, waiting := g.waiting ++ [i] })
      | _ => none
  | wakeup =>
      match turn with
      | .go =>
          if i ∉ g.waiting ∧ g.owner = none then
            some (true, { g with owner := some i })
          else none
      | .spurious =>
          if i ∈ g.waiting then
            some (false, { g with waiting := g.waiting.erase i })
          else none
      | .pick _ => none
  | notifyOne =>
      match turn with
      | .pick k =>
          if g.waiting = [] ∨ k < g.waiting.length then
            some ((), { g with waiting := g.waiting.eraseIdx k })
          else none
      | _ => none
  | notifyAll =>
      match turn with
      | .go => some ((), { g with waiting := [] })
      | _ => none

/-! ## What the steps do -/

/-- The outcomes of the steps: thread `i` performs `op` under `turn`, gets `r`,
and the gate goes from `g` to `g'`. -/
inductive GateOp.Effect (i : ℕ) :
    {α : Type} → Turn → GateOp α → α → Gate → Gate → Prop
  | load (g : Gate) : Effect i .go load g.count g g
  | fetchAdd (g : Gate) : Effect i .go fetchAdd () g { g with count := g.count + 1 }
  | exchanged (g : Gate) :
      Effect i .go (compareExchangeWeak g.count) (.ok ()) g { g with count := g.count + 1 }
  | refused (g : Gate) (turn : Turn) (current : ℕ) :
      Effect i turn (compareExchangeWeak current) (.error g.count) g g
  | fetchSub (g : Gate) : Effect i .go fetchSub g.count g { g with count := g.count - 1 }
  | loadFlag (g : Gate) : Effect i .go loadFlag g.closed g g
  | storeFlag (g : Gate) : Effect i .go storeFlag () g { g with closed := true }
  | lock (g : Gate) (h : g.owner = none) : Effect i .go lock () g { g with owner := some i }
  | unlock (g : Gate) : Effect i .go unlock () g { g with owner := none }
  | park (g : Gate) :
      Effect i .go park () g { g with owner := none, waiting := g.waiting ++ [i] }
  | woken (g : Gate) (h : i ∉ g.waiting) (ho : g.owner = none) :
      Effect i .go wakeup true g { g with owner := some i }
  | spurious (g : Gate) (h : i ∈ g.waiting) :
      Effect i .spurious wakeup false g { g with waiting := g.waiting.erase i }
  | notifyOne (g : Gate) (k : ℕ) :
      Effect i (.pick k) notifyOne () g { g with waiting := g.waiting.eraseIdx k }
  | notifyAll (g : Gate) : Effect i .go notifyAll () g { g with waiting := [] }

namespace GateOp

section Effect

variable {α : Type} {op : GateOp α} {i : ℕ} {turn : Turn} {g g' : Gate} {r : α}

theorem effect_of_exec (h : op.exec i turn g = some (r, g')) :
    Effect i turn op r g g' := by
  cases op with
  | compareExchangeWeak current =>
      cases turn with
      | go =>
          simp only [exec] at h
          split at h
          · rename_i hcount
            subst hcount
            cases h
            exact .exchanged g
          · cases h
            exact .refused g _ current
      | spurious =>
          cases h
          exact .refused g _ current
      | pick k => cases h
  | wakeup =>
      cases turn with
      | go =>
          simp only [exec] at h
          split at h
          · rename_i hfree
            cases h
            exact .woken g hfree.1 hfree.2
          · cases h
      | spurious =>
          simp only [exec] at h
          split at h
          · rename_i hin
            cases h
            exact .spurious g hin
          · cases h
      | pick k => cases h
  | notifyOne =>
      cases turn with
      | pick k =>
          simp only [exec] at h
          split at h
          · cases h
            exact .notifyOne g k
          · cases h
      | _ => cases h
  | lock =>
      simp only [exec] at h
      split at h
      · rename_i hfree
        cases h
        exact .lock g hfree
      · cases h
  | _ =>
      cases turn with
      | go =>
          cases h
          constructor
      | _ => cases h

end Effect

/-- What a step that returned `r` adds to the counter. -/
def adds {α : Type} : GateOp α → α → ℕ
  | fetchAdd, _ => 1
  | compareExchangeWeak _, r =>
      match r with
      | .ok _ => 1
      | .error _ => 0
  | _, _ => 0

/-- What a step takes from the counter. -/
def subs {α : Type} : GateOp α → ℕ
  | fetchSub => 1
  | _ => 0

/-- What a step that reads a field before changing it returns. -/
def reads {α : Type} (g : Gate) : GateOp α → Option α
  | load => some g.count
  | fetchSub => some g.count
  | loadFlag => some g.closed
  | _ => none

/-- The value that a successful exchange found in the counter. -/
def finds {α : Type} : GateOp α → α → Option ℕ
  | compareExchangeWeak current, r =>
      match r with
      | .ok _ => some current
      | .error _ => none
  | _, _ => none

/-- The value of the counter that a step shows when it does not change it. -/
def shows {α : Type} : GateOp α → α → Option ℕ
  | load, n => some n
  | compareExchangeWeak _, r =>
      match r with
      | .ok _ => none
      | .error n => some n
  | _, _ => none

theorem adds_le_one {α : Type} (op : GateOp α) (r : α) : op.adds r ≤ 1 := by
  cases op with
  | compareExchangeWeak => cases r <;> simp [adds]
  | _ => simp [adds]

section Fields

variable {α : Type} {op : GateOp α} {i : ℕ} {turn : Turn} {g g' : Gate} {r v : α}

/-- The counter after a step, as long as it does not underflow. -/
theorem Effect.count (h : Effect i turn op r g g') (hsub : op.subs ≤ g.count) :
    g'.count + op.subs = g.count + op.adds r := by
  cases h <;> simp_all [adds, subs]

/-- A step that reads a field returns its value. -/
theorem Effect.eq_of_reads (h : Effect i turn op r g g') (hr : op.reads g = some v) :
    r = v := by
  cases h <;> simp_all [reads]

theorem Effect.count_le (h : Effect i turn op r g g') : g'.count ≤ g.count + op.adds r := by
  cases h <;> simp [adds]

theorem Effect.count_of_finds (h : Effect i turn op r g g') {n : ℕ}
    (hn : op.finds r = some n) : g.count = n := by
  cases h <;> simp_all [finds]

theorem Effect.eq_of_shows (h : Effect i turn op r g g') {n : ℕ}
    (hn : op.shows r = some n) : g' = g ∧ g.count = n := by
  cases h <;> simp_all [shows]

theorem Effect.count_le_of_subs (h : Effect i turn op r g g') (hsub : op.subs = 0) :
    g.count ≤ g'.count := by
  cases h <;> simp_all [subs]

/-- The step only reads the gate. -/
def keeps {α : Type} : GateOp α → Bool
  | load | loadFlag => true
  | _ => false

theorem Effect.eq_of_keeps (h : Effect i turn op r g g') (hk : op.keeps = true) : g' = g := by
  cases h <;> simp_all [keeps]

/-- The step closes the gate. -/
def closes {α : Type} : GateOp α → Bool
  | storeFlag => true
  | _ => false

theorem Effect.closed_of_closes (h : Effect i turn op r g g') (hc : op.closes = true) :
    g'.closed = true := by
  cases h <;> simp_all [closes]

/-- A closed gate stays closed. -/
theorem Effect.closed (h : Effect i turn op r g g') (hg : g.closed = true) :
    g'.closed = true := by
  cases h <;> simp_all

/-- The step closes the gate only if it is the closing step. -/
theorem Effect.closed_cases (h : Effect i turn op r g g') (hg : g'.closed = true) :
    g.closed = true ∨ op.closes = true := by
  cases h <;> simp_all [closes]

/-- The step takes the last unit from the counter. -/
def Drains {α : Type} : GateOp α → α → Prop
  | fetchSub, previous => previous = 1
  | _, _ => False

theorem Effect.count_of_drains (h : Effect i turn op r g g') (hd : op.Drains r) :
    g.count = 1 := by
  cases h with
  | fetchSub => exact hd
  | _ => exact hd.elim

theorem Effect.eq_of_drains (h : Effect i turn op r g g') (hd : op.Drains r) :
    g' = { g with count := 0 } := by
  cases h with
  | fetchSub => rw [show g.count = 1 from hd]
  | _ => exact hd.elim

/-- The counter becomes zero by a step that takes the last unit. -/
theorem Effect.count_cases (h : Effect i turn op r g g') (hg : g'.count = 0) :
    g.count = 0 ∨ op.Drains r := by
  cases h with
  | fetchSub =>
      rcases Nat.eq_zero_or_pos g.count with hzero | hpos
      · exact .inl hzero
      · exact .inr (Nat.le_antisymm (Nat.sub_eq_zero_iff_le.mp hg) hpos)
  | fetchAdd | exchanged => exact absurd hg (Nat.succ_ne_zero _)
  | _ => exact .inl hg

/-! ## The wait set -/

/-- The step puts the thread to sleep. -/
def parks {α : Type} : GateOp α → Bool
  | park => true
  | _ => false

/-- The step is one of a sleeping thread. -/
def wakes {α : Type} : GateOp α → Bool
  | wakeup => true
  | _ => false

/-- The step notifies all threads in the wait set. -/
def notifies {α : Type} : GateOp α → Bool
  | notifyAll => true
  | _ => false

/-- The step notifies one thread in the wait set. -/
def notifiesOne {α : Type} : GateOp α → Bool
  | notifyOne => true
  | _ => false

theorem Effect.waiting_of_notifiesOne (h : Effect i turn op r g g')
    (hn : op.notifiesOne = true) :
    ∃ k, turn = .pick k ∧ g'.waiting = g.waiting.eraseIdx k := by
  cases h with
  | notifyOne _ k => exact ⟨k, rfl, rfl⟩
  | _ => cases hn

/-- A parking thread goes to the end of the wait set; every other step keeps the
wait set or takes threads out of it. -/
theorem Effect.waiting_cases (h : Effect i turn op r g g') :
    g'.waiting.Sublist g.waiting ∨ op.parks = true ∧ g'.waiting = g.waiting ++ [i] := by
  cases h with
  | park => exact .inr ⟨rfl, rfl⟩
  | spurious => exact .inl List.erase_sublist
  | notifyOne _ k => exact .inl (List.eraseIdx_sublist _ _)
  | notifyAll => exact .inl (List.nil_sublist _)
  | _ => exact .inl (List.Sublist.refl _)

/-- A thread enters the wait set by parking only. -/
theorem Effect.mem_waiting (h : Effect i turn op r g g') {j : ℕ}
    (hj : j ∈ g'.waiting) : j ∈ g.waiting ∨ j = i ∧ op.parks = true := by
  rcases h.waiting_cases with hsub | ⟨hparks, heq⟩
  · exact .inl (hsub.subset hj)
  · rw [heq] at hj
    exact (List.mem_append.mp hj).imp id fun hj => ⟨List.mem_singleton.mp hj, hparks⟩

/-- No thread is in the wait set twice, if only threads that are not in it park. -/
theorem Effect.nodup_waiting (h : Effect i turn op r g g') (hn : g.waiting.Nodup)
    (hi : op.parks = true → i ∉ g.waiting) : g'.waiting.Nodup := by
  rcases h.waiting_cases with hsub | ⟨hparks, heq⟩
  · exact hn.sublist hsub
  · have hconcat := (List.nodup_concat g.waiting i).mpr ⟨hi hparks, hn⟩
    rwa [heq, ← List.concat_eq_append]

/-- A sleeping thread that makes a step is out of the wait set. -/
theorem Effect.not_mem_of_wakes (h : Effect i turn op r g g') (hn : g.waiting.Nodup)
    (hw : op.wakes = true) : i ∉ g'.waiting := by
  cases h with
  | woken _ hi => exact hi
  | spurious => exact hn.not_mem_erase
  | _ => cases hw

theorem Effect.waiting_of_notifies (h : Effect i turn op r g g') (hn : op.notifies = true) :
    g'.waiting = [] := by
  cases h with
  | notifyAll => rfl
  | _ => cases hn

/-- The step leaves the counter alone and takes nobody out of the wait set. -/
def Calm {α : Type} : GateOp α → α → Prop
  | fetchAdd, _ | fetchSub, _ | compareExchangeWeak _, .ok () | notifyOne, _ | notifyAll, _ => False
  | wakeup, locked => locked = true
  | _, _ => True

theorem Effect.count_of_calm (h : Effect i turn op r g g') (hc : op.Calm r) :
    g'.count = g.count := by
  cases h with
  | fetchAdd | exchanged | fetchSub | notifyOne | notifyAll => exact hc.elim
  | _ => rfl

theorem Effect.mem_waiting_of_parks (h : Effect i turn op r g g') (hp : op.parks = true) :
    i ∈ g'.waiting := by
  cases h with
  | park => exact List.mem_append_right _ (List.mem_singleton_self i)
  | _ => cases hp

/-- A sleeping thread makes a step of its own accord only when it has been notified. -/
theorem Effect.calm_of_wakes (h : Effect i turn op r g g') (hw : op.wakes = true)
    (hturn : turn ≠ .spurious) : op.Calm r ∧ i ∉ g.waiting := by
  cases h with
  | woken _ hi => exact ⟨rfl, hi⟩
  | spurious => exact absurd rfl hturn
  | _ => cases hw

theorem Effect.mem_waiting_of_calm (h : Effect i turn op r g g') (hc : op.Calm r) {j : ℕ}
    (hj : j ∈ g.waiting) : j ∈ g'.waiting := by
  cases h with
  | park => exact List.mem_append_left _ hj
  | spurious => cases hc
  | notifyOne | notifyAll => exact hc.elim
  | _ => exact hj

end Fields

end GateOp

/-! ## Blocked steps -/

namespace GateOp

/-- The step is possible without a spurious outcome. A thread waits for the mutex at the
lock and, once it has been notified, when it wakes up. -/
def Ready (i : ℕ) (g : Gate) {α : Type} : GateOp α → Prop
  | lock => g.owner = none
  | wakeup => i ∉ g.waiting ∧ g.owner = none
  | _ => True

theorem ready_iff {α : Type} (op : GateOp α) (i : ℕ) (g : Gate) :
    op.Ready i g ↔ ∃ turn, turn ≠ .spurious ∧ (op.exec i turn g).isSome := by
  constructor
  · intro h
    cases op with
    | lock => exact ⟨.go, by simp, by simp [exec, show g.owner = none from h]⟩
    | wakeup => exact ⟨.go, by simp, by simp [exec, h.1, h.2]⟩
    | compareExchangeWeak current =>
        refine ⟨.go, by simp, ?_⟩
        simp only [exec]
        split <;> rfl
    | notifyOne =>
        refine ⟨.pick 0, by simp, ?_⟩
        cases hw : g.waiting <;> simp [exec, hw]
    | _ => exact ⟨.go, by simp, rfl⟩
  · rintro ⟨turn, hturn, hexec⟩
    cases op with
    | lock =>
        cases ho : g.owner with
        | none => exact ho
        | some j => cases turn <;> simp [exec, ho] at hexec
    | wakeup =>
        cases turn with
        | go =>
            simp only [exec] at hexec
            split at hexec
            · assumption
            · cases hexec
        | spurious => exact absurd rfl hturn
        | pick k => cases hexec
    | _ => trivial

end GateOp

end Interleaving
