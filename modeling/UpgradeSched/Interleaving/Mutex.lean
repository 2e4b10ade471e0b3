import UpgradeSched.Interleaving.Gate
import UpgradeSched.Interleaving.System

/-!
# Mutual exclusion

The mutex of a gate has an owner, which its operations set and clear without asking
who the caller is. `Config.Exclusive` says that the owner is the thread inside the
critical section, if one is, and nobody else is inside. It is kept as long as
threads enter by taking the mutex and leave by giving it back; the rule is
`Config.Exclusive.of_moves`.
-/

namespace Interleaving

namespace GateOp

/-- The step takes the mutex. -/
def Acquires {α : Type} : GateOp α → α → Prop
  | lock, _ => True
  | wakeup, locked => locked = true
  | _, _ => False

/-- The step gives the mutex back. -/
def frees {α : Type} : GateOp α → Bool
  | unlock | park => true
  | _ => false

section Owner

variable {α : Type} {op : GateOp α} {i : ℕ} {turn : Turn} {g g' : Gate} {r : α}

/-- The mutex is taken only when it is free, and only by the thread that makes the step. -/
theorem Effect.owner_of_acquires (h : Effect i turn op r g g') (ha : op.Acquires r) :
    g.owner = none ∧ g'.owner = some i := by
  cases h with
  | lock _ ho => exact ⟨ho, rfl⟩
  | woken _ _ ho => exact ⟨ho, rfl⟩
  | spurious => cases ha
  | _ => exact ha.elim

theorem Effect.owner_of_frees (h : Effect i turn op r g g') (hf : op.frees = true) :
    g'.owner = none := by
  cases h with
  | unlock | park => rfl
  | _ => cases hf

theorem Effect.owner_eq (h : Effect i turn op r g g') (ha : ¬ op.Acquires r)
    (hf : op.frees = false) : g'.owner = g.owner := by
  cases h with
  | lock => exact absurd trivial ha
  | woken => exact absurd rfl ha
  | unlock | park => cases hf
  | _ => rfl

end Owner

end GateOp

section Mutex

variable {σ π ε : Type*} (gate : σ → Gate) (inside : π → Prop)

/-- The owner of the mutex is the thread inside the critical section. -/
def Config.Exclusive (c : Config σ π) : Prop :=
  ∀ i, (gate c.mem).owner = some i ↔ ∃ p, c.threads[i]? = some p ∧ inside p

variable {gate inside} {S : System σ π ε} {c c' : Config σ π} {a : ℕ × ε} {p p' : π}
  {ns : List π}

theorem Config.Exclusive.owner_eq {i : ℕ} (hc : c.Exclusive gate inside)
    (hp : c.threads[i]? = some p) (hin : inside p) : (gate c.mem).owner = some i :=
  (hc i).mpr ⟨p, hp, hin⟩

theorem Config.Exclusive.inside_of_owner {i : ℕ} (hc : c.Exclusive gate inside)
    (hp : c.threads[i]? = some p) (ho : (gate c.mem).owner = some i) : inside p := by
  obtain ⟨q, hq, hin⟩ := (hc i).mp ho
  rwa [Option.some.inj (hp.symm.trans hq)]

/-- What a step does about the critical section: the thread enters by taking the mutex,
leaves by giving it back, and otherwise stays where it is. -/
structure Guards (before after acquires frees : Prop) : Prop where
  enter : acquires → ¬ before ∧ after
  leave : frees → before ∧ ¬ after
  stay : ¬ acquires → ¬ frees → (after ↔ before)

theorem Guards.mono {before after acquires frees before' after' acquires' frees' : Prop}
    (h : Guards before after acquires frees) (hbefore : before' ↔ before)
    (hafter : after' ↔ after) (hacquires : acquires' ↔ acquires) (hfrees : frees' ↔ frees) :
    Guards before' after' acquires' frees' := by
  rwa [propext hbefore, propext hafter, propext hacquires, propext hfrees]

/-- The rule for one step. The started threads are outside. -/
theorem Config.Exclusive.of_moves (hc : c.Exclusive gate inside)
    (h : S.Moves c a c' p p' ns) {acquires frees : Prop}
    (hguards : Guards (inside p) (inside p') acquires frees)
    (hacquires : acquires → (gate c.mem).owner = none ∧ (gate c'.mem).owner = some a.1)
    (hfrees : frees → (gate c'.mem).owner = none)
    (hkeeps : ¬ acquires → ¬ frees → (gate c'.mem).owner = (gate c.mem).owner)
    (hnew : ∀ q ∈ ns, ¬ inside q) : c'.Exclusive gate inside := by
  intro i
  by_cases hi : i = a.1
  · subst hi
    have hafter : (∃ q, c'.threads[a.1]? = some q ∧ inside q) ↔ inside p' :=
      ⟨fun ⟨q, hq, hin⟩ => Option.some.inj (h.self.symm.trans hq) ▸ hin,
        fun hin => ⟨p', h.self, hin⟩⟩
    have hbefore : (gate c.mem).owner = some a.1 ↔ inside p :=
      ⟨hc.inside_of_owner h.thread, hc.owner_eq h.thread⟩
    rw [hafter]
    by_cases hacq : acquires
    · exact iff_of_true (hacquires hacq).2 (hguards.enter hacq).2
    by_cases hfree : frees
    · exact iff_of_false (by rw [hfrees hfree]; exact nofun) (hguards.leave hfree).2
    · rw [hkeeps hacq hfree, hbefore, hguards.stay hacq hfree]
  · have hafter : (∃ q, c'.threads[i]? = some q ∧ inside q) ↔
        ∃ q, c.threads[i]? = some q ∧ inside q := by
      constructor
      · rintro ⟨q, hq, hin⟩
        exact ⟨q, h.of_other hi hq fun hmem => hnew q hmem hin, hin⟩
      · rintro ⟨q, hq, hin⟩
        exact ⟨q, h.other hi hq, hin⟩
    rw [hafter, ← hc i]
    by_cases hacq : acquires
    · refine iff_of_false ?_ (by rw [(hacquires hacq).1]; exact nofun)
      rw [(hacquires hacq).2]
      exact fun heq => hi (Option.some.inj heq).symm
    by_cases hfree : frees
    · refine iff_of_false (by rw [hfrees hfree]; exact nofun) fun ho => ?_
      have hself := hc.owner_eq h.thread (hguards.leave hfree).1
      exact hi (Option.some.inj (ho.symm.trans hself))
    · rw [hkeeps hacq hfree]

end Mutex

end Interleaving
