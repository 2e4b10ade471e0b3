import Mathlib.Data.List.Basic
import Mathlib.Algebra.Order.BigOperators.Group.List
import Mathlib.Algebra.Order.Ring.Nat
import Mathlib.Logic.Function.Basic

/-!
# Threads over a shared memory

A `System` says how one thread moves: from its local state and the memory to a
new local state, a new memory and the threads it starts. A `Config` is the
memory with the list of threads, and `System.step` lets one thread of the list
move. The order in which threads move is the list of actions of a run, so a
statement about every `Run` is a statement about every interleaving.

The three rules used on top of it are `Run.invariant` (a property kept by every
step holds along a run), `Moves.sum` (how a sum over the threads changes when
one of them moves) and `Each.of_moves` (a property of single threads that the
other threads do not disturb).
-/

namespace Interleaving

/-- A system of threads. `next i e p m` is the move of thread number `i` from
the local state `p` under the memory `m` when the environment resolves its
choice as `e`; `none` means that the thread cannot move. The last component
lists the threads that the move starts. -/
structure System (σ π ε : Type*) where
  next : ℕ → ε → π → σ → Option (π × σ × List π)

/-- The shared memory and the local states of the threads, by thread number. -/
structure Config (σ π : Type*) where
  mem : σ
  threads : List π

section Step

variable {σ π ε : Type*} (S : System σ π ε)

/-- One move of the thread `a.1` with the choice `a.2`. Started threads are
numbered after the existing ones. -/
def System.step (c : Config σ π) (a : ℕ × ε) : Option (Config σ π) :=
  match c.threads[a.1]? with
  | none => none
  | some p =>
      (S.next a.1 a.2 p c.mem).map fun r =>
        ⟨r.2.1, c.threads.set a.1 r.1 ++ r.2.2⟩

/-- The moves of a list of actions, one after the other. -/
def System.run (S : System σ π ε) : Config σ π → List (ℕ × ε) → Option (Config σ π)
  | c, [] => some c
  | c, a :: as =>
      match S.step c a with
      | none => none
      | some c' => System.run S c' as

/-- What a successful step consists of: thread `a.1` goes from `p` to `p'` and
starts the threads `ns`. -/
structure System.Moves (c : Config σ π) (a : ℕ × ε) (c' : Config σ π)
    (p p' : π) (ns : List π) : Prop where
  thread : c.threads[a.1]? = some p
  next : S.next a.1 a.2 p c.mem = some (p', c'.mem, ns)
  threads : c'.threads = c.threads.set a.1 p' ++ ns

variable {S}

theorem System.exists_moves_of_step {c c' : Config σ π} {a : ℕ × ε}
    (h : S.step c a = some c') : ∃ p p' ns, S.Moves c a c' p p' ns := by
  unfold System.step at h
  cases hp : c.threads[a.1]? with
  | none => simp [hp] at h
  | some p =>
      simp only [hp, Option.map_eq_some_iff] at h
      obtain ⟨⟨p', m', ns⟩, hnext, rfl⟩ := h
      exact ⟨p, p', ns, hp, hnext, rfl⟩

theorem System.Moves.step_eq {c c' : Config σ π} {a : ℕ × ε} {p p' : π} {ns : List π}
    (h : S.Moves c a c' p p' ns) : S.step c a = some c' := by
  simp only [System.step, h.thread, h.next, Option.map_some, ← h.threads]

end Step

section Run

variable {σ π ε : Type*} {S : System σ π ε}

/-- The runs from `c₀` whose steps all meet the condition `C`, which sees the
configuration before the step and the action. -/
inductive System.Run (S : System σ π ε) (C : Config σ π → ℕ × ε → Prop)
    (c₀ : Config σ π) : List (ℕ × ε) → Config σ π → Prop
  | nil : Run S C c₀ [] c₀
  | snoc {as : List (ℕ × ε)} {c c' : Config σ π} {a : ℕ × ε} :
      Run S C c₀ as c → C c a → S.step c a = some c' → Run S C c₀ (as ++ [a]) c'

/-- The condition on steps that every step meets. -/
def Always : Config σ π → ℕ × ε → Prop := fun _ _ => True

/-- `c` is reached from `c₀` by some run. -/
def System.Reachable (S : System σ π ε) (c₀ c : Config σ π) : Prop :=
  ∃ as, S.Run Always c₀ as c

theorem System.Run.mono {C D : Config σ π → ℕ × ε → Prop} {c₀ c : Config σ π}
    {as : List (ℕ × ε)} (hCD : ∀ c a, C c a → D c a) (h : S.Run C c₀ as c) :
    S.Run D c₀ as c := by
  induction h with
  | nil => exact .nil
  | snoc _ hC hstep ih => exact .snoc ih (hCD _ _ hC) hstep

theorem System.Run.reachable {C : Config σ π → ℕ × ε → Prop} {c₀ c : Config σ π}
    {as : List (ℕ × ε)} (h : S.Run C c₀ as c) : S.Reachable c₀ c :=
  ⟨as, h.mono fun _ _ _ => trivial⟩

theorem System.Reachable.refl (c₀ : Config σ π) : S.Reachable c₀ c₀ :=
  ⟨[], .nil⟩

theorem System.Reachable.step {c₀ c c' : Config σ π} {a : ℕ × ε}
    (h : S.Reachable c₀ c) (hstep : S.step c a = some c') : S.Reachable c₀ c' := by
  obtain ⟨as, h⟩ := h
  exact ⟨as ++ [a], h.snoc trivial hstep⟩

theorem System.Run.append {C : Config σ π → ℕ × ε → Prop} {c₀ c c' : Config σ π}
    {as bs : List (ℕ × ε)} (h : S.Run C c₀ as c) (h' : S.Run C c bs c') :
    S.Run C c₀ (as ++ bs) c' := by
  induction h' with
  | nil => simpa using h
  | snoc _ hC hstep ih =>
      rw [← List.append_assoc]
      exact .snoc ih hC hstep

theorem System.Reachable.trans {c₀ c c' : Config σ π} (h : S.Reachable c₀ c)
    (h' : S.Reachable c c') : S.Reachable c₀ c' := by
  obtain ⟨as, h⟩ := h
  obtain ⟨bs, h'⟩ := h'
  exact ⟨as ++ bs, h.append h'⟩

/-- A run computed by `System.run` is a run. -/
theorem System.Run.of_run {c₀ c c' : Config σ π} {as bs : List (ℕ × ε)}
    (h : S.Run Always c₀ as c) (hrun : S.run c bs = some c') :
    S.Run Always c₀ (as ++ bs) c' := by
  induction bs generalizing as c with
  | nil =>
      cases hrun
      simpa using h
  | cons b bs ih =>
      cases hb : S.step c b with
      | none => simp [System.run, hb] at hrun
      | some d =>
          have hd := ih (h.snoc trivial hb) (by simpa [System.run, hb] using hrun)
          simpa using hd

theorem System.reachable_of_run {c₀ c : Config σ π} {as : List (ℕ × ε)}
    (hrun : S.run c₀ as = some c) : S.Reachable c₀ c :=
  ⟨[] ++ as, System.Run.of_run .nil hrun⟩

theorem System.run_concat {c c' c'' : Config σ π} {a : ℕ × ε} {as : List (ℕ × ε)}
    (hrun : S.run c as = some c') (hstep : S.step c' a = some c'') :
    S.run c (as ++ [a]) = some c'' := by
  induction as generalizing c with
  | nil =>
      cases hrun
      simp [System.run, hstep]
  | cons b bs ih =>
      cases hb : S.step c b with
      | none => simp [System.run, hb] at hrun
      | some d =>
          have hd := ih (by simpa [System.run, hb] using hrun)
          simpa [System.run, hb] using hd

/-- A run is determined by its actions. -/
theorem System.Run.run_eq {C : Config σ π → ℕ × ε → Prop} {c₀ c : Config σ π}
    {as : List (ℕ × ε)} (h : S.Run C c₀ as c) : S.run c₀ as = some c := by
  induction h with
  | nil => rfl
  | snoc _ _ hstep ih => exact System.run_concat ih hstep

/-- The last step of a run. -/
theorem System.Run.exists_last {C : Config σ π → ℕ × ε → Prop} {c₀ c' : Config σ π}
    {as : List (ℕ × ε)} {a : ℕ × ε} (h : S.Run C c₀ (as ++ [a]) c') :
    ∃ c, S.Run C c₀ as c ∧ C c a ∧ S.step c a = some c' := by
  generalize hbs : as ++ [a] = bs at h
  cases h with
  | nil => simp at hbs
  | snoc hr hC hstep =>
      obtain ⟨rfl, rfl⟩ := List.append_singleton_inj.mp hbs
      exact ⟨_, hr, hC, hstep⟩

/-- A run with one more step meets a condition when the run and the step do. -/
theorem System.Run.concat_iff {B C : Config σ π → ℕ × ε → Prop} {c₀ c c' : Config σ π}
    {as : List (ℕ × ε)} {a : ℕ × ε} (h : S.Run B c₀ as c) (hstep : S.step c a = some c') :
    S.Run C c₀ (as ++ [a]) c' ↔ S.Run C c₀ as c ∧ C c a := by
  constructor
  · intro hr
    obtain ⟨d, hd, hC, -⟩ := hr.exists_last
    obtain rfl := Option.some.inj (h.run_eq.symm.trans hd.run_eq)
    exact ⟨hd, hC⟩
  · rintro ⟨hr, hC⟩
    exact .snoc hr hC hstep

/-- The moves of a list of actions as long as they pass the test `ok`. -/
def System.runIf (S : System σ π ε) (ok : Config σ π → ℕ × ε → Bool) :
    Config σ π → List (ℕ × ε) → Option (Config σ π)
  | c, [] => some c
  | c, a :: as =>
      match ok c a, S.step c a with
      | true, some c' => System.runIf S ok c' as
      | _, _ => none

/-- A run computed by `System.runIf` is a run under any condition that the test
implies. -/
theorem System.Run.of_runIf {C : Config σ π → ℕ × ε → Prop}
    {ok : Config σ π → ℕ × ε → Bool} (hok : ∀ c a, ok c a = true → C c a)
    {c₀ c c' : Config σ π} {as bs : List (ℕ × ε)} (h : S.Run C c₀ as c)
    (hrun : S.runIf ok c bs = some c') : S.Run C c₀ (as ++ bs) c' := by
  induction bs generalizing as c with
  | nil =>
      cases hrun
      simpa using h
  | cons b bs ih =>
      simp only [System.runIf] at hrun
      split at hrun
      · rename_i d hb hd
        simpa using ih (h.snoc (hok c b hb) hd) hrun
      · cases hrun

/-- The invariant rule. The step may use what is already known of every state
of the run. -/
theorem System.Run.invariant {C : Config σ π → ℕ × ε → Prop} {c₀ c : Config σ π}
    {as : List (ℕ × ε)} (I : Config σ π → Prop) (h0 : I c₀)
    (hstep : ∀ c a c', S.Reachable c₀ c → C c a → I c → S.step c a = some c' → I c')
    (h : S.Run C c₀ as c) : I c := by
  induction h with
  | nil => exact h0
  | snoc hr hC hs ih => exact hstep _ _ _ hr.reachable hC ih hs

/-- An invariant of a run holds before each of its steps. -/
theorem System.Run.and_invariant {C : Config σ π → ℕ × ε → Prop} {c₀ c : Config σ π}
    {as : List (ℕ × ε)} (I : Config σ π → Prop) (h0 : I c₀)
    (hstep : ∀ c a c', S.Reachable c₀ c → C c a → I c → S.step c a = some c' → I c')
    (h : S.Run C c₀ as c) : S.Run (fun d a => C d a ∧ I d) c₀ as c := by
  induction h with
  | nil => exact .nil
  | snoc hr hC hs ih => exact .snoc ih ⟨hC, hr.invariant I h0 hstep⟩ hs

/-- The invariant rule for all runs. -/
theorem System.Reachable.invariant {c₀ c : Config σ π} (I : Config σ π → Prop)
    (h0 : I c₀)
    (hstep : ∀ c a c', S.Reachable c₀ c → I c → S.step c a = some c' → I c')
    (h : S.Reachable c₀ c) : I c := by
  obtain ⟨as, h⟩ := h
  exact h.invariant I h0 fun c a c' hr _ => hstep c a c' hr

end Run

section Threads

variable {σ π ε : Type*} {S : System σ π ε} {c c' : Config σ π} {a : ℕ × ε}
  {p p' : π} {ns : List π}

theorem System.Moves.lt (h : S.Moves c a c' p p' ns) : a.1 < c.threads.length :=
  (List.getElem?_eq_some_iff.mp h.thread).1

/-- The thread that moved. -/
theorem System.Moves.self (h : S.Moves c a c' p p' ns) :
    c'.threads[a.1]? = some p' := by
  have hlt := h.lt
  rw [h.threads, List.getElem?_append_left (by simpa using hlt)]
  simp [hlt]

/-- The threads that did not move. -/
theorem System.Moves.other (h : S.Moves c a c' p p' ns) {j : ℕ} {q : π}
    (hj : j ≠ a.1) (hq : c.threads[j]? = some q) : c'.threads[j]? = some q := by
  have hlt := (List.getElem?_eq_some_iff.mp hq).1
  rw [h.threads, List.getElem?_append_left (by simpa using hlt),
    List.getElem?_set_ne (Ne.symm hj)]
  exact hq

/-- A thread after the step is the thread that moved, an old one or a started
one. -/
theorem System.Moves.cases (h : S.Moves c a c' p p' ns) {j : ℕ} {q : π}
    (hq : c'.threads[j]? = some q) :
    (j = a.1 ∧ q = p') ∨ (j ≠ a.1 ∧ c.threads[j]? = some q) ∨
      (c.threads.length ≤ j ∧ q ∈ ns) := by
  rw [h.threads] at hq
  rcases Nat.lt_or_ge j c.threads.length with hlt | hge
  · rw [List.getElem?_append_left (by simpa using hlt)] at hq
    by_cases hj : j = a.1
    · subst hj
      rw [List.getElem?_set_self hlt] at hq
      exact .inl ⟨rfl, (Option.some.inj hq).symm⟩
    · rw [List.getElem?_set_ne (Ne.symm hj)] at hq
      exact .inr (.inl ⟨hj, hq⟩)
  · rw [List.getElem?_append_right (by simpa using hge)] at hq
    exact .inr (.inr ⟨hge, List.mem_of_getElem? hq⟩)

/-- A thread that did not move and was not started was there before. -/
theorem System.Moves.of_other (h : S.Moves c a c' p p' ns) {j : ℕ} {q : π}
    (hj : j ≠ a.1) (hq : c'.threads[j]? = some q) (hns : q ∉ ns) :
    c.threads[j]? = some q := by
  rcases h.cases hq with ⟨heq, -⟩ | ⟨-, hold⟩ | ⟨-, hmem⟩
  · exact absurd heq hj
  · exact hold
  · exact absurd hmem hns

/-- `φ` holds of every thread, given its number and the memory. -/
def Config.Each (φ : ℕ → π → σ → Prop) (c : Config σ π) : Prop :=
  ∀ i p, c.threads[i]? = some p → φ i p c.mem

theorem Config.each_of_forall_mem {φ : π → Prop} (h : ∀ p ∈ c.threads, φ p) :
    c.Each fun _ p _ => φ p :=
  fun _ p hp => h p (List.mem_of_getElem? hp)

/-- A check of one thread after the other. -/
instance Config.decidableEach (φ : ℕ → π → σ → Prop) [∀ i p m, Decidable (φ i p m)]
    (c : Config σ π) : Decidable (c.Each φ) :=
  decidable_of_iff (∀ r ∈ c.threads.zipIdx, φ r.2 r.1 c.mem) <| by
    simp only [Config.Each, List.mem_zipIdx_iff_getElem?, Prod.forall]
    exact forall_comm

/-- `φ` holds of some thread, given its number and the memory. -/
def Config.Any (φ : ℕ → π → σ → Prop) (c : Config σ π) : Prop :=
  ∃ i p, c.threads[i]? = some p ∧ φ i p c.mem

/-- A property of single threads is kept by a step when the moving thread
establishes it for itself, the step does not disturb it for the others, and the
started threads have it. -/
theorem Config.Each.of_moves {φ : ℕ → π → σ → Prop} (hc : c.Each φ)
    (h : S.Moves c a c' p p' ns) (hself : φ a.1 p c.mem → φ a.1 p' c'.mem)
    (hother : ∀ j q, j ≠ a.1 → c.threads[j]? = some q → φ j q c.mem → φ j q c'.mem)
    (hnew : ∀ j q, c.threads.length ≤ j → q ∈ ns → φ j q c'.mem) : c'.Each φ := by
  intro j q hq
  rcases h.cases hq with ⟨rfl, rfl⟩ | ⟨hj, hq⟩ | ⟨hj, hq⟩
  · exact hself (hc _ _ h.thread)
  · exact hother j q hj hq (hc j q hq)
  · exact hnew j q hj hq

/-- A thread with `φ` is still there after a step unless it is the moving
thread or the step disturbs `φ`. -/
theorem Config.Any.of_moves {φ : ℕ → π → σ → Prop} (hc : c.Any φ)
    (h : S.Moves c a c' p p' ns)
    (hself : φ a.1 p c.mem → c'.Any φ)
    (hother : ∀ j q, j ≠ a.1 → c.threads[j]? = some q → φ j q c.mem → φ j q c'.mem) :
    c'.Any φ := by
  obtain ⟨j, q, hq, hφ⟩ := hc
  by_cases hj : j = a.1
  · subst hj
    obtain rfl : p = q := Option.some.inj (h.thread.symm.trans hq)
    exact hself hφ
  · exact ⟨j, q, h.other hj hq, hother j q hj hq hφ⟩

/-- A thread stays as it is as long as the others move. -/
theorem System.Run.thread_eq {c c' : Config σ π} {i : ℕ} {bs : List (ℕ × ε)}
    (h : S.Run (fun _ b => b.1 ≠ i) c bs c') (hp : c.threads[i]? = some p) :
    c'.threads[i]? = some p := by
  refine h.invariant (fun d => d.threads[i]? = some p) hp fun d b d' _ hb hd hstep => ?_
  obtain ⟨q, q', ns, hmoves⟩ := System.exists_moves_of_step hstep
  exact hmoves.other (Ne.symm hb) hd

/-- The moving thread has `φ` after the step. -/
theorem System.Moves.any_self {φ : ℕ → π → σ → Prop} (h : S.Moves c a c' p p' ns)
    (hφ : φ a.1 p' c'.mem) : c'.Any φ :=
  ⟨a.1, p', h.self, hφ⟩

end Threads

section Sum

variable {σ π ε M : Type*} [AddCommMonoid M] {S : System σ π ε}
  {c c' : Config σ π} {a : ℕ × ε} {p p' : π} {ns : List π}

/-- The sum of `w` over the threads. -/
def Config.sum (w : π → M) (c : Config σ π) : M := (c.threads.map w).sum

/-- Replacing one summand of a list. -/
theorem sum_map_set_add (w : π → M) (l : List π) {i : ℕ} (q : π)
    (hp : l[i]? = some p) :
    ((l.set i q).map w).sum + w p = (l.map w).sum + w q := by
  induction l generalizing i with
  | nil => simp at hp
  | cons b l ih =>
      cases i with
      | zero =>
          obtain rfl : b = p := by simpa using hp
          simp only [List.set_cons_zero, List.map_cons, List.sum_cons]
          rw [add_comm (w q), add_comm (w b), add_assoc, add_assoc,
            add_comm (w q)]
      | succ i =>
          have hl := ih (i := i) (by simpa using hp)
          simp only [List.set_cons_succ, List.map_cons, List.sum_cons]
          rw [add_assoc, hl, add_assoc]

/-- How a sum over the threads changes in a step. -/
theorem System.Moves.sum (h : S.Moves c a c' p p' ns) (w : π → M) :
    c'.sum w + w p = c.sum w + w p' + (ns.map w).sum := by
  have hset := sum_map_set_add w c.threads p' h.thread
  simp only [Config.sum, h.threads, List.map_append, List.sum_append]
  rw [add_right_comm, hset]

/-- The sum when the started threads weigh nothing. -/
theorem System.Moves.sum_of_new_eq_zero (h : S.Moves c a c' p p' ns) (w : π → M)
    (hns : ∀ q ∈ ns, w q = 0) : c'.sum w + w p = c.sum w + w p' := by
  have hzero : (ns.map w).sum = 0 := by
    apply List.sum_eq_zero
    intro x hx
    obtain ⟨q, hq, rfl⟩ := List.mem_map.mp hx
    exact hns q hq
  rw [h.sum w, hzero, add_zero]

theorem Config.sum_eq_zero_of_each (w : π → M) (c : Config σ π)
    (h : ∀ q ∈ c.threads, w q = 0) : c.sum w = 0 := by
  apply List.sum_eq_zero
  intro x hx
  obtain ⟨q, hq, rfl⟩ := List.mem_map.mp hx
  exact h q hq

end Sum

theorem Config.Each.sum_eq_zero {σ π M : Type*} [AddCommMonoid M] {c : Config σ π}
    {φ : ℕ → π → σ → Prop} {w : π → M} (h : c.Each φ)
    (hw : ∀ i p, φ i p c.mem → w p = 0) : c.sum w = 0 := by
  refine c.sum_eq_zero_of_each w fun q hq => ?_
  obtain ⟨i, hi⟩ := List.mem_iff_getElem?.mp hq
  exact hw i q (h i q hi)

section Order

variable {σ π : Type*} {c : Config σ π} {i : ℕ} {p : π}

/-- One summand is at most the sum. -/
theorem Config.le_sum {M : Type*} [AddCommMonoid M] [PartialOrder M]
    [IsOrderedAddMonoid M] [CanonicallyOrderedAdd M] (w : π → M)
    (hp : c.threads[i]? = some p) : w p ≤ c.sum w :=
  List.single_le_sum (fun _ _ => zero_le) _
    (List.mem_map.mpr ⟨p, List.mem_of_getElem? hp, rfl⟩)

/-- Two summands are at most the sum. -/
theorem Config.add_le_sum (w : π → ℕ) {j : ℕ} {q : π} (hij : i ≠ j)
    (hp : c.threads[i]? = some p) (hq : c.threads[j]? = some q) : w p + w q ≤ c.sum w := by
  unfold Config.sum
  generalize c.threads = l at hp hq
  have hone : ∀ {l : List π} {k : ℕ} {r : π}, l[k]? = some r → w r ≤ (l.map w).sum :=
    fun h => List.single_le_sum (fun _ _ => Nat.zero_le _) _
      (List.mem_map.mpr ⟨_, List.mem_of_getElem? h, rfl⟩)
  induction l generalizing i j with
  | nil => simp at hp
  | cons r l ih =>
      rw [List.map_cons, List.sum_cons]
      cases i with
      | zero =>
          cases j with
          | zero => exact absurd rfl hij
          | succ j =>
              obtain rfl : r = p := by simpa using hp
              exact Nat.add_le_add_left (hone (by simpa using hq)) _
      | succ i =>
          cases j with
          | zero =>
              obtain rfl : r = q := by simpa using hq
              rw [Nat.add_comm (w p)]
              exact Nat.add_le_add_left (hone (by simpa using hp)) _
          | succ j =>
              refine (ih (fun h => hij (congrArg Nat.succ h)) ?_ ?_).trans (Nat.le_add_left _ _)
              · simpa using hp
              · simpa using hq

theorem Config.eq_zero_of_sum_eq_zero (c : Config σ π) (w : π → ℕ) (h : c.sum w = 0)
    (hp : c.threads[i]? = some p) : w p = 0 :=
  Nat.le_zero.mp (h ▸ c.le_sum w hp)

/-- A positive sum has a positive summand. -/
theorem Config.exists_of_sum_pos (c : Config σ π) (w : π → ℕ) (h : 0 < c.sum w) :
    ∃ (i : ℕ) (p : π), c.threads[i]? = some p ∧ 0 < w p := by
  by_contra hno
  refine absurd (c.sum_eq_zero_of_each w ?_) (Nat.ne_of_gt h)
  intro q hq
  obtain ⟨i, hi⟩ := List.mem_iff_getElem?.mp hq
  by_contra hne
  exact hno ⟨i, q, hi, Nat.pos_of_ne_zero hne⟩

end Order

end Interleaving
