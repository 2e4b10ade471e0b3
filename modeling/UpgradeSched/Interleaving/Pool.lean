import Mathlib.Data.Multiset.AddSub
import Mathlib.Data.Multiset.UnionInter
import UpgradeSched.Interleaving.Refinement

/-!
# A pool of tasks

What a task scheduler is for, without queues, locks or sleeping: tasks are submitted,
each one is taken by one worker, and a worker that has taken a task passes the phases
of its life with it before it takes the next one. At most `limit` tasks are outstanding
at a time; a task is outstanding until it passes the phase `frees`.
-/

namespace Interleaving

/-- The phases that a taken task passes, in an order that never returns. -/
structure Lifecycle (τ κ : Type*) where
  first : κ
  next : τ → κ → Option κ
  frees : κ
  rank : κ → ℕ
  rank_next : ∀ {t k k'}, next t k = some k' → rank k < rank k'

/-- The tasks that nobody has taken, the task in the hand of each worker with the phase it
has still to pass, the tasks submitted so far, and the number of outstanding tasks. -/
structure Pool (τ κ : Type*) where
  pending : Multiset τ
  hand : ℕ → Option (τ × κ)
  seen : List τ
  outstanding : ℕ

/-- What is visible of a pool. -/
inductive Pool.Move (τ κ : Type*)
  | submit (t : τ)
  | take (w : ℕ) (t : τ)
  | pass (k : κ) (t : τ)
  deriving DecidableEq

namespace Pool

def Move.isSubmit {τ κ : Type*} : Move τ κ → Bool
  | .submit _ => true
  | _ => false

def Move.isPass {τ κ : Type*} [DecidableEq κ] (k : κ) : Move τ κ → Bool
  | .pass k' _ => k' = k
  | _ => false

section Steps

variable {τ κ : Type*} [DecidableEq τ] [DecidableEq κ]

inductive Step (L : Lifecycle τ κ) (limit : ℕ) : Pool τ κ → Move τ κ → Pool τ κ → Prop
  | submit (pool : Pool τ κ) (t : τ) (hnew : t ∉ pool.seen)
      (hlimit : limit = 0 ∨ pool.outstanding < limit) :
      Step L limit pool (.submit t)
        { pool with
          pending := t ::ₘ pool.pending
          seen := pool.seen ++ [t]
          outstanding := pool.outstanding + 1 }
  | take (pool : Pool τ κ) (w : ℕ) (t : τ) (hfree : pool.hand w = none)
      (ht : t ∈ pool.pending) :
      Step L limit pool (.take w t)
        { pool with
          pending := pool.pending.erase t
          hand := Function.update pool.hand w (some (t, L.first)) }
  | pass (pool : Pool τ κ) (w n : ℕ) (t : τ) (k : κ) (hhand : pool.hand w = some (t, k))
      (hn : n + (if k = L.frees then 1 else 0) = pool.outstanding) :
      Step L limit pool (.pass k t)
        { pool with
          hand := Function.update pool.hand w ((L.next t k).map (t, ·))
          outstanding := n }

/-- The pool as a specification. -/
def spec (L : Lifecycle τ κ) (limit : ℕ) : Spec (Pool τ κ) (Move τ κ) :=
  ⟨⟨0, fun _ => none, [], 0⟩, Step L limit⟩

end Steps

/-! ## The order of the moves -/

/-- The moves of a pool say where each task is and what it has been through. -/
structure Sound {τ κ : Type*} (L : Lifecycle τ κ) (ls : List (Move τ κ)) (pool : Pool τ κ) :
    Prop where
  nodup : ls.Nodup
  seen : ∀ t, t ∈ pool.seen ↔ .submit t ∈ ls
  pending : pool.pending.Nodup ∧
    ∀ t ∈ pool.pending, .submit t ∈ ls ∧ ∀ w, .take w t ∉ ls
  taken : ∀ w t, .take w t ∈ ls → .submit t ∈ ls ∧
    (∀ w', .take w' t ∈ ls → w' = w) ∧
    ((∃ k, pool.hand w = some (t, k)) ∨ ∃ k, L.next t k = none ∧ .pass k t ∈ ls)
  hand : ∀ w t k, pool.hand w = some (t, k) → .take w t ∈ ls ∧
    (∀ k', .pass k' t ∈ ls → L.rank k' < L.rank k) ∧
    (k = L.first ∨ ∃ k', L.next t k' = some k ∧ .pass k' t ∈ ls)
  passed : ∀ k t, .pass k t ∈ ls → (∃ w, .take w t ∈ ls) ∧
    (k = L.first ∨ ∃ k', L.next t k' = some k ∧ .pass k' t ∈ ls)

section Sound

variable {τ κ : Type*} {L : Lifecycle τ κ} {ls : List (Move τ κ)} {pool : Pool τ κ} {t : τ}
  {w : ℕ} {k : κ}

theorem Sound.nodup_concat (h : Sound L ls pool) {l : Move τ κ} (hnot : l ∉ ls) :
    (ls ++ [l]).Nodup := by
  rw [← List.concat_eq_append]
  exact (List.nodup_concat ls l).mpr ⟨hnot, h.nodup⟩

theorem Sound.not_taken_of_not_seen (h : Sound L ls pool) (hnew : t ∉ pool.seen) (w : ℕ) :
    .take w t ∉ ls :=
  fun hmem => hnew ((h.seen t).mpr (h.taken w t hmem).1)

theorem Sound.not_passed_of_not_taken (h : Sound L ls pool) (hnot : ∀ w, .take w t ∉ ls)
    (k : κ) : .pass k t ∉ ls := by
  intro hmem
  obtain ⟨⟨w, hw⟩, -⟩ := h.passed k t hmem
  exact hnot w hw

theorem Sound.submit (h : Sound L ls pool) (hnew : t ∉ pool.seen) (n : ℕ) :
    Sound L (ls ++ [.submit t])
      { pool with
        pending := t ::ₘ pool.pending
        seen := pool.seen ++ [t]
        outstanding := n } := by
  have hnot : Move.submit t ∉ ls := fun hmem => hnew ((h.seen t).mpr hmem)
  have htake := h.not_taken_of_not_seen hnew
  have hpending : t ∉ pool.pending := fun hmem => hnot (h.pending.2 t hmem).1
  refine ⟨?_, fun t' => ?_, ⟨?_, fun t' hmem => ?_⟩, fun w t' hmem => ?_,
    fun w t' k hhand => ?_, fun k t' hmem => ?_⟩
  · exact h.nodup_concat hnot
  · simp [h.seen t']
  · exact Multiset.nodup_cons.mpr ⟨hpending, h.pending.1⟩
  · rcases Multiset.mem_cons.mp hmem with rfl | hmem
    · simpa using htake
    · simpa using ⟨.inl (h.pending.2 t' hmem).1, (h.pending.2 t' hmem).2⟩
  · have htaken := h.taken w t' (by simpa using hmem)
    simpa using ⟨.inl htaken.1, htaken.2⟩
  · simpa using h.hand w t' k hhand
  · simpa using h.passed k t' (by simpa using hmem)

theorem Sound.take [DecidableEq τ] (h : Sound L ls pool) (hfree : pool.hand w = none)
    (ht : t ∈ pool.pending) :
    Sound L (ls ++ [.take w t])
      { pool with
        pending := pool.pending.erase t
        hand := Function.update pool.hand w (some (t, L.first)) } := by
  obtain ⟨hsubmit, hnot⟩ := h.pending.2 t ht
  have hpass := h.not_passed_of_not_taken hnot
  refine ⟨?_, fun t' => by simp [h.seen t'], ⟨h.pending.1.erase t, fun t' hmem => ?_⟩,
    fun w' t' hmem => ?_, fun w' t' k hhand => ?_, fun k t' hmem => ?_⟩
  · exact h.nodup_concat (hnot w)
  · obtain ⟨hne, hmem⟩ := h.pending.1.mem_erase_iff.mp hmem
    simpa [hne] using h.pending.2 t' hmem
  · rcases List.mem_append.mp hmem with hold | hmem
    · obtain ⟨hsub, hone, hwhere⟩ := h.taken w' t' hold
      have hne : t' ≠ t := by
        rintro rfl
        exact hnot w' hold
      refine ⟨by simp [hsub], fun v hv => hone v (by simpa [hne] using hv), ?_⟩
      refine hwhere.imp (fun hhand => ?_) fun hgone => by simpa using hgone
      obtain ⟨k, hk⟩ := hhand
      have hw : w' ≠ w := by
        rintro rfl
        simp [hfree] at hk
      exact ⟨k, by simpa [hw] using hk⟩
    · obtain ⟨rfl, rfl⟩ : w' = w ∧ t' = t := by simpa using hmem
      exact ⟨by simp [hsubmit], fun v hv => by simpa [hnot v] using hv,
        .inl ⟨L.first, by simp⟩⟩
  · by_cases hw : w' = w
    · subst hw
      obtain ⟨rfl, rfl⟩ : t = t' ∧ L.first = k := by simpa using hhand
      exact ⟨by simp, fun k' hk' => absurd (by simpa using hk') (hpass k'), .inl rfl⟩
    · have hold := h.hand w' t' k (by simpa [hw] using hhand)
      exact ⟨by simp [hold.1], fun k' hk' => hold.2.1 k' (by simpa using hk'),
        by simpa using hold.2.2⟩
  · simpa using (h.passed k t' (by simpa using hmem)).imp_left fun ⟨v, hv⟩ => ⟨v, .inl hv⟩

theorem Sound.pass (h : Sound L ls pool) (hhand : pool.hand w = some (t, k)) (n : ℕ) :
    Sound L (ls ++ [.pass k t])
      { pool with
        hand := Function.update pool.hand w ((L.next t k).map (t, ·))
        outstanding := n } := by
  obtain ⟨htake, hbelow, hfrom⟩ := h.hand w t k hhand
  have hnot : Move.pass k t ∉ ls := fun hmem => (hbelow k hmem).false
  -- nobody else has the task in hand
  have hone : ∀ w' k', pool.hand w' = some (t, k') → w' = w := fun w' k' hhand' =>
    (h.taken w t htake).2.1 w' (h.hand w' t k' hhand').1
  refine ⟨?_, fun t' => by simp [h.seen t'], ⟨h.pending.1, fun t' hmem => ?_⟩,
    fun w' t' hmem => ?_, fun w' t' k' hhand' => ?_, fun k' t' hmem => ?_⟩
  · exact h.nodup_concat hnot
  · simpa using h.pending.2 t' hmem
  · obtain ⟨hsub, hunique, hwhere⟩ := h.taken w' t' (by simpa using hmem)
    refine ⟨by simp [hsub], fun v hv => hunique v (by simpa using hv), ?_⟩
    rcases hwhere with ⟨k', hk'⟩ | ⟨k', hend, hk'⟩
    · by_cases hw : w' = w
      · subst hw
        obtain ⟨rfl, rfl⟩ : t = t' ∧ k = k' := by simpa [hhand] using hk'
        cases hnext : L.next t k with
        | none => exact .inr ⟨k, hnext, by simp⟩
        | some k' => exact .inl ⟨k', by simp⟩
      · exact .inl ⟨k', by simpa [hw] using hk'⟩
    · exact .inr ⟨k', hend, by simp [hk']⟩
  · by_cases hw : w' = w
    · subst hw
      obtain ⟨hnext, rfl⟩ : L.next t k = some k' ∧ t = t' := by simpa using hhand'
      refine ⟨by simp [htake], fun k'' hk'' => ?_, .inr ⟨k, hnext, by simp⟩⟩
      rcases List.mem_append.mp hk'' with hk'' | hk''
      · exact (hbelow k'' hk'').trans (L.rank_next hnext)
      · obtain rfl : k'' = k := by simpa using hk''
        exact L.rank_next hnext
    · have hold := h.hand w' t' k' (by simpa [hw] using hhand')
      have hne : t' ≠ t := by
        rintro rfl
        exact hw (hone w' k' (by simpa [hw] using hhand'))
      refine ⟨by simp [hold.1], fun k'' hk'' => hold.2.1 k'' (by simpa [hne] using hk''), ?_⟩
      exact hold.2.2.imp_right fun ⟨k'', hnext, hk''⟩ => ⟨k'', hnext, by simp [hk'']⟩
  · rcases List.mem_append.mp hmem with hmem | hmem
    · obtain ⟨⟨v, hv⟩, hchain⟩ := h.passed k' t' hmem
      exact ⟨⟨v, by simp [hv]⟩,
        hchain.imp_right fun ⟨k'', hnext, hk''⟩ => ⟨k'', hnext, by simp [hk'']⟩⟩
    · obtain ⟨rfl, rfl⟩ : k' = k ∧ t' = t := by simpa using hmem
      exact ⟨⟨w, by simp [htake]⟩,
        hfrom.imp_right fun ⟨k'', hnext, hk''⟩ => ⟨k'', hnext, by simp [hk'']⟩⟩

end Sound

section Trace

variable {τ κ : Type*} [DecidableEq τ] [DecidableEq κ] {L : Lifecycle τ κ} {limit : ℕ}
  {ls ls₁ ls₂ : List (Move τ κ)} {pool : Pool τ κ}

theorem sound_of_trace (h : (spec L limit).Trace ls pool) : Sound L ls pool := by
  refine h.invariant (Sound L) ?_ fun ls pool l pool' hs hl => ?_
  · exact ⟨List.nodup_nil, by simp [spec], ⟨Multiset.nodup_zero, by simp [spec]⟩, by simp,
      by simp [spec], by simp⟩
  · cases hl with
    | submit t hnew => exact hs.submit hnew _
    | take w t hfree ht => exact hs.take hfree ht
    | pass w n t k hhand hn => exact hs.pass hhand n

/-- The submitted tasks that have not passed the phase `frees` are outstanding. -/
theorem outstanding_of_trace (h : (spec L limit).Trace ls pool) :
    pool.outstanding + ls.countP (Move.isPass L.frees) = ls.countP Move.isSubmit := by
  refine h.invariant (fun ls pool => pool.outstanding + ls.countP (Move.isPass L.frees) =
    ls.countP Move.isSubmit) rfl fun ls pool l pool' hs hl => ?_
  cases hl with
  | submit t hnew hlimit => simp [Move.isSubmit, Move.isPass, ← hs, Nat.add_right_comm]
  | take w t hfree ht => simpa [Move.isSubmit, Move.isPass] using hs
  | pass w n t k hhand hn =>
      rw [← hn] at hs
      simp only [List.countP_append, List.countP_singleton, Move.isSubmit, Move.isPass,
        decide_eq_true_eq, Bool.false_eq_true, if_false, add_zero]
      omega

/-- What has to come before a move. -/
def Follows (L : Lifecycle τ κ) (limit : ℕ) (ls : List (Move τ κ)) : Move τ κ → Prop
  | .submit _ => limit ≠ 0 →
      ls.countP Move.isSubmit < limit + ls.countP (Move.isPass L.frees)
  | .take w t => .submit t ∈ ls ∧ (∀ w', .take w' t ∉ ls) ∧
      ∀ t', .take w t' ∈ ls → ∃ k, L.next t' k = none ∧ .pass k t' ∈ ls
  | .pass k t => (∃ w, .take w t ∈ ls) ∧
      (k = L.first ∨ ∃ k', L.next t k' = some k ∧ .pass k' t ∈ ls) ∧
      ∀ k', .pass k' t ∈ ls → L.rank k' < L.rank k

/-- A move of a pool happens once and after the moves it follows. -/
theorem follows_of_trace {l : Move τ κ} (h : (spec L limit).Trace (ls₁ ++ l :: ls₂) pool) :
    l ∉ ls₁ ∧ Follows L limit ls₁ l := by
  have hnodup := (sound_of_trace h).nodup
  refine ⟨fun hmem => ?_, ?_⟩
  · exact (List.nodup_append.mp hnodup).2.2 l hmem l (by simp) rfl
  · obtain ⟨pool₁, pool₂, htrace, hl⟩ := h.exists_step
    have hs := sound_of_trace htrace
    cases hl with
    | submit t hnew hlimit =>
        intro hne
        have hcount := outstanding_of_trace htrace
        have hlt := hlimit.resolve_left hne
        omega
    | take w t hfree ht =>
        obtain ⟨hsubmit, hnot⟩ := hs.pending.2 t ht
        refine ⟨hsubmit, hnot, fun t' hmem => (hs.taken w t' hmem).2.2.resolve_left ?_⟩
        rintro ⟨k, hk⟩
        simp [hfree] at hk
    | pass w n t k hhand hn =>
        obtain ⟨htake, hbelow, hfrom⟩ := hs.hand w t k hhand
        exact ⟨⟨w, htake⟩, hfrom, hbelow⟩

end Trace

end Pool

end Interleaving
