import Mathlib.Algebra.BigOperators.Group.Finset.Basic
import Mathlib.Algebra.Order.BigOperators.Group.Finset
import UpgradeSched.Interleaving.System

/-!
# Measures

How often one thread moves in a run is bounded by a measure that its moves bring down and
the moves of the other threads do not raise. When others can get in the way, so that the
thread has to repeat a step, the measure goes up again: `System.tally` counts the steps of
a run that a test singles out, and `System.Run.count_add_le_tally` charges to each of them
what it adds to the measure.

How often all threads move together is bounded by a potential that every step brings down,
but for the steps that are paid for: `System.Run.length_add_le`. The potential has two
levels, `rating`: a step that brings the high level down may raise the low level as far
as it goes.
-/

namespace Interleaving

section Tally

variable {σ π ε : Type*} (S : System σ π ε) (spoils : Config σ π → ℕ × ε → Config σ π → Bool)

/-- The number of steps that pass the test, which sees the configurations before and after
the step and the action. -/
def System.tally : Config σ π → List (ℕ × ε) → ℕ
  | _, [] => 0
  | c, a :: as =>
      match S.step c a with
      | none => 0
      | some c' => (spoils c a c').toNat + System.tally c' as

variable {S spoils}

theorem System.tally_concat {c d d' : Config σ π} {a : ℕ × ε} {as : List (ℕ × ε)}
    (hrun : S.run c as = some d) (hstep : S.step d a = some d') :
    S.tally spoils c (as ++ [a]) = S.tally spoils c as + (spoils d a d').toNat := by
  induction as generalizing c with
  | nil =>
      cases hrun
      simp [System.tally, hstep]
  | cons b bs ih =>
      cases hb : S.step c b with
      | none => simp [System.run, hb] at hrun
      | some e =>
          have he := ih (by simpa [System.run, hb] using hrun)
          simp [System.tally, hb, he, Nat.add_assoc]

theorem System.tally_eq_zero (h : ∀ c a c', spoils c a c' = false) (c : Config σ π)
    (as : List (ℕ × ε)) : S.tally spoils c as = 0 := by
  induction as generalizing c with
  | nil => rfl
  | cons a as ih =>
      unfold System.tally
      cases S.step c a with
      | none => rfl
      | some c' => simp [h, ih]

end Tally

section Measure

variable {σ π ε : Type*} {S : System σ π ε} {spoils : Config σ π → ℕ × ε → Config σ π → Bool}
  {C : Config σ π → ℕ × ε → Prop} {c c' : Config σ π} {as : List (ℕ × ε)}

/-- How often a thread moves in a run when its moves bring a measure down and those of the
other threads do not raise it, but for the steps that pass the test, each of which may add
one to the measure. -/
theorem System.Run.count_add_le_tally (i : ℕ) (f : Config σ π → ℕ)
    (hself : ∀ d a d', S.Reachable c d → C d a → S.step d a = some d' → a.1 = i →
      f d' < f d + (spoils d a d').toNat)
    (hother : ∀ d a d', S.Reachable c d → C d a → S.step d a = some d' → a.1 ≠ i →
      f d' ≤ f d + (spoils d a d').toNat)
    (h : S.Run C c as c') :
    as.countP (fun a => decide (a.1 = i)) + f c' ≤ f c + S.tally spoils c as := by
  induction h with
  | nil => simp
  | snoc hr hC hstep ih =>
      rename_i bs d d' a
      rw [List.countP_append, List.countP_singleton, System.tally_concat hr.run_eq hstep]
      by_cases hi : a.1 = i
      · have hlt := hself d a d' hr.reachable hC hstep hi
        simp only [hi, decide_true, if_true]
        omega
      · have hle := hother d a d' hr.reachable hC hstep hi
        simp only [hi, decide_false, Bool.false_eq_true, if_false]
        omega

/-- The rule for a thread that nobody gets in the way of. -/
theorem System.Run.count_add_le (i : ℕ) (f : Config σ π → ℕ)
    (hself : ∀ d a d', S.Reachable c d → C d a → S.step d a = some d' → a.1 = i → f d' < f d)
    (hother : ∀ d a d', S.Reachable c d → C d a → S.step d a = some d' → a.1 ≠ i →
      f d' ≤ f d)
    (h : S.Run C c as c') : as.countP (fun a => decide (a.1 = i)) + f c' ≤ f c := by
  have hle : as.countP (fun a => decide (a.1 = i)) + f c' ≤
      f c + S.tally (fun _ _ _ => false) c as :=
    h.count_add_le_tally i f hself hother
  rwa [System.tally_eq_zero fun _ _ _ => rfl] at hle

/-- A thread that makes enough steps of its own reaches its goal. Until then `inv n` holds for
some `n`, which its own steps bring down and the steps of the others keep. -/
theorem System.Run.goal_or_count_add_le (i : ℕ) (goal : Config σ π → Prop)
    (inv : ℕ → Config σ π → Prop)
    (hgoal : ∀ d a d', S.Reachable c d → S.step d a = some d' → goal d → goal d')
    (hself : ∀ n d a d', S.Reachable c d → S.step d a = some d' → a.1 = i → inv n d →
      goal d' ∨ ∃ m < n, inv m d')
    (hother : ∀ n d a d', S.Reachable c d → S.step d a = some d' → a.1 ≠ i → inv n d →
      inv n d')
    {n : ℕ} (hc : inv n c) (h : S.Run C c as c') :
    goal c' ∨ ∃ m, inv m c' ∧ as.countP (fun a => decide (a.1 = i)) + m ≤ n := by
  induction h with
  | nil => exact .inr ⟨n, hc, by simp⟩
  | snoc hr hC hstep ih =>
      rename_i bs d d' a
      have hd := hr.reachable
      rcases ih with hd' | ⟨m, hm, hle⟩
      · exact .inl (hgoal d a d' hd hstep hd')
      · rw [List.countP_append, List.countP_singleton]
        by_cases hi : a.1 = i
        · rcases hself m d a d' hd hstep hi hm with hd' | ⟨k, hk, hinv⟩
          · exact .inl hd'
          · refine .inr ⟨k, hinv, ?_⟩
            simp only [hi, decide_true, if_true]
            omega
        · refine .inr ⟨m, hother m d a d' hd hstep hi hm, ?_⟩
          simpa [hi] using hle

end Measure

/-! ## All threads -/

section Total

variable {σ π ε : Type*} {S : System σ π ε} {w : ℕ → π → σ → ℕ} {c c' : Config σ π}
  {a : ℕ × ε} {p p' : π} {ns : List π}

/-- The sum over the threads of a weight that sees the number of the thread and the
memory. -/
def Config.total (w : ℕ → π → σ → ℕ) (c : Config σ π) : ℕ :=
  ∑ i ∈ Finset.range c.threads.length, (c.threads[i]?).elim 0 fun p => w i p c.mem

theorem Config.total_le {k : ℕ} (h : c.Each fun i p m => w i p m ≤ k) :
    c.total w ≤ c.threads.length * k := by
  have hle := Finset.sum_le_card_nsmul (Finset.range c.threads.length)
    (fun i => (c.threads[i]?).elim 0 fun p => w i p c.mem) k fun i _ => ?_
  · simpa [Config.total] using hle
  cases hi : c.threads[i]? with
  | none => exact Nat.zero_le k
  | some q => exact h i q hi

/-- One summand is at most the sum. -/
theorem Config.le_total (c : Config σ π) (w : ℕ → π → σ → ℕ) {i : ℕ}
    (hp : c.threads[i]? = some p) : w i p c.mem ≤ c.total w := by
  have hi : i ∈ Finset.range c.threads.length :=
    Finset.mem_range.mpr (List.getElem?_eq_some_iff.mp hp).1
  have hle := Finset.single_le_sum
    (f := fun i => (c.threads[i]?).elim 0 fun p => w i p c.mem) (fun _ _ => Nat.zero_le _) hi
  simpa [hp, Config.total] using hle

/-- A step that raises the weight of no other thread, and whose new threads weigh nothing. -/
theorem System.Moves.total_add_le (h : S.Moves c a c' p p' ns)
    (hother : ∀ j q, j ≠ a.1 → c.threads[j]? = some q → w j q c'.mem ≤ w j q c.mem)
    (hnew : ∀ j q, q ∈ ns → w j q c'.mem = 0) :
    c'.total w + w a.1 p c.mem ≤ c.total w + w a.1 p' c'.mem := by
  have hmem : a.1 ∈ Finset.range c.threads.length := Finset.mem_range.mpr h.lt
  have hlength : c'.threads.length = c.threads.length + ns.length := by simp [h.threads]
  have hstarted : ∀ i ∈ Finset.range ns.length,
      (c'.threads[c.threads.length + i]?).elim 0 (fun q => w (c.threads.length + i) q c'.mem) =
        0 := by
    intro i hi
    cases hq : c'.threads[c.threads.length + i]? with
    | none => rfl
    | some q =>
        rcases h.cases hq with ⟨heq, -⟩ | ⟨-, hold⟩ | ⟨-, hns⟩
        · exact absurd (heq ▸ h.lt) (Nat.not_lt.mpr (Nat.le_add_right _ _))
        · simp at hold
        · exact hnew _ q hns
  have hrest : ∀ i ∈ (Finset.range c.threads.length).erase a.1,
      (c'.threads[i]?).elim 0 (fun q => w i q c'.mem) ≤
        (c.threads[i]?).elim 0 fun q => w i q c.mem := by
    intro i hi
    obtain ⟨hne, hlt⟩ := Finset.mem_erase.mp hi
    cases hq : c.threads[i]? with
    | none => simp [Finset.mem_range.mp hlt] at hq
    | some q =>
        rw [h.other hne hq]
        exact hother i q hne hq
  have hle := Finset.sum_le_sum hrest
  rw [Config.total, Config.total, hlength, Finset.sum_range_add, Finset.sum_eq_zero hstarted,
    ← Finset.add_sum_erase _ _ hmem, ← Finset.add_sum_erase _ _ hmem, h.self, h.thread]
  simp only [Option.elim_some]
  omega

end Total

section Run

variable {σ π ε : Type*} {S : System σ π ε} {C : Config σ π → ℕ × ε → Prop}
  {c c' : Config σ π} {as : List (ℕ × ε)}

/-- The length of a run is bounded by a potential that every step brings down, but for what
is paid in: a rate for each action that passes the test, and the growth of an income. -/
theorem System.Run.length_add_le (f income : Config σ π → ℕ) (test : ℕ × ε → Bool) (rate : ℕ)
    (hstep : ∀ d a d', S.Reachable c d → C d a → S.step d a = some d' →
      f d' + 1 + income d ≤ f d + income d' + (test a).toNat * rate)
    (h : S.Run C c as c') :
    as.length + f c' + income c ≤ f c + income c' + as.countP test * rate := by
  induction h with
  | nil => simp
  | snoc hr hC hs ih =>
      rename_i bs d d' a
      have hle := hstep d a d' hr.reachable hC hs
      have hcount : (bs ++ [a]).countP test * rate =
          bs.countP test * rate + (test a).toNat * rate := by
        rw [List.countP_append, List.countP_singleton, Nat.add_mul]
        cases test a <;> rfl
      rw [hcount, List.length_append, List.length_singleton]
      omega

/-- When the runs from `c` are bounded in length, each of them can be continued until no step
is possible. -/
theorem System.Run.exists_final {bound : ℕ}
    (hbound : ∀ bs d, S.Run C c bs d → bs.length ≤ bound) {bs : List (ℕ × ε)} {d : Config σ π}
    (h : S.Run C c bs d) :
    ∃ cs d', S.Run C d cs d' ∧ ∀ a, C d' a → S.step d' a = none := by
  generalize hn : bound - bs.length = n
  induction n generalizing bs d with
  | zero =>
      refine ⟨[], d, .nil, fun a hC => ?_⟩
      cases hs : S.step d a with
      | none => rfl
      | some d' =>
          have hle := hbound _ _ (h.snoc hC hs)
          rw [List.length_append, List.length_singleton] at hle
          omega
  | succ n ih =>
      by_cases hfinal : ∀ a, C d a → S.step d a = none
      · exact ⟨[], d, .nil, hfinal⟩
      · obtain ⟨a, hne⟩ := not_forall.mp hfinal
        obtain ⟨hC, hsome⟩ := Classical.not_imp.mp hne
        obtain ⟨d₁, hs⟩ := Option.ne_none_iff_exists'.mp hsome
        have hone : S.Run C d ([] ++ [a]) d₁ := .snoc .nil hC hs
        obtain ⟨cs, d', hcs, hfinal'⟩ := ih (h.snoc hC hs) (by
          rw [List.length_append, List.length_singleton]
          omega)
        exact ⟨[] ++ [a] ++ cs, d', hone.append hcs, hfinal'⟩

/-- What holds at the end of a run, and before a step if it holds after it, has held after
every step. -/
theorem System.Run.of_final (I : Config σ π → Prop)
    (hback : ∀ d a d', S.Reachable c d → S.step d a = some d' → I d' → I d) (hI : I c')
    (h : S.Run C c as c') :
    S.Run (fun d a => C d a ∧ ∀ d', S.step d a = some d' → I d') c as c' := by
  induction h with
  | nil => exact .nil
  | snoc hr hC hs ih =>
      refine .snoc (ih (hback _ _ _ hr.reachable hs hI)) ⟨hC, fun d' hs' => ?_⟩ hs
      cases hs.symm.trans hs'
      exact hI

end Run

/-- A potential of two levels, of which the low one is at most `cap`. -/
def rating (cap high low : ℕ) : ℕ := high * (cap + 1) + low

section Rating

variable {cap high high' low low' : ℕ}

theorem rating_lt_of_high (h : high' < high) (hcap : low' ≤ cap) :
    rating cap high' low' < rating cap high low := by
  have hmul := Nat.mul_le_mul_right (cap + 1) (Nat.succ_le_of_lt h)
  rw [Nat.succ_mul] at hmul
  unfold rating
  omega

theorem rating_lt_of_low (h : high' = high) (hlow : low' < low) :
    rating cap high' low' < rating cap high low := by
  rw [h]
  exact Nat.add_lt_add_left hlow _

/-- What a step costs that raises the high level by at most `k`. -/
theorem rating_lt_of_le {k : ℕ} (h : high' ≤ high + k) (hcap : low' ≤ cap) :
    rating cap high' low' < rating cap high low + (k + 1) * (cap + 1) := by
  have hmul := Nat.mul_le_mul_right (cap + 1) h
  rw [Nat.add_mul] at hmul
  rw [Nat.succ_mul]
  unfold rating
  omega

end Rating

end Interleaving
