import UpgradeSched.Interleaving.System

/-!
# A thread that runs alone

While one thread makes steps and the others rest, the environment still resolves the
choices of that thread. `System.Inevitable` says that the thread comes to a goal however
the allowed choices fall: it is there, or it can move and every move it can make leads to
a configuration from which the goal is inevitable. The definition is inductive, so the
thread neither gets stuck nor runs on forever before it reaches the goal.
-/

namespace Interleaving

section Solo

variable {σ π ε : Type*} (S : System σ π ε) (i : ℕ) (allowed : ε → Prop)

/-- Thread `i`, running alone with allowed choices, comes to `goal`. -/
inductive System.Inevitable (goal : Config σ π → Prop) : Config σ π → Prop
  | now {c : Config σ π} (h : goal c) : Inevitable goal c
  | later {c : Config σ π} (hmoves : ∃ e c', allowed e ∧ S.step c (i, e) = some c')
      (h : ∀ e c', allowed e → S.step c (i, e) = some c' → Inevitable goal c') :
      Inevitable goal c

variable {S i allowed}

theorem System.Inevitable.mono {goal goal' : Config σ π → Prop} {c : Config σ π}
    (h : S.Inevitable i allowed goal c) (hgoal : ∀ c, goal c → goal' c) :
    S.Inevitable i allowed goal' c := by
  induction h with
  | now h => exact .now (hgoal _ h)
  | later hmoves _ ih => exact .later hmoves ih

/-- The goal is reached by some run. -/
theorem System.Inevitable.exists_reachable {goal : Config σ π → Prop} {c : Config σ π}
    (h : S.Inevitable i allowed goal c) : ∃ c', S.Reachable c c' ∧ goal c' := by
  induction h with
  | now h => exact ⟨_, System.Reachable.refl _, h⟩
  | later hmoves _ ih =>
      obtain ⟨e, c₁, he, hstep⟩ := hmoves
      obtain ⟨c', hreach, hgoal⟩ := ih e c₁ he hstep
      exact ⟨c', ((System.Reachable.refl _).step hstep).trans hreach, hgoal⟩

/-- Two goals, one after the other. -/
theorem System.Inevitable.trans {goal goal' : Config σ π → Prop} {c : Config σ π}
    (h : S.Inevitable i allowed goal c)
    (hgoal : ∀ c, goal c → S.Inevitable i allowed goal' c) :
    S.Inevitable i allowed goal' c := by
  induction h with
  | now h => exact hgoal _ h
  | later hmoves _ ih => exact .later hmoves ih

/-- Fewer choices are allowed, and the goal is reached together with an invariant, if the
invariant leaves one of the choices open wherever the thread can move. -/
theorem System.Inevitable.restrict {allowed' : ε → Prop} {goal I : Config σ π → Prop}
    {c : Config σ π} (h : S.Inevitable i allowed goal c) (hc : I c)
    (hstep : ∀ c e c', I c → allowed e → S.step c (i, e) = some c' → I c')
    (hallowed : ∀ e, allowed' e → allowed e)
    (hmoves : ∀ c e c', I c → allowed e → S.step c (i, e) = some c' →
      ∃ e' c'', allowed' e' ∧ S.step c (i, e') = some c'') :
    S.Inevitable i allowed' (fun c => goal c ∧ I c) c := by
  induction h with
  | now h => exact .now ⟨h, hc⟩
  | later hmove _ ih =>
      obtain ⟨e, c', he, hs⟩ := hmove
      refine .later (hmoves _ e c' hc he hs) fun e c' he hs => ?_
      exact ih e c' (hallowed e he) hs (hstep _ e c' hc (hallowed e he) hs)

/-- The measure rule: short of the goal the thread can move, and every move it makes comes
to the goal or brings the measure down. -/
theorem System.Inevitable.of_measure {goal I : Config σ π → Prop} (f : Config σ π → ℕ)
    (hmoves : ∀ c, I c → ¬ goal c → ∃ e c', allowed e ∧ S.step c (i, e) = some c')
    (hstep : ∀ c e c', I c → ¬ goal c → allowed e → S.step c (i, e) = some c' →
      goal c' ∨ (I c' ∧ f c' < f c)) {c : Config σ π} (hc : I c) :
    S.Inevitable i allowed goal c := by
  induction hn : f c using Nat.strong_induction_on generalizing c with
  | _ n ih =>
      by_cases hgoal : goal c
      · exact .now hgoal
      refine .later (hmoves c hc hgoal) fun e c' he hs => ?_
      rcases hstep c e c' hc hgoal he hs with hgoal' | ⟨hc', hlt⟩
      · exact .now hgoal'
      · exact ih (f c') (hn ▸ hlt) hc' rfl

end Solo

end Interleaving
