import UpgradeSched.Interleaving.System

/-!
# Traces and simulations

A `Spec` says what a component is for: its states, where it starts, and what each
visible event does. A system whose memory keeps a history implements a specification
when a relation between the states of both matches every step of the system with the
events that the step adds to the history.
-/

namespace Interleaving

/-- A labelled transition system with one initial state. -/
structure Spec (α ℓ : Type*) where
  init : α
  step : α → ℓ → α → Prop

section Trace

variable {α ℓ : Type*} {A : Spec α ℓ}

/-- The specification goes from its initial state to a state with the given events. -/
inductive Spec.Trace (A : Spec α ℓ) : List ℓ → α → Prop
  | nil : Trace A [] A.init
  | snoc {ls : List ℓ} {l : ℓ} {a a' : α} :
      Trace A ls a → A.step a l a' → Trace A (ls ++ [l]) a'

theorem Spec.Trace.invariant {ls : List ℓ} {a : α} (I : List ℓ → α → Prop)
    (h0 : I [] A.init)
    (hstep : ∀ ls a l a', I ls a → A.step a l a' → I (ls ++ [l]) a')
    (h : A.Trace ls a) : I ls a := by
  induction h with
  | nil => exact h0
  | snoc _ hl ih => exact hstep _ _ _ _ ih hl

theorem Spec.Trace.eq_init {a : α} (h : A.Trace [] a) : a = A.init := by
  generalize hls : ([] : List ℓ) = ls at h
  cases h with
  | nil => rfl
  | snoc => simp at hls

/-- Before every event of a trace there is a trace that allows the event. -/
theorem Spec.Trace.exists_step {ls₁ ls₂ : List ℓ} {l : ℓ} {a : α}
    (h : A.Trace (ls₁ ++ l :: ls₂) a) : ∃ a₁ a₂, A.Trace ls₁ a₁ ∧ A.step a₁ l a₂ := by
  generalize hls : ls₁ ++ l :: ls₂ = ls at h
  induction h generalizing ls₂ with
  | nil => simp at hls
  | snoc h hl ih =>
      rcases ls₂.eq_nil_or_concat with rfl | ⟨ls₃, l', rfl⟩
      · obtain ⟨rfl, hlast⟩ := List.append_inj' hls rfl
        cases hlast
        exact ⟨_, _, h, hl⟩
      · rw [List.concat_eq_append, ← List.cons_append, ← List.append_assoc] at hls
        obtain ⟨heq, -⟩ := List.append_inj' hls rfl
        exact ih heq

end Trace

section Simulation

variable {σ π ε α ℓ : Type*} {S : System σ π ε} {c₀ c : Config σ π}
  {history : σ → List ℓ} {spec : σ → Spec α ℓ} {R : Config σ π → α → Prop}

/-- `R` simulates the system from `c₀`. The specification may depend on the memory, as long
as it changes only while the history is empty. -/
structure Simulation (S : System σ π ε) (c₀ : Config σ π) (history : σ → List ℓ)
    (spec : σ → Spec α ℓ) (R : Config σ π → α → Prop) : Prop where
  start : history c₀.mem = [] ∧ R c₀ (spec c₀.mem).init
  fixed : ∀ {c c' : Config σ π} {x : ℕ × ε}, S.Reachable c₀ c → S.step c x = some c' →
    spec c'.mem = spec c.mem ∨
      (history c.mem = [] ∧ (spec c'.mem).init = (spec c.mem).init)
  step : ∀ {c c' : Config σ π} {x : ℕ × ε} {a : α}, S.Reachable c₀ c →
    S.step c x = some c' → R c a →
      (history c'.mem = history c.mem ∧ R c' a) ∨
        ∃ l a', history c'.mem = history c.mem ++ [l] ∧ (spec c'.mem).step a l a' ∧ R c' a'

/-- Every reachable history is a trace of the specification. -/
theorem Simulation.trace (h : Simulation S c₀ history spec R) (hr : S.Reachable c₀ c) :
    ∃ a, (spec c.mem).Trace (history c.mem) a ∧ R c a := by
  refine hr.invariant (fun c => ∃ a, (spec c.mem).Trace (history c.mem) a ∧ R c a) ?_ ?_
  · rw [h.start.1]
    exact ⟨_, .nil, h.start.2⟩
  · intro c x c' hreach htrace hstep
    obtain ⟨a, htrace, hR⟩ := htrace
    have htrace' : (spec c'.mem).Trace (history c.mem) a := by
      rcases h.fixed hreach hstep with hspec | ⟨hnil, hinit⟩
      · rwa [hspec]
      · rw [hnil] at htrace ⊢
        rw [htrace.eq_init, ← hinit]
        exact .nil
    rcases h.step hreach hstep hR with ⟨heq, hR'⟩ | ⟨l, a', heq, hl, hR'⟩
    · exact ⟨a, heq ▸ htrace', hR'⟩
    · exact ⟨a', heq ▸ htrace'.snoc hl, hR'⟩

end Simulation

end Interleaving
