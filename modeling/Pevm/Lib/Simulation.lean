import Pevm.Lib.Transition

/-!
# Simulations

A relation between the states of two transition systems that every step keeps, if the other
system makes one step or none. What is known to be reachable may be used in keeping it.
-/
namespace Transition.TransitionSystem
variable {σ τ : Type*} {C : TransitionSystem σ} {A : TransitionSystem τ} {R : σ → τ → Prop}

/-- A relation between the states of two systems such that every step of the first is answered by a
step of the second or by none. Only reachable states need be related. -/
structure Simulation (C : TransitionSystem σ) (A : TransitionSystem τ) (R : σ → τ → Prop) :
    Prop where
  init : ∀ s, C.init s → ∃ t, A.init t ∧ R s t
  step : ∀ s s' t, C.Reachable s → A.Reachable t → R s t → C.step s s' →
    ∃ t', Relation.ReflGen A.step t t' ∧ R s' t'

theorem Reachable.reflGen {t t' : τ} (h : A.Reachable t) (hstep : Relation.ReflGen A.step t t') :
    A.Reachable t' := by
  cases hstep with
  | refl => exact h
  | single hstep => exact h.step hstep

theorem Simulation.reachable (sim : Simulation C A R) {s : σ} (h : C.Reachable s) :
    ∃ t, A.Reachable t ∧ R s t := by
  induction h with
  | init h =>
    obtain ⟨t, ht, hrel⟩ := sim.init _ h
    exact ⟨t, .init ht, hrel⟩
  | step hr hs ih =>
    obtain ⟨t, ht, hrel⟩ := ih
    obtain ⟨t', hstep, hrel'⟩ := sim.step _ _ t hr ht hrel hs
    exact ⟨t', ht.reflGen hstep, hrel'⟩

/-- What a step adds to the steps that a run has made already, it keeps. -/
theorem Run.invariant_steps {P : List (σ × σ) → σ → Prop} (hinit : ∀ s, C.init s → P [] s)
    (hstep : ∀ steps s s', C.Run steps s → P steps s → C.step s s' → P ((s, s') :: steps) s')
    {steps : List (σ × σ)} {s : σ} (h : C.Run steps s) : P steps s := by
  induction h with
  | init h => exact hinit _ h
  | step hrun hs ih => exact hstep _ _ _ hrun ih hs

end Transition.TransitionSystem
