import Mathlib.Logic.Relation

/-!
# Transition systems

Reachable states, invariants, and abstraction maps between systems that may leave
the abstract state where it is.
-/
namespace Transition

/-- A system that starts in one of its first states and goes on step by step. -/
structure TransitionSystem (σ : Type*) where
  init : σ → Prop
  step : σ → σ → Prop

namespace TransitionSystem
variable {σ τ : Type*}

/-- A state that some run of the system comes to. -/
inductive Reachable (T : TransitionSystem σ) : σ → Prop
  | init {s : σ} : T.init s → Reachable T s
  | step {s s' : σ} : Reachable T s → T.step s s' → Reachable T s'

/-- States that are computed by a schedule, each entry of which makes a step or does nothing. -/
theorem Reachable.foldl {α : Type*} {T : TransitionSystem σ} {advance : σ → α → σ}
    (hadvance : ∀ s a, Relation.ReflGen T.step s (advance s a)) {s : σ} (h : T.Reachable s)
    (schedule : List α) : T.Reachable (schedule.foldl advance s) := by
  induction schedule generalizing s with
  | nil => exact h
  | cons a schedule ih =>
    apply ih
    have hgen := hadvance s a
    revert hgen
    generalize advance s a = s'
    intro hgen
    cases hgen with
    | refl => exact h
    | single hstep => exact .step h hstep

theorem Reachable.invariant {T : TransitionSystem σ} {P : σ → Prop}
    (hinit : ∀ s, T.init s → P s)
    (hstep : ∀ s s', T.Reachable s → P s → T.step s s' → P s') {s : σ} (h : T.Reachable s) :
    P s := by
  induction h with
  | init h => exact hinit _ h
  | step hr hs ih => exact hstep _ _ hr ih hs

/-- A run with the steps made in it, the last one first, and the state it has come to. -/
inductive Run (T : TransitionSystem σ) : List (σ × σ) → σ → Prop
  | init {s : σ} : T.init s → Run T [] s
  | step {steps : List (σ × σ)} {s s' : σ} : Run T steps s → T.step s s' →
      Run T ((s, s') :: steps) s'

theorem Run.reachable {T : TransitionSystem σ} {steps : List (σ × σ)} {s : σ}
    (h : T.Run steps s) : T.Reachable s := by
  induction h with
  | init h => exact .init h
  | step _ hs ih => exact .step ih hs

/-- What the steps that meet a condition preserve holds all along a run of such steps. -/
theorem Run.invariant {T : TransitionSystem σ} {C : σ → σ → Prop} {P : σ → Prop}
    (hinit : ∀ s, T.init s → P s)
    (hstep : ∀ s s', T.Reachable s → P s → T.step s s' → C s s' → P s')
    {steps : List (σ × σ)} {s : σ} (h : T.Run steps s) (hC : ∀ p ∈ steps, C p.1 p.2) :
    P s ∧ ∀ p ∈ steps, T.Reachable p.1 ∧ P p.1 ∧ T.step p.1 p.2 := by
  induction h with
  | init h => exact ⟨hinit _ h, by simp⟩
  | @step steps s s' hrun hs ih =>
    obtain ⟨hP, hall⟩ := ih fun p hp => hC p (List.mem_cons_of_mem _ hp)
    refine ⟨hstep _ _ hrun.reachable hP hs (hC (s, s') List.mem_cons_self), ?_⟩
    intro p hp
    rcases List.mem_cons.mp hp with rfl | hp
    · exact ⟨hrun.reachable, hP, hs⟩
    · exact hall p hp

/-- A map of states that turns every step of `C` into a step of `A` or into none, so that what is
reachable in `C` is mapped to what is reachable in `A`. -/
structure Abstraction (C : TransitionSystem σ) (A : TransitionSystem τ) where
  f : σ → τ
  init : ∀ s, C.init s → A.init (f s)
  step : ∀ s s', C.step s s' → Relation.ReflGen A.step (f s) (f s')

theorem Abstraction.reachable {C : TransitionSystem σ} {A : TransitionSystem τ}
    (abs : Abstraction C A) {s : σ} (h : C.Reachable s) : A.Reachable (abs.f s) := by
  induction h with
  | init h => exact .init (abs.init _ h)
  | @step s s' _ hs ih =>
    have hgen := abs.step s s' hs
    revert hgen
    generalize abs.f s' = t
    intro hgen
    cases hgen with
    | refl => exact ih
    | single h => exact .step ih h

end TransitionSystem

end Transition
