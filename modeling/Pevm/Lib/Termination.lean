import Mathlib.Data.DFinsupp.WellFounded
import Mathlib.SetTheory.Ordinal.Rank
import Pevm.Lib.Occurrences

/-!
# Runs that end

A run in which a kind of step happens only so often, and in which the other steps go down in a
well-founded order, ends.
-/
namespace Transition

section Measures
variable {α : Type*} {r : α → α → Prop}

/-- The measure goes down, or it stays and something else goes down. -/
theorem wellFounded_measure_or (m : α → ℕ) (hr : WellFounded r) :
    WellFounded fun x' x => m x' < m x ∨ m x' ≤ m x ∧ r x' x := by
  refine Subrelation.wf ?_
    (InvImage.wf (fun x => (m x, x)) (Nat.lt_wfRel.wf.prod_lex hr))
  rintro x' x (hlt | ⟨hle, hx⟩)
  · exact .left _ _ hlt
  · rcases hle.lt_or_eq with hlt | heq
    · exact .left _ _ hlt
    · rw [InvImage, heq]
      exact .right _ hx

end Measures

section Updates
variable {W α : Type*} [Finite W] [DecidableEq W] {r : α → α → Prop}

/-- One of finitely many goes down at a time. -/
theorem wellFounded_update (hr : WellFounded r) :
    WellFounded fun x' x : W → α => ∃ w a, r a (x w) ∧ x' = Function.update x w a := by
  have : IsWellFounded α r := ⟨hr⟩
  refine Subrelation.wf (r := InvImage (· < ·) fun x w => IsWellFounded.rank r (x w)) ?_
    (InvImage.wf _ wellFounded_lt)
  rintro x' x ⟨w, a, ha, rfl⟩
  have hlt := IsWellFounded.rank_lt_of_rel ha
  rw [InvImage, Pi.lt_def]
  constructor
  · intro w'
    beta_reduce
    by_cases hww : w' = w
    · rw [hww, Function.update_self]
      exact hlt.le
    · rw [Function.update_of_ne hww]
  · exact ⟨w, by rwa [Function.update_self]⟩

end Updates

namespace TransitionSystem
variable {σ : Type*} {T : TransitionSystem σ} {E : σ → σ → Prop} {s : σ} {steps : List (σ × σ)}
  {bound : ℕ}

/-- What happens only so often does not keep a run from ending. -/
theorem Run.acc (hbound : ∀ steps s, T.Run steps s → occurrences E steps ≤ bound)
    (hwf : WellFounded fun s' s => T.Reachable s ∧ T.step s s' ∧ ¬ E s s' ∧ s' ≠ s)
    (h : T.Run steps s) : Acc (fun s' s => T.step s s' ∧ s' ≠ s) s := by
  obtain ⟨left, hleft⟩ : ∃ left, bound ≤ occurrences E steps + left := ⟨bound, by omega⟩
  induction left using Nat.strong_induction_on generalizing steps s with
  | _ left ihleft =>
    induction s using hwf.induction generalizing steps with
    | _ s ih =>
      refine Acc.intro _ fun s' ⟨hstep, hne⟩ => ?_
      have hrun := h.step hstep
      by_cases hE : E s s'
      · have hcount := hbound _ _ hrun
        rw [occurrences_cons, tally_of hE] at hcount
        exact ihleft (left - 1) (by omega) hrun (by rw [occurrences_cons, tally_of hE]; omega)
      · exact ih s' ⟨h.reachable, hstep, hE, hne⟩ hrun (by rw [occurrences_cons]; omega)

/-- Every reachable state is the end of a run. -/
theorem Reachable.run (h : T.Reachable s) : ∃ steps, T.Run steps s := by
  induction h with
  | init h => exact ⟨[], .init h⟩
  | step _ hs ih =>
    obtain ⟨steps, hrun⟩ := ih
    exact ⟨_, hrun.step hs⟩

end TransitionSystem

end Transition
