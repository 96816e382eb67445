import Mathlib.Algebra.BigOperators.Group.Finset.Basic
import Mathlib.Algebra.Order.BigOperators.Group.Finset
import Mathlib.Tactic.Ring
import Pevm.Lib.Simulation

/-!
# How often something happens in a run

A step that costs is paid for by a potential, and the potential is raised by other steps only. What
each stage pays for the stages below it adds up to a power.
-/
namespace Transition

open Classical in
/-- One if the proposition holds, zero if it does not. -/
noncomputable def tally (p : Prop) : ℕ := if p then 1 else 0

section Tally
variable {p q : Prop}

@[simp] theorem tally_of (h : p) : tally p = 1 := if_pos h

@[simp] theorem tally_of_not (h : ¬ p) : tally p = 0 := if_neg h

theorem tally_le_one (p : Prop) : tally p ≤ 1 := by
  by_cases h : p <;> simp [h]

theorem tally_mono (h : p → q) : tally p ≤ tally q := by
  by_cases hp : p
  · simp [hp, h hp]
  · simp [hp]

end Tally

namespace TransitionSystem
variable {σ : Type*} {T : TransitionSystem σ} {E F : σ → σ → Prop} {s s' : σ}
  {steps : List (σ × σ)}

/-- How many of the steps of a run are of the kind `E`. -/
noncomputable def occurrences (E : σ → σ → Prop) (steps : List (σ × σ)) : ℕ :=
  (steps.map fun p => tally (E p.1 p.2)).sum

@[simp] theorem occurrences_nil : occurrences E [] = 0 := rfl

theorem occurrences_cons :
    occurrences E ((s, s') :: steps) = occurrences E steps + tally (E s s') := by
  simp [occurrences, Nat.add_comm]

/-- What happens in a step of one of two kinds is counted with one of them. -/
theorem occurrences_or_le (E F : σ → σ → Prop) (steps : List (σ × σ)) :
    occurrences (fun s s' => E s s' ∨ F s s') steps ≤
      occurrences E steps + occurrences F steps := by
  induction steps with
  | nil => simp
  | cons p steps ih =>
    obtain ⟨s, s'⟩ := p
    have hone : tally (E s s' ∨ F s s') ≤ tally (E s s') + tally (F s s') := by
      by_cases hE : E s s'
      · simp [hE]
      · simp [hE]
    simp only [occurrences_cons]
    omega

/-- What happens in a step of one of several kinds is counted with one of them. -/
theorem occurrences_exists_le (E : ℕ → σ → σ → Prop) (j : ℕ) (steps : List (σ × σ)) :
    occurrences (fun s s' => ∃ i < j, E i s s') steps ≤
      ∑ i ∈ Finset.range j, occurrences (E i) steps := by
  induction steps with
  | nil => simp
  | cons p steps ih =>
    obtain ⟨s, s'⟩ := p
    have hone : tally (∃ i < j, E i s s') ≤ ∑ i ∈ Finset.range j, tally (E i s s') := by
      by_cases h : ∃ i < j, E i s s'
      · obtain ⟨i, hi, hE⟩ := id h
        rw [tally_of h, ← tally_of hE]
        exact Finset.single_le_sum (f := fun i => tally (E i s s')) (fun _ _ => Nat.zero_le _)
          (Finset.mem_range.mpr hi)
      · rw [tally_of_not h]
        exact Nat.zero_le _
    simp only [occurrences_cons, Finset.sum_add_distrib]
    omega

/-- A potential that every step of the first kind lowers is raised by the second kind alone, by at
most `c` each time. -/
theorem Run.occurrences_le {m : σ → ℕ} {a c : ℕ}
    (hinit : ∀ s, T.init s → m s ≤ a)
    (hstep : ∀ s s', T.Reachable s → T.step s s' →
      m s' + tally (E s s') ≤ m s + c * tally (F s s'))
    (h : T.Run steps s) : occurrences E steps + m s ≤ a + c * occurrences F steps := by
  apply h.invariant_steps (P := fun steps s =>
    occurrences E steps + m s ≤ a + c * occurrences F steps)
  · intro s hs
    simpa using hinit s hs
  · intro steps s s' hrun ih hs
    have hnext := hstep s s' hrun.reachable hs
    rw [occurrences_cons, occurrences_cons, Nat.mul_add]
    omega

end TransitionSystem

section Sums
variable {W α : Type*} [Fintype W] [DecidableEq W] {f f' : α → ℕ} {x x' : W → α} {w : W} {a : α}

/-- A sum after one of many has changed, and the others add no more than before. -/
theorem sum_update_le (hx : x' = Function.update x w a) (h : ∀ w' ≠ w, f' (x w') ≤ f (x w')) :
    ∑ w', f' (x' w') + f (x w) ≤ ∑ w', f (x w') + f' a := by
  have hothers : ∑ w' ∈ Finset.univ.erase w, f' (x' w') ≤ ∑ w' ∈ Finset.univ.erase w, f (x w') := by
    apply Finset.sum_le_sum
    intro w' hw'
    have hne : w' ≠ w := Finset.ne_of_mem_erase hw'
    rw [hx, Function.update_of_ne hne]
    exact h w' hne
  have hbefore := Finset.add_sum_erase Finset.univ (fun w' => f (x w')) (Finset.mem_univ w)
  have hafter := Finset.add_sum_erase Finset.univ (fun w' => f' (x' w')) (Finset.mem_univ w)
  have hself : x' w = a := by rw [hx, Function.update_self]
  simp only [hself] at hbefore hafter
  omega

end Sums

/-- What is at most `a` and `a` times what is spent below grows like a power. -/
theorem le_mul_pow_of_le_sum {x : ℕ → ℕ} {a c : ℕ}
    (h : ∀ j, x j ≤ a + a * ∑ i ∈ Finset.range j, c * x i) (j : ℕ) : x j ≤ a * (a * c + 1) ^ j := by
  have hpower : ∀ j, a + a * ∑ i ∈ Finset.range j, c * x i ≤ a * (a * c + 1) ^ j := by
    intro j
    induction j with
    | zero => simp
    | succ j ih =>
      calc a + a * ∑ i ∈ Finset.range (j + 1), c * x i
          = (a + a * ∑ i ∈ Finset.range j, c * x i) + a * c * x j := by
            rw [Finset.sum_range_succ]
            ring
        _ ≤ a * (a * c + 1) ^ j + a * c * (a * (a * c + 1) ^ j) :=
            Nat.add_le_add ih (Nat.mul_le_mul_left _ ((h j).trans ih))
        _ = a * (a * c + 1) ^ (j + 1) := by ring
  exact (h j).trans (hpower j)

end Transition
