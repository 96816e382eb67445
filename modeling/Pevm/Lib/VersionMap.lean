import Mathlib.Logic.Function.Basic
import Mathlib.Tactic.Common

/-!
# Maps from versions

A partial map from indices, read downwards from a bound: the closest entry below the
bound is the one of the greatest index.
-/
namespace VersionMap
variable {α : Type*}

/-- The entry of the greatest index below the bound that has one, with its index. -/
def closestBelow (m : ℕ → Option α) : ℕ → Option (ℕ × α)
  | 0 => none
  | bound + 1 =>
    match m bound with
    | some a => some (bound, a)
    | none => closestBelow m bound

variable {m m' : ℕ → Option α} {bound k : ℕ} {a : α}

theorem closestBelow_eq_none : closestBelow m bound = none ↔ ∀ i < bound, m i = none := by
  induction bound with
  | zero => simp [closestBelow]
  | succ bound ih =>
    rw [closestBelow]
    cases h : m bound with
    | none =>
      rw [ih]
      constructor
      · intro hnone i hi
        by_cases hib : i = bound
        · rw [hib]
          exact h
        · exact hnone i (by omega)
      · intro hnone i hi
        exact hnone i (by omega)
    | some a =>
      refine iff_of_false (by simp) fun hnone => ?_
      rw [hnone bound (by omega)] at h
      cases h

theorem closestBelow_eq_some :
    closestBelow m bound = some (k, a) ↔
      k < bound ∧ m k = some a ∧ ∀ i, k < i → i < bound → m i = none := by
  induction bound with
  | zero => simp [closestBelow]
  | succ bound ih =>
    rw [closestBelow]
    cases h : m bound with
    | none =>
      rw [ih]
      constructor
      · rintro ⟨hlt, hk, hnone⟩
        refine ⟨by omega, hk, fun i hki hi => ?_⟩
        by_cases hib : i = bound
        · rw [hib]
          exact h
        · exact hnone i hki (by omega)
      · rintro ⟨hlt, hk, hnone⟩
        have hne : k ≠ bound := by
          rintro rfl
          rw [h] at hk
          cases hk
        exact ⟨by omega, hk, fun i hki hi => hnone i hki (by omega)⟩
    | some b =>
      constructor
      · intro heq
        cases heq
        exact ⟨by omega, h, fun i hki hi => by omega⟩
      · rintro ⟨hlt, hk, hnone⟩
        by_cases hkb : k = bound
        · subst hkb
          rw [h] at hk
          rw [Option.some.inj hk]
        · rw [hnone bound (by omega) (by omega)] at h
          cases h

theorem closestBelow_congr (h : ∀ i < bound, m i = m' i) :
    closestBelow m bound = closestBelow m' bound := by
  induction bound with
  | zero => rfl
  | succ bound ih =>
    rw [closestBelow, closestBelow, h bound (by omega), ih fun i hi => h i (by omega)]

/-- An entry that is not the closest one may be changed, unless it comes closer. -/
theorem closestBelow_update_of_lt {i : ℕ} {x : Option α}
    (h : closestBelow m bound = some (k, a)) (hi : i < k ∨ bound ≤ i) :
    closestBelow (Function.update m i x) bound = some (k, a) := by
  obtain ⟨hlt, hk, hnone⟩ := closestBelow_eq_some.mp h
  apply closestBelow_eq_some.mpr
  refine ⟨hlt, ?_, fun i' hki hi' => ?_⟩
  · rw [Function.update_of_ne (by omega)]
    exact hk
  · rw [Function.update_of_ne (by omega)]
    exact hnone i' hki hi'

end VersionMap
