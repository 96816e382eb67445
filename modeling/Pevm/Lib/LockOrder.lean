import Mathlib.Data.Nat.Notation
import Mathlib.Logic.Relation
import Mathlib.Tactic.Push

/-!
# Locks that are taken in order

A worker asks for one lock at a time and keeps the locks that it has taken. An outer lock has a
rank, and whoever asks for one has outer locks of lower ranks only. An inner lock has a guard
instead, an outer lock that everybody has who asks for the inner one or has it. Along the workers
that wait for each other the ranks go up, so nobody waits in a circle, and where the ranks are
bounded somebody at the end of them does not wait.
-/
namespace LockOrder
variable {W L : Type*}

/-- `w` asks for a lock that `w'` has. -/
def Waits (asks : W → Option L) (holds : W → L → Prop) (w w' : W) : Prop :=
  ∃ l, asks w = some l ∧ holds w' l

/-- What the order of the locks asks of the workers. An inner lock is one with a guard. -/
structure Ordered (asks : W → Option L) (holds : W → L → Prop) (guard : L → Option L)
    (rank : L → ℕ) (bound : ℕ) : Prop where
  exclusive : ∀ w w' l, holds w l → holds w' l → w = w'
  inner_fresh : ∀ w l g, guard l = some g → asks w = some l → ¬ holds w l
  inner_asks : ∀ w l g, guard l = some g → asks w = some l → holds w g
  inner_holds : ∀ w l g, guard l = some g → holds w l → holds w g
  outer_lt : ∀ w l l', guard l = none → guard l' = none → asks w = some l → holds w l' →
    rank l' < rank l
  outer_bounded : ∀ w l, guard l = none → asks w = some l → rank l < bound

namespace Ordered
variable {asks : W → Option L} {holds : W → L → Prop} {guard : L → Option L} {rank : L → ℕ}
  {bound : ℕ} {w w' w'' : W} {l l' g : L}

/-- Nobody has an inner lock that somebody else asks for: both would have its guard. -/
theorem inner_free (h : Ordered asks holds guard rank bound) (hguard : guard l = some g)
    (hasks : asks w = some l) : ¬ holds w' l := by
  intro hholds
  have hguarded := h.inner_asks w l g hguard hasks
  have hguarded' := h.inner_holds w' l g hguard hholds
  obtain rfl := h.exclusive w w' g hguarded hguarded'
  exact h.inner_fresh w l g hguard hasks hholds

/-- So a lock that somebody waits for is an outer one. -/
lemma outer_of_waits (h : Ordered asks holds guard rank bound) (hasks : asks w = some l)
    (hholds : holds w' l) : guard l = none := by
  cases hguard : guard l with
  | none => rfl
  | some g => exact absurd hholds (h.inner_free hguard hasks)

lemma rank_lt (h : Ordered asks holds guard rank bound) (hasks : asks w = some l)
    (hholds : holds w' l) (hasks' : asks w' = some l') (hholds' : holds w'' l') :
    rank l < rank l' :=
  h.outer_lt w' l' l (h.outer_of_waits hasks' hholds') (h.outer_of_waits hasks hholds) hasks' hholds

/-- Ranks go up along the workers that wait for each other. -/
lemma rank_lt_of_chain (h : Ordered asks holds guard rank bound)
    (hchain : Relation.TransGen (Waits asks holds) w w') (hasks : asks w = some l)
    (hasks' : asks w' = some l') (hholds' : holds w'' l') : rank l < rank l' := by
  induction hchain generalizing l' w'' with
  | single hwaits =>
    obtain ⟨m, hm, hholds⟩ := hwaits
    obtain rfl := Option.some.inj (hasks.symm.trans hm)
    exact h.rank_lt hasks hholds hasks' hholds'
  | tail _ hwaits ih =>
    obtain ⟨m, hm, hholds⟩ := hwaits
    have hbelow : rank l < rank m := ih hm hholds
    exact Nat.lt_trans hbelow (h.rank_lt hm hholds hasks' hholds')

theorem not_circular (h : Ordered asks holds guard rank bound) (w : W) :
    ¬ Relation.TransGen (Waits asks holds) w w := by
  intro hchain
  obtain ⟨w', ⟨l, hasks, hholds⟩, -⟩ := Relation.TransGen.head'_iff.mp hchain
  exact Nat.lt_irrefl _ (h.rank_lt_of_chain hchain hasks hasks hholds)

/-- Whoever waits, waits in the end for somebody who does not. The induction is on how far the
rank of the lock that is asked for is from the bound. -/
theorem ends (h : Ordered asks holds guard rank bound) (w : W) :
    ∃ w', Relation.ReflTransGen (Waits asks holds) w w' ∧ ∀ w'', ¬ Waits asks holds w' w'' := by
  have hends : ∀ (d : ℕ) (w : W), (∀ l, asks w = some l → guard l = none → bound - rank l ≤ d) →
      ∃ w', Relation.ReflTransGen (Waits asks holds) w w' ∧
        ∀ w'', ¬ Waits asks holds w' w'' := by
    intro d
    induction d with
    | zero =>
      intro w hrank
      refine ⟨w, .refl, ?_⟩
      rintro w'' ⟨l, hasks, hholds⟩
      have houter := h.outer_of_waits hasks hholds
      have hlt := h.outer_bounded w l houter hasks
      have hle := hrank l hasks houter
      omega
    | succ d ih =>
      intro w hrank
      by_cases hwaits : ∃ w', Waits asks holds w w'
      · obtain ⟨w', l, hasks, hholds⟩ := hwaits
        have houter := h.outer_of_waits hasks hholds
        have hle := hrank l hasks houter
        have hrank' : ∀ l', asks w' = some l' → guard l' = none → bound - rank l' ≤ d := by
          intro l' hasks' houter'
          have hlt := h.outer_lt w' l' l houter' houter hasks' hholds
          omega
        obtain ⟨last, hchain, hlast⟩ := ih w' hrank'
        exact ⟨last, .head ⟨l, hasks, hholds⟩ hchain, hlast⟩
      · push Not at hwaits
        exact ⟨w, .refl, hwaits⟩
  exact hends bound w fun l _ _ => Nat.sub_le bound (rank l)

end Ordered

end LockOrder
