import Pevm.Lib.Occurrences
import Pevm.Pexe.Coverage

/-!
# How often a transaction is touched

A transaction starts an execution, and twice for each of them its entries in the memory are
touched: when the execution is recorded, and when it has been aborted.
-/
namespace Pevm
open Transition TransitionSystem

namespace Phase
variable {J κ ν ρ : Type} {vm : Vm J κ ν ρ} {i : ℕ} {p p' : Phase J ρ}

/-- The worker starts an execution of `i`, for the first time or anew. -/
def Starts (vm : Vm J κ ν ρ) (i : ℕ) (p p' : Phase J ρ) : Prop :=
  ∃ v, v.txIdx = i ∧ p' = .executing v (vm.start v) ∧ p ≠ p'

/-- The worker changes the entries of `i` in the memory, by a record or by the conversion to
estimates. -/
def Touches (i : ℕ) (p p' : Phase J ρ) : Prop :=
  ∃ v, v.txIdx = i ∧ ((∃ job flags result, p = .executing v job ∧ p' = .recorded v flags result) ∨
    p = .aborted v ∧ p' = .converted v)

lemma not_starts_self : ¬ Starts vm i p p := fun ⟨_, _, _, hne⟩ => hne rfl

lemma not_touches_self : ¬ Touches i p p := by
  rintro ⟨v, -, ⟨job, flags, result, rfl, h⟩ | ⟨rfl, h⟩⟩ <;> cases h

/-- How often `i` can still be touched by the execution that the worker holds. -/
def credit (i : ℕ) : Phase J ρ → ℕ
  | .executing v _ | .blocked v _ _ => if v.txIdx = i then 2 else 0
  | .recorded v _ _ | .stored v _ | .aborted v => if v.txIdx = i then 1 else 0
  | .polling | .validating _ | .failed _ | .converted _ | .settled _ | .gone => 0

/-- A task that is handed out starts an execution or owes nothing. -/
lemma credit_ofTask (hp : ∀ v job, p ≠ .executing v job) (t : Option Task) :
    (ofTask vm t).credit i = 2 * tally (Starts vm i p (ofTask vm t)) := by
  rcases t with _ | (v | v)
  · simp [ofTask, credit, Starts]
  · by_cases hv : v.txIdx = i
    · have hstart : Starts vm i p (ofTask vm (some (.execution v))) := ⟨v, hv, rfl, hp v _⟩
      rw [tally_of hstart]
      simp [ofTask, credit, hv]
    · have hstart : ¬ Starts vm i p (ofTask vm (some (.execution v))) := by
        rintro ⟨u, rfl, hu, -⟩
        cases hu
        exact hv rfl
      rw [tally_of_not hstart]
      simp [ofTask, credit, hv]
  · simp [ofTask, credit, Starts]

lemma credit_ofPoll (hp : ∀ v job, p ≠ .executing v job) (r : Scheduler.Poll) :
    (ofPoll vm r).credit i = 2 * tally (Starts vm i p (ofPoll vm r)) := by
  cases r with
  | task t => exact credit_ofTask hp (some t)
  | again => exact credit_ofTask hp none
  | exit => simp [ofPoll, credit, Starts]

lemma not_touches (hp : ∀ v job, p ≠ .executing v job) (hp' : ∀ v, p ≠ .aborted v) :
    ¬ Touches i p p' := by
  rintro ⟨v, -, ⟨job, flags, result, h, -⟩ | ⟨h, -⟩⟩
  · exact hp v job h
  · exact hp' v h

end Phase

namespace Pexe
variable {W J κ ν ρ : Type} {vm : Vm J κ ν ρ} {i : ℕ} {σ σ' : Pexe W J κ ν ρ} {w : W}
  {p : Phase J ρ}

/-- Some worker starts an execution of `i` in this step. -/
def Starts (vm : Vm J κ ν ρ) (i : ℕ) (σ σ' : Pexe W J κ ν ρ) : Prop :=
  ∃ w, (σ.phase w).Starts vm i (σ'.phase w)

/-- Some worker changes the entries of `i` in this step. -/
def Touches (i : ℕ) (σ σ' : Pexe W J κ ν ρ) : Prop :=
  ∃ w, (σ.phase w).Touches i (σ'.phase w)

section Updates
variable [DecidableEq W]

/-- What happens in a call happens to the worker that makes it. -/
lemma exists_update {E : Phase J ρ → Phase J ρ → Prop} (hE : ∀ q, ¬ E q q)
    (h : σ'.phase = Function.update σ.phase w p) :
    (∃ w', E (σ.phase w') (σ'.phase w')) ↔ E (σ.phase w) p := by
  constructor
  · rintro ⟨w', hw'⟩
    by_cases hww : w' = w
    · subst hww
      rwa [h, Function.update_self] at hw'
    · rw [h, Function.update_of_ne hww] at hw'
      exact absurd hw' (hE _)
  · intro hw
    exact ⟨w, by rwa [h, Function.update_self]⟩

lemma starts_iff (h : σ'.phase = Function.update σ.phase w p) :
    Starts vm i σ σ' ↔ (σ.phase w).Starts vm i p :=
  exists_update (fun _ => Phase.not_starts_self) h

lemma touches_iff (h : σ'.phase = Function.update σ.phase w p) :
    Touches i σ σ' ↔ (σ.phase w).Touches i p :=
  exists_update (fun _ => Phase.not_touches_self) h

end Updates

section Credit
variable [Fintype W]

/-- How often `i` can still be touched before it starts again. A start is what raises it. -/
noncomputable def credit (i : ℕ) (σ : Pexe W J κ ν ρ) : ℕ :=
  ∑ w, (σ.phase w).credit i + tally (σ.scheduler.Done i)

variable [DecidableEq W]

lemma credit_update (h : σ'.phase = Function.update σ.phase w p)
    (hlocal : p.credit i + tally (σ'.scheduler.Done i) + tally ((σ.phase w).Touches i p) ≤
      (σ.phase w).credit i + tally (σ.scheduler.Done i) + 2 * tally ((σ.phase w).Starts vm i p)) :
    σ'.credit i + tally (Touches i σ σ') ≤ σ.credit i + 2 * tally (Starts vm i σ σ') := by
  have hsum : ∑ w', (σ'.phase w').credit i + (σ.phase w).credit i ≤
      ∑ w', (σ.phase w').credit i + p.credit i := sum_update_le h fun _ _ => le_rfl
  rw [starts_iff h, touches_iff h]
  unfold credit
  omega

/-- A call that hands out a task does not touch, and pays for what it starts. -/
lemma credit_handOut (h : σ'.phase = Function.update σ.phase w p)
    (hexecuting : ∀ v job, σ.phase w ≠ .executing v job) (haborted : ∀ v, σ.phase w ≠ .aborted v)
    (hp : p.credit i = 2 * tally ((σ.phase w).Starts vm i p))
    (hdone : tally (σ'.scheduler.Done i) ≤ (σ.phase w).credit i + tally (σ.scheduler.Done i)) :
    σ'.credit i + tally (Touches i σ σ') ≤ σ.credit i + 2 * tally (Starts vm i σ σ') := by
  apply credit_update h
  rw [tally_of_not (Phase.not_touches hexecuting haborted), hp]
  omega

variable [DecidableEq κ] {n : ℕ} {estimatedLocations : List (κ × List ℕ)} [Nonempty W]

/-- Only a start raises the credit, by two. -/
lemma credit_step (hr : (system W vm n estimatedLocations).Reachable σ) (hs : Step vm σ σ')
    (i : ℕ) : σ'.credit i + tally (Touches i σ σ') ≤ σ.credit i + 2 * tally (Starts vm i σ σ') := by
  obtain ⟨hcrew, -⟩ := crew_invariant hr
  cases hs with
  | nextTask hw =>
    apply credit_handOut rfl (by simp [hw]) (by simp [hw])
    · rw [hw]
      exact Phase.credit_ofPoll (by simp) _
    · have hmono := tally_mono (σ.scheduler.poll_spec.done i).mp
      simp only [move]
      omega
  | read hw _ =>
    apply credit_update rfl
    rw [hw]
    simp [Phase.credit, Phase.Touches, move]
  | retry hw _ =>
    apply credit_update rfl
    rw [hw]
    simp [Phase.credit, Phase.Touches, move]
  | block hw _ =>
    apply credit_update rfl
    rw [hw]
    simp [Phase.credit, Phase.Touches, move]
  | @addDependency w v b lower hw =>
    apply credit_update rfl
    have hmono := tally_mono fun hd : (σ.scheduler.addDependency v.txIdx b).2.Done i =>
      Scheduler.addDependency_done hd
    rw [hw]
    split
    · simp [Phase.credit, Phase.Touches, move]
      omega
    · simp [Phase.credit, Phase.Touches, move]
      omega
  | @record w v job readSet writeSet flags result hw _ =>
    apply credit_update rfl
    have hmono : tally (Phase.Touches i (.executing v job)
        (.recorded v (σ.recordFlags v readSet writeSet flags) result)) ≤
          if v.txIdx = i then 1 else 0 := by
      by_cases hv : v.txIdx = i
      · simp only [hv, if_true]
        exact tally_le_one _
      · simp [Phase.Touches, hv]
    rw [hw]
    simp only [Phase.credit, move]
    split_ifs at hmono ⊢ <;> omega
  | storeResult hw =>
    apply credit_update rfl
    rw [hw]
    simp [Phase.credit, Phase.Touches, move]
  | @finishExecution w v flags hw =>
    have hv : v.txIdx < σ.scheduler.blockSize :=
      hcrew.bound w v.txIdx (by simp [crew, hw, Phase.role])
    apply credit_handOut rfl (by simp [hw]) (by simp [hw])
    · rw [hw]
      exact Phase.credit_ofTask (by simp) _
    · by_cases hvi : v.txIdx = i
      · have hone := tally_le_one ((σ.scheduler.finishExecution v flags).2.Done i)
        rw [hw]
        simp only [move, Phase.credit, hvi, if_true]
        omega
      · have hmono := tally_mono fun hd : (σ.scheduler.finishExecution v flags).2.Done i =>
          (Scheduler.finishExecution_done hv flags hd).resolve_right (Ne.symm hvi)
        simp only [move]
        omega
  | validateReadLocations hw =>
    apply credit_update rfl
    rw [hw]
    split <;> simp [Phase.credit, Phase.Touches, move]
  | @tryValidationAbort w v hw =>
    apply credit_update rfl
    have habort := Scheduler.tryValidationAbort_eq (s := σ.scheduler) v
    rw [hw]
    by_cases hd : σ.scheduler.Done v.txIdx
    · rw [if_pos hd] at habort
      rw [habort]
      by_cases hv : v.txIdx = i
      · subst hv
        have hnot : ¬ (σ.scheduler.setStatus v.txIdx .aborting).Done v.txIdx := by
          simp [Scheduler.Done]
        simp [Phase.credit, Phase.Touches, move, hnot, hd]
      · have hmono : tally ((σ.scheduler.setStatus v.txIdx .aborting).Done i) ≤
            tally (σ.scheduler.Done i) :=
          tally_mono (Scheduler.Done.of_setStatus (by simp) (by simp))
        simp [Phase.credit, Phase.Touches, move, hv]
        omega
    · rw [if_neg hd] at habort
      simp [habort, Phase.credit, Phase.Touches, move]
  | @convertWritesToEstimates w v hw =>
    apply credit_update rfl
    have hmono : tally (Phase.Touches i (.aborted v) (.converted v : Phase J ρ)) ≤
        if v.txIdx = i then 1 else 0 := by
      by_cases hv : v.txIdx = i
      · simp only [hv, if_true]
        exact tally_le_one _
      · simp [Phase.Touches, hv]
    rw [hw]
    simp only [Phase.credit, move]
    omega
  | @finishAbort w v hw =>
    have hv : v.txIdx < σ.scheduler.blockSize :=
      hcrew.bound w v.txIdx (by simp [crew, hw, Phase.role])
    apply credit_handOut rfl (by simp [hw]) (by simp [hw])
    · rw [hw]
      exact Phase.credit_ofTask (by simp) _
    · have hmono := tally_mono fun hd : (σ.scheduler.finishValidation v true).2.Done i =>
        Scheduler.finishValidation_true_done v hv hd
      simp only [move]
      omega
  | @finishValidation w v hw =>
    apply credit_handOut rfl (by simp [hw]) (by simp [hw])
    · rw [hw]
      exact Phase.credit_ofTask (by simp) _
    · have hmono := tally_mono (Scheduler.finishValidation_false_done (s := σ.scheduler) v i).mp
      simp only [move]
      omega

/-- Every execution touches its transaction twice at most. -/
theorem touches_le {steps : List (Pexe W J κ ν ρ × Pexe W J κ ν ρ)}
    (h : (system W vm n estimatedLocations).Run steps σ) (i : ℕ) :
    occurrences (Touches i) steps ≤ 2 * occurrences (Starts vm i) steps := by
  have hpaid := h.occurrences_le (m := credit i) (E := Touches i) (F := Starts vm i)
    (a := 0) (c := 2) ?_ fun σ σ' hr hs => credit_step hr hs i
  · omega
  · rintro σ ⟨hscheduler, -, hphase⟩
    have hnot : ¬ σ.scheduler.Done i := by
      simp [hscheduler, Scheduler.Done, Scheduler.new, Scheduler.statusOf]
    simp [credit, hphase, Phase.credit, hnot]

end Credit

end Pexe

end Pevm
