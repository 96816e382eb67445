import Mathlib.Algebra.BigOperators.Group.Finset.Basic
import Mathlib.Algebra.BigOperators.Ring.Finset
import Pevm.Scheduler.Exclusive

/-!
# The counter of validated transactions

Whenever a status becomes validated or ceases to be so, the counter moves with it. That a
status is what a method expects it to be, when the method overwrites it, is what
exclusive execution gives.
-/
namespace Pevm
open Transition

namespace Scheduler
variable {s : Scheduler} {j : ℕ}

/-- How many transactions of the block are validated, counted one by one. -/
def validatedCount (s : Scheduler) : ℕ :=
  ((Finset.range s.blockSize).filter fun j => s.statusOf j = .validated).card

/-- One status changes. -/
lemma validatedCount_update (s' : Scheduler) {st : TxStatus} (hj : j < s.blockSize)
    (hsize : s'.blockSize = s.blockSize)
    (hstatus : s'.transactionsStatus = Function.update s.transactionsStatus j st) :
    s'.validatedCount + (if s.statusOf j = .validated then 1 else 0) =
      s.validatedCount + (if st.status = .validated then 1 else 0) := by
  have hmem := Finset.mem_range.mpr hj
  have hold := Finset.sum_erase_add (Finset.range s.blockSize)
    (fun i => if s.statusOf i = .validated then 1 else 0) hmem
  have hnew := Finset.sum_erase_add (Finset.range s.blockSize)
    (fun i => if s'.statusOf i = .validated then 1 else 0) hmem
  have hrest : ∑ i ∈ (Finset.range s.blockSize).erase j,
      (if s'.statusOf i = .validated then 1 else 0) =
        ∑ i ∈ (Finset.range s.blockSize).erase j,
          (if s.statusOf i = .validated then 1 else 0) := by
    apply Finset.sum_congr rfl
    intro i hi
    have hij : i ≠ j := (Finset.mem_erase.mp hi).1
    have hsame : s'.statusOf i = s.statusOf i := by simp [statusOf, hstatus, hij]
    rw [hsame]
  have hself : s'.statusOf j = st.status := by simp [statusOf, hstatus]
  rw [hrest, hself] at hnew
  simp only [validatedCount, Finset.card_filter, hsize]
  omega

/-- The status changes between values other than validated. -/
lemma validatedCount_update_of_ne {s' : Scheduler} {st : TxStatus} (hj : j < s.blockSize)
    (hsize : s'.blockSize = s.blockSize)
    (hstatus : s'.transactionsStatus = Function.update s.transactionsStatus j st)
    (hold : s.statusOf j ≠ .validated) (hnew : st.status ≠ .validated) :
    s'.validatedCount = s.validatedCount := by
  have hcount := validatedCount_update s' hj hsize hstatus
  rw [if_neg hold, if_neg hnew] at hcount
  exact hcount

lemma validatedCount_congr {s' : Scheduler} (hsize : s'.blockSize = s.blockSize)
    (hstatus : s'.transactionsStatus = s.transactionsStatus) :
    s'.validatedCount = s.validatedCount := by
  have hsame : ∀ i, s'.statusOf i = s.statusOf i := by
    intro i
    simp only [statusOf, hstatus]
  unfold validatedCount
  rw [hsize, Finset.filter_congr fun i _ => by rw [hsame i]]

/-- A validated transaction is counted. -/
lemma validatedCount_pos (hj : j < s.blockSize) (h : s.statusOf j = .validated) :
    0 < s.validatedCount := by
  apply Finset.card_pos.mpr
  exact ⟨j, Finset.mem_filter.mpr ⟨Finset.mem_range.mpr hj, h⟩⟩

/-- What a step does to the counter: nothing, or it counts one transaction that was not validated
and now is, or it takes one back that was validated and is no more. -/
inductive Counts (s s' : Scheduler) : Prop
  | same : s'.numValidated = s.numValidated → s'.validatedCount = s.validatedCount → Counts s s'
  | up (j : ℕ) : j < s.blockSize → s.statusOf j ≠ .validated → s'.statusOf j = .validated →
      s'.numValidated = s.numValidated + 1 → s'.validatedCount = s.validatedCount + 1 →
      Counts s s'
  | down (j : ℕ) : j < s.blockSize → s.statusOf j = .validated → s'.statusOf j ≠ .validated →
      s'.numValidated = s.numValidated - 1 → s'.validatedCount + 1 = s.validatedCount →
      Counts s s'

variable {s' : Scheduler}

lemma Counts.silent (hnum : s'.numValidated = s.numValidated) (hsize : s'.blockSize = s.blockSize)
    (hstatus : s'.transactionsStatus = s.transactionsStatus) : Counts s s' :=
  .same hnum (validatedCount_congr hsize hstatus)

lemma Counts.update {st : TxStatus} (hj : j < s.blockSize)
    (hnum : s'.numValidated = s.numValidated) (hsize : s'.blockSize = s.blockSize)
    (hstatus : s'.transactionsStatus = Function.update s.transactionsStatus j st)
    (hold : s.statusOf j ≠ .validated) (hnew : st.status ≠ .validated) : Counts s s' :=
  .same hnum (validatedCount_update_of_ne hj hsize hstatus hold hnew)

lemma counts_tryExecute (s : Scheduler) (j : ℕ) : Counts s (s.tryExecute j).2 := by
  unfold tryExecute
  by_cases h : j < s.blockSize ∧ s.statusOf j = .readyToExecute
  · rw [if_pos h]
    exact .update h.1 rfl rfl rfl (by simp [h.2]) (by simp)
  · rw [if_neg h]
    exact .silent rfl rfl rfl

lemma counts_tryValidationAbort {v : TxVersion} (hv : v.txIdx < s.blockSize) :
    Counts s (s.tryValidationAbort v).2 := by
  rw [tryValidationAbort_eq]
  by_cases hdone : s.Done v.txIdx
  · rw [if_pos hdone]
    by_cases hst : s.statusOf v.txIdx = .validated
    · have hcount := validatedCount_update
        ((s.setStatus v.txIdx .aborting).withNumValidated (s.numValidated - 1)) hv rfl rfl
      rw [if_pos hst] at hcount ⊢
      exact .down v.txIdx hv hst (by simp) rfl hcount
    · rw [if_neg hst]
      exact .update hv rfl rfl rfl hst (by simp)
  · rw [if_neg hdone]
    exact .silent rfl rfl rfl

lemma counts_finishValidation {v : TxVersion} (hv : v.txIdx < s.blockSize) :
    Counts s (s.finishValidation v false).2 := by
  simp only [finishValidation, Bool.false_eq_true, if_false]
  by_cases hst : s.statusOf v.txIdx = .executed
  · rw [if_pos hst]
    have hne : s.statusOf v.txIdx ≠ .validated := by simp [hst]
    have hcount := validatedCount_update (s.markValidated v.txIdx) hv rfl rfl
    rw [if_neg hne] at hcount
    exact .up v.txIdx hv hne (by simp [markValidated]) rfl hcount
  · rw [if_neg hst]
    exact .silent rfl rfl rfl

end Scheduler

namespace Threads
open Scheduler
variable {W : Type} [DecidableEq W] {σ : Threads W}

lemma counts_take (w : W) (j : ℕ) : Counts σ.scheduler (σ.take w j).scheduler := by
  have hcounts := counts_tryExecute σ.scheduler j
  unfold Threads.take
  revert hcounts
  generalize σ.scheduler.tryExecute j = r
  obtain ⟨_ | v, s⟩ := r <;> exact id

/-- Every step keeps the books. -/
theorem Step.counts {σ' : Threads W} (hinv : Board.Invariant σ.board) (hbound : Bounded σ)
    (h : Step σ σ') : Counts σ.scheduler σ'.scheduler := by
  -- who is in execution is executing, and who is aborted is aborting
  have hexecution : ∀ w v, (σ.point w).charge.execution = some v →
      v.txIdx < σ.scheduler.blockSize ∧ σ.scheduler.statusOf v.txIdx ≠ .validated := by
    intro w v hv
    obtain ⟨hlt, hstatus⟩ := hinv.execution w v hv
    have hst : σ.scheduler.transactionsStatus v.txIdx = ⟨v.txIncarnation, .executing⟩ := hstatus
    exact ⟨hlt, by simp [statusOf, hst]⟩
  have haborting : ∀ j, σ.scheduler.statusOf j = .aborting →
      σ.scheduler.statusOf j ≠ .validated := by
    intro j hj
    simp [hj]
  cases h with
  | loadAborted => exact .silent rfl rfl rfl
  | loadExecutionIdx => exact .silent rfl rfl rfl
  | loadValidationIdx => exact .silent rfl rfl rfl
  | loadNumValidated => exact .silent rfl rfl rfl
  | loadMinValidationIdx => exact .silent rfl rfl rfl
  | takeValidationIdx => exact .silent rfl rfl rfl
  | fallThrough => exact .silent rfl rfl rfl
  | pastEnd => exact .silent rfl rfl rfl
  | steal _ hj _ hready => exact .update hj rfl rfl rfl (by simp [hready]) (by simp)
  | validate => exact .silent rfl rfl rfl
  | skipAborting => exact .silent rfl rfl rfl
  | skipExecuting => exact .silent rfl rfl rfl
  | takeExecutionIdx => exact .silent rfl rfl rfl
  | @tryExecute w j => exact counts_take w j
  | block => exact .silent rfl rfl rfl
  | @addDependency w v b lower hw =>
    obtain ⟨hv, hne⟩ := hexecution w v (by rw [hw]; rfl)
    rw [addDependency_eq]
    split
    · exact .silent rfl rfl rfl
    · exact .update hv rfl rfl rfl hne (by simp)
  | abort => exact .silent rfl rfl rfl
  | leave => exact .silent rfl rfl rfl
  | execute => exact .silent rfl rfl rfl
  | lock => exact .silent rfl rfl rfl
  | @setReadyStatus w v flags d deps hw hdeps =>
    obtain ⟨-, hd, hst, -⟩ := hinv.parked v.txIdx d (by
      show d ∈ σ.scheduler.transactionsDependents v.txIdx
      simp [hdeps])
    exact .update hd rfl rfl rfl (haborting d hst) (by simp)
  | lowerExecutionIdx => exact .silent rfl rfl rfl
  | lowerMinValidationIdx => exact .silent rfl rfl rfl
  | loadMinValidationIdxToo => exact .silent rfl rfl rfl
  | noBound => exact .silent rfl rfl rfl
  | lowerToBound => split <;> exact .silent rfl rfl rfl
  | compareValidationIdx => exact .silent rfl rfl rfl
  | lowerValidationIdx => split <;> exact .silent rfl rfl rfl
  | @report w v flags hw =>
    obtain ⟨hv, hne⟩ := hexecution w v (by rw [hw]; rfl)
    exact .update hv rfl rfl rfl hne (by simp)
  -- every value contains the empty flag, so nothing is counted here
  | markValidated _ hflags => simp at hflags
  | @close w v flags hw =>
    obtain ⟨hv, hne⟩ := hexecution w v (by rw [hw]; rfl)
    rw [FinishExecFlags.contains_needValidation, if_pos rfl]
    exact .update hv rfl rfl rfl hne (by simp)
  | validateReadLocations => exact .silent rfl rfl rfl
  | @tryValidationAbort w v hw =>
    exact counts_tryValidationAbort (hbound w v (by rw [hw]; rfl))
  | @setReadyStatusToo w v hw =>
    have hst := (hinv.abortion w v (by rw [board_charge hw]; rfl)).1
    exact .update (hbound w v (by rw [hw]; rfl)) rfl rfl rfl (haborting _ hst) (by simp)
  | lowerValidationIdxToo => exact .silent rfl rfl rfl
  | compareExecutionIdx => exact .silent rfl rfl rfl
  | @tryExecuteAgain w v => exact counts_take w v.txIdx
  | @finishValidation w v hw =>
    exact counts_finishValidation (hbound w v (by rw [hw]; rfl))

/-- In every reachable state the counter is the number of validated transactions. Whoever is about
to take one back finds it counted, and a step that counts one finds it not counted yet. -/
theorem validated_counter_exact {n : ℕ} (h : (system W n).Reachable σ) :
    σ.scheduler.numValidated = σ.scheduler.validatedCount ∧
    (∀ w v, σ.point w = .failed v → σ.scheduler.statusOf v.txIdx = .validated →
      0 < σ.scheduler.numValidated) ∧
    ∀ σ', Step σ σ' → σ'.scheduler.numValidated ≠ σ.scheduler.numValidated → ∃ j < n,
      σ.scheduler.statusOf j ≠ .validated ∧ σ'.scheduler.statusOf j = .validated ∧
          σ'.scheduler.numValidated = σ.scheduler.numValidated + 1 ∨
        σ.scheduler.statusOf j = .validated ∧ σ'.scheduler.statusOf j ≠ .validated ∧
          σ'.scheduler.numValidated + 1 = σ.scheduler.numValidated := by
  have hexact : σ.scheduler.numValidated = σ.scheduler.validatedCount := by
    induction h with
    | init h =>
      rw [h.1]
      simp [Scheduler.new, validatedCount, statusOf]
    | @step τ τ' hreach hstep ih =>
      have hcounts := hstep.counts (board_invariant hreach).1 (bounded_of_reachable hreach)
      cases hcounts with
      | same hnum hcount => omega
      | up j _ _ _ hnum hcount => omega
      | down j hj hst _ hnum hcount => omega
  obtain ⟨hinv, hsize⟩ := board_invariant h
  have hbound := bounded_of_reachable h
  refine ⟨hexact, ?_, ?_⟩
  · intro w v hw hst
    rw [hexact]
    exact validatedCount_pos (hbound w v (by rw [hw]; rfl)) hst
  · intro σ' hstep hne
    rw [← hsize]
    cases hstep.counts hinv hbound with
    | same hnum => exact absurd hnum hne
    | up j hj hold hnew hnum => exact ⟨j, hj, .inl ⟨hold, hnew, hnum⟩⟩
    | down j hj hold hnew hnum =>
      have hpos := validatedCount_pos hj hold
      exact ⟨j, hj, .inr ⟨hold, hnew, by omega⟩⟩

/-- A transaction that is executed twice is counted once. -/
theorem validated_counter_exact_resumed :
    ∃ σ : Threads Bool, (system Bool 2).Reachable σ ∧ σ.scheduler.numValidated = 2 ∧
      σ.scheduler.validatedCount = 2 := by
  obtain ⟨σ, hreach, hnum, -⟩ := resumed_gone
  exact ⟨σ, hreach, hnum, (validated_counter_exact hreach).1.symm.trans hnum⟩

end Threads

end Pevm
