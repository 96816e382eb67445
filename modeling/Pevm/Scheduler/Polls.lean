import Pevm.Scheduler.Counter
import Pevm.Scheduler.Preservation

/-!
# What an iteration of `next_task` finds

The task that is handed out says how its transaction stands. At the end of the block the workers
are let go, for between any two calls the counter of validated transactions is exact.
-/
namespace Pevm
open Transition

namespace Scheduler
variable {s s' : Scheduler} {v : TxVersion} {i : ℕ}

section Poll

lemma PollSpec.ready {p : Poll} (h : PollSpec s p s') (hi : s'.statusOf i = .readyToExecute) :
    s.statusOf i = .readyToExecute := by
  cases h with
  | exit | wait | skip | validate => exact hi
  | execute | steal =>
    rw [setStatus_statusOf] at hi
    split_ifs at hi
    exact hi

lemma PollSpec.execution (h : PollSpec s (.task (.execution v)) s') :
    v.txIdx < s.blockSize ∧ s.statusOf v.txIdx = .readyToExecute ∧
      s'.statusOf v.txIdx = .executing := by
  cases h with
  | execute hlt hready _ | steal hlt _ hready => exact ⟨hlt, hready, by simp [versionOf]⟩

lemma PollSpec.validation (h : PollSpec s (.task (.validation v)) s') : s.Done v.txIdx := by
  cases h with
  | validate _ hd => exact hd

lemma PollSpec.dependents {p : Poll} (h : PollSpec s p s') :
    s'.transactionsDependents = s.transactionsDependents := by
  cases h <;> rfl

lemma finishValidation_false_task (v : TxVersion) : (s.finishValidation v false).1 = none := by
  simp only [finishValidation, Bool.false_eq_true, if_false]
  split <;> rfl

lemma poll_of_end (hnot : s.aborted = false) (he : s.blockSize ≤ s.executionIdx)
    (hv : s.blockSize ≤ s.validationIdx) (hnum : s.blockSize ≤ s.numValidated) :
    s.poll = (.exit, s) := by
  have hall : s.blockSize - s.minValidationIdx ≤ s.numValidated := by omega
  simp [poll, hnot, he, hv, hall]

end Poll

section Counted

/-- The same transactions are validated. -/
lemma Counts.of_iff (hnum : s'.numValidated = s.numValidated) (hsize : s'.blockSize = s.blockSize)
    (h : ∀ i < s.blockSize, s'.statusOf i = .validated ↔ s.statusOf i = .validated) :
    Counts s s' := by
  refine .same hnum ?_
  unfold validatedCount
  rw [hsize, Finset.filter_congr fun i hi => h i (Finset.mem_range.mp hi)]

lemma validatedCount_of_all (h : ∀ i < s.blockSize, s.statusOf i = .validated) :
    s.validatedCount = s.blockSize := by
  unfold validatedCount
  rw [Finset.filter_true_of_mem fun i hi => h i (Finset.mem_range.mp hi), Finset.card_range]

lemma counts_poll (s : Scheduler) : Counts s s.poll.2 := by
  have hspec := s.poll_spec
  revert hspec
  generalize s.poll = r
  obtain ⟨p, s'⟩ := r
  intro hspec
  cases hspec with
  | exit => exact .silent rfl rfl rfl
  | wait => exact .silent rfl rfl rfl
  | skip => exact .silent rfl rfl rfl
  | execute hlt hready => exact .update hlt rfl rfl rfl (by simp [hready]) (by simp)
  | steal hlt _ hready => exact .update hlt rfl rfl rfl (by simp [hready]) (by simp)
  | validate => exact .silent rfl rfl rfl

lemma resume_foldl_numValidated (deps : List ℕ) (s : Scheduler) :
    (deps.foldl resume s).numValidated = s.numValidated := by
  induction deps generalizing s with
  | nil => rfl
  | cons d deps ih => exact ih (s.resume d)

lemma finishExecution_numValidated {v : TxVersion} (hv : v.txIdx < s.blockSize)
    (flags : FinishExecFlags) :
    (s.finishExecution v flags).2.numValidated = s.numValidated := by
  have hresume := resume_foldl_numValidated (s.transactionsDependents v.txIdx)
    (s.withDependents v.txIdx [])
  rw [finishExecution_eq hv]
  dsimp only
  split_ifs <;> exact hresume

end Counted

end Scheduler

namespace Crew
variable {W ρ : Type} [DecidableEq W] {σ σ' : Crew W ρ}

/-- Every call keeps the books. -/
lemma Step.counts (h : Invariant σ) (hstep : Step σ σ') :
    σ.scheduler.Counts σ'.scheduler := by
  cases hstep with
  | nextTask => exact Scheduler.counts_poll _
  | @addDependency w v b hw _ =>
    obtain ⟨hv, hst, -⟩ := h.executing_facts (w := w) (i := v.txIdx) (by simp [hw])
    rw [assign_scheduler, Scheduler.addDependency_eq]
    split
    · exact .silent rfl rfl rfl
    · exact .update hv rfl rfl rfl (by simp [hst]) (by simp)
  | storeResult => exact .silent rfl rfl rfl
  | @finishExecution w v flags hw =>
    obtain ⟨hv, hst, -⟩ := h.executing_facts (w := w) (i := v.txIdx) (by simp [hw])
    refine .of_iff (Scheduler.finishExecution_numValidated hv flags)
      (Scheduler.finishExecution_blockSize hv flags).1 fun i hi => ?_
    rw [assign_scheduler, Scheduler.finishExecution_statusOf hv]
    split_ifs with hiv hparked
    · simp [hiv, hst]
    · simp [((h.tx i hi).parked _ hparked).2.1]
    · exact Iff.rfl
  | @tryValidationAbort w v hw =>
    exact Scheduler.counts_tryValidationAbort (h.bound w v.txIdx (by simp [hw]))
  | @finishValidation w v hw =>
    exact Scheduler.counts_finishValidation (h.bound w v.txIdx (by simp [hw]))
  | @finishAbort w v hw =>
    obtain ⟨hv, hst, -⟩ := h.aborting_facts (w := w) (i := v.txIdx) (by simp [hw])
    rw [assign_scheduler, Scheduler.finishValidation_true v hv]
    dsimp only
    split_ifs
    · refine .of_iff rfl rfl fun i _ => ?_
      by_cases hiv : i = v.txIdx <;> simp [hiv, hst]
    · exact .update hv rfl rfl rfl (by simp [hst]) (by simp)

/-- Between any two calls the counter is the number of validated transactions. -/
theorem numValidated_eq [Nonempty W] {n : ℕ} (h : (system W ρ n).Reachable σ) :
    σ.scheduler.numValidated = σ.scheduler.validatedCount := by
  induction h with
  | init h =>
    rw [h.1]
    simp [Scheduler.new, Scheduler.validatedCount, Scheduler.statusOf]
  | @step τ τ' hr hstep ih =>
    cases hstep.counts (Invariant.of_reachable hr).1 with
    | same hnum hcount => omega
    | up j _ _ _ hnum hcount => omega
    | down j _ _ _ hnum hcount => omega

end Crew

end Pevm
