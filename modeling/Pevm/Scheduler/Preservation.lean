import Pevm.Scheduler.Invariant

/-!
# Every call keeps the invariant

One lemma for each call of a worker, and from them the invariant of every reachable
state.
-/
namespace Pevm
open Transition

namespace Scheduler
variable {s s' : Scheduler} {j : ℕ}

lemma transactionsStatus_eq (hincarnation : s'.incarnationOf j = s.incarnationOf j)
    (hstatus : s'.statusOf j = s.statusOf j) : s'.transactionsStatus j = s.transactionsStatus j := by
  cases hold : s.transactionsStatus j
  cases hnew : s'.transactionsStatus j
  simp only [statusOf, incarnationOf, hold, hnew] at hincarnation hstatus
  rw [hincarnation, hstatus]

section FinishExecution
variable {v : TxVersion} (flags : FinishExecFlags) (hi : v.txIdx < s.blockSize)
include hi

/-- The worker goes on with the validation of what it executed, or with nothing. -/
lemma finishExecution_role :
    Role.ofTask (s.finishExecution v flags).1 = .validator v ∨
      Role.ofTask (s.finishExecution v flags).1 = .idle := by
  rw [finishExecution_task hi]
  split_ifs
  · exact .inl rfl
  · exact .inr rfl

lemma mem_finishExecution_dependents (b : ℕ) :
    j ∈ (s.finishExecution v flags).2.transactionsDependents b ↔
      b ≠ v.txIdx ∧ j ∈ s.transactionsDependents b := by
  rw [finishExecution_dependents hi]
  by_cases hb : b = v.txIdx
  · subst hb
    simp
  · simp [hb]

lemma finishExecution_nodup (hnodup : (s.transactionsDependents j).Nodup) :
    ((s.finishExecution v flags).2.transactionsDependents j).Nodup := by
  rw [finishExecution_dependents hi]
  by_cases hj : j = v.txIdx
  · simp [hj]
  · rw [Function.update_of_ne hj]
    exact hnodup

end FinishExecution

end Scheduler

namespace Crew
variable {W ρ : Type} [DecidableEq W] {σ : Crew W ρ}

namespace Invariant
variable {w : W}

lemma of_assign (h : Invariant σ) {r : Role} {s : Scheduler} (hr : r ≠ .gone)
    (hnot : s.aborted = false) (hsize : s.blockSize = σ.scheduler.blockSize)
    (hbound : ∀ j, r.Concerns j → j < σ.scheduler.blockSize)
    (hparked : ∀ b j, j ∈ s.transactionsDependents b → j < σ.scheduler.blockSize)
    (htx : ∀ j < σ.scheduler.blockSize, TxInvariant (σ.assign w r s) j) :
    Invariant (σ.assign w r s) where
  notAborted := hnot
  bound w' j hw' := by
    rw [assign_scheduler, hsize]
    by_cases hww : w' = w
    · subst hww
      rw [assign_role_self] at hw'
      exact hbound j hw'
    · rw [assign_role_of_ne hww] at hw'
      exact h.bound w' j hw'
  parkedBound b j hb := by
    rw [assign_scheduler, hsize]
    exact hparked b j hb
  tx j hj := htx j (by rwa [assign_scheduler, hsize] at hj)
  goneDone hgone := absurd ((assign_role_self).symm.trans (hgone w)) hr

end Invariant

section Validation
variable {w : W} {v : TxVersion}

theorem Invariant.tryValidationAbort (h : Invariant σ) (hw : σ.role w = .validator v) :
    Invariant (σ.assign w
      (if (σ.scheduler.tryValidationAbort v).1 then .aborter v else .validator v)
      (σ.scheduler.tryValidationAbort v).2) := by
  have hi : v.txIdx < σ.scheduler.blockSize := h.bound w _ (by simp [hw])
  rw [Scheduler.tryValidationAbort_eq]
  by_cases hdone : σ.scheduler.Done v.txIdx
  · rw [if_pos hdone]
    have hun : Unheld σ v.txIdx := h.unheld_of_done hi hdone
    refine h.of_assign (by simp) h.notAborted rfl (by simp [hi]) h.parkedBound fun j hj => ?_
    by_cases hji : j = v.txIdx
    · subst hji
      apply TxInvariant.of_aborts
      · simp
      · rw [assign_role_self]
        simp
      · exact assign_only (P := (Role.Aborts · v.txIdx))
          fun w' hw' => absurd hw' (hun.aborts w')
      · exact assign_none (P := (Role.Executes · v.txIdx))
          (fun w' hw' => absurd hw' (hun.executes w')) (by simp)
      · exact hun.parked
      · exact (h.tx _ hi).parkedNodup
    · apply (h.tx j hj).frame_of_not_concerns
      · simp [hw, Ne.symm hji]
      · simp [Ne.symm hji]
      · simp [hji]
      · simp
      · exact (h.tx j hj).parkedNodup
      · exact fun b _ hd => Scheduler.Done.of_setStatus (by simp) (by simp) hd
      · exact fun _ => id
      · exact fun _ => id
  · rw [if_neg hdone]
    have hsame : σ.assign w (.validator v) σ.scheduler = σ := by
      rw [← hw]
      simp [assign]
    simpa [hsame] using h

theorem Invariant.finishValidation (h : Invariant σ) (hw : σ.role w = .validator v) :
    Invariant (σ.assign w (.ofTask (σ.scheduler.finishValidation v false).1)
      (σ.scheduler.finishValidation v false).2) := by
  have hi : v.txIdx < σ.scheduler.blockSize := h.bound w _ (by simp [hw])
  simp only [Scheduler.finishValidation, Bool.false_eq_true, if_false]
  by_cases hst : σ.scheduler.statusOf v.txIdx = .executed
  · rw [if_pos hst]
    have hun : Unheld σ v.txIdx := h.unheld_of_done hi (.inl hst)
    refine h.of_assign (by simp [Role.ofTask]) h.notAborted rfl (by simp [Role.ofTask])
      h.parkedBound fun j hj => ?_
    by_cases hji : j = v.txIdx
    · subst hji
      apply TxInvariant.of_unheld
      · exact unheld_assign (fun w' hw' => absurd hw' (hun.executes w')) (by simp [Role.ofTask])
          (fun w' hw' => absurd hw' (hun.aborts w')) (by simp [Role.ofTask]) hun.parked
      · exact (h.tx _ hi).parkedNodup
      · simp [Scheduler.markValidated]
      · simp [Scheduler.markValidated]
      · simp [Scheduler.markValidated]
      · simp [Scheduler.markValidated]
      · intro _
        exact (h.tx _ hi).filled (.inl (.inl hst))
    · apply (h.tx j hj).frame_of_not_concerns
      · simp [hw, Ne.symm hji]
      · simp [Role.ofTask]
      · simp [Scheduler.markValidated, hji]
      · simp [Scheduler.markValidated]
      · exact (h.tx j hj).parkedNodup
      · intro b hb hd
        by_cases hbi : b = v.txIdx
        · exact hbi ▸ .inl hst
        · simpa [Scheduler.Done, Scheduler.markValidated, hbi] using hd
      · exact fun _ => id
      · exact fun _ => id
  · rw [if_neg hst]
    refine h.of_assign (by simp [Role.ofTask]) h.notAborted rfl (by simp [Role.ofTask])
      h.parkedBound fun j hj => ?_
    apply (h.tx j hj).frame
    · simp [hw]
    · simp [Role.ofTask]
    · simp [hw]
    · simp [Role.ofTask]
    · rfl
    · exact fun _ => Iff.rfl
    · exact (h.tx j hj).parkedNodup
    · exact fun _ _ => id
    · exact fun _ => id
    · rintro hexecuted (hle | hex)
      · exact .inl hle
      · refine .inr (exists_assign (P := (Role.Validates · j)) hex ?_)
        rw [hw, Role.validates_validator]
        rintro rfl
        exact hst hexecuted

theorem Invariant.finishAbort (h : Invariant σ) (hw : σ.role w = .aborter v) :
    Invariant (σ.assign w (.ofTask (σ.scheduler.finishValidation v true).1)
      (σ.scheduler.finishValidation v true).2) := by
  have hwA : (σ.role w).Aborts v.txIdx := by simp [hw]
  obtain ⟨hi, hst, honly, hexec, hpark⟩ := h.aborting_facts hwA
  rw [Scheduler.finishValidation_true v hi]
  by_cases hlt : v.txIdx < σ.scheduler.executionIdx
  · simp only [hlt, if_true]
    refine h.of_assign (by simp [Role.ofTask]) h.notAborted rfl
      (by simp [Role.ofTask, Scheduler.versionOf, hi]) h.parkedBound fun j hj => ?_
    by_cases hji : j = v.txIdx
    · subst hji
      apply TxInvariant.of_executes
      · simp
      · rw [assign_role_self]
        simp [Role.ofTask, Scheduler.versionOf]
      · exact assign_only (P := (Role.Executes · v.txIdx))
          fun w' hw' => absurd hw' (hexec w')
      · intro v' hrole _
        rw [assign_role_self] at hrole
        simp only [Role.ofTask, Role.executor.injEq, reduceCtorEq, or_false] at hrole
        rw [← hrole]
        simp [Scheduler.versionOf]
      · exact assign_none (P := (Role.Aborts · v.txIdx)) honly (by simp [Role.ofTask])
      · exact hpark
      · exact (h.tx _ hi).parkedNodup
      · rw [assign_role_self]
        simp [Role.ofTask, Role.Finishes]
    · apply (h.tx j hj).frame_of_not_concerns
      · simp [hw, Ne.symm hji]
      · simp [Role.ofTask, Scheduler.versionOf, Ne.symm hji]
      · simp [hji]
      · simp
      · exact (h.tx j hj).parkedNodup
      · exact fun b _ hd =>
          (Scheduler.Done.of_setStatus (by simp) (by simp) hd).of_setReadyStatus
      · exact fun _ => id
      · exact fun _ hle => (Nat.min_le_left _ _).trans hle
  · simp only [hlt, if_false]
    refine h.of_assign (by simp [Role.ofTask]) h.notAborted rfl (by simp [Role.ofTask])
      h.parkedBound fun j hj => ?_
    by_cases hji : j = v.txIdx
    · subst hji
      apply TxInvariant.of_unheld
      · exact unheld_assign (fun w' hw' => absurd hw' (hexec w')) (by simp [Role.ofTask])
          honly (by simp [Role.ofTask]) hpark
      · exact (h.tx _ hi).parkedNodup
      · simp
      · simp
      · exact fun _ => not_lt.mp hlt
      · simp
      · simp [Scheduler.Done]
    · apply (h.tx j hj).frame_of_not_concerns
      · simp [hw, Ne.symm hji]
      · simp [Role.ofTask]
      · simp [hji]
      · simp
      · exact (h.tx j hj).parkedNodup
      · exact fun b _ hd => Scheduler.Done.of_setReadyStatus hd
      · exact fun _ => id
      · exact fun _ hle => (Nat.min_le_left _ _).trans hle

end Validation

section Execution
variable {w : W} {v : TxVersion}

theorem Invariant.addDependency (h : Invariant σ) (hw : σ.role w = .executor v) {blocking : ℕ}
    (hlt : blocking < v.txIdx) :
    Invariant (σ.assign w
      (if (σ.scheduler.addDependency v.txIdx blocking).1 then .idle else .executor v)
      (σ.scheduler.addDependency v.txIdx blocking).2) := by
  have hwE : (σ.role w).Executes v.txIdx := by simp [hw]
  obtain ⟨hi, hst, honly, haborts, hpark⟩ := h.executing_facts hwE
  rw [Scheduler.addDependency_eq]
  by_cases hdone : σ.scheduler.Done blocking
  · rw [if_pos hdone]
    have hsame : σ.assign w (.executor v) σ.scheduler = σ := by
      rw [← hw]
      simp [assign]
    simpa [hsame] using h
  · rw [if_neg hdone]
    -- the list of the blocking transaction is the only one that grows
    have hmem : ∀ b j, j ∈ Function.update σ.scheduler.transactionsDependents blocking
        (σ.scheduler.transactionsDependents blocking ++ [v.txIdx]) b ↔
          j ∈ σ.scheduler.transactionsDependents b ∨ b = blocking ∧ j = v.txIdx := by
      intro b j
      by_cases hb : b = blocking
      · subst hb
        simp
      · simp [hb]
    have hnodup : ∀ j < σ.scheduler.blockSize,
        (Function.update σ.scheduler.transactionsDependents blocking
          (σ.scheduler.transactionsDependents blocking ++ [v.txIdx]) j).Nodup := by
      intro j hj
      by_cases hjb : j = blocking
      · subst hjb
        rw [Function.update_self]
        exact List.nodup_append'.mpr ⟨(h.tx j hj).parkedNodup, List.nodup_singleton _, by
          simpa using hpark j⟩
      · rw [Function.update_of_ne hjb]
        exact (h.tx j hj).parkedNodup
    refine h.of_assign (by simp) h.notAborted rfl (by simp) ?_ fun j hj => ?_
    · intro b j hb
      rcases (hmem b j).mp hb with hb | ⟨-, rfl⟩
      · exact h.parkedBound b j hb
      · exact hi
    by_cases hji : j = v.txIdx
    · subst hji
      apply TxInvariant.of_parked (b := blocking)
      · simp
      · exact (hmem _ _).mpr (.inr ⟨rfl, rfl⟩)
      · intro b hb
        rcases (hmem b _).mp hb with hb | ⟨rfl, -⟩
        · exact absurd hb (hpark b)
        · rfl
      · exact hlt
      · exact fun hd => hdone (Scheduler.Done.of_setStatus (by simp) (by simp) hd)
      · exact assign_none (P := (Role.Executes · v.txIdx)) honly (by simp)
      · exact assign_none (P := (Role.Aborts · v.txIdx))
          (fun w' hw' => absurd hw' (haborts w')) (by simp)
      · exact hnodup _ hi
    · apply (h.tx j hj).frame_of_not_concerns
      · simp [hw, Ne.symm hji]
      · simp
      · simp [hji]
      · intro b
        refine (hmem b j).trans ?_
        simp [hji]
      · exact hnodup j hj
      · exact fun b _ hd => Scheduler.Done.of_setStatus (by simp) (by simp) hd
      · exact fun _ => id
      · exact fun _ => id

theorem Invariant.storeResult (h : Invariant σ) (hw : σ.role w = .executor v) (result : ρ) :
    Invariant ((σ.storeResult v.txIdx result).assign w (.finisher v) σ.scheduler) := by
  have hwE : (σ.role w).Executes v.txIdx := by simp [hw]
  obtain ⟨hi, hst, honly, haborts, hpark⟩ := h.executing_facts hwE
  have hstored : Invariant (σ.storeResult v.txIdx result) :=
    ⟨h.notAborted, h.bound, h.parkedBound, fun j hj => (h.tx j hj).storeResult result, h.goneDone⟩
  refine hstored.of_assign (by simp) h.notAborted rfl ?_ h.parkedBound fun j hj => ?_
  · rintro j hj
    rw [Role.concerns_finisher] at hj
    rw [← hj]
    exact hi
  by_cases hji : j = v.txIdx
  · subst hji
    apply TxInvariant.of_executes (w := w)
    · exact hst
    · rw [assign_role_self]
      simp
    · exact assign_only (P := (Role.Executes · v.txIdx)) honly
    · intro v' hrole _
      rw [assign_role_self] at hrole
      simp only [reduceCtorEq, Role.finisher.injEq, false_or] at hrole
      rw [← hrole]
      exact (h.tx _ hi).incarnation w v (.inl hw) rfl
    · exact assign_none (P := (Role.Aborts · v.txIdx))
        (fun w' hw' => absurd hw' (haborts w')) (by simp)
    · exact hpark
    · exact (h.tx _ hi).parkedNodup
    · simp [Crew.storeResult]
  · apply (hstored.tx j hj).frame_of_not_concerns
    · have hrole : (σ.storeResult v.txIdx result).role w = .executor v := hw
      simp [hrole, Ne.symm hji]
    · simp [Ne.symm hji]
    · rfl
    · exact fun _ => Iff.rfl
    · exact (h.tx j hj).parkedNodup
    · exact fun _ _ => id
    · exact fun _ => id
    · exact fun _ => id

section FinishExecution
variable (h : Invariant σ) (hw : σ.role w = .finisher v) (flags : FinishExecFlags)

include h hw

/-- The transaction that was executed. -/
lemma Invariant.finishExecution_self :
    TxInvariant (σ.assign w (.ofTask (σ.scheduler.finishExecution v flags).1)
      (σ.scheduler.finishExecution v flags).2) v.txIdx := by
  have hwE : (σ.role w).Executes v.txIdx := by simp [hw]
  obtain ⟨hi, -, honly, haborts, hpark⟩ := h.executing_facts hwE
  have hrole := Scheduler.finishExecution_role flags hi
  have hstatus : (σ.scheduler.finishExecution v flags).2.statusOf v.txIdx = .executed := by
    rw [Scheduler.finishExecution_statusOf hi, if_pos rfl]
  have hval := Scheduler.finishExecution_validationIdx hi flags
  apply TxInvariant.of_unheld
  · apply unheld_assign honly
    · rcases hrole with hr | hr <;> simp [hr]
    · exact fun w' hw' => absurd hw' (haborts w')
    · rcases hrole with hr | hr <;> simp [hr]
    · exact fun b hb => hpark b ((Scheduler.mem_finishExecution_dependents flags hi b).mp hb).2
  · exact Scheduler.finishExecution_nodup flags hi (h.tx _ hi).parkedNodup
  · simp [hstatus]
  · simp [hstatus]
  · simp [hstatus]
  · intro _
    by_cases hlt : v.txIdx < σ.scheduler.validationIdx
    · refine .inr ⟨w, ?_⟩
      rw [assign_role_self, Scheduler.finishExecution_task hi, if_pos hlt]
      exact Role.validates_validator.mpr rfl
    · left
      rw [assign_scheduler, hval, if_neg (fun hc => hlt hc.1)]
      omega
  · intro _
    exact (h.tx _ hi).filled (.inr ⟨w, v, hw, rfl⟩)

/-- A transaction that was parked behind it is resumed. -/
lemma Invariant.finishExecution_resumed {j : ℕ} (hj : j < σ.scheduler.blockSize)
    (hji : j ≠ v.txIdx) (hjd : j ∈ σ.scheduler.transactionsDependents v.txIdx) :
    TxInvariant (σ.assign w (.ofTask (σ.scheduler.finishExecution v flags).1)
      (σ.scheduler.finishExecution v flags).2) j := by
  have hi : v.txIdx < σ.scheduler.blockSize := h.bound w _ (by simp [hw])
  have hrole := Scheduler.finishExecution_role flags hi
  have hstatus :
      (σ.scheduler.finishExecution v flags).2.statusOf j = .readyToExecute := by
    rw [Scheduler.finishExecution_statusOf hi, if_neg hji, if_pos hjd]
  obtain ⟨-, hstj, -⟩ := (h.tx j hj).parked _ hjd
  apply TxInvariant.of_unheld
  · apply unheld_assign
    · intro w' hw'
      have hexecuting := (h.tx j hj).executing w' hw'
      simp [hstj] at hexecuting
    · rcases hrole with hr | hr <;> simp [hr]
    · intro w' hw'
      exact absurd hjd (((h.tx j hj).aborting w' hw').2 _)
    · rcases hrole with hr | hr <;> simp [hr]
    · intro b hb
      obtain ⟨hne, hb⟩ := (Scheduler.mem_finishExecution_dependents flags hi b).mp hb
      exact hne ((h.tx j hj).parkedUnique _ _ hb hjd)
  · exact Scheduler.finishExecution_nodup flags hi (h.tx j hj).parkedNodup
  · simp [hstatus]
  · simp [hstatus]
  · exact fun _ => (Scheduler.finishExecution_executionIdx hi flags).2 j hjd
  · simp [hstatus]
  · simp [Scheduler.Done, hstatus]

/-- The other transactions stay as they are. -/
lemma Invariant.finishExecution_others {j : ℕ} (hj : j < σ.scheduler.blockSize)
    (hji : j ≠ v.txIdx) (hjd : j ∉ σ.scheduler.transactionsDependents v.txIdx) :
    TxInvariant (σ.assign w (.ofTask (σ.scheduler.finishExecution v flags).1)
      (σ.scheduler.finishExecution v flags).2) j := by
  have hi : v.txIdx < σ.scheduler.blockSize := h.bound w _ (by simp [hw])
  have hstatus : (σ.scheduler.finishExecution v flags).2.statusOf j = σ.scheduler.statusOf j := by
    rw [Scheduler.finishExecution_statusOf hi, if_neg hji, if_neg hjd]
  have hinc : (σ.scheduler.finishExecution v flags).2.incarnationOf j =
      σ.scheduler.incarnationOf j := by
    rw [Scheduler.finishExecution_incarnationOf hi flags (h.tx _ hi).parkedNodup, if_neg hjd]
  have hval := Scheduler.finishExecution_validationIdx hi flags
  apply (h.tx j hj).frame_of_not_concerns
  · simp [hw, Ne.symm hji]
  · rcases Scheduler.finishExecution_role flags hi with hr | hr <;> simp [hr, Ne.symm hji]
  · exact Scheduler.transactionsStatus_eq hinc hstatus
  · intro b
    rw [Scheduler.mem_finishExecution_dependents flags hi]
    refine ⟨And.right, fun hb => ⟨?_, hb⟩⟩
    rintro rfl
    exact hjd hb
  · exact Scheduler.finishExecution_nodup flags hi (h.tx j hj).parkedNodup
  · intro b hb hd
    obtain ⟨hne, -⟩ := (Scheduler.mem_finishExecution_dependents flags hi b).mp hb
    exact (Scheduler.finishExecution_done hi flags hd).resolve_right hne
  · exact fun _ hle => (Scheduler.finishExecution_executionIdx hi flags).1.trans hle
  · intro _ hle
    rw [hval]
    split_ifs
    · omega
    · exact hle

theorem Invariant.finishExecution :
    Invariant (σ.assign w (.ofTask (σ.scheduler.finishExecution v flags).1)
      (σ.scheduler.finishExecution v flags).2) := by
  have hi : v.txIdx < σ.scheduler.blockSize := h.bound w _ (by simp [hw])
  obtain ⟨hsize, hnot⟩ := Scheduler.finishExecution_blockSize hi flags
  have hrole := Scheduler.finishExecution_role flags hi
  refine h.of_assign ?_ (hnot.trans h.notAborted) hsize ?_ ?_ fun j hj => ?_
  · rcases hrole with hr | hr <;> simp [hr]
  · intro j hj
    rcases hrole with hr | hr
    · rw [hr, Role.concerns_validator] at hj
      exact hj ▸ hi
    · rw [hr] at hj
      exact absurd hj Role.not_concerns_idle
  · intro b j hb
    exact h.parkedBound b j ((Scheduler.mem_finishExecution_dependents flags hi b).mp hb).2
  by_cases hji : j = v.txIdx
  · rw [hji]
    exact h.finishExecution_self hw flags
  · by_cases hjd : j ∈ σ.scheduler.transactionsDependents v.txIdx
    · exact h.finishExecution_resumed hw flags hj hji hjd
    · exact h.finishExecution_others hw flags hj hji hjd

end FinishExecution

end Execution

section NextTask
variable {w : W}

/-- A call of `next_task` that hands out nothing. -/
lemma Invariant.poll_again (h : Invariant σ) (hw : σ.role w = .idle) {s : Scheduler}
    (hs : Scheduler.PollSpec σ.scheduler .again s) : Invariant (σ.assign w .idle s) := by
  cases hs with
  | wait =>
    have hsame : σ.assign w .idle σ.scheduler = σ := by
      rw [← hw]
      simp [assign]
    rw [hsame]
    exact h
  | @skip e v he hv _ =>
    refine h.of_assign (by simp) h.notAborted rfl (by simp) h.parkedBound fun j hj => ?_
    apply (h.tx j hj).frame_of_not_concerns
    · simp [hw]
    · simp
    · rfl
    · exact fun _ => Iff.rfl
    · exact (h.tx j hj).parkedNodup
    · exact fun _ _ => id
    · intro hready hle
      rw [Scheduler.withExecutionIdx_executionIdx]
      rcases he with rfl | ⟨rfl, hskip⟩
      · exact hle
      · have hne : j ≠ σ.scheduler.executionIdx := by
          rintro rfl
          exact hskip hj hready
        omega
    · intro hexecuted hle
      rw [Scheduler.withExecutionIdx_validationIdx, Scheduler.withValidationIdx_validationIdx]
      rcases hv with rfl | ⟨rfl, hskip⟩
      · exact hle
      · have hne : j ≠ σ.scheduler.validationIdx := by
          rintro rfl
          rcases hskip with hst | hst <;> simp [hst] at hexecuted
        omega

/-- A call of `next_task` that hands out the execution of `i`. -/
lemma Invariant.poll_execution (h : Invariant σ) (hw : σ.role w = .idle) {i : ℕ} {s : Scheduler}
    (hi : i < σ.scheduler.blockSize) (hready : σ.scheduler.statusOf i = .readyToExecute)
    (hnot : s.aborted = false) (hsize : s.blockSize = σ.scheduler.blockSize)
    (hstatus : s.transactionsStatus = σ.scheduler.transactionsStatus)
    (hdeps : s.transactionsDependents = σ.scheduler.transactionsDependents)
    (hexec : ∀ j < σ.scheduler.blockSize, j ≠ i →
      σ.scheduler.statusOf j = .readyToExecute → σ.scheduler.executionIdx ≤ j →
        s.executionIdx ≤ j)
    (hval : ∀ j < σ.scheduler.blockSize, j ≠ i →
      σ.scheduler.statusOf j = .executed → σ.scheduler.validationIdx ≤ j →
        s.validationIdx ≤ j) :
    Invariant (σ.assign w (.executor (σ.scheduler.versionOf i)) (s.setStatus i .executing)) := by
  have hun : Unheld σ i := h.unheld hi (by simp [hready]) (by simp [hready])
  have hdone : ∀ b, (s.setStatus i .executing).Done b → σ.scheduler.Done b := by
    intro b hd
    have hsd : s.Done b := Scheduler.Done.of_setStatus (by simp) (by simp) hd
    simpa only [Scheduler.Done, Scheduler.statusOf, hstatus] using hsd
  refine h.of_assign (by simp) hnot hsize (by simp [Scheduler.versionOf, hi]) ?_ fun j hj => ?_
  · intro b j hb
    rw [Scheduler.setStatus_transactionsDependents, hdeps] at hb
    exact h.parkedBound b j hb
  by_cases hji : j = i
  · subst hji
    apply TxInvariant.of_executes (w := w)
    · simp
    · rw [assign_role_self]
      simp [Scheduler.versionOf]
    · exact assign_only (P := (Role.Executes · j)) fun w' hw' => absurd hw' (hun.executes w')
    · intro v' hrole _
      rw [assign_role_self] at hrole
      simp only [Role.executor.injEq, reduceCtorEq, or_false] at hrole
      rw [← hrole]
      simp [Scheduler.versionOf, Scheduler.incarnationOf, hstatus]
    · exact assign_none (P := (Role.Aborts · j)) (fun w' hw' => absurd hw' (hun.aborts w'))
        (by simp)
    · intro b hb
      rw [assign_scheduler, Scheduler.setStatus_transactionsDependents, hdeps] at hb
      exact hun.parked b hb
    · rw [assign_scheduler, Scheduler.setStatus_transactionsDependents, hdeps]
      exact (h.tx j hj).parkedNodup
    · rw [assign_role_self]
      simp [Role.Finishes]
  · apply (h.tx j hj).frame_of_not_concerns
    · simp [hw]
    · simp [Scheduler.versionOf, Ne.symm hji]
    · simp [hji, hstatus]
    · simp [hdeps]
    · rw [Scheduler.setStatus_transactionsDependents, hdeps]
      exact (h.tx j hj).parkedNodup
    · exact fun b _ => hdone b
    · exact hexec j hj hji
    · exact hval j hj hji

/-- A call of `next_task` that hands out a validation. -/
lemma Invariant.poll_validation (h : Invariant σ) (hw : σ.role w = .idle)
    (hi : σ.scheduler.validationIdx < σ.scheduler.blockSize) :
    Invariant (σ.assign w (.validator (σ.scheduler.versionOf σ.scheduler.validationIdx))
      (σ.scheduler.withValidationIdx (σ.scheduler.validationIdx + 1))) := by
  refine h.of_assign (by simp) h.notAborted rfl (by simp [Scheduler.versionOf, hi])
    h.parkedBound fun j hj => ?_
  apply (h.tx j hj).frame
  · simp [hw]
  · simp
  · simp [hw]
  · simp
  · rfl
  · exact fun _ => Iff.rfl
  · exact (h.tx j hj).parkedNodup
  · exact fun _ _ => id
  · exact fun _ => id
  · rintro - (hle | hex)
    · by_cases hji : j = σ.scheduler.validationIdx
      · refine .inr ⟨w, ?_⟩
        rw [assign_role_self, hji]
        exact Role.validates_validator.mpr rfl
      · left
        rw [Scheduler.withValidationIdx_validationIdx]
        omega
    · refine .inr (exists_assign (P := (Role.Validates · j)) hex ?_)
      simp [hw, Role.Validates]

/-- A worker leaves. -/
lemma Invariant.poll_exit (h : Invariant σ) (hw : σ.role w = .idle)
    (hexec : σ.scheduler.blockSize ≤ σ.scheduler.executionIdx)
    (hval : σ.scheduler.blockSize ≤ σ.scheduler.validationIdx) :
    Invariant (σ.assign w .gone σ.scheduler) where
  notAborted := h.notAborted
  bound w' j hw' := by
    by_cases hww : w' = w
    · subst hww
      rw [assign_role_self] at hw'
      exact absurd hw' Role.not_concerns_gone
    · rw [assign_role_of_ne hww] at hw'
      exact h.bound w' j hw'
  parkedBound := h.parkedBound
  tx j hj := by
    apply (h.tx j hj).frame_of_not_concerns
    · simp [hw]
    · simp
    · rfl
    · exact fun _ => Iff.rfl
    · exact (h.tx j hj).parkedNodup
    · exact fun _ _ => id
    · exact fun _ => id
    · exact fun _ => id
  goneDone hgone := by
    have hfree : ∀ w', (σ.role w').Free := by
      intro w'
      by_cases hww : w' = w
      · subst hww
        exact .inl hw
      · exact .inr (by simpa only [assign_role_of_ne hww] using hgone w')
    refine ⟨hval, fun j hj => ?_⟩
    by_contra hst
    obtain ⟨i, hi, ⟨-, hle⟩ | ⟨-, hle⟩⟩ := h.exists_pending hfree hj hst
    · omega
    · omega

theorem Invariant.nextTask (h : Invariant σ) (hw : σ.role w = .idle) :
    Invariant (σ.assign w (.ofPoll σ.scheduler.poll.1) σ.scheduler.poll.2) := by
  have hspec := σ.scheduler.poll_spec
  revert hspec
  generalize σ.scheduler.poll = r
  obtain ⟨p, s⟩ := r
  intro hspec
  cases p with
  | again => exact h.poll_again hw hspec
  | exit =>
    cases hspec with
    | exit hexit =>
      rcases hexit with hab | ⟨hexec, hval⟩
      · simp [h.notAborted] at hab
      · exact h.poll_exit hw hexec hval
  | task t =>
    cases hspec with
    | @execute v hlt hready hv =>
      refine h.poll_execution (s := (σ.scheduler.withValidationIdx v).withExecutionIdx
        (σ.scheduler.executionIdx + 1)) hw hlt hready h.notAborted rfl rfl rfl ?_ ?_
      · intro j _ hne _ hle
        rw [Scheduler.withExecutionIdx_executionIdx]
        omega
      · intro j hj _ hexecuted hle
        rw [Scheduler.withExecutionIdx_validationIdx, Scheduler.withValidationIdx_validationIdx]
        rcases hv with rfl | ⟨rfl, hskip⟩
        · exact hle
        · have hne : j ≠ σ.scheduler.validationIdx := by
            rintro rfl
            simp [hskip] at hexecuted
          omega
    | steal hlt hbehind hready =>
      -- whoever is ready is not behind the execution counter
      have hahead := (h.tx _ hlt).ready hready
      omega
    | validate hlt _ => exact h.poll_validation hw hlt

end NextTask

theorem Invariant.step {σ' : Crew W ρ} (h : Invariant σ) (hstep : Step σ σ') : Invariant σ' := by
  cases hstep with
  | nextTask hw => exact h.nextTask hw
  | addDependency hw hlt => exact h.addDependency hw hlt
  | storeResult result hw => exact h.storeResult hw result
  | finishExecution flags hw => exact h.finishExecution hw flags
  | tryValidationAbort hw => exact h.tryValidationAbort hw
  | finishValidation hw => exact h.finishValidation hw
  | finishAbort hw => exact h.finishAbort hw

lemma Invariant.blockSize_step {σ' : Crew W ρ} (h : Invariant σ) (hstep : Step σ σ') :
    σ'.scheduler.blockSize = σ.scheduler.blockSize := by
  cases hstep with
  | nextTask hw => exact σ.scheduler.poll_spec.blockSize
  | addDependency hw hlt =>
    rw [assign_scheduler, Scheduler.addDependency_eq]
    split <;> rfl
  | storeResult => rfl
  | @finishExecution w v flags hw =>
    have hi : v.txIdx < σ.scheduler.blockSize := h.bound w _ (by simp [hw])
    exact (Scheduler.finishExecution_blockSize hi flags).1
  | tryValidationAbort hw =>
    rw [assign_scheduler, Scheduler.tryValidationAbort_eq]
    split <;> rfl
  | finishValidation hw =>
    simp only [assign_scheduler, Scheduler.finishValidation, Bool.false_eq_true, if_false]
    split <;> rfl
  | @finishAbort w v hw =>
    have hi : v.txIdx < σ.scheduler.blockSize := h.bound w _ (by simp [hw])
    rw [assign_scheduler, Scheduler.finishValidation_true v hi]
    dsimp only
    split <;> rfl

theorem Invariant.of_reachable [Nonempty W] {n : ℕ} (h : (system W ρ n).Reachable σ) :
    Invariant σ ∧ σ.scheduler.blockSize = n := by
  induction h with
  | init h =>
    refine ⟨.init h.1 h.2, ?_⟩
    rw [h.1]
    rfl
  | step _ hstep ih => exact ⟨ih.1.step hstep, (ih.1.blockSize_step hstep).trans ih.2⟩

end Crew

end Pevm
