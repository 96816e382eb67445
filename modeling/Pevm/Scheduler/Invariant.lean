import Pevm.Scheduler.Workers

/-!
# The invariant of the scheduler

Every transaction in execution has one worker. A transaction that is aborting is in the
hands of one worker or parked behind one lower transaction that is not done. A call
changes one transaction and those it resumes; of every other transaction the invariant
carries over by one frame lemma.
-/
namespace Pevm
open Transition

namespace Role
variable {r : Role} {v : TxVersion} {j : ℕ}

lemma Executes.concerns (h : r.Executes j) : r.Concerns j := by
  obtain ⟨v, rfl | rfl, hj⟩ := h
  · exact ⟨v, rfl, hj⟩
  · exact ⟨v, rfl, hj⟩

lemma Finishes.executes (h : r.Finishes j) : r.Executes j := by
  obtain ⟨v, rfl, hj⟩ := h
  exact ⟨v, .inr rfl, hj⟩

lemma Validates.concerns (h : r.Validates j) : r.Concerns j := by
  obtain ⟨v, rfl, hj⟩ := h
  exact ⟨v, rfl, hj⟩

lemma Aborts.concerns (h : r.Aborts j) : r.Concerns j := by
  obtain ⟨v, rfl, hj⟩ := h
  exact ⟨v, rfl, hj⟩

@[simp] lemma concerns_executor : (executor v).Concerns j ↔ v.txIdx = j := by
  simp [Concerns, version]
@[simp] lemma concerns_finisher : (finisher v).Concerns j ↔ v.txIdx = j := by
  simp [Concerns, version]
@[simp] lemma concerns_validator : (validator v).Concerns j ↔ v.txIdx = j := by
  simp [Concerns, version]
@[simp] lemma concerns_aborter : (aborter v).Concerns j ↔ v.txIdx = j := by
  simp [Concerns, version]
@[simp] lemma not_concerns_idle : ¬ idle.Concerns j := by simp [Concerns, version]
@[simp] lemma not_concerns_gone : ¬ gone.Concerns j := by simp [Concerns, version]
@[simp] lemma executes_executor : (executor v).Executes j ↔ v.txIdx = j := by simp [Executes]
@[simp] lemma executes_finisher : (finisher v).Executes j ↔ v.txIdx = j := by simp [Executes]
@[simp] lemma not_executes_validator : ¬ (validator v).Executes j := by simp [Executes]
@[simp] lemma not_executes_aborter : ¬ (aborter v).Executes j := by simp [Executes]
@[simp] lemma not_executes_idle : ¬ idle.Executes j := by simp [Executes]
@[simp] lemma aborts_aborter : (aborter v).Aborts j ↔ v.txIdx = j := by simp [Aborts]
@[simp] lemma not_aborts_executor : ¬ (executor v).Aborts j := by simp [Aborts]
@[simp] lemma not_aborts_finisher : ¬ (finisher v).Aborts j := by simp [Aborts]
@[simp] lemma not_aborts_validator : ¬ (validator v).Aborts j := by simp [Aborts]
@[simp] lemma not_aborts_idle : ¬ idle.Aborts j := by simp [Aborts]
@[simp] lemma validates_validator : (validator v).Validates j ↔ v.txIdx = j := by
  simp [Validates]

end Role

namespace Crew
variable {W ρ : Type} {σ : Crew W ρ}

section Situations
variable {j : ℕ} {w : W}

/-- Nobody holds `j`, and nothing waits for `j` to be resumed. -/
structure Unheld (σ : Crew W ρ) (j : ℕ) : Prop where
  executes : ∀ w, ¬ (σ.role w).Executes j
  aborts : ∀ w, ¬ (σ.role w).Aborts j
  parked : ∀ b, j ∉ σ.scheduler.transactionsDependents b

lemma TxInvariant.of_unheld (h : Unheld σ j)
    (hnodup : (σ.scheduler.transactionsDependents j).Nodup)
    (hexecuting : σ.scheduler.statusOf j ≠ .executing)
    (haborting : σ.scheduler.statusOf j ≠ .aborting)
    (hready : σ.scheduler.statusOf j = .readyToExecute → σ.scheduler.executionIdx ≤ j)
    (hexecuted : σ.scheduler.statusOf j = .executed →
      σ.scheduler.validationIdx ≤ j ∨ ∃ w, (σ.role w).Validates j)
    (hfilled : σ.scheduler.Done j → (σ.executionResults j).isSome = true) : TxInvariant σ j where
  executing w hw := absurd hw (h.executes w)
  incarnation w v hrole hj := absurd ⟨v, hrole, hj⟩ (h.executes w)
  executingUnique w _ hw := absurd hw (h.executes w)
  executingHeld hst := absurd hst hexecuting
  aborting w hw := absurd hw (h.aborts w)
  abortingUnique w _ hw := absurd hw (h.aborts w)
  abortingHeld hst := absurd hst haborting
  parked b hb := absurd hb (h.parked b)
  parkedUnique b _ hb := absurd hb (h.parked b)
  parkedNodup := hnodup
  ready := hready
  executed := hexecuted
  filled := by
    rintro (hd | ⟨w, v, hw, hj⟩)
    · exact hfilled hd
    · exact absurd ⟨v, .inr hw, hj⟩ (h.executes w)

/-- `j` is in execution by `w` alone. -/
lemma TxInvariant.of_executes (hstatus : σ.scheduler.statusOf j = .executing)
    (hw : (σ.role w).Executes j) (honly : ∀ w', (σ.role w').Executes j → w' = w)
    (hversion : ∀ v, σ.role w = .executor v ∨ σ.role w = .finisher v → v.txIdx = j →
      v = σ.scheduler.versionOf j)
    (haborts : ∀ w', ¬ (σ.role w').Aborts j)
    (hparked : ∀ b, j ∉ σ.scheduler.transactionsDependents b)
    (hnodup : (σ.scheduler.transactionsDependents j).Nodup)
    (hfilled : (σ.role w).Finishes j → (σ.executionResults j).isSome = true) :
    TxInvariant σ j where
  executing _ _ := hstatus
  incarnation w' v hrole hj := by
    have hww := honly w' ⟨v, hrole, hj⟩
    subst hww
    exact hversion v hrole hj
  executingUnique w' w'' hw' hw'' := (honly w' hw').trans (honly w'' hw'').symm
  executingHeld _ := ⟨w, hw⟩
  aborting w' hw' := absurd hw' (haborts w')
  abortingUnique w' _ hw' := absurd hw' (haborts w')
  abortingHeld hst := by simp [hstatus] at hst
  parked b hb := absurd hb (hparked b)
  parkedUnique b _ hb := absurd hb (hparked b)
  parkedNodup := hnodup
  ready hst := by simp [hstatus] at hst
  executed hst := by simp [hstatus] at hst
  filled := by
    rintro (hd | ⟨w', v, hrole, hj⟩)
    · simp [Scheduler.Done, hstatus] at hd
    · have hww := honly w' ⟨v, .inr hrole, hj⟩
      subst hww
      exact hfilled ⟨v, hrole, hj⟩

/-- `j` is aborting in the hands of `w` alone. -/
lemma TxInvariant.of_aborts (hstatus : σ.scheduler.statusOf j = .aborting)
    (hw : (σ.role w).Aborts j) (honly : ∀ w', (σ.role w').Aborts j → w' = w)
    (hexecutes : ∀ w', ¬ (σ.role w').Executes j)
    (hparked : ∀ b, j ∉ σ.scheduler.transactionsDependents b)
    (hnodup : (σ.scheduler.transactionsDependents j).Nodup) : TxInvariant σ j where
  executing w' hw' := absurd hw' (hexecutes w')
  incarnation w' v hrole hj := absurd ⟨v, hrole, hj⟩ (hexecutes w')
  executingUnique w' _ hw' := absurd hw' (hexecutes w')
  executingHeld hst := by simp [hstatus] at hst
  aborting _ _ := ⟨hstatus, hparked⟩
  abortingUnique w' w'' hw' hw'' := (honly w' hw').trans (honly w'' hw'').symm
  abortingHeld _ := .inl ⟨w, hw⟩
  parked b hb := absurd hb (hparked b)
  parkedUnique b _ hb := absurd hb (hparked b)
  parkedNodup := hnodup
  ready hst := by simp [hstatus] at hst
  executed hst := by simp [hstatus] at hst
  filled := by
    rintro (hd | ⟨w', v, hrole, hj⟩)
    · simp [Scheduler.Done, hstatus] at hd
    · exact absurd ⟨v, .inr hrole, hj⟩ (hexecutes w')

/-- `j` is aborting and parked behind `b` alone. -/
lemma TxInvariant.of_parked {b : ℕ} (hstatus : σ.scheduler.statusOf j = .aborting)
    (hb : j ∈ σ.scheduler.transactionsDependents b)
    (honly : ∀ b', j ∈ σ.scheduler.transactionsDependents b' → b' = b)
    (hlt : b < j) (hblocked : ¬ σ.scheduler.Done b)
    (hexecutes : ∀ w', ¬ (σ.role w').Executes j) (haborts : ∀ w', ¬ (σ.role w').Aborts j)
    (hnodup : (σ.scheduler.transactionsDependents j).Nodup) : TxInvariant σ j where
  executing w' hw' := absurd hw' (hexecutes w')
  incarnation w' v hrole hj := absurd ⟨v, hrole, hj⟩ (hexecutes w')
  executingUnique w' _ hw' := absurd hw' (hexecutes w')
  executingHeld hst := by simp [hstatus] at hst
  aborting w' hw' := absurd hw' (haborts w')
  abortingUnique w' _ hw' := absurd hw' (haborts w')
  abortingHeld _ := .inr ⟨b, hb⟩
  parked b' hb' := by
    rw [honly b' hb']
    exact ⟨hlt, hstatus, hblocked⟩
  parkedUnique b' b'' hb' hb'' := (honly b' hb').trans (honly b'' hb'').symm
  parkedNodup := hnodup
  ready hst := by simp [hstatus] at hst
  executed hst := by simp [hstatus] at hst
  filled := by
    rintro (hd | ⟨w', v, hrole, hj⟩)
    · simp [Scheduler.Done, hstatus] at hd
    · exact absurd ⟨v, .inr hrole, hj⟩ (hexecutes w')

lemma TxInvariant.storeResult {j i : ℕ} (h : TxInvariant σ j) (result : ρ) :
    TxInvariant (σ.storeResult i result) j where
  executing := h.executing
  incarnation := h.incarnation
  executingUnique := h.executingUnique
  executingHeld := h.executingHeld
  aborting := h.aborting
  abortingUnique := h.abortingUnique
  abortingHeld := h.abortingHeld
  parked := h.parked
  parkedUnique := h.parkedUnique
  parkedNodup := h.parkedNodup
  ready := h.ready
  executed := h.executed
  filled hj := by
    by_cases hji : j = i
    · subst hji
      simp [Crew.storeResult]
    · simpa [Crew.storeResult, hji] using h.filled hj

end Situations

namespace Invariant
variable {w : W} {i : ℕ}

lemma executing_facts (h : Invariant σ) (hw : (σ.role w).Executes i) :
    i < σ.scheduler.blockSize ∧ σ.scheduler.statusOf i = .executing ∧
      (∀ w', (σ.role w').Executes i → w' = w) ∧ (∀ w', ¬ (σ.role w').Aborts i) ∧
      ∀ b, i ∉ σ.scheduler.transactionsDependents b := by
  have hi := h.bound w i hw.concerns
  have hst := (h.tx i hi).executing w hw
  refine ⟨hi, hst, fun w' hw' => (h.tx i hi).executingUnique w' w hw' hw, ?_, ?_⟩
  · intro w' hw'
    have haborting := ((h.tx i hi).aborting w' hw').1
    simp [hst] at haborting
  · intro b hb
    have haborting := ((h.tx i hi).parked b hb).2.1
    simp [hst] at haborting

lemma aborting_facts (h : Invariant σ) (hw : (σ.role w).Aborts i) :
    i < σ.scheduler.blockSize ∧ σ.scheduler.statusOf i = .aborting ∧
      (∀ w', (σ.role w').Aborts i → w' = w) ∧ (∀ w', ¬ (σ.role w').Executes i) ∧
      ∀ b, i ∉ σ.scheduler.transactionsDependents b := by
  have hi := h.bound w i hw.concerns
  obtain ⟨hst, hpark⟩ := (h.tx i hi).aborting w hw
  refine ⟨hi, hst, fun w' hw' => (h.tx i hi).abortingUnique w' w hw' hw, ?_, hpark⟩
  intro w' hw'
  have hexecuting := (h.tx i hi).executing w' hw'
  simp [hst] at hexecuting

/-- A transaction that is neither executing nor aborting is in nobody's hands. -/
lemma unheld (h : Invariant σ) (hi : i < σ.scheduler.blockSize)
    (hexecuting : σ.scheduler.statusOf i ≠ .executing)
    (haborting : σ.scheduler.statusOf i ≠ .aborting) : Unheld σ i where
  executes w hw := hexecuting ((h.tx i hi).executing w hw)
  aborts w hw := haborting ((h.tx i hi).aborting w hw).1
  parked b hb := haborting ((h.tx i hi).parked b hb).2.1

lemma unheld_of_done (h : Invariant σ) (hi : i < σ.scheduler.blockSize)
    (hdone : σ.scheduler.Done i) : Unheld σ i := by
  apply h.unheld hi
  · rcases hdone with hd | hd <;> simp [hd]
  · rcases hdone with hd | hd <;> simp [hd]

/-- While no worker holds a task, whoever is not validated waits, in the end, for a transaction
that one of the counters is still to come to. -/
lemma exists_pending (h : Invariant σ) (hfree : ∀ w, (σ.role w).Free) {j : ℕ}
    (hj : j < σ.scheduler.blockSize) (hst : σ.scheduler.statusOf j ≠ .validated) :
    ∃ i < σ.scheduler.blockSize,
      σ.scheduler.statusOf i = .readyToExecute ∧ σ.scheduler.executionIdx ≤ i ∨
        σ.scheduler.statusOf i = .executed ∧ σ.scheduler.validationIdx ≤ i := by
  have hnoE : ∀ w i, ¬ (σ.role w).Executes i := by
    rintro w i ⟨v, hv, -⟩
    rcases hfree w with hw | hw <;> simp [hw] at hv
  have hnoA : ∀ w i, ¬ (σ.role w).Aborts i := by
    rintro w i ⟨v, hv, -⟩
    rcases hfree w with hw | hw <;> simp [hw] at hv
  have hnoV : ∀ w i, ¬ (σ.role w).Validates i := by
    rintro w i ⟨v, hv, -⟩
    rcases hfree w with hw | hw <;> simp [hw] at hv
  -- a parked transaction is followed down to the one it waits for
  induction j using Nat.strong_induction_on with
  | _ j ih =>
    cases hcase : σ.scheduler.statusOf j with
    | readyToExecute => exact ⟨j, hj, .inl ⟨hcase, (h.tx j hj).ready hcase⟩⟩
    | executing =>
      obtain ⟨w, hw⟩ := (h.tx j hj).executingHeld hcase
      exact absurd hw (hnoE w j)
    | executed =>
      rcases (h.tx j hj).executed hcase with hle | ⟨w, hw⟩
      · exact ⟨j, hj, .inr ⟨hcase, hle⟩⟩
      · exact absurd hw (hnoV w j)
    | validated => exact absurd hcase hst
    | aborting =>
      rcases (h.tx j hj).abortingHeld hcase with ⟨w, hw⟩ | ⟨b, hb⟩
      · exact absurd hw (hnoA w j)
      · obtain ⟨hlt, -, hblocked⟩ := (h.tx j hj).parked b hb
        exact ih b hlt (by omega) fun hv => hblocked (.inr hv)

theorem init [Nonempty W] {n : ℕ} (hs : σ.scheduler = .new n)
    (hidle : ∀ w, σ.role w = .idle) : Invariant σ where
  notAborted := by
    rw [hs]
    rfl
  bound w j hw := by simp [hidle w] at hw
  parkedBound b j hb := by simp [hs, Scheduler.new] at hb
  tx j _ := by
    apply TxInvariant.of_unheld
    · constructor
      · simp [hidle]
      · simp [hidle]
      · simp [hs, Scheduler.new]
    · simp [hs, Scheduler.new]
    · simp [hs, Scheduler.new, Scheduler.statusOf]
    · simp [hs, Scheduler.new, Scheduler.statusOf]
    · simp [hs, Scheduler.new]
    · simp [hs, Scheduler.new, Scheduler.statusOf]
    · simp [hs, Scheduler.new, Scheduler.statusOf, Scheduler.Done]
  goneDone hgone := by
    obtain ⟨w⟩ := ‹Nonempty W›
    have hw := (hidle w).symm.trans (hgone w)
    cases hw

end Invariant

section Assign
variable [DecidableEq W] {w : W} {r : Role} {s : Scheduler}

@[simp] theorem assign_scheduler : (σ.assign w r s).scheduler = s := rfl
@[simp] theorem assign_executionResults :
    (σ.assign w r s).executionResults = σ.executionResults := rfl

@[simp] theorem assign_role_self : (σ.assign w r s).role w = r := by simp [assign]

theorem assign_role_of_ne {w' : W} (h : w' ≠ w) : (σ.assign w r s).role w' = σ.role w' := by
  simp [assign, h]

lemma assign_iff {P : Role → Prop} (hw : ¬ P (σ.role w)) (hr : ¬ P r) (w' : W) :
    P ((σ.assign w r s).role w') ↔ P (σ.role w') := by
  by_cases h : w' = w
  · subst h
    rw [assign_role_self]
    exact iff_of_false hr hw
  · rw [assign_role_of_ne h]

/-- After the call nobody but `w` can be in a charge that nobody but `w` was in before. -/
lemma assign_only {P : Role → Prop} (honly : ∀ w', P (σ.role w') → w' = w) (w' : W)
    (h : P ((σ.assign w r s).role w')) : w' = w := by
  by_contra hne
  rw [assign_role_of_ne hne] at h
  exact hne (honly w' h)

lemma assign_none {P : Role → Prop} (honly : ∀ w', P (σ.role w') → w' = w) (hr : ¬ P r) (w' : W) :
    ¬ P ((σ.assign w r s).role w') := by
  intro h
  have hw' := assign_only honly w' h
  subst hw'
  rw [assign_role_self] at h
  exact hr h

lemma unheld_assign {j : ℕ} (hE : ∀ w', (σ.role w').Executes j → w' = w) (hrE : ¬ r.Executes j)
    (hA : ∀ w', (σ.role w').Aborts j → w' = w) (hrA : ¬ r.Aborts j)
    (hparked : ∀ b, j ∉ s.transactionsDependents b) : Unheld (σ.assign w r s) j where
  executes := assign_none (P := (Role.Executes · j)) hE hrE
  aborts := assign_none (P := (Role.Aborts · j)) hA hrA
  parked := hparked

lemma exists_assign {P : Role → Prop} (h : ∃ w', P (σ.role w')) (hw : ¬ P (σ.role w)) :
    ∃ w', P ((σ.assign w r s).role w') := by
  obtain ⟨w', hw'⟩ := h
  have hne : w' ≠ w := by
    rintro rfl
    exact hw hw'
  exact ⟨w', by rwa [assign_role_of_ne hne]⟩

/-- A call carries the invariant of `j` over if it leaves the status, the execution and the
place of `j` alone and moves no counter past `j` that must not pass it. -/
theorem TxInvariant.frame {j : ℕ} (h : TxInvariant σ j)
    (hwE : ¬ (σ.role w).Executes j) (hrE : ¬ r.Executes j)
    (hwA : ¬ (σ.role w).Aborts j) (hrA : ¬ r.Aborts j)
    (hstatus : s.transactionsStatus j = σ.scheduler.transactionsStatus j)
    (hdeps : ∀ b, j ∈ s.transactionsDependents b ↔ j ∈ σ.scheduler.transactionsDependents b)
    (hnodup : (s.transactionsDependents j).Nodup)
    (hdone : ∀ b, j ∈ s.transactionsDependents b → s.Done b → σ.scheduler.Done b)
    (hexec : σ.scheduler.statusOf j = .readyToExecute → σ.scheduler.executionIdx ≤ j →
      s.executionIdx ≤ j)
    (hcover : σ.scheduler.statusOf j = .executed →
      (σ.scheduler.validationIdx ≤ j ∨ ∃ w, (σ.role w).Validates j) →
        s.validationIdx ≤ j ∨ ∃ w', ((σ.assign w r s).role w').Validates j) :
    TxInvariant (σ.assign w r s) j := by
  have hs : s.statusOf j = σ.scheduler.statusOf j := by simp [Scheduler.statusOf, hstatus]
  have hv : s.versionOf j = σ.scheduler.versionOf j := by
    simp [Scheduler.versionOf, Scheduler.incarnationOf, hstatus]
  have hE := assign_iff (P := (Role.Executes · j)) (s := s) hwE hrE
  have hA := assign_iff (P := (Role.Aborts · j)) (s := s) hwA hrA
  have hF := assign_iff (P := (Role.Finishes · j)) (s := s) (fun h => hwE h.executes)
    (fun h => hrE h.executes)
  constructor
  case executing =>
    intro w' hw'
    rw [assign_scheduler, hs]
    exact h.executing w' ((hE w').mp hw')
  case incarnation =>
    intro w' v hrole hj
    rw [assign_scheduler, hv]
    by_cases hww : w' = w
    · subst hww
      rw [assign_role_self] at hrole
      exact absurd ⟨v, hrole, hj⟩ hrE
    · rw [assign_role_of_ne hww] at hrole
      exact h.incarnation w' v hrole hj
  case executingUnique =>
    intro w' w'' hw' hw''
    exact h.executingUnique w' w'' ((hE w').mp hw') ((hE w'').mp hw'')
  case executingHeld =>
    intro hst
    rw [assign_scheduler, hs] at hst
    obtain ⟨w', hw'⟩ := h.executingHeld hst
    exact ⟨w', (hE w').mpr hw'⟩
  case aborting =>
    intro w' hw'
    obtain ⟨hst, hnot⟩ := h.aborting w' ((hA w').mp hw')
    exact ⟨hs.trans hst, fun b hb => hnot b ((hdeps b).mp hb)⟩
  case abortingUnique =>
    intro w' w'' hw' hw''
    exact h.abortingUnique w' w'' ((hA w').mp hw') ((hA w'').mp hw'')
  case abortingHeld =>
    intro hst
    rw [assign_scheduler, hs] at hst
    rcases h.abortingHeld hst with ⟨w', hw'⟩ | ⟨b, hb⟩
    · exact .inl ⟨w', (hA w').mpr hw'⟩
    · exact .inr ⟨b, (hdeps b).mpr hb⟩
  case parked =>
    intro b hb
    obtain ⟨hlt, hst, hnot⟩ := h.parked b ((hdeps b).mp hb)
    exact ⟨hlt, hs.trans hst, fun hd => hnot (hdone b hb hd)⟩
  case parkedUnique =>
    intro b b' hb hb'
    exact h.parkedUnique b b' ((hdeps b).mp hb) ((hdeps b').mp hb')
  case parkedNodup => exact hnodup
  case ready =>
    intro hst
    rw [assign_scheduler, hs] at hst
    exact hexec hst (h.ready hst)
  case executed =>
    intro hst
    rw [assign_scheduler, hs] at hst
    exact hcover hst (h.executed hst)
  case filled =>
    rintro (hd | ⟨w', hw'⟩)
    · apply h.filled
      left
      simpa only [Scheduler.Done, assign_scheduler, hs] using hd
    · exact h.filled (.inr ⟨w', (hF w').mp hw'⟩)

/-- The frame lemma for a call about another transaction. -/
theorem TxInvariant.frame_of_not_concerns {j : ℕ} (h : TxInvariant σ j)
    (hw : ¬ (σ.role w).Concerns j) (hr : ¬ r.Concerns j)
    (hstatus : s.transactionsStatus j = σ.scheduler.transactionsStatus j)
    (hdeps : ∀ b, j ∈ s.transactionsDependents b ↔ j ∈ σ.scheduler.transactionsDependents b)
    (hnodup : (s.transactionsDependents j).Nodup)
    (hdone : ∀ b, j ∈ s.transactionsDependents b → s.Done b → σ.scheduler.Done b)
    (hexec : σ.scheduler.statusOf j = .readyToExecute → σ.scheduler.executionIdx ≤ j →
      s.executionIdx ≤ j)
    (hval : σ.scheduler.statusOf j = .executed → σ.scheduler.validationIdx ≤ j →
      s.validationIdx ≤ j) : TxInvariant (σ.assign w r s) j := by
  refine h.frame (fun h => hw h.concerns) (fun h => hr h.concerns) (fun h => hw h.concerns)
    (fun h => hr h.concerns) hstatus hdeps hnodup hdone hexec ?_
  rintro hst (hle | hex)
  · exact .inl (hval hst hle)
  · exact .inr (exists_assign (P := (Role.Validates · j)) hex fun h => hw h.concerns)

end Assign

end Crew

end Pevm
