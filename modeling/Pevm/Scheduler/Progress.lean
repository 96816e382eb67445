import Pevm.Scheduler.Preservation

/-!
# No transaction is lost

As long as a transaction is not validated and no worker holds a task, a call of
`next_task` comes back with one; and workers only ever all leave a block in which every
transaction is validated and has left its result.
-/
namespace Pevm
open Transition

namespace Scheduler
variable {s : Scheduler}

/-- A counter is still to come to a transaction that needs a worker. -/
def Pending (s : Scheduler) : Prop :=
  ∃ i < s.blockSize, s.statusOf i = .readyToExecute ∧ s.executionIdx ≤ i ∨
    s.statusOf i = .executed ∧ s.validationIdx ≤ i

lemma Pending.busy (h : Pending s) :
    s.executionIdx < s.blockSize ∨ s.validationIdx < s.blockSize := by
  obtain ⟨i, hi, ⟨-, hle⟩ | ⟨-, hle⟩⟩ := h
  · exact .inl (by omega)
  · exact .inr (by omega)

/-- The iterations that hand out nothing do not move a counter past the pending transaction. -/
lemma Pending.skip {e v : ℕ} (h : Pending s)
    (he : e = s.executionIdx ∨ e = s.executionIdx + 1 ∧
      (s.executionIdx < s.blockSize → s.statusOf s.executionIdx ≠ .readyToExecute))
    (hv : v = s.validationIdx ∨ v = s.validationIdx + 1 ∧
      (s.statusOf s.validationIdx = .aborting ∨ s.statusOf s.validationIdx = .executing)) :
    Pending ((s.withValidationIdx v).withExecutionIdx e) := by
  obtain ⟨i, hi, ⟨hready, hle⟩ | ⟨hexecuted, hle⟩⟩ := h
  · refine ⟨i, hi, .inl ⟨hready, ?_⟩⟩
    rw [withExecutionIdx_executionIdx]
    rcases he with rfl | ⟨rfl, hskip⟩
    · exact hle
    · have hne : i ≠ s.executionIdx := by
        rintro rfl
        exact hskip hi hready
      omega
  · refine ⟨i, hi, .inr ⟨hexecuted, ?_⟩⟩
    rw [withExecutionIdx_validationIdx, withValidationIdx_validationIdx]
    rcases hv with rfl | ⟨rfl, hskip⟩
    · exact hle
    · have hne : i ≠ s.validationIdx := by
        rintro rfl
        rcases hskip with hst | hst <;> simp [hst] at hexecuted
      omega

/-- Every iteration without a task brings a counter closer to the end of the block. -/
theorem Pending.nextTask (h : Pending s) (hnot : s.aborted = false) {fuel : ℕ}
    (hfuel : (s.blockSize - s.executionIdx) + (s.blockSize - s.validationIdx) ≤ fuel) :
    ∃ t s', s.nextTask (fuel + 1) = some (some t, s') := by
  induction fuel generalizing s with
  | zero =>
    have hbusy := h.busy
    omega
  | succ fuel ih =>
    have hbusy := h.busy
    have hspec := s.poll_spec
    rw [Scheduler.nextTask]
    revert hspec
    generalize s.poll = r
    obtain ⟨p, s'⟩ := r
    intro hspec
    cases p with
    | task t => exact ⟨t, s', rfl⟩
    | exit =>
      cases hspec with
      | exit hexit =>
        rcases hexit with hab | hdone
        · exact absurd (hnot.symm.trans hab) (by simp)
        · omega
    | again =>
      cases hspec with
      | wait hexec hval => omega
      | @skip e v he hv hmove =>
        apply ih (h.skip he hv) hnot
        have hle : s.executionIdx ≤ e ∧ s.validationIdx ≤ v := by omega
        simp only [withExecutionIdx_blockSize, withValidationIdx_blockSize,
          withExecutionIdx_executionIdx, withExecutionIdx_validationIdx,
          withValidationIdx_validationIdx]
        omega

end Scheduler

namespace Crew
variable {W ρ : Type} [DecidableEq W] [Nonempty W]

/-- The scheduler loses no transaction: with a transaction that is not validated and no task in
anybody's hands, `next_task` returns a task; and when every worker has left, every transaction is
validated and its slot filled. This holds in every reachable state of the calls of any workers,
blocked executions and aborts included. -/
theorem no_transaction_lost {n : ℕ} {σ : Crew W ρ} (h : (system W ρ n).Reachable σ) :
    ((∀ w, (σ.role w).Free) → (∃ j < n, σ.scheduler.statusOf j ≠ .validated) →
      ∃ fuel t s, σ.scheduler.nextTask fuel = some (some t, s)) ∧
    ((∀ w, σ.role w = .gone) → ∀ j < n,
      σ.scheduler.statusOf j = .validated ∧ (σ.executionResults j).isSome = true) := by
  obtain ⟨hinv, hsize⟩ := Invariant.of_reachable h
  rw [← hsize]
  constructor
  · rintro hfree ⟨j, hj, hst⟩
    have hpending : Scheduler.Pending σ.scheduler := hinv.exists_pending hfree hj hst
    exact ⟨_, hpending.nextTask hinv.notAborted le_rfl⟩
  · intro hgone j hj
    have hst := (hinv.goneDone hgone).2 j hj
    exact ⟨hst, (hinv.tx j hj).filled (.inl (.inr hst))⟩

/-- The second of two transactions waits for the first one and is then executed again. Both workers
leave, and nothing is lost. -/
theorem no_transaction_lost_resumed :
    ∃ σ : Crew Bool ℕ, (system Bool ℕ 2).Reachable σ ∧ (∀ w, σ.role w = .gone) ∧
      ∀ j < 2, σ.scheduler.statusOf j = .validated ∧ (σ.executionResults j).isSome = true := by
  let start : Crew Bool ℕ := ⟨.new 2, fun _ => none, fun _ => .idle⟩
  have hstart : (system Bool ℕ 2).Reachable start := .init ⟨rfl, fun _ => rfl⟩
  have htaken := hstart.step (.nextTask (w := false) rfl)
  have htakenToo := htaken.step (.nextTask (w := true) rfl)
  have hparked := htakenToo.step
    (.addDependency (w := true) (v := ⟨1, 0⟩) rfl (show 0 < 1 from Nat.one_pos))
  have hstored := hparked.step (.storeResult (w := false) (v := ⟨0, 0⟩) 7 rfl)
  have hresumed := hstored.step (.finishExecution (w := false) (v := ⟨0, 0⟩) .wroteNewLocation rfl)
  have hretaken := hresumed.step (.nextTask (w := true) rfl)
  have hvalidated := hretaken.step
    (.finishValidation (w := false) (v := ⟨0, 0⟩) (by decide +kernel))
  have hstoredToo := hvalidated.step (.storeResult (w := true) (v := ⟨1, 1⟩) 8 (by decide +kernel))
  have hfinished := hstoredToo.step
    (.finishExecution (w := true) (v := ⟨1, 1⟩) .wroteNewLocation (by decide +kernel))
  have hchecking := hfinished.step (.nextTask (w := true) (by decide +kernel))
  have hvalidatedToo := hchecking.step
    (.finishValidation (w := true) (v := ⟨1, 1⟩) (by decide +kernel))
  have hleft := hvalidatedToo.step (.nextTask (w := false) (by decide +kernel))
  have hgone := hleft.step (.nextTask (w := true) (by decide +kernel))
  refine ⟨_, hgone, ?_, (no_transaction_lost hgone).2 ?_⟩
  · decide +kernel
  · decide +kernel

end Crew

end Pevm
