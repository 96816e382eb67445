import Pevm.Scheduler.Threads

/-!
# Exclusive execution

However the accesses of the workers interleave, nobody executes what another worker
executes, no version is executed a second time, and the assertions of the methods hold.
-/
namespace Pevm
open Transition

namespace Threads
variable {W : Type}

/-- What the assertions of the next call of the worker check. -/
def Asserts (σ : Threads W) (w : W) : Prop :=
  match σ.point w with
  | .blocked v b _ => ¬ σ.scheduler.Done b → σ.scheduler.statusOf v.txIdx = .executing
  | .executed v _ =>
    σ.scheduler.statusOf v.txIdx = .executing ∧ σ.scheduler.incarnationOf v.txIdx = v.txIncarnation
  | .resuming v _ =>
    ∀ d ∈ σ.scheduler.transactionsDependents v.txIdx, σ.scheduler.statusOf d = .aborting
  | .aborted v => σ.scheduler.statusOf v.txIdx = .aborting
  | _ => True

/-- No task is about a transaction outside the block, so no index is out of bounds. -/
def Bounded (σ : Threads W) : Prop :=
  ∀ w v, (σ.point w).version = some v → v.txIdx < σ.scheduler.blockSize

/-- The assertions rest on who is in charge. -/
lemma asserts_of_invariant {σ : Threads W} (h : Board.Invariant σ.board) (w : W) : σ.Asserts w := by
  have hexecution : ∀ v, (σ.point w).charge.execution = some v →
      σ.scheduler.transactionsStatus v.txIdx = ⟨v.txIncarnation, .executing⟩ :=
    fun v hv => (h.execution w v hv).2
  unfold Asserts
  split
  case h_1 v b _ hw =>
    intro _
    simp [Scheduler.statusOf, hexecution v (by rw [hw]; rfl)]
  case h_2 v flags hw =>
    simp [Scheduler.statusOf, Scheduler.incarnationOf, hexecution v (by rw [hw]; rfl)]
  case h_3 v flags hw =>
    intro d hd
    exact (h.parked v.txIdx d hd).2.2.1
  case h_4 v hw =>
    exact (h.abortion w v (by
      show (σ.point w).charge.abortion = some v
      rw [hw]
      rfl)).1
  case h_5 => trivial

section Bounds
variable [DecidableEq W] {σ : Threads W} {w : W} {p : Point} {s : Scheduler}

lemma Bounded.move (h : Bounded σ) (hsize : s.blockSize = σ.scheduler.blockSize)
    (hp : ∀ v, p.version = some v → v.txIdx < σ.scheduler.blockSize) :
    Bounded (σ.move w p s) := by
  intro w' v hv
  show v.txIdx < s.blockSize
  rw [hsize]
  by_cases hww : w' = w
  · subst hww
    apply hp v
    simpa [Threads.move] using hv
  · apply h w' v
    simpa [Threads.move, hww] using hv

/-- The worker goes on with the same task, or with none. -/
lemma Bounded.keep (h : Bounded σ) (hsize : s.blockSize = σ.scheduler.blockSize)
    (hp : p.version = none ∨ p.version = (σ.point w).version) : Bounded (σ.move w p s) := by
  apply h.move hsize
  intro v hv
  rcases hp with hp | hp
  · rw [hp] at hv
    cases hv
  · exact h w v (hp ▸ hv)

lemma Bounded.hand (h : Bounded σ) {j : ℕ} (hj : j < σ.scheduler.blockSize) :
    Bounded { σ.move w (.executing (σ.scheduler.versionOf j))
      (σ.scheduler.setStatus j .executing) with
      handedOut := σ.scheduler.versionOf j :: σ.handedOut } := by
  apply h.move rfl
  rintro v ⟨⟩
  exact hj

lemma Bounded.take (h : Bounded σ) (j : ℕ) : Bounded (σ.take w j) := by
  unfold Threads.take Scheduler.tryExecute
  by_cases hj : j < σ.scheduler.blockSize ∧ σ.scheduler.statusOf j = .readyToExecute
  · rw [if_pos hj]
    exact h.hand hj.1
  · rw [if_neg hj]
    exact h.keep rfl (.inl rfl)

theorem Bounded.step {σ' : Threads W} (h : Bounded σ) (hstep : Step σ σ') : Bounded σ' := by
  cases hstep with
  | loadAborted => exact h.keep rfl (.inl (by split <;> rfl))
  | loadExecutionIdx => exact h.keep rfl (.inl rfl)
  | loadValidationIdx => exact h.keep rfl (.inl rfl)
  | loadNumValidated => exact h.keep rfl (.inl rfl)
  | loadMinValidationIdx => exact h.keep rfl (.inl (by split <;> rfl))
  | takeValidationIdx => exact h.keep rfl (.inl rfl)
  | fallThrough => exact h.keep rfl (.inl rfl)
  | pastEnd => exact h.keep rfl (.inl rfl)
  | steal _ hj => exact h.hand hj
  | validate _ hj =>
    apply h.move rfl
    rintro v ⟨⟩
    exact hj
  | skipAborting => exact h.keep rfl (.inl rfl)
  | skipExecuting => exact h.keep rfl (.inl rfl)
  | takeExecutionIdx => exact h.keep rfl (.inl rfl)
  | tryExecute => exact h.take _
  | block lower hw => exact h.keep rfl (.inr (by rw [hw]; rfl))
  | @addDependency w v b lower hw =>
    rw [Scheduler.addDependency_eq]
    split
    · exact h.keep rfl (.inr (by rw [hw]; rfl))
    · exact h.keep rfl (.inl rfl)
  | abort => exact h.keep rfl (.inl rfl)
  | leave => exact h.keep rfl (.inl rfl)
  | execute flags hw => exact h.keep rfl (.inr (by rw [hw]; rfl))
  | lock hw => exact h.keep rfl (.inr (by rw [hw]; rfl))
  | setReadyStatus hw => exact h.keep rfl (.inr (by rw [hw]; rfl))
  | lowerExecutionIdx hw => exact h.keep rfl (.inr (by rw [hw]; rfl))
  | lowerMinValidationIdx hw => exact h.keep rfl (.inr (by rw [hw]; rfl))
  | loadMinValidationIdxToo hw => exact h.keep rfl (.inr (by rw [hw]; rfl))
  | noBound hw => exact h.keep rfl (.inr (by rw [hw]; rfl))
  | lowerToBound hw => exact h.keep (by split <;> rfl) (.inr (by rw [hw]; rfl))
  | compareValidationIdx hw => exact h.keep rfl (.inr (by rw [hw]; split <;> rfl))
  | lowerValidationIdx hw => exact h.keep (by split <;> rfl) (.inr (by rw [hw]; rfl))
  | report hw => exact h.keep rfl (.inr (by rw [hw]; rfl))
  | markValidated hw => exact h.keep rfl (.inr (by rw [hw]; rfl))
  | close => exact h.keep (by split <;> rfl) (.inl rfl)
  | validateReadLocations valid hw => exact h.keep rfl (.inr (by rw [hw]; split <;> rfl))
  | @tryValidationAbort w v hw =>
    rw [Scheduler.tryValidationAbort_eq]
    split
    · exact h.keep rfl (.inr (by rw [hw]; rfl))
    · exact h.keep rfl (.inr (by rw [hw]; rfl))
  | setReadyStatusToo hw => exact h.keep rfl (.inr (by rw [hw]; rfl))
  | lowerValidationIdxToo hw => exact h.keep rfl (.inr (by rw [hw]; rfl))
  | @compareExecutionIdx w v hw =>
    split
    · exact h.keep rfl (.inr (by rw [hw]; rfl))
    · exact h.keep rfl (.inl rfl)
  | tryExecuteAgain => exact h.take _
  | finishValidation =>
    refine h.keep ?_ (.inl rfl)
    simp only [Scheduler.finishValidation, Bool.false_eq_true, if_false]
    split <;> rfl

end Bounds

section Reachable
variable [DecidableEq W] {n : ℕ} {σ : Threads W}

theorem board_invariant (h : (system W n).Reachable σ) :
    Board.Invariant σ.board ∧ σ.scheduler.blockSize = n :=
  Board.Invariant.of_reachable ((abstraction W n).reachable h)

theorem bounded_of_reachable (h : (system W n).Reachable σ) : Bounded σ := by
  induction h with
  | init h =>
    intro w v hv
    simp [h.2.1 w, Point.version] at hv
  | step _ hstep ih => exact ih.step hstep

/-- In every reachable state: nobody executes what another worker executes, and the status says
so; no version has been handed out twice; whoever is parked is aborting and parked once, behind a
lower transaction that is not done; all indices are below the block size; and the assertions
hold. -/
theorem exclusive_execution (h : (system W n).Reachable σ) :
    (∀ w w' v v', (σ.point w).charge.execution = some v →
      (σ.point w').charge.execution = some v' → v.txIdx = v'.txIdx → w = w') ∧
    (∀ w v, (σ.point w).charge.execution = some v →
      σ.scheduler.statusOf v.txIdx = .executing ∧
        σ.scheduler.incarnationOf v.txIdx = v.txIncarnation) ∧
    σ.handedOut.Nodup ∧
    (∀ b j, j ∈ σ.scheduler.transactionsDependents b →
      σ.scheduler.statusOf j = .aborting ∧ (σ.scheduler.transactionsDependents b).count j = 1 ∧
        (∀ b', j ∈ σ.scheduler.transactionsDependents b' → b' = b) ∧ b < j ∧
          ¬ σ.scheduler.Done b) ∧
    (∀ w v, (σ.point w).version = some v → v.txIdx < n) ∧
    (∀ b j, j ∈ σ.scheduler.transactionsDependents b → j < n) ∧
    ∀ w, σ.Asserts w := by
  obtain ⟨hinv, hsize⟩ := board_invariant h
  have hbound := bounded_of_reachable h
  refine ⟨hinv.executionUnique, ?_, hinv.handed, ?_, ?_, ?_, asserts_of_invariant hinv⟩
  · intro w v hv
    have hstatus : σ.scheduler.transactionsStatus v.txIdx = ⟨v.txIncarnation, .executing⟩ :=
      (hinv.execution w v hv).2
    simp [Scheduler.statusOf, Scheduler.incarnationOf, hstatus]
  · intro b j hj
    obtain ⟨hlt, -, haborting, hdone⟩ := hinv.parked b j hj
    have hcount := List.count_eq_one_of_mem (hinv.parkedNodup b) hj
    exact ⟨haborting, hcount, fun b' hb' => hinv.parkedUnique b' b j hb' hj, hlt, hdone⟩
  · intro w v hv
    rw [← hsize]
    exact hbound w v hv
  · intro b j hj
    rw [← hsize]
    exact (hinv.parked b j hj).2.1

/-- A worker executes a transaction that reads what another one executes, and parks it. -/
theorem exclusive_execution_parked :
    ∃ σ : Threads Bool, (system Bool 2).Reachable σ ∧
      σ.handedOut = [⟨1, 0⟩, ⟨0, 0⟩] ∧ σ.handedOut.Nodup ∧
      1 ∈ σ.scheduler.transactionsDependents 0 ∧ σ.scheduler.statusOf 1 = .aborting := by
  let start : Threads Bool := ⟨.new 2, fun _ => .polling, []⟩
  have hstart : (system Bool 2).Reachable start := .init ⟨rfl, fun _ => rfl, rfl⟩
  have hfirst := hstart.step (.loadAborted (w := true) rfl)
  have hfirst := hfirst.step (.loadExecutionIdx (w := true) rfl)
  have hfirst := hfirst.step (.loadValidationIdx (w := true) rfl)
  have hfirst := hfirst.step (.fallThrough (w := true) rfl (by decide) (by decide))
  have hfirst := hfirst.step (.takeExecutionIdx (w := true) rfl)
  have hfirst := hfirst.step (.tryExecute (w := true) rfl (by rintro ⟨_ | _, ⟨⟩⟩))
  have hsecond := hfirst.step (.loadAborted (w := false) rfl)
  have hsecond := hsecond.step (.loadExecutionIdx (w := false) rfl)
  have hsecond := hsecond.step (.loadValidationIdx (w := false) rfl)
  have hsecond := hsecond.step (.fallThrough (w := false) rfl (by decide) (by decide))
  have hsecond := hsecond.step (.takeExecutionIdx (w := false) rfl)
  have hsecond := hsecond.step (.tryExecute (w := false) rfl (by rintro ⟨_ | _, ⟨⟩⟩))
  have hblocked := hsecond.step (.block (w := false) (v := ⟨1, 0⟩) (b := 0) (by decide) rfl)
  have hparked := hblocked.step (.addDependency (w := false) rfl (by rintro ⟨_ | _, ⟨⟩⟩))
  have hmem : 1 ∈ [1] := by decide
  obtain ⟨-, -, hnodup, hpark, -⟩ := exclusive_execution hparked
  exact ⟨_, hparked, rfl, hnodup, hmem, (hpark 0 1 hmem).1⟩

/-- The second of two transactions waits for the first one, is resumed and executed again. Both are
validated once, and the workers leave. -/
lemma resumed_gone : ∃ σ : Threads Bool, (system Bool 2).Reachable σ ∧
    σ.scheduler.numValidated = 2 ∧ σ.scheduler.aborted = false ∧ ∀ w, σ.point w = .gone := by
  let start : Threads Bool := ⟨.new 2, fun _ => .polling, []⟩
  have hstart : (system Bool 2).Reachable start := .init ⟨rfl, fun _ => rfl, rfl⟩
  have htaken := hstart.step (.loadAborted (w := false) (by decide +kernel))
  have htaken := htaken.step (.loadExecutionIdx (w := false) (by decide +kernel))
  have htaken := htaken.step (.loadValidationIdx (w := false) (e := 0) (by decide +kernel))
  have htaken := htaken.step (.fallThrough (w := false) (e := 0) (v := 2)
    (by decide +kernel) (by decide +kernel) (by decide +kernel))
  have htaken := htaken.step (.takeExecutionIdx (w := false) (by decide +kernel))
  have htaken := htaken.step
    (.tryExecute (w := false) (j := 0) (by decide +kernel) (by decide +kernel))
  have htakenToo := htaken.step (.loadAborted (w := true) (by decide +kernel))
  have htakenToo := htakenToo.step (.loadExecutionIdx (w := true) (by decide +kernel))
  have htakenToo := htakenToo.step (.loadValidationIdx (w := true) (e := 1) (by decide +kernel))
  have htakenToo := htakenToo.step (.fallThrough (w := true) (e := 1) (v := 2)
    (by decide +kernel) (by decide +kernel) (by decide +kernel))
  have htakenToo := htakenToo.step (.takeExecutionIdx (w := true) (by decide +kernel))
  have htakenToo := htakenToo.step
    (.tryExecute (w := true) (j := 1) (by decide +kernel) (by decide +kernel))
  have hparked := htakenToo.step
    (.block (w := true) (v := ⟨1, 0⟩) (b := 0) Nat.one_pos (by decide +kernel))
  have hparked := hparked.step (.addDependency (w := true) rfl (by decide +kernel))
  have hexecuted := hparked.step
    (.execute (w := false) (v := ⟨0, 0⟩) .wroteNewLocation (by decide +kernel))
  have hexecuted := hexecuted.step (.lock (w := false) (v := ⟨0, 0⟩) rfl (by decide +kernel))
  have hexecuted := hexecuted.step
    (.setReadyStatus (w := false) (v := ⟨0, 0⟩) (d := 1) rfl rfl (by decide +kernel))
  have hexecuted := hexecuted.step (.lowerExecutionIdx (w := false) (v := ⟨0, 0⟩) (d := 1) rfl)
  have hexecuted := hexecuted.step
    (.lowerMinValidationIdx (w := false) (v := ⟨0, 0⟩) rfl (by decide +kernel) (by decide +kernel))
  have hexecuted := hexecuted.step (.compareValidationIdx (w := false) (v := ⟨0, 0⟩) (m := 0) rfl
    (by decide +kernel) (by decide +kernel))
  have hexecuted := hexecuted.step (.lowerValidationIdx (w := false) (v := ⟨0, 0⟩) rfl)
  have hexecuted := hexecuted.step (.report (w := false) (v := ⟨0, 0⟩) rfl (by decide +kernel))
  have hresumed := hexecuted.step (.loadAborted (w := true) (by decide +kernel))
  have hresumed := hresumed.step (.loadExecutionIdx (w := true) (by decide +kernel))
  have hresumed := hresumed.step (.loadValidationIdx (w := true) (e := 1) (by decide +kernel))
  have hresumed := hresumed.step (.fallThrough (w := true) (e := 1) (v := 1)
    (by decide +kernel) (by decide +kernel) (by decide +kernel))
  have hresumed := hresumed.step (.takeExecutionIdx (w := true) (by decide +kernel))
  have hresumed := hresumed.step
    (.tryExecute (w := true) (j := 1) (by decide +kernel) (by decide +kernel))
  have hexecutedToo := hresumed.step
    (.execute (w := true) (v := ⟨1, 1⟩) .wroteNewLocation (by decide +kernel))
  have hexecutedToo := hexecutedToo.step (.lock (w := true) (v := ⟨1, 1⟩) rfl (by decide +kernel))
  have hexecutedToo := hexecutedToo.step
    (.lowerMinValidationIdx (w := true) (v := ⟨1, 1⟩) rfl (by decide +kernel) (by decide +kernel))
  have hexecutedToo := hexecutedToo.step
    (.compareValidationIdx (w := true) (v := ⟨1, 1⟩) (m := 0) rfl (by decide +kernel)
      (by decide +kernel))
  have hexecutedToo := hexecutedToo.step (.close (w := true) (v := ⟨1, 1⟩) rfl)
  have hvalidatedToo := hexecutedToo.step (.loadAborted (w := true) (by decide +kernel))
  have hvalidatedToo := hvalidatedToo.step (.loadExecutionIdx (w := true) (by decide +kernel))
  have hvalidatedToo := hvalidatedToo.step
    (.loadValidationIdx (w := true) (e := 2) (by decide +kernel))
  have hvalidatedToo := hvalidatedToo.step (.takeValidationIdx (w := true) (e := 2) (v := 1)
    (by decide +kernel) (by decide +kernel) (by decide +kernel))
  have hvalidatedToo := hvalidatedToo.step (.validate (w := true) (j := 1) (by decide +kernel)
    (by decide +kernel) (by decide +kernel) (.inl (by decide +kernel)))
  have hvalidatedToo := hvalidatedToo.step
    (.validateReadLocations (w := true) (v := ⟨1, 1⟩) true (by decide +kernel))
  have hvalidatedToo := hvalidatedToo.step
    (.finishValidation (w := true) (v := ⟨1, 1⟩) (by decide +kernel) (by decide +kernel))
  have hvalidated := hvalidatedToo.step
    (.validateReadLocations (w := false) (v := ⟨0, 0⟩) true (by decide +kernel))
  have hvalidated := hvalidated.step
    (.finishValidation (w := false) (v := ⟨0, 0⟩) (by decide +kernel) (by decide +kernel))
  have hleft := hvalidated.step (.loadAborted (w := false) (by decide +kernel))
  have hleft := hleft.step (.loadExecutionIdx (w := false) (by decide +kernel))
  have hleft := hleft.step (.loadValidationIdx (w := false) (e := 2) (by decide +kernel))
  have hleft := hleft.step
    (.loadNumValidated (w := false) (e := 2) (v := 2) (by decide +kernel) (by decide +kernel))
  have hleft := hleft.step (.loadMinValidationIdx (w := false) (k := 2) (by decide +kernel))
  have hgone := hleft.step (.loadAborted (w := true) (by decide +kernel))
  have hgone := hgone.step (.loadExecutionIdx (w := true) (by decide +kernel))
  have hgone := hgone.step (.loadValidationIdx (w := true) (e := 2) (by decide +kernel))
  have hgone := hgone.step
    (.loadNumValidated (w := true) (e := 2) (v := 2) (by decide +kernel) (by decide +kernel))
  have hgone := hgone.step (.loadMinValidationIdx (w := true) (k := 2) (by decide +kernel))
  exact ⟨_, hgone, by decide +kernel, by decide +kernel, by decide +kernel⟩

end Reachable

end Threads

end Pevm
