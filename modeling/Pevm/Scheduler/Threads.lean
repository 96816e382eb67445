import Mathlib.Data.Fintype.Basic
import Pevm.Scheduler.Ownership

/-!
# One access at a time

The methods of the scheduler as the workers run them together: a step is one access to an
atomic counter, or the part of a method that holds one lock. `finish_execution` holds the
lock of its transaction from the first check to the last assignment, and resumes the
dependents meanwhile, one after the other. `add_dependency` holds the lock of the blocking
transaction throughout, so that it is one step here; that it takes two more locks under this
one, each when it is free, is the subject of `Pevm.Scheduler.Waiting`. What an execution writes
and whether a read set is found valid is left open.
-/
namespace Pevm
open Transition

/-- Where a worker stands between two accesses to what it shares with the others. -/
inductive Point
  | polling
  | running
  | loaded (executionIdx : ℕ)
  | compared (executionIdx validationIdx : ℕ)
  | counted (numValidated : ℕ)
  | validationTaken (txIdx : ℕ)
  /-- Nothing to validate; an execution is tried next. -/
  | falling
  | executionTaken (txIdx : ℕ)
  | executing (version : TxVersion)
  | blocked (version : TxVersion) (blockingTxIdx : ℕ) (lower : blockingTxIdx < version.txIdx)
  | executed (version : TxVersion) (flags : FinishExecFlags)
  | resuming (version : TxVersion) (flags : FinishExecFlags)
  | lowering (version : TxVersion) (flags : FinishExecFlags) (dependent : ℕ)
  | bounded (version : TxVersion) (flags : FinishExecFlags) (minValidationIdx : ℕ)
  /-- The validation counter has passed the transaction. -/
  | behind (version : TxVersion) (flags : FinishExecFlags)
  | reporting (version : TxVersion) (flags : FinishExecFlags)
  | closing (version : TxVersion) (flags : FinishExecFlags)
  | validating (version : TxVersion)
  | failed (version : TxVersion)
  | aborted (version : TxVersion)
  | readied (version : TxVersion)
  | lowered (version : TxVersion)
  | retaking (version : TxVersion)
  | settled (version : TxVersion)
  | gone
  deriving DecidableEq, Repr

namespace Point

/-- What the worker is in charge of at this point. -/
def charge : Point → Charge
  | executing v | blocked v _ _ | executed v _ => .executes v
  | resuming v _ | lowering v _ _ => .drains v
  | bounded v _ _ | behind v _ | reporting v _ | closing v _ => .drained v
  | aborted v => .aborts v
  | _ => .free

/-- The version of the task that the worker is at. -/
def version : Point → Option TxVersion
  | executing v | blocked v _ _ | executed v _ | resuming v _ | lowering v _ _ | bounded v _ _
  | behind v _ | reporting v _ | closing v _ | validating v | failed v | aborted v | readied v
  | lowered v | retaking v | settled v => some v
  | polling | running | loaded _ | compared _ _ | counted _ | validationTaken _ | falling
  | executionTaken _ | gone => none

end Point

/-- The workers over the scheduler at the level of single accesses. -/
structure Threads (W : Type) where
  scheduler : Scheduler
  point : W → Point
  /-- The execution tasks given out so far. -/
  handedOut : List TxVersion

namespace Threads
variable {W : Type}

/-- The status of `j` is locked by a worker that finishes its execution. -/
def Locked (σ : Threads W) (j : ℕ) : Prop := ∃ w, (σ.point w).charge.Locks j

instance [Fintype W] (σ : Threads W) (j : ℕ) : Decidable (σ.Locked j) :=
  inferInstanceAs (Decidable (∃ w, (σ.point w).charge.Locks j))

section Calls
variable [DecidableEq W]

/-- A worker gets to another point, and the scheduler to another state. -/
def move (σ : Threads W) (w : W) (p : Point) (s : Scheduler) : Threads W :=
  { σ with scheduler := s, point := Function.update σ.point w p }

/-- A worker goes on with what `try_execute` answers; a version that it is given is on record. -/
def take (σ : Threads W) (w : W) (txIdx : ℕ) : Threads W :=
  match σ.scheduler.tryExecute txIdx with
  | (some v, s) => { σ.move w (.executing v) s with handedOut := v :: σ.handedOut }
  | (none, s) => σ.move w .polling s

/-- One access of one worker: a load or store of a counter, or what is done under one lock. -/
inductive Step : Threads W → Threads W → Prop
  | loadAborted {σ : Threads W} {w : W} : σ.point w = .polling →
      Step σ (σ.move w (if σ.scheduler.aborted then .gone else .running) σ.scheduler)
  | loadExecutionIdx {σ : Threads W} {w : W} : σ.point w = .running →
      Step σ (σ.move w (.loaded σ.scheduler.executionIdx) σ.scheduler)
  | loadValidationIdx {σ : Threads W} {w : W} {e : ℕ} : σ.point w = .loaded e →
      Step σ (σ.move w (.compared e σ.scheduler.validationIdx) σ.scheduler)
  | loadNumValidated {σ : Threads W} {w : W} {e v : ℕ} : σ.point w = .compared e v →
      σ.scheduler.blockSize ≤ e ∧ σ.scheduler.blockSize ≤ v →
      Step σ (σ.move w (.counted σ.scheduler.numValidated) σ.scheduler)
  | loadMinValidationIdx {σ : Threads W} {w : W} {k : ℕ} : σ.point w = .counted k →
      Step σ (σ.move w
        (if σ.scheduler.blockSize - σ.scheduler.minValidationIdx ≤ k then .gone else .polling)
        σ.scheduler)
  | takeValidationIdx {σ : Threads W} {w : W} {e v : ℕ} : σ.point w = .compared e v →
      ¬ (σ.scheduler.blockSize ≤ e ∧ σ.scheduler.blockSize ≤ v) → v < e →
      Step σ (σ.move w (.validationTaken σ.scheduler.validationIdx)
        (σ.scheduler.withValidationIdx (σ.scheduler.validationIdx + 1)))
  | fallThrough {σ : Threads W} {w : W} {e v : ℕ} : σ.point w = .compared e v →
      ¬ (σ.scheduler.blockSize ≤ e ∧ σ.scheduler.blockSize ≤ v) → ¬ v < e →
      Step σ (σ.move w .falling σ.scheduler)
  | pastEnd {σ : Threads W} {w : W} {j : ℕ} : σ.point w = .validationTaken j →
      ¬ j < σ.scheduler.blockSize → Step σ (σ.move w .falling σ.scheduler)
  | steal {σ : Threads W} {w : W} {j : ℕ} : σ.point w = .validationTaken j →
      j < σ.scheduler.blockSize → ¬ σ.Locked j → σ.scheduler.statusOf j = .readyToExecute →
      Step σ { σ.move w (.executing (σ.scheduler.versionOf j))
        (σ.scheduler.setStatus j .executing) with
        handedOut := σ.scheduler.versionOf j :: σ.handedOut }
  | validate {σ : Threads W} {w : W} {j : ℕ} : σ.point w = .validationTaken j →
      j < σ.scheduler.blockSize → ¬ σ.Locked j → σ.scheduler.Done j →
      Step σ (σ.move w (.validating (σ.scheduler.versionOf j)) σ.scheduler)
  | skipAborting {σ : Threads W} {w : W} {j : ℕ} : σ.point w = .validationTaken j →
      j < σ.scheduler.blockSize → ¬ σ.Locked j → σ.scheduler.statusOf j = .aborting →
      Step σ (σ.move w .polling σ.scheduler)
  | skipExecuting {σ : Threads W} {w : W} {j : ℕ} : σ.point w = .validationTaken j →
      j < σ.scheduler.blockSize → ¬ σ.Locked j → σ.scheduler.statusOf j = .executing →
      Step σ (σ.move w .falling σ.scheduler)
  | takeExecutionIdx {σ : Threads W} {w : W} : σ.point w = .falling →
      Step σ (σ.move w (.executionTaken σ.scheduler.executionIdx)
        (σ.scheduler.withExecutionIdx (σ.scheduler.executionIdx + 1)))
  | tryExecute {σ : Threads W} {w : W} {j : ℕ} : σ.point w = .executionTaken j →
      ¬ σ.Locked j → Step σ (σ.take w j)
  | block {σ : Threads W} {w : W} {v : TxVersion} {b : ℕ} (lower : b < v.txIdx) :
      σ.point w = .executing v → Step σ (σ.move w (.blocked v b lower) σ.scheduler)
  | addDependency {σ : Threads W} {w : W} {v : TxVersion} {b : ℕ} {lower : b < v.txIdx} :
      σ.point w = .blocked v b lower → ¬ σ.Locked b →
      Step σ (σ.move w
        (if (σ.scheduler.addDependency v.txIdx b).1 then .polling else .executing v)
        (σ.scheduler.addDependency v.txIdx b).2)
  | abort {σ : Threads W} {w : W} {v : TxVersion} : σ.point w = .executing v →
      Step σ (σ.move w .gone σ.scheduler.abort)
  /-- Once the block is aborted, a worker drops what it has not finished. -/
  | leave {σ : Threads W} {w : W} : σ.scheduler.aborted = true →
      (σ.point w = .polling ∨ ∃ v, σ.point w = .executing v ∨ σ.point w = .validating v) →
      Step σ (σ.move w .gone σ.scheduler)
  | execute {σ : Threads W} {w : W} {v : TxVersion} (flags : FinishExecFlags) :
      σ.point w = .executing v → Step σ (σ.move w (.executed v flags) σ.scheduler)
  | lock {σ : Threads W} {w : W} {v : TxVersion} {flags : FinishExecFlags} :
      σ.point w = .executed v flags → ¬ σ.Locked v.txIdx →
      Step σ (σ.move w (.resuming v flags) σ.scheduler)
  | setReadyStatus {σ : Threads W} {w : W} {v : TxVersion} {flags : FinishExecFlags} {d : ℕ}
      {deps : List ℕ} : σ.point w = .resuming v flags →
      σ.scheduler.transactionsDependents v.txIdx = d :: deps → ¬ σ.Locked d →
      Step σ (σ.move w (.lowering v flags d)
        ((σ.scheduler.withDependents v.txIdx deps).setReadyStatus d))
  | lowerExecutionIdx {σ : Threads W} {w : W} {v : TxVersion} {flags : FinishExecFlags} {d : ℕ} :
      σ.point w = .lowering v flags d →
      Step σ (σ.move w (.resuming v flags)
        (σ.scheduler.withExecutionIdx (min σ.scheduler.executionIdx d)))
  | lowerMinValidationIdx {σ : Threads W} {w : W} {v : TxVersion} {flags : FinishExecFlags} :
      σ.point w = .resuming v flags → σ.scheduler.transactionsDependents v.txIdx = [] →
      flags.contains .needValidation = true →
      Step σ (σ.move w (.bounded v flags (min σ.scheduler.minValidationIdx v.txIdx))
        (σ.scheduler.withMinValidationIdx (min σ.scheduler.minValidationIdx v.txIdx)))
  | loadMinValidationIdxToo {σ : Threads W} {w : W} {v : TxVersion} {flags : FinishExecFlags} :
      σ.point w = .resuming v flags → σ.scheduler.transactionsDependents v.txIdx = [] →
      flags.contains .needValidation = false →
      Step σ (σ.move w (.bounded v flags σ.scheduler.minValidationIdx) σ.scheduler)
  | noBound {σ : Threads W} {w : W} {v : TxVersion} {flags : FinishExecFlags} {m : ℕ} :
      σ.point w = .bounded v flags m → ¬ m < σ.scheduler.blockSize →
      Step σ (σ.move w (.closing v flags) σ.scheduler)
  | lowerToBound {σ : Threads W} {w : W} {v : TxVersion} {flags : FinishExecFlags} {m : ℕ} :
      σ.point w = .bounded v flags m → m < σ.scheduler.blockSize → v.txIdx < m →
      Step σ (σ.move w (.closing v flags)
        (if flags.contains .wroteNewLocation then
          σ.scheduler.withValidationIdx (min σ.scheduler.validationIdx m) else σ.scheduler))
  | compareValidationIdx {σ : Threads W} {w : W} {v : TxVersion} {flags : FinishExecFlags}
      {m : ℕ} : σ.point w = .bounded v flags m → m < σ.scheduler.blockSize → ¬ v.txIdx < m →
      Step σ (σ.move w
        (if v.txIdx < σ.scheduler.validationIdx then .behind v flags else .closing v flags)
        σ.scheduler)
  | lowerValidationIdx {σ : Threads W} {w : W} {v : TxVersion} {flags : FinishExecFlags} :
      σ.point w = .behind v flags →
      Step σ (σ.move w (.reporting v flags)
        (if flags.contains .wroteNewLocation then
          σ.scheduler.withValidationIdx (min σ.scheduler.validationIdx (v.txIdx + 1))
        else σ.scheduler))
  | report {σ : Threads W} {w : W} {v : TxVersion} {flags : FinishExecFlags} :
      σ.point w = .reporting v flags → flags.contains .needValidation = true →
      Step σ (σ.move w (.validating v) (σ.scheduler.setStatus v.txIdx .executed))
  | markValidated {σ : Threads W} {w : W} {v : TxVersion} {flags : FinishExecFlags} :
      σ.point w = .reporting v flags → flags.contains .needValidation = false →
      Step σ (σ.move w (.closing v flags) (σ.scheduler.markValidated v.txIdx))
  | close {σ : Threads W} {w : W} {v : TxVersion} {flags : FinishExecFlags} :
      σ.point w = .closing v flags →
      Step σ (σ.move w .polling
        (if flags.contains .needValidation then σ.scheduler.setStatus v.txIdx .executed
          else σ.scheduler.markValidated v.txIdx))
  | validateReadLocations {σ : Threads W} {w : W} {v : TxVersion} (valid : Bool) :
      σ.point w = .validating v →
      Step σ (σ.move w (if valid then .settled v else .failed v) σ.scheduler)
  | tryValidationAbort {σ : Threads W} {w : W} {v : TxVersion} : σ.point w = .failed v →
      ¬ σ.Locked v.txIdx →
      Step σ (σ.move w
        (if (σ.scheduler.tryValidationAbort v).1 then .aborted v else .settled v)
        (σ.scheduler.tryValidationAbort v).2)
  | setReadyStatusToo {σ : Threads W} {w : W} {v : TxVersion} : σ.point w = .aborted v →
      ¬ σ.Locked v.txIdx → Step σ (σ.move w (.readied v) (σ.scheduler.setReadyStatus v.txIdx))
  | lowerValidationIdxToo {σ : Threads W} {w : W} {v : TxVersion} : σ.point w = .readied v →
      Step σ (σ.move w (.lowered v)
        (σ.scheduler.withValidationIdx (min σ.scheduler.validationIdx (v.txIdx + 1))))
  | compareExecutionIdx {σ : Threads W} {w : W} {v : TxVersion} : σ.point w = .lowered v →
      Step σ (σ.move w
        (if v.txIdx < σ.scheduler.executionIdx then .retaking v else .polling) σ.scheduler)
  | tryExecuteAgain {σ : Threads W} {w : W} {v : TxVersion} : σ.point w = .retaking v →
      ¬ σ.Locked v.txIdx → Step σ (σ.take w v.txIdx)
  | finishValidation {σ : Threads W} {w : W} {v : TxVersion} : σ.point w = .settled v →
      ¬ σ.Locked v.txIdx →
      Step σ (σ.move w .polling (σ.scheduler.finishValidation v false).2)

/-- A block of this size begins, and all workers ask for a task. -/
def system (W : Type) [DecidableEq W] (blockSize : ℕ) : TransitionSystem (Threads W) where
  init σ := σ.scheduler = .new blockSize ∧ (∀ w, σ.point w = .polling) ∧ σ.handedOut = []
  step := Step

end Calls

/-- The threads without the counters: statuses, dependents and who is in charge. -/
def board (σ : Threads W) : Board W where
  blockSize := σ.scheduler.blockSize
  status := σ.scheduler.transactionsStatus
  dependents := σ.scheduler.transactionsDependents
  charge w := (σ.point w).charge
  handedOut := σ.handedOut

section Abstraction
variable {σ : Threads W} {w : W} {p : Point} {s : Scheduler}

lemma board_charge (h : σ.point w = p) : σ.board.charge w = p.charge := by
  rw [← h]
  rfl

variable [DecidableEq W]

lemma board_move : (σ.move w p s).board =
    { blockSize := s.blockSize
      status := s.transactionsStatus
      dependents := s.transactionsDependents
      charge := Function.update σ.board.charge w p.charge
      handedOut := σ.handedOut } := by
  have hcharge : (fun w' => (Function.update σ.point w p w').charge) =
      Function.update (fun w' => (σ.point w').charge) w p.charge := by
    funext w'
    by_cases h : w' = w
    · subst h
      simp
    · simp [h]
  simp only [board, move, hcharge]

/-- The worker stays in charge of what it is in charge of. -/
lemma board_move_of_charge (hcharge : p.charge = (σ.point w).charge) :
    (σ.move w p s).board =
      { σ.board with
        blockSize := s.blockSize
        status := s.transactionsStatus
        dependents := s.transactionsDependents } := by
  rw [board_move, hcharge]
  simp [board]

/-- An access to a counter. -/
lemma board_silent (hcharge : p.charge = (σ.point w).charge)
    (hsize : s.blockSize = σ.scheduler.blockSize)
    (hstatus : s.transactionsStatus = σ.scheduler.transactionsStatus)
    (hdeps : s.transactionsDependents = σ.scheduler.transactionsDependents) :
    Relation.ReflGen Board.Step σ.board (σ.move w p s).board := by
  have heq : (σ.move w p s).board = σ.board := by
    rw [board_move_of_charge hcharge, hsize, hstatus, hdeps]
    rfl
  rw [heq]

/-- The execution of `j` is handed out. -/
lemma board_hand {j : ℕ} (hw : (σ.point w).charge = .free) (hj : j < σ.scheduler.blockSize)
    (hready : σ.scheduler.statusOf j = .readyToExecute) :
    Board.Step σ.board (board { σ.move w (.executing (σ.scheduler.versionOf j))
      (σ.scheduler.setStatus j .executing) with
      handedOut := σ.scheduler.versionOf j :: σ.handedOut }) := by
  have hstatus : σ.scheduler.transactionsStatus j =
      ⟨σ.scheduler.incarnationOf j, .readyToExecute⟩ := by
    rw [← hready]
    rfl
  have hmove : (σ.move w (.executing (σ.scheduler.versionOf j))
      (σ.scheduler.setStatus j .executing)).board =
        (σ.board.setStatus j .executing).assign w (.executes (σ.scheduler.versionOf j)) := by
    rw [board_move]
    rfl
  have heq : board { σ.move w (.executing (σ.scheduler.versionOf j))
      (σ.scheduler.setStatus j .executing) with
        handedOut := σ.scheduler.versionOf j :: σ.handedOut } =
      ((σ.board.setStatus j .executing).assign w
        (.executes (σ.scheduler.versionOf j))).hand (σ.scheduler.versionOf j) := by
    rw [← hmove]
    rfl
  rw [heq]
  exact .take (v := σ.scheduler.versionOf j) hw hj hstatus

lemma board_take {j : ℕ} (hw : (σ.point w).charge = .free) :
    Relation.ReflGen Board.Step σ.board (σ.take w j).board := by
  unfold take Scheduler.tryExecute
  by_cases h : j < σ.scheduler.blockSize ∧ σ.scheduler.statusOf j = .readyToExecute
  · rw [if_pos h]
    exact .single (board_hand hw h.1 h.2)
  · rw [if_neg h]
    exact board_silent hw.symm rfl rfl rfl

/-- An access changes who is in charge, or nothing that matters for it. -/
theorem Step.board {σ' : Threads W} (h : Step σ σ') :
    Relation.ReflGen Board.Step σ.board σ'.board := by
  cases h with
  | loadAborted hw => exact board_silent (by rw [hw]; split <;> rfl) rfl rfl rfl
  | loadExecutionIdx hw => exact board_silent (by rw [hw]; rfl) rfl rfl rfl
  | loadValidationIdx hw => exact board_silent (by rw [hw]; rfl) rfl rfl rfl
  | loadNumValidated hw _ => exact board_silent (by rw [hw]; rfl) rfl rfl rfl
  | loadMinValidationIdx hw => exact board_silent (by rw [hw]; split <;> rfl) rfl rfl rfl
  | takeValidationIdx hw _ _ => exact board_silent (by rw [hw]; rfl) rfl rfl rfl
  | fallThrough hw _ _ => exact board_silent (by rw [hw]; rfl) rfl rfl rfl
  | pastEnd hw _ => exact board_silent (by rw [hw]; rfl) rfl rfl rfl
  | steal hw hj _ hready => exact .single (board_hand (by rw [hw]; rfl) hj hready)
  | validate hw _ _ _ => exact board_silent (by rw [hw]; rfl) rfl rfl rfl
  | skipAborting hw _ _ _ => exact board_silent (by rw [hw]; rfl) rfl rfl rfl
  | skipExecuting hw _ _ _ => exact board_silent (by rw [hw]; rfl) rfl rfl rfl
  | takeExecutionIdx hw => exact board_silent (by rw [hw]; rfl) rfl rfl rfl
  | tryExecute hw _ => exact board_take (by rw [hw]; rfl)
  | block lower hw => exact board_silent (by rw [hw]; rfl) rfl rfl rfl
  | @addDependency w v b lower hw hlocked =>
    rw [Scheduler.addDependency_eq]
    by_cases hdone : σ.scheduler.Done b
    · rw [if_pos hdone]
      exact board_silent (by rw [hw]; rfl) rfl rfl rfl
    · rw [if_neg hdone, board_move]
      exact .single (.park (board_charge hw) lower hdone hlocked)
  | abort hw =>
    rw [board_move]
    exact .single (.give (board_charge hw))
  | @leave w _ hw =>
    obtain hw | ⟨v, hw | hw⟩ := hw
    · exact board_silent (by rw [hw]; rfl) rfl rfl rfl
    · rw [board_move]
      exact .single (.give (board_charge hw))
    · exact board_silent (by rw [hw]; rfl) rfl rfl rfl
  | execute flags hw => exact board_silent (by rw [hw]; rfl) rfl rfl rfl
  | lock hw _ =>
    rw [board_move]
    exact .single (.lock (board_charge hw))
  | @setReadyStatus w v flags d deps hw hdeps _ =>
    rw [board_move_of_charge (by rw [hw]; rfl)]
    exact .single (.resume (board_charge hw) hdeps)
  | lowerExecutionIdx hw => exact board_silent (by rw [hw]; rfl) rfl rfl rfl
  | lowerMinValidationIdx hw hdeps _ =>
    rw [board_move]
    exact .single (.drain (board_charge hw) hdeps)
  | loadMinValidationIdxToo hw hdeps _ =>
    rw [board_move]
    exact .single (.drain (board_charge hw) hdeps)
  | noBound hw _ => exact board_silent (by rw [hw]; rfl) rfl rfl rfl
  | lowerToBound hw _ _ =>
    split
    · exact board_silent (by rw [hw]; rfl) rfl rfl rfl
    · exact board_silent (by rw [hw]; rfl) rfl rfl rfl
  | compareValidationIdx hw _ _ => exact board_silent (by rw [hw]; split <;> rfl) rfl rfl rfl
  | lowerValidationIdx hw =>
    split
    · exact board_silent (by rw [hw]; rfl) rfl rfl rfl
    · exact board_silent (by rw [hw]; rfl) rfl rfl rfl
  | report hw _ =>
    rw [board_move]
    exact .single (.finish (board_charge hw))
  | markValidated _ hflags => simp at hflags
  | close hw =>
    rw [FinishExecFlags.contains_needValidation, if_pos rfl, board_move]
    exact .single (.finish (board_charge hw))
  | validateReadLocations valid hw => exact board_silent (by rw [hw]; split <;> rfl) rfl rfl rfl
  | @tryValidationAbort w v hw _ =>
    rw [Scheduler.tryValidationAbort_eq]
    by_cases hdone : σ.scheduler.Done v.txIdx
    · rw [if_pos hdone, board_move]
      exact .single (.abort (board_charge hw) hdone)
    · rw [if_neg hdone]
      exact board_silent (by rw [hw]; rfl) rfl rfl rfl
  | setReadyStatusToo hw _ =>
    rw [board_move]
    exact .single (.ready (board_charge hw))
  | lowerValidationIdxToo hw => exact board_silent (by rw [hw]; rfl) rfl rfl rfl
  | compareExecutionIdx hw => exact board_silent (by rw [hw]; split <;> rfl) rfl rfl rfl
  | tryExecuteAgain hw _ => exact board_take (by rw [hw]; rfl)
  | @finishValidation w v hw _ =>
    simp only [Scheduler.finishValidation, Bool.false_eq_true, if_false]
    by_cases hst : σ.scheduler.statusOf v.txIdx = .executed
    · rw [if_pos hst, board_move_of_charge (by rw [hw]; rfl)]
      exact .single (.validate hst)
    · rw [if_neg hst]
      exact board_silent (by rw [hw]; rfl) rfl rfl rfl

/-- The threads, seen without the counters, pass the transactions on as the board does. -/
def abstraction (W : Type) [DecidableEq W] (blockSize : ℕ) :
    (system W blockSize).Abstraction (Board.system W blockSize) where
  f := board
  init σ h := by
    obtain ⟨hs, hpoint, hhanded⟩ := h
    refine ⟨?_, ?_, ?_, ?_, hhanded⟩
    · simp [board, hs, Scheduler.new]
    · simp [board, hs, Scheduler.new]
    · simp [board, hs, Scheduler.new]
    · simp [board, hpoint, Point.charge]
  step _ _ h := h.board

end Abstraction

end Threads

end Pevm
