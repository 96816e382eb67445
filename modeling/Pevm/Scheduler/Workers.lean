import Pevm.Lib.Transition
import Pevm.Scheduler

/-!
# Workers of one scheduler

Any number of workers call one scheduler, one call at a time, in any order. What an
execution writes and whether a read set is found valid is left open: a worker that
executes may block on any lower transaction and finish with any flags, and a worker
that validates may try to abort.
-/
namespace Pevm
open Transition

/-- What a worker is in charge of between two calls. -/
inductive Role
  | idle
  | executor (version : TxVersion)
  /-- The result of the execution is stored. -/
  | finisher (version : TxVersion)
  | validator (version : TxVersion)
  /-- The validation has failed and the abort has succeeded. -/
  | aborter (version : TxVersion)
  | gone
  deriving DecidableEq, Repr

namespace Role

/-- The role of a worker that is handed a task, or none. -/
def ofTask : Option Task → Role
  | some (.execution v) => .executor v
  | some (.validation v) => .validator v
  | none => .idle

/-- The role of a worker after an iteration of `next_task`. -/
def ofPoll : Scheduler.Poll → Role
  | .task t => ofTask (some t)
  | .again => .idle
  | .exit => .gone

/-- The version that the worker is in charge of. -/
def version : Role → Option TxVersion
  | .executor v | .finisher v | .validator v | .aborter v => some v
  | .idle | .gone => none

def Concerns (r : Role) (j : ℕ) : Prop := ∃ v, r.version = some v ∧ v.txIdx = j

/-- The worker executes `j`, or has stored its result and is about to finish. -/
def Executes (r : Role) (j : ℕ) : Prop := ∃ v, (r = .executor v ∨ r = .finisher v) ∧ v.txIdx = j

/-- The worker has stored the result of `j` and is about to finish. -/
def Finishes (r : Role) (j : ℕ) : Prop := ∃ v, r = .finisher v ∧ v.txIdx = j

def Validates (r : Role) (j : ℕ) : Prop := ∃ v, r = .validator v ∧ v.txIdx = j

/-- The worker has aborted `j` and has not made it ready again yet. -/
def Aborts (r : Role) (j : ℕ) : Prop := ∃ v, r = .aborter v ∧ v.txIdx = j

/-- The worker holds no task. -/
def Free (r : Role) : Prop := r = .idle ∨ r = .gone

end Role

/-- A scheduler, the results of the block, and its workers. -/
structure Crew (W ρ : Type) where
  scheduler : Scheduler
  executionResults : ℕ → Option ρ
  role : W → Role

namespace Crew
variable {W ρ : Type}

/-- What holds of transaction `j` between any two calls: its status and the workers that hold it
agree. -/
structure TxInvariant (σ : Crew W ρ) (j : ℕ) : Prop where
  executing : ∀ w, (σ.role w).Executes j → σ.scheduler.statusOf j = .executing
  incarnation : ∀ w v, σ.role w = .executor v ∨ σ.role w = .finisher v → v.txIdx = j →
    v = σ.scheduler.versionOf j
  executingUnique : ∀ w w', (σ.role w).Executes j → (σ.role w').Executes j → w = w'
  executingHeld : σ.scheduler.statusOf j = .executing → ∃ w, (σ.role w).Executes j
  aborting : ∀ w, (σ.role w).Aborts j → σ.scheduler.statusOf j = .aborting ∧
    ∀ b, j ∉ σ.scheduler.transactionsDependents b
  abortingUnique : ∀ w w', (σ.role w).Aborts j → (σ.role w').Aborts j → w = w'
  abortingHeld : σ.scheduler.statusOf j = .aborting →
    (∃ w, (σ.role w).Aborts j) ∨ ∃ b, j ∈ σ.scheduler.transactionsDependents b
  parked : ∀ b, j ∈ σ.scheduler.transactionsDependents b →
    b < j ∧ σ.scheduler.statusOf j = .aborting ∧ ¬ σ.scheduler.Done b
  parkedUnique : ∀ b b', j ∈ σ.scheduler.transactionsDependents b →
    j ∈ σ.scheduler.transactionsDependents b' → b = b'
  parkedNodup : (σ.scheduler.transactionsDependents j).Nodup
  ready : σ.scheduler.statusOf j = .readyToExecute → σ.scheduler.executionIdx ≤ j
  executed : σ.scheduler.statusOf j = .executed →
    σ.scheduler.validationIdx ≤ j ∨ ∃ w, (σ.role w).Validates j
  filled : (σ.scheduler.Done j ∨ ∃ w, (σ.role w).Finishes j) →
    (σ.executionResults j).isSome = true

/-- What holds of a crew between any two calls, as long as the block is not aborted. -/
structure Invariant (σ : Crew W ρ) : Prop where
  notAborted : σ.scheduler.aborted = false
  bound : ∀ w j, (σ.role w).Concerns j → j < σ.scheduler.blockSize
  parkedBound : ∀ b j, j ∈ σ.scheduler.transactionsDependents b → j < σ.scheduler.blockSize
  tx : ∀ j < σ.scheduler.blockSize, TxInvariant σ j
  goneDone : (∀ w, σ.role w = .gone) → σ.scheduler.blockSize ≤ σ.scheduler.validationIdx ∧
    ∀ j < σ.scheduler.blockSize, σ.scheduler.statusOf j = .validated

section Calls
variable [DecidableEq W]

/-- A worker gets another role, and the scheduler another state. -/
def assign (σ : Crew W ρ) (w : W) (r : Role) (s : Scheduler) : Crew W ρ :=
  { σ with scheduler := s, role := Function.update σ.role w r }

/-- The result of an execution is put into the slot of its transaction. -/
def storeResult (σ : Crew W ρ) (j : ℕ) (result : ρ) : Crew W ρ :=
  { σ with executionResults := Function.update σ.executionResults j (some result) }

/-- One call of one worker, in any order among the workers. -/
inductive Step : Crew W ρ → Crew W ρ → Prop
  | nextTask {σ : Crew W ρ} {w : W} : σ.role w = .idle →
      Step σ (σ.assign w (.ofPoll σ.scheduler.poll.1) σ.scheduler.poll.2)
  | addDependency {σ : Crew W ρ} {w : W} {v : TxVersion} {blocking : ℕ} :
      σ.role w = .executor v → blocking < v.txIdx →
      Step σ (σ.assign w
        (if (σ.scheduler.addDependency v.txIdx blocking).1 then .idle else .executor v)
        (σ.scheduler.addDependency v.txIdx blocking).2)
  | storeResult {σ : Crew W ρ} {w : W} {v : TxVersion} (result : ρ) : σ.role w = .executor v →
      Step σ ((σ.storeResult v.txIdx result).assign w (.finisher v) σ.scheduler)
  | finishExecution {σ : Crew W ρ} {w : W} {v : TxVersion} (flags : FinishExecFlags) :
      σ.role w = .finisher v →
      Step σ (σ.assign w (.ofTask (σ.scheduler.finishExecution v flags).1)
        (σ.scheduler.finishExecution v flags).2)
  | tryValidationAbort {σ : Crew W ρ} {w : W} {v : TxVersion} : σ.role w = .validator v →
      Step σ (σ.assign w
        (if (σ.scheduler.tryValidationAbort v).1 then .aborter v else .validator v)
        (σ.scheduler.tryValidationAbort v).2)
  | finishValidation {σ : Crew W ρ} {w : W} {v : TxVersion} : σ.role w = .validator v →
      Step σ (σ.assign w (.ofTask (σ.scheduler.finishValidation v false).1)
        (σ.scheduler.finishValidation v false).2)
  | finishAbort {σ : Crew W ρ} {w : W} {v : TxVersion} : σ.role w = .aborter v →
      Step σ (σ.assign w (.ofTask (σ.scheduler.finishValidation v true).1)
        (σ.scheduler.finishValidation v true).2)

/-- All workers start without a task; old results may still lie in the slots. -/
def system (W ρ : Type) [DecidableEq W] (blockSize : ℕ) : TransitionSystem (Crew W ρ) where
  init σ := σ.scheduler = .new blockSize ∧ ∀ w, σ.role w = .idle
  step := Step

end Calls

end Crew

end Pevm
