import Pevm.MvMemory
import Pevm.Scheduler.Progress

/-!
# Parallel execution of a block

The worker loop of `execute_revm_parallel` with `try_execute` and `try_validate`, one call
of the scheduler or of the multi-version memory at a time, for any machine that executes
the transactions. No abort reason is ever set.
-/
namespace Pevm
open Transition

/-- What a machine comes to when it goes on executing a transaction: another read has gone through,
the execution starts again, it waits for a lower transaction, or it is through. -/
inductive VmStep (J κ ν ρ : Type)
  | running (job : J)
  | retry
  | blocking (blockingTxIdx : ℕ)
  | finished (readSet : ReadSet κ) (writeSet : WriteSet κ ν) (flags : FinishExecFlags)
      (result : ρ)

/-- A machine that executes transactions against the memory, one read at a time. It only ever
waits for a lower transaction. -/
structure Vm (J κ ν ρ : Type) where
  start : TxVersion → J
  next : TxVersion → J → MvMemory κ ν → VmStep J κ ν ρ → Prop
  blocking_lt : ∀ v job mem b, next v job mem (.blocking b) → b < v.txIdx

/-- Where a worker stands between two calls of the worker loop. -/
inductive Phase (J ρ : Type)
  | polling
  | executing (version : TxVersion) (job : J)
  | blocked (version : TxVersion) (blockingTxIdx : ℕ) (lower : blockingTxIdx < version.txIdx)
  | recorded (version : TxVersion) (flags : FinishExecFlags) (result : ρ)
  | stored (version : TxVersion) (flags : FinishExecFlags)
  | validating (version : TxVersion)
  /-- The read set was found invalid. -/
  | failed (version : TxVersion)
  | aborted (version : TxVersion)
  | converted (version : TxVersion)
  /-- The validation ends without an abort. -/
  | settled (version : TxVersion)
  | gone

namespace Phase
variable {J κ ν ρ : Type}

/-- A worker goes on with the task that it is handed, or with the loop if there is none. -/
def ofTask (vm : Vm J κ ν ρ) : Option Task → Phase J ρ
  | some (.execution v) => .executing v (vm.start v)
  | some (.validation v) => .validating v
  | none => .polling

/-- A worker goes on with what an iteration of `next_task` comes to. -/
def ofPoll (vm : Vm J κ ν ρ) : Scheduler.Poll → Phase J ρ
  | .task t => ofTask vm (some t)
  | .again => .polling
  | .exit => .gone

/-- What the scheduler knows of the phase: which version the worker holds and what for. -/
def role : Phase J ρ → Role
  | polling => .idle
  | executing v _ | blocked v _ _ | recorded v _ _ => .executor v
  | stored v _ => .finisher v
  | validating v | failed v | settled v => .validator v
  | aborted v | converted v => .aborter v
  | gone => .gone

@[simp] lemma role_ofTask (vm : Vm J κ ν ρ) (t : Option Task) :
    (ofTask vm t).role = .ofTask t := by
  rcases t with _ | (v | v) <;> rfl

@[simp] lemma role_ofPoll (vm : Vm J κ ν ρ) (p : Scheduler.Poll) :
    (ofPoll vm p).role = .ofPoll p := by
  cases p with
  | task t => exact role_ofTask vm (some t)
  | again => rfl
  | exit => rfl

instance (p : Phase J ρ) : Decidable (p = .gone) :=
  match p with
  | gone => isTrue rfl
  | polling | executing _ _ | blocked _ _ _ | recorded _ _ _ | stored _ _ | validating _ | failed _
  | aborted _ | converted _ | settled _ => isFalse nofun

/-- The worker holds a validation of `j` whose read check has not returned true. -/
def Checks (p : Phase J ρ) (j : ℕ) : Prop :=
  ∃ v, (p = .validating v ∨ p = .failed v) ∧ v.txIdx = j

/-- The worker has recorded `i` or turned its writes into estimates, and has not reported this
to the scheduler. -/
def Unreported (p : Phase J ρ) (i : ℕ) : Prop :=
  ∃ v, ((∃ flags result, p = .recorded v flags result) ∨ (∃ flags, p = .stored v flags) ∨
    p = .converted v) ∧ v.txIdx = i

end Phase

/-- The workers of `execute_revm_parallel` with what they share: the scheduler, the slots for
results and the multi-version memory. -/
structure Pexe (W J κ ν ρ : Type) where
  scheduler : Scheduler
  executionResults : ℕ → Option ρ
  mvMemory : MvMemory κ ν
  phase : W → Phase J ρ

namespace Pexe
variable {W J κ ν ρ : Type}

/-- The scheduler's view of the workers, without the memory and the jobs. -/
def crew (σ : Pexe W J κ ν ρ) : Crew W ρ where
  scheduler := σ.scheduler
  executionResults := σ.executionResults
  role w := (σ.phase w).role

variable [DecidableEq W]

/-- A worker gets to another phase, and the scheduler to another state. -/
def move (σ : Pexe W J κ ν ρ) (w : W) (p : Phase J ρ) (s : Scheduler) : Pexe W J κ ν ρ :=
  { σ with scheduler := s, phase := Function.update σ.phase w p }

lemma crew_move (σ : Pexe W J κ ν ρ) (w : W) (p : Phase J ρ) (s : Scheduler) :
    (σ.move w p s).crew = σ.crew.assign w p.role s := by
  have hrole : (fun w' => (Function.update σ.phase w p w').role) =
      Function.update (fun w' => (σ.phase w').role) w p.role := by
    funext w'
    by_cases h : w' = w
    · subst h
      simp
    · simp [h]
  simp only [crew, move, Crew.assign, hrole]

/-- A call that the scheduler does not see. -/
lemma crew_move_of_role (σ : Pexe W J κ ν ρ) {w : W} {p : Phase J ρ}
    (h : p.role = (σ.phase w).role) : (σ.move w p σ.scheduler).crew = σ.crew := by
  rw [crew_move, h]
  simp [Crew.assign, crew]

variable [DecidableEq κ]

/-- `execute` of the machine records the sets and adds to the flags what `record` answers. -/
def recordFlags (σ : Pexe W J κ ν ρ) (v : TxVersion) (readSet : ReadSet κ)
    (writeSet : WriteSet κ ν) (flags : FinishExecFlags) : FinishExecFlags :=
  if (σ.mvMemory.record v readSet writeSet).1 then flags.union .wroteNewLocation else flags

/-- One call of one worker, with nothing else in between: `next_task` with its loads, its two
`fetch_add`s and its locks is one step, and so are `finish_execution` and `add_dependency`.
`Threads.Step` takes these calls apart into their single accesses. -/
inductive Step (vm : Vm J κ ν ρ) : Pexe W J κ ν ρ → Pexe W J κ ν ρ → Prop
  | nextTask {σ : Pexe W J κ ν ρ} {w : W} : σ.phase w = .polling →
      Step vm σ (σ.move w (.ofPoll vm σ.scheduler.poll.1) σ.scheduler.poll.2)
  | read {σ : Pexe W J κ ν ρ} {w : W} {v : TxVersion} {job job' : J} :
      σ.phase w = .executing v job → vm.next v job σ.mvMemory (.running job') →
      Step vm σ (σ.move w (.executing v job') σ.scheduler)
  | retry {σ : Pexe W J κ ν ρ} {w : W} {v : TxVersion} {job : J} :
      σ.phase w = .executing v job → vm.next v job σ.mvMemory .retry →
      Step vm σ (σ.move w (.executing v (vm.start v)) σ.scheduler)
  | block {σ : Pexe W J κ ν ρ} {w : W} {v : TxVersion} {job : J} {b : ℕ} :
      σ.phase w = .executing v job → (h : vm.next v job σ.mvMemory (.blocking b)) →
      Step vm σ (σ.move w (.blocked v b (vm.blocking_lt v job σ.mvMemory b h)) σ.scheduler)
  | addDependency {σ : Pexe W J κ ν ρ} {w : W} {v : TxVersion} {b : ℕ} {lower : b < v.txIdx} :
      σ.phase w = .blocked v b lower →
      Step vm σ (σ.move w
        (if (σ.scheduler.addDependency v.txIdx b).1 then .polling
          else .executing v (vm.start v))
        (σ.scheduler.addDependency v.txIdx b).2)
  | record {σ : Pexe W J κ ν ρ} {w : W} {v : TxVersion} {job : J} {readSet : ReadSet κ}
      {writeSet : WriteSet κ ν} {flags : FinishExecFlags} {result : ρ} :
      σ.phase w = .executing v job →
      vm.next v job σ.mvMemory (.finished readSet writeSet flags result) →
      Step vm σ ({ σ with mvMemory := (σ.mvMemory.record v readSet writeSet).2 }.move w
        (.recorded v (σ.recordFlags v readSet writeSet flags) result) σ.scheduler)
  | storeResult {σ : Pexe W J κ ν ρ} {w : W} {v : TxVersion} {flags : FinishExecFlags}
      {result : ρ} : σ.phase w = .recorded v flags result →
      Step vm σ ({ σ with
        executionResults := Function.update σ.executionResults v.txIdx (some result) }.move w
          (.stored v flags) σ.scheduler)
  | finishExecution {σ : Pexe W J κ ν ρ} {w : W} {v : TxVersion} {flags : FinishExecFlags} :
      σ.phase w = .stored v flags →
      Step vm σ (σ.move w (.ofTask vm (σ.scheduler.finishExecution v flags).1)
        (σ.scheduler.finishExecution v flags).2)
  | validateReadLocations {σ : Pexe W J κ ν ρ} {w : W} {v : TxVersion} :
      σ.phase w = .validating v →
      Step vm σ (σ.move w
        (if σ.mvMemory.validateReadLocations v.txIdx then .settled v else .failed v)
        σ.scheduler)
  | tryValidationAbort {σ : Pexe W J κ ν ρ} {w : W} {v : TxVersion} :
      σ.phase w = .failed v →
      Step vm σ (σ.move w
        (if (σ.scheduler.tryValidationAbort v).1 then .aborted v else .settled v)
        (σ.scheduler.tryValidationAbort v).2)
  | convertWritesToEstimates {σ : Pexe W J κ ν ρ} {w : W} {v : TxVersion} :
      σ.phase w = .aborted v →
      Step vm σ ({ σ with mvMemory := σ.mvMemory.convertWritesToEstimates v.txIdx }.move w
        (.converted v) σ.scheduler)
  | finishAbort {σ : Pexe W J κ ν ρ} {w : W} {v : TxVersion} :
      σ.phase w = .converted v →
      Step vm σ (σ.move w (.ofTask vm (σ.scheduler.finishValidation v true).1)
        (σ.scheduler.finishValidation v true).2)
  | finishValidation {σ : Pexe W J κ ν ρ} {w : W} {v : TxVersion} :
      σ.phase w = .settled v →
      Step vm σ (σ.move w (.ofTask vm (σ.scheduler.finishValidation v false).1)
        (σ.scheduler.finishValidation v false).2)

/-- A block of this size begins: nothing is recorded yet but the estimates, and all workers ask for
a task. -/
def system (W : Type) [DecidableEq W] (vm : Vm J κ ν ρ) (blockSize : ℕ)
    (estimatedLocations : List (κ × List ℕ)) : TransitionSystem (Pexe W J κ ν ρ) where
  init σ := σ.scheduler = .new blockSize ∧ σ.mvMemory = .new estimatedLocations ∧
    ∀ w, σ.phase w = .polling
  step := Step vm

section Advance
variable (vm : Vm J κ ν ρ) (next : TxVersion → J → MvMemory κ ν → Option (VmStep J κ ν ρ))

/-- The next call of a worker, where the machine can be computed. Nothing happens where the
machine does not go on, or the worker has left. -/
def advance (σ : Pexe W J κ ν ρ) (w : W) : Pexe W J κ ν ρ :=
  match σ.phase w with
  | .polling => σ.move w (.ofPoll vm σ.scheduler.poll.1) σ.scheduler.poll.2
  | .executing v job =>
    match next v job σ.mvMemory with
    | some (.running job') => σ.move w (.executing v job') σ.scheduler
    | some .retry => σ.move w (.executing v (vm.start v)) σ.scheduler
    | some (.blocking b) =>
      if lower : b < v.txIdx then σ.move w (.blocked v b lower) σ.scheduler else σ
    | some (.finished readSet writeSet flags result) =>
      { σ with mvMemory := (σ.mvMemory.record v readSet writeSet).2 }.move w
        (.recorded v (σ.recordFlags v readSet writeSet flags) result) σ.scheduler
    | none => σ
  | .blocked v b _ => σ.move w
      (if (σ.scheduler.addDependency v.txIdx b).1 then .polling else .executing v (vm.start v))
      (σ.scheduler.addDependency v.txIdx b).2
  | .recorded v flags result =>
    { σ with executionResults := Function.update σ.executionResults v.txIdx (some result) }.move w
      (.stored v flags) σ.scheduler
  | .stored v flags => σ.move w (.ofTask vm (σ.scheduler.finishExecution v flags).1)
      (σ.scheduler.finishExecution v flags).2
  | .validating v => σ.move w
      (if σ.mvMemory.validateReadLocations v.txIdx then .settled v else .failed v) σ.scheduler
  | .failed v => σ.move w
      (if (σ.scheduler.tryValidationAbort v).1 then .aborted v else .settled v)
      (σ.scheduler.tryValidationAbort v).2
  | .aborted v => { σ with mvMemory := σ.mvMemory.convertWritesToEstimates v.txIdx }.move w
      (.converted v) σ.scheduler
  | .converted v => σ.move w (.ofTask vm (σ.scheduler.finishValidation v true).1)
      (σ.scheduler.finishValidation v true).2
  | .settled v => σ.move w (.ofTask vm (σ.scheduler.finishValidation v false).1)
      (σ.scheduler.finishValidation v false).2
  | .gone => σ

variable {vm next}

lemma advance_step (hnext : ∀ v job mem step, next v job mem = some step → vm.next v job mem step)
    (σ : Pexe W J κ ν ρ) (w : W) : Relation.ReflGen (Step vm) σ (advance vm next σ w) := by
  unfold advance
  split <;> rename_i hphase
  · exact .single (.nextTask hphase)
  · split <;> rename_i hstep
    · exact .single (.read hphase (hnext _ _ _ _ hstep))
    · exact .single (.retry hphase (hnext _ _ _ _ hstep))
    · split_ifs
      · exact .single (.block hphase (hnext _ _ _ _ hstep))
      · exact .refl
    · exact .single (.record hphase (hnext _ _ _ _ hstep))
    · exact .refl
  · exact .single (.addDependency hphase)
  · exact .single (.storeResult hphase)
  · exact .single (.finishExecution hphase)
  · exact .single (.validateReadLocations hphase)
  · exact .single (.tryValidationAbort hphase)
  · exact .single (.convertWritesToEstimates hphase)
  · exact .single (.finishAbort hphase)
  · exact .single (.finishValidation hphase)
  · exact .refl

end Advance

/-- Every call is a call of the crew or hidden from the scheduler. -/
theorem Step.crew {vm : Vm J κ ν ρ} {σ σ' : Pexe W J κ ν ρ} (h : Step vm σ σ') :
    Relation.ReflGen Crew.Step σ.crew σ'.crew := by
  cases h with
  | @nextTask w hw =>
    rw [crew_move, Phase.role_ofPoll]
    exact .single (.nextTask (by simp [Pexe.crew, hw, Phase.role]))
  | @read w v job job' hw _ => rw [crew_move_of_role σ (by rw [hw]; rfl)]
  | @retry w v job hw _ => rw [crew_move_of_role σ (by rw [hw]; rfl)]
  | @block w v job b hw _ => rw [crew_move_of_role σ (by rw [hw]; rfl)]
  | @addDependency w v b lower hw =>
    have hrole : (if (σ.scheduler.addDependency v.txIdx b).1 then Phase.polling
        else .executing v (vm.start v) : Phase J ρ).role =
          if (σ.scheduler.addDependency v.txIdx b).1 then .idle else .executor v := by
      split <;> rfl
    rw [crew_move, hrole]
    exact .single (.addDependency (by simp [Pexe.crew, hw, Phase.role]) lower)
  | @record w v job readSet writeSet flags result hw _ =>
    rw [crew_move_of_role { σ with mvMemory := (σ.mvMemory.record v readSet writeSet).2 }
      (by rw [hw]; rfl)]
    exact .refl
  | @storeResult w v flags result hw =>
    rw [crew_move]
    exact .single (.storeResult result (by simp [Pexe.crew, hw, Phase.role]))
  | @finishExecution w v flags hw =>
    rw [crew_move, Phase.role_ofTask]
    exact .single (.finishExecution flags (by simp [Pexe.crew, hw, Phase.role]))
  | @validateReadLocations w v hw =>
    rw [crew_move_of_role σ (by rw [hw]; split <;> rfl)]
  | @tryValidationAbort w v hw =>
    have hrole : (if (σ.scheduler.tryValidationAbort v).1 then Phase.aborted v
        else .settled v : Phase J ρ).role =
          if (σ.scheduler.tryValidationAbort v).1 then .aborter v else .validator v := by
      split <;> rfl
    rw [crew_move, hrole]
    exact .single (.tryValidationAbort (by simp [Pexe.crew, hw, Phase.role]))
  | @convertWritesToEstimates w v hw =>
    rw [crew_move_of_role { σ with mvMemory := σ.mvMemory.convertWritesToEstimates v.txIdx }
      (by rw [hw]; rfl)]
    exact .refl
  | @finishAbort w v hw =>
    rw [crew_move, Phase.role_ofTask]
    exact .single (.finishAbort (by simp [Pexe.crew, hw, Phase.role]))
  | @finishValidation w v hw =>
    rw [crew_move, Phase.role_ofTask]
    exact .single (.finishValidation (by simp [Pexe.crew, hw, Phase.role]))

/-- The scheduler and its workers, seen without the memory, behave as a crew, so what holds of every
crew holds of them. -/
def abstraction (vm : Vm J κ ν ρ) (blockSize : ℕ) (estimatedLocations : List (κ × List ℕ)) :
    (system W vm blockSize estimatedLocations).Abstraction (Crew.system W ρ blockSize) where
  f := crew
  init σ h := ⟨h.1, fun w => by simp [crew, h.2.2 w, Phase.role]⟩
  step _ _ h := h.crew

end Pexe

end Pevm
