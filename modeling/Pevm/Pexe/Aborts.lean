import Mathlib.Data.Finset.Basic
import Pevm.Pexe

/-!
# Blocks that are aborted

The workers of `execute_revm_parallel` with the abort reason that they share. An execution
that fails for good aborts the scheduler and leaves its reason, unless there is one already.
A worker looks for a reason each time it comes back from a task, and before it starts an
execution again.
-/
namespace Pevm
open Transition

namespace Scheduler
variable (s : Scheduler)

/-! Only `abort` aborts the scheduler. -/

lemma poll_aborted : s.poll.2.aborted = s.aborted := by
  have hspec := s.poll_spec
  revert hspec
  generalize s.poll = r
  obtain ⟨p, s'⟩ := r
  intro hspec
  cases hspec <;> rfl

lemma addDependency_aborted (txIdx blockingTxIdx : ℕ) :
    (s.addDependency txIdx blockingTxIdx).2.aborted = s.aborted := by
  unfold addDependency
  split <;> rfl

lemma finishExecution_aborted (v : TxVersion) (flags : FinishExecFlags) :
    (s.finishExecution v flags).2.aborted = s.aborted := by
  have hfields := (resume_foldl_fields (s.transactionsDependents v.txIdx)
    (s.withDependents v.txIdx [])).2.2.2.2
  unfold finishExecution
  dsimp only
  split_ifs <;> exact hfields

lemma tryValidationAbort_aborted (v : TxVersion) :
    (s.tryValidationAbort v).2.aborted = s.aborted := by
  unfold tryValidationAbort
  split <;> rfl

lemma finishValidation_aborted (v : TxVersion) (aborted : Bool) :
    (s.finishValidation v aborted).2.aborted = s.aborted := by
  unfold finishValidation tryExecute
  dsimp only
  split_ifs <;> rfl

end Scheduler

/-- `AbortReason`: why the workers leave before the block is through. -/
inductive Pexe.AbortReason (ε : Type)
  | fallbackToSequential
  | executionError (error : ε)

/-- A machine whose executions can also fail for good. An execution that is finished names the
addresses that it leaves to be evaluated at the end of the block. -/
structure AbortingVm (J κ ν ρ ε : Type) extends Vm J κ ν ρ where
  fatal : TxVersion → J → MvMemory κ ν → Pexe.AbortReason ε → Prop
  lazyAddresses : TxVersion → J → List Address

/-- Where a worker stands in a block that can be aborted: in the worker loop, or on one of the ways
out of it. -/
inductive Stage (J ρ ε : Type)
  | working (phase : Phase J ρ)
  /-- `try_execute` or `try_validate` has come back; the abort reason is looked at next. -/
  | returned (task : Option Task)
  /-- The execution starts again, unless there is an abort reason. -/
  | again (version : TxVersion)
  /-- The execution has failed for good; the scheduler is aborted next. -/
  | failing (version : TxVersion) (reason : Pexe.AbortReason ε)
  /-- The scheduler is aborted; the reason is set next. -/
  | setting (reason : Pexe.AbortReason ε)

namespace Stage
variable {J ρ ε : Type}

/-- What the scheduler knows of the stage, as long as it is not aborted itself. -/
def role : Stage J ρ ε → Role
  | working phase => phase.role
  | returned task => .ofTask task
  | again v | failing v _ => .executor v
  | setting _ => .idle

end Stage

/-- A block on its way, as `execute_revm_parallel` has it, with its abort reason and with slots that
may be left from before. -/
structure Attempt (W J κ ν ρ ε : Type) where
  scheduler : Scheduler
  executionResults : List (Option ρ)
  mvMemory : MvMemory κ ν
  lazyAddresses : Finset Address
  abortReason : Option (Pexe.AbortReason ε)
  stage : W → Stage J ρ ε

namespace Attempt
variable {W J κ ν ρ ε : Type}

/-- The scheduler's view of the workers; a slot that is missing counts as empty. -/
def crew (σ : Attempt W J κ ν ρ ε) : Crew W ρ where
  scheduler := σ.scheduler
  executionResults j := (σ.executionResults[j]?).join
  role w := (σ.stage w).role

variable [DecidableEq W]

/-- A worker gets to another stage, and the scheduler to another state. -/
def move (σ : Attempt W J κ ν ρ ε) (w : W) (p : Stage J ρ ε) (s : Scheduler) :
    Attempt W J κ ν ρ ε :=
  { σ with scheduler := s, stage := Function.update σ.stage w p }

lemma crew_move (σ : Attempt W J κ ν ρ ε) (w : W) (p : Stage J ρ ε) (s : Scheduler) :
    (σ.move w p s).crew = σ.crew.assign w p.role s := by
  have hrole : (fun w' => (Function.update σ.stage w p w').role) =
      Function.update (fun w' => (σ.stage w').role) w p.role := by
    ext w'
    by_cases h : w' = w
    · subst h
      simp
    · simp [h]
  simp only [crew, move, Crew.assign, hrole]

/-- A call that the scheduler does not see. -/
lemma crew_move_of_role (σ : Attempt W J κ ν ρ ε) {w : W} {p : Stage J ρ ε}
    (h : p.role = (σ.stage w).role) : (σ.move w p σ.scheduler).crew = σ.crew := by
  rw [crew_move, h]
  simp [Crew.assign, crew]

variable [DecidableEq κ]

/-- One call of one worker, on the ways that lead to an abort as well as on the others. -/
inductive Step (vm : AbortingVm J κ ν ρ ε) :
    Attempt W J κ ν ρ ε → Attempt W J κ ν ρ ε → Prop
  | nextTask {σ : Attempt W J κ ν ρ ε} {w : W} : σ.stage w = .working .polling →
      Step vm σ (σ.move w (.working (.ofPoll vm.toVm σ.scheduler.poll.1)) σ.scheduler.poll.2)
  | read {σ : Attempt W J κ ν ρ ε} {w : W} {v : TxVersion} {job job' : J} :
      σ.stage w = .working (.executing v job) → vm.next v job σ.mvMemory (.running job') →
      Step vm σ (σ.move w (.working (.executing v job')) σ.scheduler)
  | retry {σ : Attempt W J κ ν ρ ε} {w : W} {v : TxVersion} {job : J} :
      σ.stage w = .working (.executing v job) → vm.next v job σ.mvMemory .retry →
      Step vm σ (σ.move w (.again v) σ.scheduler)
  | block {σ : Attempt W J κ ν ρ ε} {w : W} {v : TxVersion} {job : J} {b : ℕ} :
      σ.stage w = .working (.executing v job) →
      (h : vm.next v job σ.mvMemory (.blocking b)) →
      Step vm σ (σ.move w
        (.working (.blocked v b (vm.blocking_lt v job σ.mvMemory b h))) σ.scheduler)
  | addDependency {σ : Attempt W J κ ν ρ ε} {w : W} {v : TxVersion} {b : ℕ}
      {lower : b < v.txIdx} : σ.stage w = .working (.blocked v b lower) →
      Step vm σ (σ.move w
        (if (σ.scheduler.addDependency v.txIdx b).1 then .returned none else .again v)
        (σ.scheduler.addDependency v.txIdx b).2)
  | startAgain {σ : Attempt W J κ ν ρ ε} {w : W} {v : TxVersion} :
      σ.stage w = .again v → σ.abortReason = none →
      Step vm σ (σ.move w (.working (.executing v (vm.start v))) σ.scheduler)
  | giveUp {σ : Attempt W J κ ν ρ ε} {w : W} {v : TxVersion} :
      σ.stage w = .again v → σ.abortReason ≠ none →
      Step vm σ (σ.move w (.returned none) σ.scheduler)
  | record {σ : Attempt W J κ ν ρ ε} {w : W} {v : TxVersion} {job : J} {readSet : ReadSet κ}
      {writeSet : WriteSet κ ν} {flags : FinishExecFlags} {result : ρ} :
      σ.stage w = .working (.executing v job) →
      vm.next v job σ.mvMemory (.finished readSet writeSet flags result) →
      Step vm σ ({ σ with
        mvMemory := (σ.mvMemory.record v readSet writeSet).2
        lazyAddresses := σ.lazyAddresses ∪ (vm.lazyAddresses v job).toFinset }.move w
          (.working (.recorded v
            (if (σ.mvMemory.record v readSet writeSet).1 then flags.union .wroteNewLocation
              else flags) result)) σ.scheduler)
  | storeResult {σ : Attempt W J κ ν ρ ε} {w : W} {v : TxVersion} {flags : FinishExecFlags}
      {result : ρ} : σ.stage w = .working (.recorded v flags result) →
      Step vm σ ({ σ with
        executionResults := σ.executionResults.set v.txIdx (some result) }.move w
          (.working (.stored v flags)) σ.scheduler)
  | finishExecution {σ : Attempt W J κ ν ρ ε} {w : W} {v : TxVersion}
      {flags : FinishExecFlags} : σ.stage w = .working (.stored v flags) →
      Step vm σ (σ.move w (.returned (σ.scheduler.finishExecution v flags).1)
        (σ.scheduler.finishExecution v flags).2)
  | fail {σ : Attempt W J κ ν ρ ε} {w : W} {v : TxVersion} {job : J}
      {reason : Pexe.AbortReason ε} : σ.stage w = .working (.executing v job) →
      vm.fatal v job σ.mvMemory reason →
      Step vm σ (σ.move w (.failing v reason) σ.scheduler)
  | abort {σ : Attempt W J κ ν ρ ε} {w : W} {v : TxVersion} {reason : Pexe.AbortReason ε} :
      σ.stage w = .failing v reason →
      Step vm σ (σ.move w (.setting reason) σ.scheduler.abort)
  /-- `get_or_init`: the first reason stays. -/
  | setReason {σ : Attempt W J κ ν ρ ε} {w : W} {reason : Pexe.AbortReason ε} :
      σ.stage w = .setting reason →
      Step vm σ ({ σ with abortReason := σ.abortReason.or (some reason) }.move w
        (.returned none) σ.scheduler)
  | validateReadLocations {σ : Attempt W J κ ν ρ ε} {w : W} {v : TxVersion} :
      σ.stage w = .working (.validating v) →
      Step vm σ (σ.move w (.working
        (if σ.mvMemory.validateReadLocations v.txIdx then .settled v else .failed v))
        σ.scheduler)
  | tryValidationAbort {σ : Attempt W J κ ν ρ ε} {w : W} {v : TxVersion} :
      σ.stage w = .working (.failed v) →
      Step vm σ (σ.move w (.working
        (if (σ.scheduler.tryValidationAbort v).1 then .aborted v else .settled v))
        (σ.scheduler.tryValidationAbort v).2)
  | convertWritesToEstimates {σ : Attempt W J κ ν ρ ε} {w : W} {v : TxVersion} :
      σ.stage w = .working (.aborted v) →
      Step vm σ ({ σ with mvMemory := σ.mvMemory.convertWritesToEstimates v.txIdx }.move w
        (.working (.converted v)) σ.scheduler)
  | finishAbort {σ : Attempt W J κ ν ρ ε} {w : W} {v : TxVersion} :
      σ.stage w = .working (.converted v) →
      Step vm σ (σ.move w (.returned (σ.scheduler.finishValidation v true).1)
        (σ.scheduler.finishValidation v true).2)
  | finishValidation {σ : Attempt W J κ ν ρ ε} {w : W} {v : TxVersion} :
      σ.stage w = .working (.settled v) →
      Step vm σ (σ.move w (.returned (σ.scheduler.finishValidation v false).1)
        (σ.scheduler.finishValidation v false).2)
  | breakOff {σ : Attempt W J κ ν ρ ε} {w : W} {task : Option Task} :
      σ.stage w = .returned task → σ.abortReason ≠ none →
      Step vm σ (σ.move w (.working .gone) σ.scheduler)
  | goOn {σ : Attempt W J κ ν ρ ε} {w : W} {task : Option Task} :
      σ.stage w = .returned task → σ.abortReason = none →
      Step vm σ (σ.move w (.working (.ofTask vm.toVm task)) σ.scheduler)

/-- The workers start with what the struct holds from before: its slots and its abort reason. -/
def system (W : Type) [DecidableEq W] (vm : AbortingVm J κ ν ρ ε) (blockSize : ℕ)
    (estimatedLocations : List (κ × List ℕ)) (lazyAddresses : Finset Address)
    (executionResults : List (Option ρ)) (abortReason : Option (Pexe.AbortReason ε)) :
    TransitionSystem (Attempt W J κ ν ρ ε) where
  init σ := σ.scheduler = .new blockSize ∧ σ.executionResults = executionResults ∧
    σ.mvMemory = .new estimatedLocations ∧ σ.lazyAddresses = lazyAddresses ∧
    σ.abortReason = abortReason ∧ ∀ w, σ.stage w = .working .polling
  step := Step vm

/-- What holds of the reason and of the slots between any two calls; as long as nothing is
aborted the workers behave as a crew. -/
structure AbortInvariant (blockSize slots : ℕ) (σ : Attempt W J κ ν ρ ε) : Prop where
  length : σ.executionResults.length = slots
  reason : σ.abortReason ≠ none → σ.scheduler.aborted = true
  setting : ∀ w reason, σ.stage w = .setting reason → σ.scheduler.aborted = true
  aborted : σ.scheduler.aborted = true →
    σ.abortReason ≠ none ∨ ∃ w reason, σ.stage w = .setting reason
  crew : σ.scheduler.aborted = false → (Crew.system W ρ blockSize).Reachable σ.crew

section Preservation
variable {vm : AbortingVm J κ ν ρ ε} {blockSize slots : ℕ} {σ σ' : Attempt W J κ ν ρ ε} {w : W}

omit [DecidableEq κ] in
/-- A call that has nothing to do with the abort reason. -/
lemma AbortInvariant.call (h : AbortInvariant blockSize slots σ) {p : Stage J ρ ε}
    (hw : ∀ reason, σ.stage w ≠ .setting reason) (hp : ∀ reason, p ≠ .setting reason)
    (hstage : σ'.stage = Function.update σ.stage w p)
    (hs : σ'.scheduler.aborted = σ.scheduler.aborted)
    (hreason : σ'.abortReason = σ.abortReason)
    (hlength : σ'.executionResults.length = σ.executionResults.length)
    (hcrew : σ.scheduler.aborted = false → Relation.ReflGen Crew.Step σ.crew σ'.crew) :
    AbortInvariant blockSize slots σ' where
  length := hlength.trans h.length
  reason hne := hs.trans (h.reason (by rwa [← hreason]))
  setting w' reason hw' := by
    rw [hstage] at hw'
    by_cases hww : w' = w
    · subst hww
      rw [Function.update_self] at hw'
      exact absurd hw' (hp reason)
    · rw [Function.update_of_ne hww] at hw'
      exact hs.trans (h.setting w' reason hw')
  aborted hab := by
    obtain hne | ⟨w', reason, hw'⟩ := h.aborted (hs.symm.trans hab)
    · exact .inl (by rwa [hreason])
    · have hww : w' ≠ w := by
        rintro rfl
        exact hw reason hw'
      exact .inr ⟨w', reason, by rw [hstage, Function.update_of_ne hww, hw']⟩
  crew hab := by
    have hab' := hs.symm.trans hab
    have hstep := hcrew hab'
    revert hstep
    generalize σ'.crew = c
    intro hstep
    cases hstep with
    | refl => exact h.crew hab'
    | single hstep => exact .step (h.crew hab') hstep

omit [DecidableEq κ] in
/-- A call of the scheduler. -/
lemma AbortInvariant.move (h : AbortInvariant blockSize slots σ) {p : Stage J ρ ε} {s : Scheduler}
    (hw : ∀ reason, σ.stage w ≠ .setting reason) (hp : ∀ reason, p ≠ .setting reason)
    (hs : s.aborted = σ.scheduler.aborted)
    (hcrew : σ.scheduler.aborted = false → Crew.Step σ.crew (σ.crew.assign w p.role s)) :
    AbortInvariant blockSize slots (σ.move w p s) := by
  refine h.call hw hp rfl hs rfl rfl fun hab => ?_
  rw [crew_move]
  exact .single (hcrew hab)

omit [DecidableEq κ] in
/-- A call that is hidden from the scheduler. -/
lemma AbortInvariant.hidden (h : AbortInvariant blockSize slots σ) {p : Stage J ρ ε}
    (hw : ∀ reason, σ.stage w ≠ .setting reason) (hp : ∀ reason, p ≠ .setting reason)
    (hrole : σ.scheduler.aborted = false → p.role = (σ.stage w).role) (mem : MvMemory κ ν)
    (addresses : Finset Address) :
    AbortInvariant blockSize slots
      ({ σ with mvMemory := mem, lazyAddresses := addresses }.move w p σ.scheduler) := by
  refine h.call hw hp rfl rfl rfl rfl fun hab => ?_
  have hcrew : ({ σ with mvMemory := mem, lazyAddresses := addresses }.move w p σ.scheduler).crew =
      σ.crew := crew_move_of_role _ (hrole hab)
  rw [hcrew]

omit [DecidableEq κ] in
lemma AbortInvariant.storeResult [Nonempty W] (h : AbortInvariant blockSize slots σ)
    (hslots : blockSize ≤ slots) {v : TxVersion} {flags : FinishExecFlags} {result : ρ}
    (hw : σ.stage w = .working (.recorded v flags result)) :
    AbortInvariant blockSize slots ({ σ with
      executionResults := σ.executionResults.set v.txIdx (some result) }.move w
        (.working (.stored v flags)) σ.scheduler) := by
  refine h.call (by simp [hw]) (by simp) rfl rfl rfl (List.length_set ..) fun hab => ?_
  obtain ⟨hinv, hsize⟩ := Crew.Invariant.of_reachable (h.crew hab)
  have hrole : σ.crew.role w = .executor v := by simp [Attempt.crew, hw, Stage.role, Phase.role]
  have hbound : v.txIdx < σ.executionResults.length := by
    have hlt := hinv.bound w v.txIdx ⟨v, by rw [hrole]; rfl, rfl⟩
    have hlength := h.length
    omega
  have hslot : (fun j => ((σ.executionResults.set v.txIdx (some result))[j]?).join) =
      Function.update (fun j => (σ.executionResults[j]?).join) v.txIdx (some result) := by
    ext j
    by_cases hj : j = v.txIdx
    · subst hj
      simp [List.getElem?_set_self hbound]
    · have hne : v.txIdx ≠ j := fun heq => hj heq.symm
      simp [hj, List.getElem?_set_ne hne]
  have hcrew : ({ σ with
      executionResults := σ.executionResults.set v.txIdx (some result) }.move w
        (.working (.stored v flags)) σ.scheduler).crew =
      (σ.crew.storeResult v.txIdx result).assign w (.finisher v) σ.crew.scheduler := by
    rw [crew_move]
    simp only [Attempt.crew, Crew.assign, Crew.storeResult, hslot]
    rfl
  rw [hcrew]
  exact .single (.storeResult result hrole)

lemma AbortInvariant.step [Nonempty W] (h : AbortInvariant blockSize slots σ)
    (hslots : blockSize ≤ slots) (hs : Step vm σ σ') : AbortInvariant blockSize slots σ' := by
  cases hs with
  | nextTask hw =>
    refine h.move (by simp [hw]) (by simp) (Scheduler.poll_aborted _) fun _ => ?_
    rw [Stage.role, Phase.role_ofPoll]
    exact .nextTask (by simp [Attempt.crew, hw, Stage.role, Phase.role])
  | read hw _ =>
    exact h.hidden (by simp [hw]) (by simp) (by simp [hw, Stage.role, Phase.role]) _ _
  | retry hw _ =>
    exact h.hidden (by simp [hw]) (by simp) (by simp [hw, Stage.role, Phase.role]) _ _
  | block hw _ =>
    exact h.hidden (by simp [hw]) (by simp) (by simp [hw, Stage.role, Phase.role]) _ _
  | @addDependency w v b lower hw =>
    have hrole : (if (σ.scheduler.addDependency v.txIdx b).1 then Stage.returned none
        else .again v : Stage J ρ ε).role =
          if (σ.scheduler.addDependency v.txIdx b).1 then .idle else .executor v := by
      split <;> rfl
    refine h.move (by simp [hw]) (by intro reason; split <;> simp)
      (Scheduler.addDependency_aborted _ _ _) fun _ => ?_
    rw [hrole]
    exact .addDependency (by simp [Attempt.crew, hw, Stage.role, Phase.role]) lower
  | startAgain hw _ =>
    exact h.hidden (by simp [hw]) (by simp) (by simp [hw, Stage.role, Phase.role]) _ _
  | giveUp hw hreason =>
    refine h.hidden (by simp [hw]) (by simp) (fun hab => ?_) _ _
    rw [h.reason hreason] at hab
    cases hab
  | record hw _ =>
    exact h.hidden (by simp [hw]) (by simp) (by simp [hw, Stage.role, Phase.role]) _ _
  | storeResult hw => exact h.storeResult hslots hw
  | finishExecution hw =>
    refine h.move (by simp [hw]) (by simp) (Scheduler.finishExecution_aborted _ _ _) fun _ => ?_
    exact .finishExecution _ (by simp [Attempt.crew, hw, Stage.role, Phase.role])
  | fail hw _ =>
    exact h.hidden (by simp [hw]) (by simp) (by simp [hw, Stage.role, Phase.role]) _ _
  | @abort w v reason hw =>
    refine ⟨h.length, fun _ => rfl, fun _ _ _ => rfl, fun _ => .inr ⟨w, reason, ?_⟩, fun hab => ?_⟩
    · simp [Attempt.move]
    · cases hab
  | @setReason w reason hw =>
    have hab := h.setting w reason hw
    refine ⟨h.length, fun _ => hab, fun _ _ _ => hab, fun _ => .inl ?_, fun hnot => ?_⟩
    · show σ.abortReason.or (some reason) ≠ none
      cases σ.abortReason <;> simp
    · have hnot' : σ.scheduler.aborted = false := hnot
      rw [hab] at hnot'
      cases hnot'
  | @validateReadLocations w v hw =>
    refine h.hidden (by simp [hw]) (by simp) (fun _ => ?_) _ _
    rw [hw]
    show (if σ.mvMemory.validateReadLocations v.txIdx then Phase.settled v
      else .failed v : Phase J ρ).role = (Phase.validating v : Phase J ρ).role
    split <;> rfl
  | @tryValidationAbort w v hw =>
    have hrole : (Stage.working (if (σ.scheduler.tryValidationAbort v).1 then .aborted v
        else .settled v) : Stage J ρ ε).role =
          if (σ.scheduler.tryValidationAbort v).1 then .aborter v else .validator v := by
      split <;> rfl
    refine h.move (by simp [hw]) (by simp) (Scheduler.tryValidationAbort_aborted _ _) fun _ => ?_
    rw [hrole]
    exact .tryValidationAbort (by simp [Attempt.crew, hw, Stage.role, Phase.role])
  | convertWritesToEstimates hw =>
    exact h.hidden (by simp [hw]) (by simp) (by simp [hw, Stage.role, Phase.role]) _ _
  | finishAbort hw =>
    refine h.move (by simp [hw]) (by simp) (Scheduler.finishValidation_aborted _ _ _) fun _ => ?_
    exact .finishAbort (by simp [Attempt.crew, hw, Stage.role, Phase.role])
  | finishValidation hw =>
    refine h.move (by simp [hw]) (by simp) (Scheduler.finishValidation_aborted _ _ _) fun _ => ?_
    exact .finishValidation (by simp [Attempt.crew, hw, Stage.role, Phase.role])
  | breakOff hw hreason =>
    refine h.hidden (by simp [hw]) (by simp) (fun hab => ?_) _ _
    rw [h.reason hreason] at hab
    cases hab
  | goOn hw _ =>
    refine h.hidden (by simp [hw]) (by simp) (fun _ => ?_) _ _
    rw [hw]
    exact Phase.role_ofTask vm.toVm _

end Preservation

section Ends
variable [Nonempty W] {vm : AbortingVm J κ ν ρ ε} {blockSize : ℕ}
  {estimatedLocations : List (κ × List ℕ)} {lazyAddresses : Finset Address}
  {executionResults : List (Option ρ)} {σ : Attempt W J κ ν ρ ε}

/-- A block that starts without an abort reason and with slots enough. -/
theorem AbortInvariant.of_reachable (hslots : blockSize ≤ executionResults.length)
    (h : (system W vm blockSize estimatedLocations lazyAddresses executionResults none).Reachable
      σ) : AbortInvariant blockSize executionResults.length σ := by
  refine h.invariant (fun σ hinit => ?_) fun σ σ' _ hinv hs => hinv.step hslots hs
  obtain ⟨hscheduler, hresults, -, -, hreason, hstage⟩ := hinit
  refine ⟨by rw [hresults], ?_, ?_, ?_, fun _ => .init ⟨hscheduler, fun w => ?_⟩⟩
  · intro hne
    exact absurd hreason hne
  · intro w reason hw
    rw [hstage w] at hw
    cases hw
  · intro hab
    rw [hscheduler] at hab
    cases hab
  · simp [Attempt.crew, hstage w, Stage.role, Phase.role]

/-- When all workers have left and there is no abort reason, every slot of the block is filled. -/
theorem filled_of_gone (hslots : blockSize ≤ executionResults.length)
    (h : (system W vm blockSize estimatedLocations lazyAddresses executionResults none).Reachable
      σ) (hgone : ∀ w, σ.stage w = .working .gone) (hreason : σ.abortReason = none) :
    ∀ j < blockSize, ((σ.executionResults[j]?).join).isSome = true := by
  have hinv := AbortInvariant.of_reachable hslots h
  have hnot : σ.scheduler.aborted = false := by
    by_contra hab
    obtain hne | ⟨w, reason, hw⟩ := hinv.aborted (by simpa using hab)
    · exact hne hreason
    · rw [hgone w] at hw
      cases hw
  intro j hj
  have hroles : ∀ w, σ.crew.role w = .gone := by
    intro w
    simp [Attempt.crew, hgone w, Stage.role, Phase.role]
  exact ((Crew.no_transaction_lost (hinv.crew hnot)).2 hroles j hj).2

end Ends

end Attempt

/-! What every execution keeps to, the block keeps to. -/

section Keeps
variable {W J κ ν ρ ε : Type} (jobs : TxVersion → J → Prop) (results : ρ → Prop)
  (reasons : Pexe.AbortReason ε → Prop)

/-- A property of the jobs that the machine preserves, and what comes of it for results and reasons.
-/
structure AbortingVm.Keeps (vm : AbortingVm J κ ν ρ ε) : Prop where
  start : ∀ v, jobs v (vm.start v)
  running : ∀ v job mem job', jobs v job → vm.next v job mem (.running job') → jobs v job'
  finished : ∀ v job mem readSet writeSet flags result, jobs v job →
    vm.next v job mem (.finished readSet writeSet flags result) → results result
  fatal : ∀ v job mem reason, jobs v job → vm.fatal v job mem reason → reasons reason

/-- The stage holds nothing but jobs, results and reasons of this kind. -/
def Stage.Keeps : Stage J ρ ε → Prop
  | working (.executing v job) => jobs v job
  | working (.recorded _ _ result) => results result
  | failing _ reason | setting reason => reasons reason
  | _ => True

/-- All workers, the slots and the abort reason hold nothing but jobs, results and reasons of this
kind. -/
structure Attempt.Keeps (σ : Attempt W J κ ν ρ ε) : Prop where
  stage : ∀ w, (σ.stage w).Keeps jobs results reasons
  slots : ∀ result, some result ∈ σ.executionResults → results result
  reason : ∀ reason, σ.abortReason = some reason → reasons reason

variable {jobs results reasons} [DecidableEq W]

lemma Attempt.Keeps.move {σ : Attempt W J κ ν ρ ε} (h : σ.Keeps jobs results reasons) {w : W}
    {p : Stage J ρ ε} (hp : p.Keeps jobs results reasons) (s : Scheduler) :
    (σ.move w p s).Keeps jobs results reasons where
  stage w' := by
    show (Function.update σ.stage w p w').Keeps jobs results reasons
    by_cases hw : w' = w
    · subst hw
      rwa [Function.update_self]
    · rw [Function.update_of_ne hw]
      exact h.stage w'
  slots := h.slots
  reason := h.reason

variable {vm : AbortingVm J κ ν ρ ε}

lemma AbortingVm.Keeps.ofTask (hvm : vm.Keeps jobs results reasons) (task : Option Task) :
    (Stage.working (.ofTask vm.toVm task)).Keeps jobs results reasons := by
  rcases task with _ | (v | v)
  · trivial
  · exact hvm.start v
  · trivial

variable [DecidableEq κ]

lemma Attempt.Keeps.step {σ σ' : Attempt W J κ ν ρ ε} (hvm : vm.Keeps jobs results reasons)
    (h : σ.Keeps jobs results reasons) (hs : Step vm σ σ') : σ'.Keeps jobs results reasons := by
  cases hs with
  | nextTask hw =>
    refine h.move ?_ _
    cases σ.scheduler.poll.1 with
    | task task => exact hvm.ofTask (some task)
    | again => trivial
    | exit => trivial
  | @read w v job job' hw hnext =>
    have hjob := h.stage w
    rw [hw] at hjob
    refine h.move ?_ _
    exact hvm.running v job _ job' hjob hnext
  | retry hw _ => exact h.move (by trivial) _
  | block hw _ => exact h.move (by trivial) _
  | addDependency hw =>
    refine h.move ?_ _
    split <;> trivial
  | @startAgain w v hw _ =>
    refine h.move ?_ _
    exact hvm.start v
  | giveUp hw _ => exact h.move (by trivial) _
  | @record w v job readSet writeSet flags result hw hnext =>
    have hjob := h.stage w
    rw [hw] at hjob
    have hresult := hvm.finished v job _ _ _ _ _ hjob hnext
    apply Keeps.move
    · exact ⟨h.stage, h.slots, h.reason⟩
    · exact hresult
  | @storeResult w v flags result hw =>
    have hresult := h.stage w
    rw [hw] at hresult
    apply Keeps.move
    · refine ⟨h.stage, fun result' hmem => ?_, h.reason⟩
      rcases List.mem_or_eq_of_mem_set hmem with hmem | heq
      · exact h.slots result' hmem
      · obtain rfl := Option.some.inj heq
        exact hresult
    · trivial
  | finishExecution hw => exact h.move (by trivial) _
  | @fail w v job reason hw hfatal =>
    have hjob := h.stage w
    rw [hw] at hjob
    refine h.move ?_ _
    exact hvm.fatal v job _ reason hjob hfatal
  | @abort w v reason hw =>
    have hreason := h.stage w
    rw [hw] at hreason
    refine h.move ?_ _
    exact hreason
  | @setReason w reason hw =>
    have hreason := h.stage w
    rw [hw] at hreason
    apply Keeps.move
    · refine ⟨h.stage, h.slots, fun first hfirst => ?_⟩
      -- the first reason stays
      cases hold : σ.abortReason with
      | some old =>
        simp only [hold, Option.some_or] at hfirst
        exact h.reason first (hold.trans hfirst)
      | none =>
        simp only [hold, Option.none_or, Option.some.injEq] at hfirst
        exact hfirst ▸ hreason
    · trivial
  | validateReadLocations hw =>
    refine h.move ?_ _
    split <;> trivial
  | tryValidationAbort hw =>
    refine h.move ?_ _
    split <;> trivial
  | convertWritesToEstimates hw =>
    apply Keeps.move
    · exact ⟨h.stage, h.slots, h.reason⟩
    · trivial
  | finishAbort hw => exact h.move (by trivial) _
  | finishValidation hw => exact h.move (by trivial) _
  | breakOff hw _ => exact h.move (by trivial) _
  | goOn hw _ => exact h.move (hvm.ofTask _) _

/-- In every run that starts with results of its kind and without a reason. -/
theorem Attempt.Keeps.of_reachable (hvm : vm.Keeps jobs results reasons) {n : ℕ}
    {estimatedLocations : List (κ × List ℕ)} {lazyAddresses : Finset Address}
    {slots : List (Option ρ)} (hslots : ∀ result, some result ∈ slots → results result)
    {σ : Attempt W J κ ν ρ ε}
    (h : (system W vm n estimatedLocations lazyAddresses slots none).Reachable σ) :
    σ.Keeps jobs results reasons := by
  refine h.invariant (fun σ hinit => ?_) fun σ σ' _ hkeeps hs => hkeeps.step hvm hs
  obtain ⟨-, hresults, -, -, hreason, hstage⟩ := hinit
  refine ⟨fun w => ?_, by rwa [hresults], fun reason h => ?_⟩
  · rw [hstage w]
    trivial
  · rw [hreason] at h
    cases h

end Keeps

end Pevm
