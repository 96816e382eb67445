import Pevm.Lib.Simulation
import Pevm.Pexe.Aborts
import Pevm.Pexe.Chronicle

/-!
# Blocks that are not aborted

As long as nothing is aborted, the workers do what they do when there is no abort reason to look
for. So a block that ends without a reason has left in its slots what executions have come to that
still stand. And it ends without a reason only if no execution has failed.
-/
namespace Pevm
open Transition

section Refinement
variable {W J κ ν ρ ε : Type} [DecidableEq κ] {vm : AbortingVm J κ ν ρ ε}
  {blockSize : ℕ} {estimatedLocations : List (κ × List ℕ)} {initialLazy : Finset Address}
  {initialResults : List (Option ρ)}

/-- Where a worker stands that never looks for a reason. One whose execution has failed still
executes it. -/
def Stage.Seems (vm : AbortingVm J κ ν ρ ε) : Stage J ρ ε → Phase J ρ → Prop
  | .working phase, p => p = phase
  | .returned task, p => p = .ofTask vm.toVm task
  | .again v, p => p = .executing v (vm.start v)
  | .failing v _, p => ∃ job, p = .executing v job
  | .setting _, _ => False

namespace Attempt

/-- The block with the slots that it has, next to one that cannot be aborted and has a slot for
every number. -/
structure Resembles (vm : AbortingVm J κ ν ρ ε) (σ : Attempt W J κ ν ρ ε) (p : Pexe W J κ ν ρ) :
    Prop where
  scheduler : p.scheduler = σ.scheduler
  mvMemory : p.mvMemory = σ.mvMemory
  executionResults : ∀ j < σ.executionResults.length,
    p.executionResults j = (σ.executionResults[j]?).join
  stages : ∀ w, (σ.stage w).Seems vm (p.phase w)

variable {σ σ' : Attempt W J κ ν ρ ε} {p : Pexe W J κ ν ρ} {w : W}

omit [DecidableEq κ] in
lemma Resembles.phase_eq (h : σ.Resembles vm p) {phase : Phase J ρ}
    (hw : σ.stage w = .working phase) : p.phase w = phase := by
  have hseems := h.stages w
  rw [hw] at hseems
  exact hseems

variable [DecidableEq W]

omit [DecidableEq κ] in
lemma Resembles.move (h : σ.Resembles vm p) {stage : Stage J ρ ε} {phase : Phase J ρ}
    (hseems : stage.Seems vm phase) (w : W) (s : Scheduler) :
    (σ.move w stage s).Resembles vm (p.move w phase s) := by
  refine ⟨rfl, h.mvMemory, h.executionResults, fun w' => ?_⟩
  by_cases hw : w' = w
  · subst hw
    simpa [Attempt.move, Pexe.move] using hseems
  · simpa [Attempt.move, Pexe.move, hw] using h.stages w'

omit [DecidableEq κ] in
lemma Resembles.work (h : σ.Resembles vm p) (w : W) (phase : Phase J ρ) (s : Scheduler) :
    (σ.move w (.working phase) s).Resembles vm (p.move w phase s) := by
  apply h.move
  rfl

omit [DecidableEq κ] in
lemma Resembles.comeBack (h : σ.Resembles vm p) (w : W) (task : Option Task) (s : Scheduler) :
    (σ.move w (.returned task) s).Resembles vm (p.move w (.ofTask vm.toVm task) s) := by
  apply h.move
  rfl

omit [DecidableEq κ] in
/-- A call that only the worker itself notices. -/
lemma Resembles.stay (h : σ.Resembles vm p) {stage : Stage J ρ ε}
    (hseems : stage.Seems vm (p.phase w)) : (σ.move w stage σ.scheduler).Resembles vm p := by
  refine ⟨h.scheduler, h.mvMemory, h.executionResults, fun w' => ?_⟩
  by_cases hw : w' = w
  · subst hw
    simpa [Attempt.move] using hseems
  · simpa [Attempt.move, hw] using h.stages w'

/-- Only `abort` aborts, and nothing undoes it. -/
lemma Step.unaborted (h : Step vm σ σ') (hunaborted : σ'.scheduler.aborted = false) :
    σ.scheduler.aborted = false := by
  cases h with
  | nextTask => exact (Scheduler.poll_aborted _).symm.trans hunaborted
  | addDependency => exact (Scheduler.addDependency_aborted ..).symm.trans hunaborted
  | finishExecution => exact (Scheduler.finishExecution_aborted ..).symm.trans hunaborted
  | tryValidationAbort => exact (Scheduler.tryValidationAbort_aborted ..).symm.trans hunaborted
  | finishAbort => exact (Scheduler.finishValidation_aborted ..).symm.trans hunaborted
  | finishValidation => exact (Scheduler.finishValidation_aborted ..).symm.trans hunaborted
  | abort => cases hunaborted
  | _ => exact hunaborted

/-- A call that leaves the scheduler unaborted is a call without abort reasons, or none. -/
lemma Resembles.step (h : σ.Resembles vm p) (hstep : Step vm σ σ')
    (hreason : σ.abortReason = none) (hunaborted : σ'.scheduler.aborted = false) :
    ∃ p', Relation.ReflGen (Pexe.Step vm.toVm) p p' ∧ σ'.Resembles vm p' := by
  obtain ⟨scheduler, executionResults, mvMemory, phase⟩ := p
  obtain rfl : scheduler = σ.scheduler := h.scheduler
  obtain rfl : mvMemory = σ.mvMemory := h.mvMemory
  cases hstep with
  | @nextTask w hw => exact ⟨_, .single (.nextTask (h.phase_eq hw)), h.work w _ _⟩
  | @read w v job job' hw hnext =>
    exact ⟨_, .single (.read (h.phase_eq hw) hnext), h.work w _ _⟩
  | @retry w v job hw hnext =>
    refine ⟨_, .single (.retry (h.phase_eq hw) hnext), h.move ?_ w _⟩
    rfl
  | @block w v job b hw hnext =>
    exact ⟨_, .single (.block (h.phase_eq hw) hnext), h.work w _ _⟩
  | @addDependency w v b lower hw =>
    refine ⟨_, .single (.addDependency (h.phase_eq hw)), h.move ?_ w _⟩
    split <;> rfl
  | @startAgain w v hw =>
    refine ⟨_, .refl, h.stay ?_⟩
    have hseems := h.stages w
    rw [hw] at hseems
    exact hseems
  | giveUp _ hne => exact absurd hreason hne
  | @record w v job readSet writeSet flags result hw hnext =>
    refine ⟨_, .single (.record (h.phase_eq hw) hnext), ?_⟩
    have hmem : Resembles vm { σ with
        mvMemory := (σ.mvMemory.record v readSet writeSet).2
        lazyAddresses := σ.lazyAddresses ∪ (vm.lazyAddresses v job).toFinset }
        ⟨σ.scheduler, executionResults, (σ.mvMemory.record v readSet writeSet).2, phase⟩ :=
      ⟨rfl, rfl, h.executionResults, h.stages⟩
    exact hmem.work w _ _
  | @storeResult w v flags result hw =>
    refine ⟨_, .single (.storeResult (h.phase_eq hw)), ?_⟩
    have hslots : Resembles vm { σ with
        executionResults := σ.executionResults.set v.txIdx (some result) }
        ⟨σ.scheduler, Function.update executionResults v.txIdx (some result), σ.mvMemory,
          phase⟩ := by
      refine ⟨rfl, rfl, fun j hj => ?_, h.stages⟩
      rw [List.length_set] at hj
      by_cases hjv : j = v.txIdx
      · subst hjv
        simp [hj]
      · have hslot : executionResults j = (σ.executionResults[j]?).join := h.executionResults j hj
        simp [hjv, hslot, List.getElem?_set_ne (Ne.symm hjv)]
    exact hslots.work w _ _
  | @finishExecution w v flags hw =>
    exact ⟨_, .single (.finishExecution (h.phase_eq hw)), h.comeBack w _ _⟩
  | @fail w v job reason hw hfatal =>
    exact ⟨_, .refl, h.stay ⟨job, h.phase_eq hw⟩⟩
  | abort => cases hunaborted
  | @setReason w reason hw =>
    have hseems := h.stages w
    rw [hw] at hseems
    exact hseems.elim
  | @validateReadLocations w v hw =>
    exact ⟨_, .single (.validateReadLocations (h.phase_eq hw)), h.work w _ _⟩
  | @tryValidationAbort w v hw =>
    exact ⟨_, .single (.tryValidationAbort (h.phase_eq hw)), h.work w _ _⟩
  | @convertWritesToEstimates w v hw =>
    refine ⟨_, .single (.convertWritesToEstimates (h.phase_eq hw)), ?_⟩
    have hmem : Resembles vm { σ with
        mvMemory := σ.mvMemory.convertWritesToEstimates v.txIdx }
        ⟨σ.scheduler, executionResults, σ.mvMemory.convertWritesToEstimates v.txIdx, phase⟩ :=
      ⟨rfl, rfl, h.executionResults, h.stages⟩
    exact hmem.work w _ _
  | @finishAbort w v hw => exact ⟨_, .single (.finishAbort (h.phase_eq hw)), h.comeBack w _ _⟩
  | @finishValidation w v hw =>
    exact ⟨_, .single (.finishValidation (h.phase_eq hw)), h.comeBack w _ _⟩
  | breakOff _ hne => exact absurd hreason hne
  | @goOn w task hw =>
    refine ⟨_, .refl, h.stay ?_⟩
    have hseems := h.stages w
    rw [hw] at hseems
    exact hseems

variable [Nonempty W]

/-- As long as it is not aborted, a block that can be aborted simulates one that cannot. -/
theorem simulates (hslots : blockSize ≤ initialResults.length) :
    (system W vm blockSize estimatedLocations initialLazy initialResults none).Simulation
      (Pexe.system W vm.toVm blockSize estimatedLocations)
      fun σ p => σ.scheduler.aborted = false → σ.Resembles vm p where
  init σ := by
    rintro ⟨hscheduler, hresults, hmem, -, -, hstage⟩
    refine ⟨⟨σ.scheduler, fun j => (σ.executionResults[j]?).join, σ.mvMemory, fun _ => .polling⟩,
      ⟨hscheduler, hmem, fun _ => rfl⟩, fun _ => ⟨rfl, rfl, fun _ _ => rfl, fun w => ?_⟩⟩
    rw [hstage w]
    rfl
  step σ σ' p hr _ h hstep := by
    by_cases hunaborted : σ'.scheduler.aborted = false
    · have hbefore := hstep.unaborted hunaborted
      have hreason : σ.abortReason = none := by
        by_contra hne
        rw [(AbortInvariant.of_reachable hslots hr).reason hne] at hbefore
        cases hbefore
      obtain ⟨p', hp, hresembles⟩ := (h hbefore).step hstep hreason hunaborted
      exact ⟨p', hp, fun _ => hresembles⟩
    · exact ⟨p, .refl, fun h => absurd h hunaborted⟩

/-- When all workers have left without an abort reason, they have left as ones that know of none. -/
lemma resembles_of_gone (hslots : blockSize ≤ initialResults.length)
    (h : (system W vm blockSize estimatedLocations initialLazy initialResults none).Reachable σ)
    (hgone : ∀ w, σ.stage w = .working .gone) (hreason : σ.abortReason = none) :
    ∃ p, (Pexe.system W vm.toVm blockSize estimatedLocations).Reachable p ∧ σ.Resembles vm p ∧
      ∀ w, p.phase w = .gone := by
  have hunaborted : σ.scheduler.aborted = false := by
    by_contra hne
    rcases (AbortInvariant.of_reachable hslots h).aborted (by simpa using hne) with
      hsome | ⟨w, reason, hw⟩
    · exact hsome hreason
    · rw [hgone w] at hw
      cases hw
  obtain ⟨p, hp, hresembles⟩ := (simulates hslots).reachable h
  exact ⟨p, hp, hresembles hunaborted, fun w => (hresembles hunaborted).phase_eq (hgone w)⟩

end Attempt

section Recorded
variable {W J κ ν ρ ε : Type} [DecidableEq κ] {vm : AbortingVm J κ ν ρ ε}

/-- The machine as far as the executions that it finishes are among these. A run of the machine is
one of this machine for the executions of the run. -/
def AbortingVm.among (vm : AbortingVm J κ ν ρ ε)
    (executions : TxVersion → Execution J κ ν ρ → Prop) : AbortingVm J κ ν ρ ε where
  start := vm.start
  next v job mem step := vm.next v job mem step ∧
    ∀ readSet writeSet flags result, step = .finished readSet writeSet flags result →
      executions v ⟨job, mem, readSet, writeSet, flags, result⟩
  blocking_lt v job mem b h := vm.blocking_lt v job mem b h.1
  fatal := vm.fatal
  lazyAddresses := vm.lazyAddresses

omit [DecidableEq κ] in
lemma AbortingVm.among_of_unfinished (vm : AbortingVm J κ ν ρ ε)
    {executions : TxVersion → Execution J κ ν ρ → Prop} {v : TxVersion} {job : J}
    {mem : MvMemory κ ν} {step : VmStep J κ ν ρ} (h : vm.next v job mem step)
    (hunfinished : ∀ readSet writeSet flags result,
      step ≠ .finished readSet writeSet flags result) :
    (vm.among executions).next v job mem step :=
  ⟨h, fun readSet writeSet flags result heq =>
    absurd heq (hunfinished readSet writeSet flags result)⟩

namespace Attempt

/-- A worker finishes this execution of the version on the memory as it is and records it. -/
def Records (vm : AbortingVm J κ ν ρ ε) (σ σ' : Attempt W J κ ν ρ ε) (v : TxVersion)
    (e : Execution J κ ν ρ) : Prop :=
  ∃ w, σ.stage w = .working (.executing v e.job) ∧ e.mvMemory = σ.mvMemory ∧
    vm.next v e.job σ.mvMemory (.finished e.readSet e.writeSet e.flags e.result) ∧
    σ'.mvMemory = (σ.mvMemory.record v e.readSet e.writeSet).2 ∧
    σ'.lazyAddresses = σ.lazyAddresses ∪ (vm.lazyAddresses v e.job).toFinset

variable [DecidableEq W] {σ σ' : Attempt W J κ ν ρ ε} {blockSize : ℕ}
  {estimatedLocations : List (κ × List ℕ)} {initialLazy : Finset Address}
  {initialResults : List (Option ρ)}
  {steps : List (Attempt W J κ ν ρ ε × Attempt W J κ ν ρ ε)}

/-- Addresses are only ever added. -/
lemma Step.lazyAddresses_subset (h : Step vm σ σ') : σ.lazyAddresses ⊆ σ'.lazyAddresses := by
  cases h with
  | record => exact Finset.subset_union_left
  | _ => exact Finset.Subset.refl _

lemma lazyAddresses_subset_of_run
    (h : (system W vm blockSize estimatedLocations initialLazy initialResults none).Run steps σ) :
    ∀ p ∈ steps, p.2.lazyAddresses ⊆ σ.lazyAddresses := by
  induction h with
  | init _ => simp
  | step _ hs ih =>
    intro p hp
    rcases List.mem_cons.mp hp with rfl | hp
    · exact Finset.Subset.refl _
    · exact (ih p hp).trans hs.lazyAddresses_subset

lemma Step.among (h : Step vm σ σ') {executions : TxVersion → Execution J κ ν ρ → Prop}
    (hrecords : ∀ v e, Records vm σ σ' v e → executions v e) :
    Step (vm.among executions) σ σ' := by
  cases h with
  | nextTask hw => exact .nextTask hw
  | read hw hnext => exact .read hw (vm.among_of_unfinished hnext nofun)
  | retry hw hnext => exact .retry hw (vm.among_of_unfinished hnext nofun)
  | block hw hnext => exact .block hw (vm.among_of_unfinished hnext nofun)
  | addDependency hw => exact .addDependency hw
  | startAgain hw hreason => exact .startAgain hw hreason
  | giveUp hw hreason => exact .giveUp hw hreason
  | @record w v job readSet writeSet flags result hw hnext =>
    refine .record hw ⟨hnext, fun _ _ _ _ heq => ?_⟩
    cases heq
    exact hrecords v ⟨job, σ.mvMemory, readSet, writeSet, flags, result⟩
      ⟨w, hw, rfl, hnext, rfl, rfl⟩
  | storeResult hw => exact .storeResult hw
  | finishExecution hw => exact .finishExecution hw
  | fail hw hfatal => exact .fail hw hfatal
  | abort hw => exact .abort hw
  | setReason hw => exact .setReason hw
  | validateReadLocations hw => exact .validateReadLocations hw
  | tryValidationAbort hw => exact .tryValidationAbort hw
  | convertWritesToEstimates hw => exact .convertWritesToEstimates hw
  | finishAbort hw => exact .finishAbort hw
  | finishValidation hw => exact .finishValidation hw
  | breakOff hw hreason => exact .breakOff hw hreason
  | goOn hw hreason => exact .goOn hw hreason

/-- What a run records, the machine that finishes nothing else could have recorded. -/
lemma reachable_among
    (h : (system W vm blockSize estimatedLocations initialLazy initialResults none).Run steps σ)
    {executions : TxVersion → Execution J κ ν ρ → Prop}
    (hrecords : ∀ p ∈ steps, ∀ v e, Records vm p.1 p.2 v e → executions v e) :
    (system W (vm.among executions) blockSize estimatedLocations initialLazy initialResults
      none).Reachable σ := by
  induction h with
  | init h => exact .init h
  | step _ hs ih =>
    have hbefore := ih fun p hp => hrecords p (List.mem_cons_of_mem _ hp)
    exact hbefore.step (hs.among (hrecords _ List.mem_cons_self))

variable [Nonempty W]

/-- When all workers have left without an abort reason, every transaction has an execution that was
recorded in this run and stands: its result is in the slot of the transaction, what it has written
is in the memory, its reads are the ones that the memory has of the transaction and are still valid,
and the addresses that it has left to be evaluated are there. The struct must have slots for the
block. -/
theorem stands_of_gone (hslots : blockSize ≤ initialResults.length)
    (h : (system W vm blockSize estimatedLocations initialLazy initialResults none).Run steps σ)
    (hgone : ∀ w, σ.stage w = .working .gone) (hreason : σ.abortReason = none) {j : ℕ}
    (hj : j < blockSize) :
    σ.mvMemory.validateReadLocations j = true ∧ ∃ v e, v.txIdx = j ∧
      (∃ p ∈ steps, Records vm p.1 p.2 v e) ∧
      σ.executionResults[j]? = some (some e.result) ∧
      e.Stands (.new estimatedLocations) σ.mvMemory v ∧
      (vm.lazyAddresses v e.job).toFinset ⊆ σ.lazyAddresses := by
  have hrecords : ∀ p ∈ steps, ∀ v e, Records vm p.1 p.2 v e →
      ∃ p ∈ steps, Records vm p.1 p.2 v e := fun p hp v e hrecords => ⟨p, hp, hrecords⟩
  have hamong := reachable_among h hrecords
  have hlength := (AbortInvariant.of_reachable hslots h.reachable).length
  obtain ⟨p, hp, hresembles, hleft⟩ := resembles_of_gone hslots hamong hgone hreason
  obtain ⟨hdone, hvalid⟩ := Pexe.valid_of_gone hp hleft hj
  obtain ⟨log, hlog⟩ := Pexe.Chronicle.of_reachable hp
  obtain ⟨result, hresult, v, e, hv, he, heresult, hstands⟩ := hlog.done j hdone
  obtain ⟨-, hrecorded⟩ := hlog.sound v e he
  obtain ⟨step, hstep, hrecords⟩ := hrecorded _ _ _ _ rfl
  rw [hresembles.mvMemory] at hvalid hstands
  refine ⟨hvalid, v, e, hv, ⟨step, hstep, hrecords⟩, ?_, hstands, ?_⟩
  · rw [hresembles.executionResults j (by omega), ← heresult] at hresult
    exact Option.join_eq_some_iff.mp hresult
  · obtain ⟨w, -, -, -, -, hlazy⟩ := hrecords
    have hsub := lazyAddresses_subset_of_run h step hstep
    rw [hlazy] at hsub
    exact Finset.subset_union_right.trans hsub

end Attempt

end Recorded

section Failures

/-- The worker has the reason, and has not left it behind yet. -/
def Stage.Holds (reason : Pexe.AbortReason ε) : Stage J ρ ε → Prop
  | .failing _ r | .setting r => r = reason
  | _ => False

namespace Attempt

/-- There is an abort reason, or a worker that is about to leave one. -/
def Knows (σ : Attempt W J κ ν ρ ε) (reason : Pexe.AbortReason ε) : Prop :=
  σ.abortReason = some reason ∨ ∃ w, (σ.stage w).Holds reason

/-- The execution of a worker fails for good in this step, for this reason. -/
def Fails (vm : AbortingVm J κ ν ρ ε) (σ σ' : Attempt W J κ ν ρ ε)
    (reason : Pexe.AbortReason ε) : Prop :=
  ∃ w v job, σ.stage w = .working (.executing v job) ∧ vm.fatal v job σ.mvMemory reason ∧
    σ'.stage w = .failing v reason

variable [DecidableEq W] {σ σ' : Attempt W J κ ν ρ ε} {w : W} {reason : Pexe.AbortReason ε}

omit [DecidableEq κ] in
/-- A call of a worker without reasons that gets none. -/
lemma knows_move {stage : Stage J ρ ε} (hbefore : ∀ reason, ¬ (σ.stage w).Holds reason)
    (hafter : ∀ reason, ¬ stage.Holds reason) (hreason : σ'.abortReason = σ.abortReason)
    (hstage : σ'.stage = Function.update σ.stage w stage) :
    σ'.Knows reason ↔ σ.Knows reason := by
  unfold Knows
  rw [hreason, hstage]
  refine or_congr Iff.rfl (exists_congr fun w' => ?_)
  by_cases hw : w' = w
  · subst hw
    simp [hbefore, hafter]
  · simp [hw]

/-- What becomes of the reasons in a call: none without a failure, and none is lost. -/
structure HandsOn (vm : AbortingVm J κ ν ρ ε) (σ σ' : Attempt W J κ ν ρ ε) : Prop where
  origin : ∀ reason, σ'.Knows reason → σ.Knows reason ∨ Fails vm σ σ' reason
  kept : (∃ reason, σ.Knows reason) → ∃ reason, σ'.Knows reason
  first : ∀ reason, σ.abortReason = some reason → σ'.abortReason = some reason

omit [DecidableEq κ] in
lemma handsOn_of_quiet {stage : Stage J ρ ε} (hbefore : ∀ reason, ¬ (σ.stage w).Holds reason)
    (hafter : ∀ reason, ¬ stage.Holds reason) (hreason : σ'.abortReason = σ.abortReason)
    (hstage : σ'.stage = Function.update σ.stage w stage) : HandsOn vm σ σ' where
  origin _ hr := .inl ((knows_move hbefore hafter hreason hstage).mp hr)
  kept := Exists.imp fun _ hr => (knows_move hbefore hafter hreason hstage).mpr hr
  first _ hr := hreason.trans hr

lemma Step.handsOn (h : Step vm σ σ') : HandsOn vm σ σ' := by
  cases h with
  | @fail w v job reason hw hfatal =>
    refine ⟨?_, ?_, fun _ hr => hr⟩
    · rintro r (hr | ⟨w', hr⟩)
      · exact .inl (.inl hr)
      · by_cases hww : w' = w
        · subst hww
          have heq : reason = r := by simpa [move, Stage.Holds] using hr
          subst heq
          exact .inr ⟨w', v, job, hw, hfatal, by simp [move]⟩
        · exact .inl (.inr ⟨w', by simpa [move, hww] using hr⟩)
    · rintro -
      exact ⟨reason, .inr ⟨w, by simp [move, Stage.Holds]⟩⟩
  | @abort w v reason hw =>
    refine ⟨?_, ?_, fun _ hr => hr⟩
    · rintro r (hr | ⟨w', hr⟩)
      · exact .inl (.inl hr)
      · by_cases hww : w' = w
        · subst hww
          refine .inl (.inr ⟨w', ?_⟩)
          simpa [move, hw, Stage.Holds] using hr
        · exact .inl (.inr ⟨w', by simpa [move, hww] using hr⟩)
    · rintro -
      exact ⟨reason, .inr ⟨w, by simp [move, Stage.Holds]⟩⟩
  | @setReason w reason hw =>
    refine ⟨?_, ?_, fun r hr => by simp [move, hr]⟩
    · rintro r (hr | ⟨w', hr⟩)
      · cases hreason : σ.abortReason with
        | none =>
          refine .inl (.inr ⟨w, ?_⟩)
          simpa [move, hw, hreason, Stage.Holds] using hr
        | some r' => exact .inl (.inl (by simpa [move, hreason] using hr))
      · by_cases hww : w' = w
        · subst hww
          simp [move, Stage.Holds] at hr
        · exact .inl (.inr ⟨w', by simpa [move, hww] using hr⟩)
    · rintro -
      cases hreason : σ.abortReason with
      | none => exact ⟨reason, .inl (by simp [move])⟩
      | some r' => exact ⟨r', .inl (by simp [move])⟩
  | @addDependency w v b lower hw =>
    refine handsOn_of_quiet (w := w) (by simp [hw, Stage.Holds]) ?_ rfl rfl
    intro r hr
    split at hr <;> exact hr
  | _ hw => exact handsOn_of_quiet (by simp [hw, Stage.Holds]) (by simp [Stage.Holds]) rfl rfl

/-- The reasons and the failures of a run: every reason comes from a failure, every failure leaves
one, and the first one stays. -/
structure Accounted (vm : AbortingVm J κ ν ρ ε)
    (steps : List (Attempt W J κ ν ρ ε × Attempt W J κ ν ρ ε)) (σ : Attempt W J κ ν ρ ε) :
    Prop where
  origin : ∀ reason, σ.Knows reason → ∃ p ∈ steps, Fails vm p.1 p.2 reason
  kept : (∃ p ∈ steps, ∃ reason, Fails vm p.1 p.2 reason) → ∃ reason, σ.Knows reason
  first : ∀ p ∈ steps, ∀ reason, p.1.abortReason = some reason → σ.abortReason = some reason

variable {steps : List (Attempt W J κ ν ρ ε × Attempt W J κ ν ρ ε)}

lemma Accounted.step (h : Accounted vm steps σ) (hs : Step vm σ σ') :
    Accounted vm ((σ, σ') :: steps) σ' := by
  have hhands := hs.handsOn
  refine ⟨fun r hr => ?_, ?_, fun p hp r hr => ?_⟩
  · rcases hhands.origin r hr with hr | hfails
    · obtain ⟨p, hp, hfails⟩ := h.origin r hr
      exact ⟨p, List.mem_cons_of_mem _ hp, hfails⟩
    · exact ⟨(σ, σ'), List.mem_cons_self, hfails⟩
  · rintro ⟨p, hp, r, hfails⟩
    rcases List.mem_cons.mp hp with rfl | hp
    · obtain ⟨w, v, job, -, -, hw⟩ := hfails
      refine ⟨r, .inr ⟨w, ?_⟩⟩
      rw [show σ'.stage w = .failing v r from hw]
      rfl
    · exact hhands.kept (h.kept ⟨p, hp, r, hfails⟩)
  · rcases List.mem_cons.mp hp with rfl | hp
    · exact hhands.first r hr
    · exact hhands.first r (h.first p hp r hr)

lemma Accounted.of_run
    (h : (system W vm blockSize estimatedLocations initialLazy initialResults none).Run steps σ) :
    Accounted vm steps σ := by
  apply h.invariant_steps
  · rintro σ ⟨-, -, -, -, hreason, hstage⟩
    refine ⟨?_, by simp, by simp⟩
    rintro r (hr | ⟨w, hr⟩)
    · simp [hreason] at hr
    · simp [hstage w, Stage.Holds] at hr
  · intro steps σ σ' _ h hs
    exact h.step hs

/-- The workers leave with an abort reason exactly if an execution has failed in this run. The
reason is that of a failure, and from the moment it is set it is the one they leave with. The run
begins without a reason, with any slots. -/
theorem aborted_iff_failed
    (h : (system W vm blockSize estimatedLocations initialLazy initialResults none).Run steps σ)
    (hgone : ∀ w, σ.stage w = .working .gone) :
    (σ.abortReason = none ↔ ∀ p ∈ steps, ∀ reason, ¬ Fails vm p.1 p.2 reason) ∧
      (∀ reason, σ.abortReason = some reason → ∃ p ∈ steps, Fails vm p.1 p.2 reason) ∧
      ∀ p ∈ steps, ∀ reason, p.1.abortReason = some reason → σ.abortReason = some reason := by
  have hall := Accounted.of_run h
  have hknows : ∀ r, σ.Knows r → σ.abortReason = some r := by
    rintro r (hr | ⟨w, hr⟩)
    · exact hr
    · rw [hgone w] at hr
      exact hr.elim
  refine ⟨⟨fun hnone p hp r hfails => ?_, fun hnever => ?_⟩,
    fun r hr => hall.origin r (.inl hr), hall.first⟩
  · obtain ⟨r', hr'⟩ := hall.kept ⟨p, hp, r, hfails⟩
    rw [hknows r' hr'] at hnone
    cases hnone
  · by_contra hsome
    obtain ⟨r, hr⟩ := Option.ne_none_iff_exists'.mp hsome
    obtain ⟨p, hp, hfails⟩ := hall.origin r (.inl hr)
    exact hnever p hp r hfails

end Attempt

end Failures

end Refinement

section Sample
open Attempt

/-- An execution writes its index at 7 or fails with it. -/
def uncertainVm : AbortingVm Unit ℕ ℕ Unit ℕ where
  start _ := ()
  next v _ _ step := step = .finished ∅ [(7, v.txIdx)] .empty ()
  blocking_lt := by
    rintro v job mem b ⟨⟩
  fatal v _ _ reason := reason = .executionError v.txIdx
  lazyAddresses _ _ := [7]

abbrev uncertainSystem : TransitionSystem (Attempt Bool Unit ℕ ℕ Unit ℕ) :=
  Attempt.system Bool uncertainVm 2 [] ∅ [none, none] none

def uncertainStart : Attempt Bool Unit ℕ ℕ Unit ℕ :=
  ⟨.new 2, [none, none], .new [], ∅, none, fun _ => .working .polling⟩

/-- A block of two transactions that go through. -/
theorem stands_of_gone_uncertain : ∃ steps σ, uncertainSystem.Run steps σ ∧
    ∀ j < 2, σ.mvMemory.validateReadLocations j = true ∧ ∃ v e, v.txIdx = j ∧
      (∃ p ∈ steps, Records uncertainVm p.1 p.2 v e) ∧
      σ.executionResults[j]? = some (some e.result) ∧ e.Stands (.new []) σ.mvMemory v ∧
      (uncertainVm.lazyAddresses v e.job).toFinset ⊆ σ.lazyAddresses := by
  have hstart : uncertainSystem.Run [] uncertainStart :=
    .init ⟨rfl, rfl, rfl, rfl, rfl, fun _ => rfl⟩
  have htaken := hstart.step (.nextTask (w := false) rfl)
  have htakenToo := htaken.step (.nextTask (w := true) rfl)
  have hrecordedToo := htakenToo.step (.record (w := true) (v := ⟨1, 0⟩) rfl rfl)
  have hrecorded := hrecordedToo.step (.record (w := false) (v := ⟨0, 0⟩) rfl rfl)
  have hstored := hrecorded.step (.storeResult (w := false) (v := ⟨0, 0⟩) rfl)
  have hfinished := hstored.step (.finishExecution (w := false) (v := ⟨0, 0⟩) rfl)
  have hvalidating := hfinished.step (.goOn (w := false) rfl rfl)
  have hstoredToo := hvalidating.step (.storeResult (w := true) (v := ⟨1, 0⟩) rfl)
  have hfinishedToo := hstoredToo.step (.finishExecution (w := true) (v := ⟨1, 0⟩) rfl)
  have hpollingToo := hfinishedToo.step (.goOn (w := true) rfl rfl)
  have hvalidatingToo := hpollingToo.step (.nextTask (w := true) rfl)
  have hvalidatedToo := hvalidatingToo.step
    (.validateReadLocations (w := true) (v := ⟨1, 0⟩) rfl)
  have hsettledToo := hvalidatedToo.step (.finishValidation (w := true) (v := ⟨1, 0⟩) rfl)
  have hvalidated := hsettledToo.step (.validateReadLocations (w := false) (v := ⟨0, 0⟩) rfl)
  have hsettled := hvalidated.step (.finishValidation (w := false) (v := ⟨0, 0⟩) rfl)
  have hpolling := hsettled.step (.goOn (w := false) rfl rfl)
  have hleft := hpolling.step (.nextTask (w := false) rfl)
  have hpollingToo := hleft.step (.goOn (w := true) rfl rfl)
  have hgone := hpollingToo.step (.nextTask (w := true) rfl)
  have hslots : 2 ≤ ([none, none] : List (Option Unit)).length := le_rfl
  refine ⟨_, _, hgone, fun j hj => stands_of_gone hslots hgone (fun w => ?_) rfl hj⟩
  cases w with
  | false => rfl
  | true => rfl

/-- Both executions fail, and the first reason that is set stays. -/
theorem aborted_iff_failed_uncertain : ∃ steps σ, uncertainSystem.Run steps σ ∧
    σ.abortReason = some (.executionError 1) ∧
    ∃ p ∈ steps, Fails uncertainVm p.1 p.2 (.executionError 1) := by
  have hstart : uncertainSystem.Run [] uncertainStart :=
    .init ⟨rfl, rfl, rfl, rfl, rfl, fun _ => rfl⟩
  have htaken := hstart.step (.nextTask (w := false) rfl)
  have htakenToo := htaken.step (.nextTask (w := true) rfl)
  have hfailing := htakenToo.step (.fail (w := false) (v := ⟨0, 0⟩) rfl rfl)
  have hfailingToo := hfailing.step (.fail (w := true) (v := ⟨1, 0⟩) rfl rfl)
  have haborted := hfailingToo.step (.abort (w := false) rfl)
  have habortedToo := haborted.step (.abort (w := true) rfl)
  have hsetToo := habortedToo.step (.setReason (w := true) rfl)
  have hset := hsetToo.step (.setReason (w := false) rfl)
  have hbroken := hset.step (.breakOff (w := false) rfl nofun)
  have hgone := hbroken.step (.breakOff (w := true) rfl nofun)
  obtain ⟨-, horigin, -⟩ := aborted_iff_failed hgone fun w => by
    cases w with
    | false => rfl
    | true => rfl
  exact ⟨_, _, hgone, rfl, horigin _ rfl⟩

end Sample

end Pevm
