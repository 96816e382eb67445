import Pevm.Scheduler.Preservation

/-!
# From where on to validate

The bound below which nothing is validated is meant to be the first transaction that
reads explicit values. The flag that says so has no bit, so every execution that is
finished lowers the bound and is left to a validation.
-/
namespace Pevm
open Transition

/-- The flags of a finished execution: the first and the lazy transactions need no validation. -/
def FinishExecFlags.ofExecution (txIdx : ℕ) (isLazy wroteNewLocation : Bool) : FinishExecFlags :=
  let flags := if 0 < txIdx ∧ ¬ isLazy then .needValidation else .empty
  if wroteNewLocation then flags.union .wroteNewLocation else flags

/-- A call of `finish_execution`, with the scheduler that it met and what `Vm::execute` decides its
flags by. -/
structure Finish where
  before : Scheduler
  version : TxVersion
  isLazy : Bool
  wroteNewLocation : Bool

namespace Finish

def flags (f : Finish) : FinishExecFlags :=
  .ofExecution f.version.txIdx f.isLazy f.wroteNewLocation

def after (f : Finish) : Scheduler := (f.before.finishExecution f.version f.flags).2

/-- The task that the call returns, if it returns one. -/
def task (f : Finish) : Option Task := (f.before.finishExecution f.version f.flags).1

/-- The transaction reads explicit values of lower ones: it is neither the first nor lazy. -/
def NeedsValidation (f : Finish) : Prop := 0 < f.version.txIdx ∧ f.isLazy = false

instance (f : Finish) : Decidable f.NeedsValidation := inferInstanceAs (Decidable (_ ∧ _))

/-- The call starts no validation, neither by the counters nor by a task of its own. -/
def SkipsValidation (f : Finish) : Prop :=
  f.after.minValidationIdx = f.before.minValidationIdx ∧
    f.after.statusOf f.version.txIdx = .validated ∧ ∀ v, f.task ≠ some (.validation v)

/-- The smallest index among the calls that need validation, and the block size without one. -/
def smallest (blockSize : ℕ) (calls : List Finish) : ℕ :=
  ((calls.filter fun f => f.NeedsValidation).map fun f => f.version.txIdx).foldr min blockSize

/-- After every call the bound is the smallest index of a call that needs validation, and a call
that needs none starts none. -/
def Lawful (blockSize : ℕ) : List Finish → Prop
  | [] => True
  | f :: calls =>
    f.after.minValidationIdx = smallest blockSize (f :: calls) ∧
      (¬ f.NeedsValidation → f.SkipsValidation) ∧ Lawful blockSize calls

/-- What the bound really is: the lowest transaction that was finished, validated or not. -/
def smallestFinished (blockSize : ℕ) (calls : List Finish) : ℕ :=
  (calls.map fun f => f.version.txIdx).foldr min blockSize

lemma smallest_of_forall {blockSize : ℕ} {calls : List Finish}
    (h : ∀ f ∈ calls, f.NeedsValidation) :
    smallest blockSize calls = smallestFinished blockSize calls := by
  unfold smallest smallestFinished
  rw [List.filter_eq_self.mpr fun f hf => decide_eq_true (h f hf)]

end Finish

namespace Scheduler
variable {s : Scheduler}

lemma finishExecution_minValidationIdx {v : TxVersion} (hv : v.txIdx < s.blockSize)
    (flags : FinishExecFlags) :
    (s.finishExecution v flags).2.minValidationIdx = min s.minValidationIdx v.txIdx := by
  have hmin := (resume_foldl_fields (s.transactionsDependents v.txIdx)
    (s.withDependents v.txIdx [])).2.2.2.1
  rw [finishExecution_eq hv]
  dsimp only
  split_ifs <;> simp [hmin]

lemma PollSpec.minValidationIdx {p : Poll} {s' : Scheduler} (h : PollSpec s p s') :
    s'.minValidationIdx = s.minValidationIdx := by
  cases h <;> rfl

lemma tryExecute_minValidationIdx (s : Scheduler) (j : ℕ) :
    (s.tryExecute j).2.minValidationIdx = s.minValidationIdx := by
  unfold tryExecute
  split_ifs <;> rfl

lemma finishValidation_minValidationIdx (s : Scheduler) (v : TxVersion) (aborted : Bool) :
    (s.finishValidation v aborted).2.minValidationIdx = s.minValidationIdx := by
  unfold finishValidation
  dsimp only
  split_ifs
  · have htry := tryExecute_minValidationIdx
      ((s.setReadyStatus v.txIdx).withValidationIdx
        (min (s.setReadyStatus v.txIdx).validationIdx (v.txIdx + 1))) v.txIdx
    split <;> rename_i heq <;> rw [heq] at htry <;> exact htry
  · rfl
  · rfl
  · rfl

end Scheduler

namespace Crew
variable {W ρ : Type} [DecidableEq W]

/-- A run with its calls of `finish_execution`, the last one first. -/
inductive Run (W ρ : Type) [DecidableEq W] (blockSize : ℕ) :
    Crew W ρ → List Finish → Prop
  | init {σ : Crew W ρ} : (system W ρ blockSize).init σ → Run W ρ blockSize σ []
  | call {σ σ' : Crew W ρ} {calls : List Finish} : Run W ρ blockSize σ calls → Step σ σ' →
      (∀ w v, σ.role w = .finisher v → σ'.role w = .finisher v) → Run W ρ blockSize σ' calls
  | finish {σ : Crew W ρ} {calls : List Finish} {w : W} {f : Finish} :
      Run W ρ blockSize σ calls → σ.role w = .finisher f.version → f.before = σ.scheduler →
      Run W ρ blockSize (σ.assign w (.ofTask f.task) f.after) (f :: calls)

section Runs
variable {σ : Crew W ρ} {n : ℕ} {calls : List Finish}

lemma Run.reachable (h : Run W ρ n σ calls) : (system W ρ n).Reachable σ := by
  induction h with
  | init h => exact .init h
  | call _ hstep _ ih => exact ih.step hstep
  | @finish σ calls w f _ hw hbefore ih =>
    unfold Finish.task Finish.after
    rw [hbefore]
    exact ih.step (.finishExecution f.flags hw)

/-- The version that is finished is one of the block. -/
lemma finisher_lt (h : (system W ρ n).Reachable σ) {w : W} {v : TxVersion}
    (hw : σ.role w = .finisher v) : v.txIdx < σ.scheduler.blockSize := by
  have hne : Nonempty W := ⟨w⟩
  exact (Invariant.of_reachable h).1.bound w _ (by simp [hw])

/-- Only `finish_execution` moves the bound. -/
lemma Step.minValidationIdx {σ' : Crew W ρ} (h : Step σ σ')
    (hquiet : ∀ w v, σ.role w = .finisher v → σ'.role w = .finisher v) :
    σ'.scheduler.minValidationIdx = σ.scheduler.minValidationIdx := by
  cases h with
  | nextTask => exact σ.scheduler.poll_spec.minValidationIdx
  | addDependency =>
    rw [assign_scheduler, Scheduler.addDependency_eq]
    split <;> rfl
  | storeResult => rfl
  | @finishExecution w v flags hw =>
    have hrole := hquiet w v hw
    rw [assign_role_self] at hrole
    revert hrole
    generalize (σ.scheduler.finishExecution v flags).1 = task
    intro hrole
    rcases task with _ | (_ | _) <;> cases hrole
  | tryValidationAbort =>
    rw [assign_scheduler, Scheduler.tryValidationAbort_eq]
    split <;> rfl
  | finishValidation => exact Scheduler.finishValidation_minValidationIdx _ _ _
  | finishAbort => exact Scheduler.finishValidation_minValidationIdx _ _ _

/-- The bound is the smallest index of all that have been finished. -/
theorem Run.minValidationIdx (h : Run W ρ n σ calls) :
    σ.scheduler.minValidationIdx = Finish.smallestFinished n calls := by
  induction h with
  | init h =>
    rw [h.1]
    rfl
  | call _ hstep hquiet ih => rw [hstep.minValidationIdx hquiet, ih]
  | @finish σ calls w f hrun hw hbefore ih =>
    have hlt := finisher_lt hrun.reachable hw
    show f.after.minValidationIdx = _
    unfold Finish.after
    rw [hbefore, Scheduler.finishExecution_minValidationIdx hlt, ih, min_comm]
    rfl

/-- A call for the first or a lazy transaction leaves it to a validation like any other. -/
lemma Run.not_skipsValidation {w : W} {f : Finish} (h : Run W ρ n σ calls)
    (hw : σ.role w = .finisher f.version) (hbefore : f.before = σ.scheduler) :
    ¬ f.SkipsValidation := by
  rintro ⟨-, hvalidated, -⟩
  have hlt := finisher_lt h.reachable hw
  unfold Finish.after at hvalidated
  rw [hbefore, Scheduler.finishExecution_statusOf hlt, if_pos rfl] at hvalidated
  cases hvalidated

theorem Run.lawful_of_forall (h : Run W ρ n σ calls) (hneeds : ∀ f ∈ calls, f.NeedsValidation) :
    Finish.Lawful n calls := by
  induction h with
  | init => exact True.intro
  | call _ _ _ ih => exact ih hneeds
  | @finish σ calls w f hrun hw hbefore ih =>
    have hmin := (hrun.finish hw hbefore).minValidationIdx
    refine ⟨?_, ?_, ih fun g hg => hneeds g (List.mem_cons_of_mem _ hg)⟩
    · rw [Finish.smallest_of_forall hneeds, ← hmin]
      rfl
    · exact fun hnot => absurd (hneeds f List.mem_cons_self) hnot

theorem Run.forall_of_lawful (h : Run W ρ n σ calls) (hlawful : Finish.Lawful n calls) :
    ∀ f ∈ calls, f.NeedsValidation := by
  induction h with
  | init => simp
  | call _ _ _ ih => exact ih hlawful
  | @finish σ calls w f hrun hw hbefore ih =>
    obtain ⟨-, hskips, hrest⟩ := hlawful
    intro g hg
    rcases List.mem_cons.mp hg with rfl | hg
    · by_contra hnot
      exact hrun.not_skipsValidation hw hbefore (hskips hnot)
    · exact ih hrest g hg

/-- Along a run the bound is the smallest index of the executions that need validation, and no other
execution starts one, exactly as long as no execution of the first or of a lazy transaction has been
finished. The run is one of the scheduler, with any flags. -/
theorem skips_validation_iff (h : Run W ρ n σ calls) :
    (σ.scheduler.minValidationIdx = Finish.smallest n calls ∧ Finish.Lawful n calls) ↔
      ∀ f ∈ calls, f.NeedsValidation := by
  constructor
  · rintro ⟨-, hlawful⟩
    exact h.forall_of_lawful hlawful
  · intro hneeds
    refine ⟨?_, h.lawful_of_forall hneeds⟩
    rw [h.minValidationIdx, Finish.smallest_of_forall hneeds]

/-- Two workers take the two transactions of a block, and the second one is finished first. -/
theorem skips_validation_second :
    ∃ (σ : Crew Bool ℕ) (calls : List Finish), Run Bool ℕ 2 σ calls ∧ calls.length = 1 ∧
      σ.scheduler.minValidationIdx = Finish.smallest 2 calls ∧ Finish.Lawful 2 calls := by
  let start : Crew Bool ℕ := ⟨.new 2, fun _ => none, fun _ => .idle⟩
  have hstart : Run Bool ℕ 2 start [] := .init ⟨rfl, fun _ => rfl⟩
  have hfirst := hstart.call (.nextTask (w := true) rfl) (by rintro (_ | _) v ⟨⟩)
  have hsecond := hfirst.call (.nextTask (w := false) rfl) (by rintro (_ | _) v ⟨⟩)
  have hstored := hsecond.call (.storeResult (w := false) (v := ⟨1, 0⟩) 7 rfl)
    (by rintro (_ | _) v ⟨⟩)
  have hfinished := hstored.finish (w := false) (f := ⟨_, ⟨1, 0⟩, false, true⟩) rfl rfl
  obtain ⟨hmin, hlawful⟩ := (skips_validation_iff hfinished).mpr (by
    intro f hf
    obtain rfl := List.mem_singleton.mp hf
    exact ⟨by decide, rfl⟩)
  exact ⟨_, _, hfinished, rfl, hmin, hlawful⟩

/-- The first transaction of a block is executed, and its execution finished. -/
theorem not_skips_validation_first :
    ¬ ∀ (σ : Crew Unit ℕ) (calls : List Finish), Run Unit ℕ 1 σ calls →
      σ.scheduler.minValidationIdx = Finish.smallest 1 calls ∧ Finish.Lawful 1 calls := by
  intro hall
  let start : Crew Unit ℕ := ⟨.new 1, fun _ => none, fun _ => .idle⟩
  have hstart : Run Unit ℕ 1 start [] := .init ⟨rfl, fun _ => rfl⟩
  have htaken := hstart.call (.nextTask (w := ()) rfl) (by rintro _ v ⟨⟩)
  have hstored := htaken.call (.storeResult (w := ()) (v := ⟨0, 0⟩) 7 rfl) (by rintro _ v ⟨⟩)
  have hfinished := hstored.finish (w := ()) (f := ⟨_, ⟨0, 0⟩, false, true⟩) rfl rfl
  obtain ⟨-, -, hskips, -⟩ := hall _ _ hfinished
  have hvalidated := (hskips (by decide)).2.1
  revert hvalidated
  decide

end Runs

end Crew

end Pevm
