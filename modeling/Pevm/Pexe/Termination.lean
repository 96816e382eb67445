import Pevm.Lib.Termination
import Pevm.Pexe.Bounded

/-!
# The workers come to an end

As the starts are bounded, so is what is touched. Between two of these calls a worker goes on
towards the end of what it holds, and a counter goes on towards the end of the block. So no run goes
on for ever in which every call changes something. Where no call changes anything any more, all
workers have left.
-/
namespace Pevm
open Transition TransitionSystem

/-- Every execution can always go on, and ends whatever it meets on its way. -/
structure Vm.Proceeds {J κ ν ρ : Type} (vm : Vm J κ ν ρ) : Prop where
  total : ∀ v job mem, ∃ step, vm.next v job mem step
  ends : ∀ v, WellFounded fun job' job => ∃ mem, vm.next v job mem (.running job')

namespace Phase
variable {J κ ν ρ : Type} {vm : Vm J κ ν ρ} {p p' : Phase J ρ}

/-- How far the worker is from the end of what it holds. -/
def stage : Phase J ρ → ℕ
  | .gone => 0
  | .polling => 1
  | .settled _ | .converted _ => 2
  | .aborted _ => 3
  | .failed _ => 4
  | .validating _ => 5
  | .stored _ _ => 6
  | .recorded _ _ _ => 7
  | .blocked _ _ _ => 8
  | .executing _ _ => 9

/-- The worker has gone on towards the end of what it holds, by its phase or by a read of its
execution. -/
def Nears (vm : Vm J κ ν ρ) (p' p : Phase J ρ) : Prop :=
  p'.stage < p.stage ∨ ∃ v job job' mem, p = .executing v job ∧ p' = .executing v job' ∧
    vm.next v job mem (.running job')

theorem wellFounded_nears (h : vm.Proceeds) : WellFounded (Nears (ρ := ρ) vm) := by
  refine ⟨fun p => ?_⟩
  induction hk : p.stage using Nat.strong_induction_on generalizing p with
  | _ k ih =>
    have hlower : ∀ p' : Phase J ρ, p'.stage < k → Acc (Nears vm) p' := fun p' hp' => ih _ hp' p' rfl
    by_cases hp : ∃ v job, p = .executing v job
    · obtain ⟨v, job, rfl⟩ := hp
      induction job using (h.ends v).induction with
      | _ job ihjob =>
        refine Acc.intro _ fun p' hnears => ?_
        rcases hnears with hlt | ⟨u, job₀, job', mem, heq, rfl, hnext⟩
        · exact hlower p' (hk ▸ hlt)
        · cases heq
          exact ihjob job' ⟨mem, hnext⟩ hk
    · refine Acc.intro _ fun p' hnears => ?_
      rcases hnears with hlt | ⟨u, job₀, job', mem, heq, -⟩
      · exact hlower p' (hk ▸ hlt)
      · exact absurd ⟨u, job₀, heq⟩ hp

/-- The worker is going to tell the scheduler of what it has done to the memory. -/
def pending : Phase J ρ → ℕ
  | .recorded _ _ _ | .stored _ _ | .converted _ => 1
  | .polling | .executing _ _ | .blocked _ _ _ | .validating _ | .failed _ | .aborted _
  | .settled _ | .gone => 0

lemma pending_ofTask (t : Option Task) : (ofTask vm t : Phase J ρ).pending = 0 := by
  rcases t with _ | (v | v) <;> rfl

lemma pending_ofPoll (r : Scheduler.Poll) : (ofPoll vm r : Phase J ρ).pending = 0 := by
  cases r with
  | task t => exact pending_ofTask (some t)
  | again | exit => rfl

end Phase

/-- What the two counters have not passed yet. -/
def Scheduler.remaining (s : Scheduler) : ℕ :=
  (s.blockSize - s.executionIdx) + (s.blockSize - s.validationIdx)

namespace Pexe
variable {W J κ ν ρ : Type} {vm : Vm J κ ν ρ} {n : ℕ}
  {estimatedLocations : List (κ × List ℕ)} {locations : Set κ}
  {OnCourse : MvMemory κ ν → TxVersion → J → Prop} {σ σ' : Pexe W J κ ν ρ} {w : W} {j : ℕ}
  {p : Phase J ρ}

section Lowers
variable [Fintype W] [DecidableEq W]

/-- How many workers are going to tell the scheduler of what they have done to the memory. -/
def pending (σ : Pexe W J κ ν ρ) : ℕ := ∑ w, (σ.phase w).pending

/-- What a call that neither starts nor touches a transaction brings nearer to its end: a report,
a counter, or what one worker holds. -/
def Lowers (vm : Vm J κ ν ρ) (σ' σ : Pexe W J κ ν ρ) : Prop :=
  pending σ' < pending σ ∨ pending σ' ≤ pending σ ∧
    (σ'.scheduler.remaining < σ.scheduler.remaining ∨
      σ'.scheduler.remaining ≤ σ.scheduler.remaining ∧
        ∃ w p, p.Nears vm (σ.phase w) ∧ σ'.phase = Function.update σ.phase w p)

theorem wellFounded_lowers (h : vm.Proceeds) :
    WellFounded (Lowers (W := W) (ρ := ρ) vm) :=
  wellFounded_measure_or _ (wellFounded_measure_or _
    (InvImage.wf phase (wellFounded_update (Phase.wellFounded_nears h))))

lemma Lowers.of_report (h : σ'.phase = Function.update σ.phase w p)
    (hp : p.pending < (σ.phase w).pending) : Lowers vm σ' σ := by
  have hsum : ∑ w', (σ'.phase w').pending + (σ.phase w).pending ≤
      ∑ w', (σ.phase w').pending + p.pending := sum_update_le h fun _ _ => le_rfl
  left
  unfold pending
  omega

lemma Lowers.of_le (h : σ'.phase = Function.update σ.phase w p)
    (hp : p.pending ≤ (σ.phase w).pending)
    (hnears : σ'.scheduler.remaining < σ.scheduler.remaining ∨
      σ'.scheduler.remaining ≤ σ.scheduler.remaining ∧ p.Nears vm (σ.phase w)) :
    Lowers vm σ' σ := by
  have hsum : ∑ w', (σ'.phase w').pending + (σ.phase w).pending ≤
      ∑ w', (σ.phase w').pending + p.pending := sum_update_le h fun _ _ => le_rfl
  right
  constructor
  · unfold pending
    omega
  · exact hnears.imp_right fun ⟨hle, hp⟩ => ⟨hle, w, p, hp, h⟩

omit [Fintype W] in
lemma move_self (hw : σ.phase w = p) : σ.move w p σ.scheduler = σ := by
  simp [move, ← hw]

/-- The scheduler hands out a validation or moves a counter. -/
lemma Lowers.nextTask (hw : σ.phase w = .polling)
    (hstarts : ∀ v, Phase.ofPoll vm σ.scheduler.poll.1 ≠ (.executing v (vm.start v) : Phase J ρ))
    (hne : σ.move w (.ofPoll vm σ.scheduler.poll.1) σ.scheduler.poll.2 ≠ σ) :
    Lowers vm (σ.move w (.ofPoll vm σ.scheduler.poll.1) σ.scheduler.poll.2) σ := by
  have hspec := σ.scheduler.poll_spec
  refine .of_le rfl (by rw [Phase.pending_ofPoll]; exact Nat.zero_le _) ?_
  revert hspec hstarts hne
  generalize σ.scheduler.poll = r
  obtain ⟨r, s⟩ := r
  intro hstarts hne hspec
  cases hspec with
  | exit => exact .inr ⟨le_rfl, .inl (by simp [hw, Phase.ofPoll, Phase.stage])⟩
  | wait => exact absurd (move_self hw) hne
  | @skip e v he hv hmoves =>
    left
    simp only [move, Scheduler.remaining, Scheduler.withValidationIdx_blockSize,
      Scheduler.withValidationIdx_validationIdx]
    omega
  | execute | steal => exact absurd rfl (hstarts _)
  | validate hlt =>
    left
    simp only [move, Scheduler.remaining]
    omega

variable [DecidableEq κ] [Nonempty W]

/-- A call that neither starts nor touches a transaction, and changes something. -/
lemma Lowers.of_step (hr : (system W vm n estimatedLocations).Reachable σ) (hs : Step vm σ σ')
    (hquiet : ∀ j < n, ¬ (Starts vm j σ σ' ∨ Touches j σ σ')) (hne : σ' ≠ σ) : Lowers vm σ' σ := by
  obtain ⟨hcrew, hsize⟩ := crew_invariant hr
  obtain ⟨hcrew', hsize'⟩ := crew_invariant (hr.step hs)
  have hbound : ∀ w v, (σ.crew.role w).version = some v → v.txIdx < n :=
    fun w v hv => hsize ▸ hcrew.bound w v.txIdx ⟨v, hv, rfl⟩
  have hstart : ∀ w v, σ.phase w ≠ .executing v (vm.start v) →
      σ'.phase w ≠ .executing v (vm.start v) := by
    intro w v hbefore hw
    have hv : v.txIdx < σ'.scheduler.blockSize :=
      hcrew'.bound w v.txIdx (by simp [crew, hw, Phase.role])
    exact hquiet v.txIdx (hsize' ▸ hv) (.inl ⟨w, v, rfl, hw, fun h => hbefore (h.trans hw)⟩)
  cases hs with
  | @nextTask w hw =>
    refine .nextTask hw (fun v hv => ?_) hne
    exact hstart w v (by simp [hw]) (phase_move_self.trans hv)
  | @read w v job job' hw hnext =>
    exact .of_le rfl (by rw [hw]; exact le_rfl)
      (.inr ⟨le_rfl, .inr ⟨v, job, job', _, hw, rfl, hnext⟩⟩)
  | @retry w v job hw _ =>
    by_cases hjob : job = vm.start v
    · exact absurd (move_self (hjob ▸ hw)) hne
    · exact absurd phase_move_self (hstart w v (by simpa [hw] using hjob))
  | block hw _ =>
    exact .of_le rfl (by rw [hw]; exact le_rfl) (.inr ⟨le_rfl, .inl (by simp [hw, Phase.stage])⟩)
  | @addDependency w v b lower hw =>
    have hadd := Scheduler.addDependency_eq (s := σ.scheduler) v.txIdx b
    by_cases hd : σ.scheduler.Done b
    · rw [if_pos hd] at hadd
      exact absurd (phase_move_self.trans (by rw [hadd]; rfl)) (hstart w v (by simp [hw]))
    · rw [if_neg hd] at hadd
      rw [hadd]
      exact .of_le rfl (by rw [hw]; exact le_rfl)
        (.inr ⟨le_rfl, .inl (by simp [hw, Phase.stage])⟩)
  | @record w v job readSet writeSet flags result hw _ =>
    have hv := hbound w v (by simp [crew, hw, Phase.role, Role.version])
    exact absurd (.inr ⟨w, v, rfl, .inl ⟨job, _, result, hw, phase_move_self⟩⟩) (hquiet _ hv)
  | storeResult hw =>
    exact .of_le rfl (by rw [hw]; exact le_rfl) (.inr ⟨le_rfl, .inl (by simp [hw, Phase.stage])⟩)
  | finishExecution hw | finishAbort hw =>
    exact .of_report rfl (by rw [Phase.pending_ofTask, hw]; exact Nat.one_pos)
  | validateReadLocations hw =>
    refine .of_le rfl ?_ (.inr ⟨le_rfl, .inl ?_⟩)
    · split <;> exact Nat.zero_le _
    · split <;> simp [hw, Phase.stage]
  | @tryValidationAbort w v hw =>
    have habort := Scheduler.tryValidationAbort_eq (s := σ.scheduler) v
    by_cases hd : σ.scheduler.Done v.txIdx
    · rw [if_pos hd] at habort
      rw [habort]
      exact .of_le rfl (Nat.zero_le _) (.inr ⟨le_rfl, .inl (by simp [hw, Phase.stage])⟩)
    · rw [if_neg hd] at habort
      rw [habort]
      exact .of_le rfl (Nat.zero_le _) (.inr ⟨le_rfl, .inl (by simp [hw, Phase.stage])⟩)
  | @convertWritesToEstimates w v hw =>
    have hv := hbound w v (by simp [crew, hw, Phase.role, Role.version])
    exact absurd (.inr ⟨w, v, rfl, .inr ⟨hw, phase_move_self⟩⟩) (hquiet _ hv)
  | @finishValidation w v hw =>
    refine .of_le rfl (by rw [Phase.pending_ofTask]; exact Nat.zero_le _) (.inr ⟨?_, .inl ?_⟩)
    · simp only [Scheduler.finishValidation, Bool.false_eq_true, if_false]
      split <;> exact le_rfl
    · rw [Scheduler.finishValidation_false_task, hw]
      simp [Phase.ofTask, Phase.stage]

/-- No run goes on for ever in which every call changes something. -/
theorem acc_of_reachable (hsteers : vm.Steers n locations OnCourse)
    (hkeeps : vm.KeepsUp estimatedLocations locations) (hproceeds : vm.Proceeds)
    (hr : (system W vm n estimatedLocations).Reachable σ) :
    Acc (fun σ' σ => Step vm σ σ' ∧ σ' ≠ σ) σ := by
  obtain ⟨steps, hrun⟩ := hr.run
  have hbound : ∀ steps σ, (system W vm n estimatedLocations).Run steps σ →
      occurrences (fun σ σ' => ∃ j < n, Starts vm j σ σ' ∨ Touches j σ σ') steps ≤
        ∑ j ∈ Finset.range n, 3 * (Fintype.card W * (Fintype.card W * 2 + 1) ^ j) := by
    intro steps σ hrun
    have hsum := occurrences_exists_le (fun j σ σ' => Starts vm j σ σ' ∨ Touches j σ σ') n steps
    refine hsum.trans (Finset.sum_le_sum fun j _ => ?_)
    have hor := occurrences_or_le (Starts vm j) (Touches j) steps
    have hstarts := starts_le hsteers hkeeps hrun j
    have htouches := touches_le hrun j
    omega
  refine hrun.acc hbound (Subrelation.wf ?_ (wellFounded_lowers hproceeds))
  rintro σ' σ ⟨hr, hs, hquiet, hne⟩
  exact .of_step hr hs (fun j hj h => hquiet ⟨j, hj, h⟩) hne

end Lowers

section Stuck
variable [DecidableEq W] [DecidableEq κ] [Nonempty W]

/-- Where no call changes anything, nobody holds a task. -/
lemma quiet_of_stuck (hsteers : vm.Steers n locations OnCourse) (hproceeds : vm.Proceeds)
    (hr : (system W vm n estimatedLocations).Reachable σ)
    (hstuck : ∀ σ', Step vm σ σ' → σ' = σ) (w : W) :
    σ.phase w = .polling ∨ σ.phase w = .gone := by
  obtain ⟨hcrew, hsize⟩ := crew_invariant hr
  have hsame : ∀ {σ' p}, Step vm σ σ' → σ'.phase w = p → σ.phase w = p :=
    fun hs hp => hstuck _ hs ▸ hp
  cases hw : σ.phase w with
  | polling => exact .inl rfl
  | gone => exact .inr rfl
  | executing v job =>
    exfalso
    have hv : v.txIdx < σ.scheduler.blockSize :=
      hcrew.bound w v.txIdx (by simp [crew, hw, Phase.role])
    obtain ⟨step, hnext⟩ := hproceeds.total v job σ.mvMemory
    cases step with
    | running job' =>
      have hjob := hsame (.read hw hnext) phase_move_self
      rw [hw] at hjob
      cases hjob
      exact (hproceeds.ends v).irrefl.irrefl job ⟨_, hnext⟩
    | retry =>
      have hjob := hsame (.retry hw hnext) phase_move_self
      rw [hw] at hjob
      cases hjob
      exact hsteers.retry _ _ _ (hsteers.start _ v (hsize ▸ hv)) hnext
    | blocking b => simpa [hw] using hsame (.block hw hnext) phase_move_self
    | finished readSet writeSet flags result =>
      simpa [hw] using hsame (.record hw hnext) phase_move_self
  | blocked v b lower =>
    have hp := hsame (.addDependency hw) phase_move_self
    rw [hw] at hp
    split_ifs at hp
  | recorded v flags result => simpa [hw] using hsame (.storeResult hw) phase_move_self
  | stored v flags =>
    have hv : v.txIdx < σ.scheduler.blockSize :=
      hcrew.bound w v.txIdx (by simp [crew, hw, Phase.role])
    have hp := hsame (.finishExecution hw) phase_move_self
    rw [hw, Scheduler.finishExecution_task hv] at hp
    split_ifs at hp <;> cases hp
  | validating v =>
    have hp := hsame (.validateReadLocations hw) phase_move_self
    rw [hw] at hp
    split_ifs at hp
  | failed v =>
    have hp := hsame (.tryValidationAbort hw) phase_move_self
    rw [hw] at hp
    split_ifs at hp
  | aborted v => simpa [hw] using hsame (.convertWritesToEstimates hw) phase_move_self
  | converted v =>
    have hp := hsame (.finishAbort hw) phase_move_self
    rw [hw] at hp
    revert hp
    rcases (σ.scheduler.finishValidation v true).1 with _ | (u | u) <;> exact nofun
  | settled v =>
    have hp := hsame (.finishValidation hw) phase_move_self
    rw [hw, Scheduler.finishValidation_false_task] at hp
    cases hp

/-- Where no call changes anything any more, all workers have left. -/
theorem gone_of_stuck (hsteers : vm.Steers n locations OnCourse) (hproceeds : vm.Proceeds)
    (hr : (system W vm n estimatedLocations).Reachable σ)
    (hstuck : ∀ σ', Step vm σ σ' → σ' = σ) (w : W) : σ.phase w = .gone := by
  obtain ⟨hcrew, hsize⟩ := crew_invariant hr
  have hquiet := quiet_of_stuck hsteers hproceeds hr hstuck
  rcases hquiet w with hw | hw
  · have hfree : ∀ w, (σ.crew.role w).Free := by
      intro w
      rcases hquiet w with hw | hw
      · exact .inl (by simp [crew, hw, Phase.role])
      · exact .inr (by simp [crew, hw, Phase.role])
    have hnumber : σ.scheduler.numValidated = σ.scheduler.validatedCount :=
      Crew.numValidated_eq ((abstraction vm n estimatedLocations).reachable hr)
    have hsame : σ.move w (.ofPoll vm σ.scheduler.poll.1) σ.scheduler.poll.2 = σ :=
      hstuck _ (.nextTask hw)
    have hphase : Phase.ofPoll vm σ.scheduler.poll.1 = (.polling : Phase J ρ) := by
      rw [← hw, ← congrFun (congrArg phase hsame) w, phase_move_self]
    have hscheduler : σ.scheduler.poll.2 = σ.scheduler := congrArg scheduler hsame
    have hspec := σ.scheduler.poll_spec
    revert hphase hscheduler hspec
    generalize hpoll : σ.scheduler.poll = r
    obtain ⟨r, s⟩ := r
    intro hphase hscheduler hspec
    exfalso
    cases hspec with
    | wait he hv =>
      -- everybody is validated, so the scheduler would let the worker go
      have hall : ∀ j < σ.scheduler.blockSize, σ.scheduler.statusOf j = .validated := by
        intro j hj
        by_contra hst
        obtain ⟨i, hi, ⟨-, hle⟩ | ⟨-, hle⟩⟩ := hcrew.exists_pending hfree hj hst
        · exact absurd (he.trans hle) hi.not_ge
        · exact absurd (hv.trans hle) hi.not_ge
      rw [Scheduler.validatedCount_of_all hall] at hnumber
      have hend := Scheduler.poll_of_end hcrew.notAborted (s := σ.scheduler) he hv hnumber.ge
      rw [hpoll] at hend
      cases hend
    | @skip e v he hv hmoves =>
      have hexecution : e = σ.scheduler.executionIdx := congrArg Scheduler.executionIdx hscheduler
      have hvalidation : v = σ.scheduler.validationIdx :=
        congrArg Scheduler.validationIdx hscheduler
      omega
    | exit | execute | steal | validate => cases hphase
  · exact hw

end Stuck

end Pexe

end Pevm
