import Pevm.Pexe.Program

/-!
# Late validations

A validation acts on whatever incarnation it meets. It meets the one it was handed out
for as long as no execution of the transaction is finished while a validation of an
earlier incarnation is under way.
-/
namespace Pevm
open Transition

namespace Scheduler
variable {s : Scheduler}

lemma PollSpec.incarnationOf {p : Poll} {s' : Scheduler} (h : PollSpec s p s') (j : ℕ) :
    s'.incarnationOf j = s.incarnationOf j := by
  cases h with
  | exit => rfl
  | wait => rfl
  | skip => rfl
  | execute => simp
  | steal => simp
  | validate => rfl

end Scheduler

namespace Crew
variable {W ρ : Type}

/-- A worker that acts on a validation changes the status only of the incarnation it validates. -/
def Respects (σ σ' : Crew W ρ) : Prop :=
  ∀ w v, σ.role w = .validator v → σ'.role w ≠ .validator v →
    σ'.scheduler.statusOf v.txIdx ≠ σ.scheduler.statusOf v.txIdx →
    σ.scheduler.incarnationOf v.txIdx = v.txIncarnation

/-- If an execution is finished, no validation of an earlier incarnation is under way. -/
def Prompt (σ σ' : Crew W ρ) : Prop :=
  ∀ w v, σ.role w = .finisher v → σ'.role w ≠ .finisher v →
    ∀ w' u, σ.role w' = .validator u → u.txIdx = v.txIdx → ¬ u.txIncarnation < v.txIncarnation

/-- No validation is about a later incarnation, and none about an earlier one of a transaction that
is done. -/
def Punctual (σ : Crew W ρ) : Prop :=
  ∀ w u, σ.role w = .validator u → u.txIncarnation ≤ σ.scheduler.incarnationOf u.txIdx ∧
    (σ.scheduler.Done u.txIdx → u.txIncarnation = σ.scheduler.incarnationOf u.txIdx)

variable [DecidableEq W] {σ : Crew W ρ} {w : W} {v : TxVersion}

lemma Punctual.assign (h : Punctual σ) {r : Role} {s : Scheduler}
    (hrole : ∀ u, r = .validator u → σ.role w = .validator u ∨ u = s.versionOf u.txIdx)
    (hle : ∀ j, σ.scheduler.incarnationOf j ≤ s.incarnationOf j)
    (hdone : ∀ w' u, σ.role w' = .validator u → s.Done u.txIdx →
      u.txIncarnation = s.incarnationOf u.txIdx) : Punctual (σ.assign w r s) := by
  have hold : ∀ w' u, σ.role w' = .validator u → u.txIncarnation ≤ s.incarnationOf u.txIdx ∧
      (s.Done u.txIdx → u.txIncarnation = s.incarnationOf u.txIdx) :=
    fun w' u hu => ⟨((h w' u hu).1).trans (hle _), hdone w' u hu⟩
  intro w' u hu
  rw [assign_scheduler]
  by_cases hww : w' = w
  · subst hww
    rw [assign_role_self] at hu
    rcases hrole u hu with hu | hu
    · exact hold w' u hu
    · have heq : u.txIncarnation = s.incarnationOf u.txIdx := congrArg TxVersion.txIncarnation hu
      exact ⟨heq.le, fun _ => heq⟩
  · rw [assign_role_of_ne hww] at hu
    exact hold w' u hu

/-- A call that makes nothing done keeps validations punctual. -/
lemma Punctual.assign_of_done (h : Punctual σ) {r : Role} {s : Scheduler}
    (hrole : ∀ u, r = .validator u → σ.role w = .validator u ∨ u = s.versionOf u.txIdx)
    (hle : ∀ j, σ.scheduler.incarnationOf j ≤ s.incarnationOf j)
    (hdone : ∀ j, s.Done j → σ.scheduler.Done j ∧ s.incarnationOf j = σ.scheduler.incarnationOf j) :
    Punctual (σ.assign w r s) := by
  apply h.assign hrole hle
  intro w' u hu hd
  obtain ⟨hold, heq⟩ := hdone _ hd
  rw [heq]
  exact (h w' u hu).2 hold

lemma Punctual.finishExecution (h : Punctual σ) (hinv : Invariant σ)
    (hw : σ.role w = .finisher v) (flags : FinishExecFlags)
    (hprompt : ∀ w' u, σ.role w' = .validator u → u.txIdx = v.txIdx →
      ¬ u.txIncarnation < v.txIncarnation) :
    Punctual (σ.assign w (.ofTask (σ.scheduler.finishExecution v flags).1)
      (σ.scheduler.finishExecution v flags).2) := by
  have hwE : (σ.role w).Executes v.txIdx := by simp [hw]
  obtain ⟨hi, -, -, -, hpark⟩ := hinv.executing_facts hwE
  have hversion := (hinv.tx _ hi).incarnation w v (.inr hw) rfl
  have hcurrent : v.txIncarnation = σ.scheduler.incarnationOf v.txIdx :=
    congrArg TxVersion.txIncarnation hversion
  have hinc := Scheduler.finishExecution_incarnationOf hi flags (hinv.tx _ hi).parkedNodup
  have hself : (σ.scheduler.finishExecution v flags).2.incarnationOf v.txIdx =
      σ.scheduler.incarnationOf v.txIdx := by rw [hinc, if_neg (hpark _)]
  apply h.assign
  · intro u hu
    right
    rw [Scheduler.finishExecution_task hi] at hu
    split at hu <;> cases hu
    show v = ⟨v.txIdx, _⟩
    rw [hself, ← hcurrent]
  · intro j
    rw [hinc]
    split <;> omega
  · intro w' u hu hd
    have hle := (h w' u hu).1
    by_cases huv : u.txIdx = v.txIdx
    · have hnot := hprompt w' u hu huv
      rw [huv] at hle ⊢
      rw [hself]
      omega
    · -- whoever is resumed is not done
      have hnotmem : u.txIdx ∉ σ.scheduler.transactionsDependents v.txIdx := by
        intro hmem
        simp [Scheduler.Done, Scheduler.finishExecution_statusOf hi flags, huv, hmem] at hd
      rw [hinc, if_neg hnotmem]
      rcases Scheduler.finishExecution_done hi flags hd with hold | hself
      · exact (h w' u hu).2 hold
      · exact absurd hself huv

theorem Punctual.step {σ' : Crew W ρ} (h : Punctual σ) (hinv : Invariant σ) (hstep : Step σ σ')
    (hprompt : Prompt σ σ') : Punctual σ' := by
  cases hstep with
  | @nextTask w hw =>
    have hspec := σ.scheduler.poll_spec
    revert hspec
    generalize σ.scheduler.poll = r
    obtain ⟨p, s⟩ := r
    intro hspec
    refine h.assign_of_done ?_ (fun j => (hspec.incarnationOf j).ge)
      fun j hd => ⟨(hspec.done j).mp hd, hspec.incarnationOf j⟩
    intro u hu
    right
    cases hspec with
    | exit => cases hu
    | wait => cases hu
    | skip => cases hu
    | execute => cases hu
    | steal => cases hu
    | validate =>
      cases hu
      rfl
  | @addDependency w v b hw hlt =>
    refine h.assign_of_done ?_ ?_ ?_
    · intro u hu
      split at hu <;> cases hu
    · exact fun j => (Scheduler.addDependency_incarnationOf _ _ j).ge
    · exact fun j hd =>
        ⟨Scheduler.addDependency_done hd, Scheduler.addDependency_incarnationOf _ _ j⟩
  | @storeResult w v result hw =>
    have hstored : Punctual (σ.storeResult v.txIdx result) := h
    exact hstored.assign_of_done (by simp) (fun _ => le_rfl) fun j hd => ⟨hd, rfl⟩
  | @finishExecution w v flags hw =>
    apply h.finishExecution hinv hw flags
    apply hprompt w v hw
    rw [assign_role_self]
    generalize (σ.scheduler.finishExecution v flags).1 = task
    rcases task with _ | (_ | _) <;> simp [Role.ofTask]
  | @tryValidationAbort w v hw =>
    refine h.assign_of_done ?_ ?_ ?_
    · intro u hu
      split at hu <;> cases hu
      exact .inl hw
    · exact fun j => (Scheduler.tryValidationAbort_incarnationOf v j).ge
    · exact fun j hd =>
        ⟨Scheduler.tryValidationAbort_done v hd, Scheduler.tryValidationAbort_incarnationOf v j⟩
  | @finishValidation w v hw =>
    refine h.assign_of_done ?_ ?_ ?_
    · intro u hu
      simp only [Scheduler.finishValidation, Bool.false_eq_true, if_false] at hu
      split at hu <;> cases hu
    · exact fun j => (Scheduler.finishValidation_false_incarnationOf v j).ge
    · exact fun j hd => ⟨(Scheduler.finishValidation_false_done v j).mp hd,
        Scheduler.finishValidation_false_incarnationOf v j⟩
  | @finishAbort w v hw =>
    have hi : v.txIdx < σ.scheduler.blockSize := hinv.bound w _ (by simp [hw])
    refine h.assign_of_done ?_ ?_ ?_
    · intro u hu
      rw [Scheduler.finishValidation_true v hi] at hu
      dsimp only at hu
      split at hu <;> cases hu
    · intro j
      rw [Scheduler.finishValidation_true v hi]
      dsimp only
      split <;> simp <;> split <;> omega
    · intro j hd
      refine ⟨Scheduler.finishValidation_true_done v hi hd, ?_⟩
      rw [Scheduler.finishValidation_true v hi] at hd ⊢
      dsimp only at hd ⊢
      have hne : j ≠ v.txIdx := by
        rintro rfl
        split at hd <;> simp [Scheduler.Done] at hd
      split <;> simp [hne]

/-- A call of a worker that has nothing to validate. -/
lemma respects_assign {r : Role} {s : Scheduler} (hw : ∀ v, σ.role w ≠ .validator v) :
    Respects σ (σ.assign w r s) := by
  intro w' v hv hne
  have hww : w' ≠ w := by
    rintro rfl
    exact hw v hv
  rw [assign_role_of_ne hww] at hne
  exact absurd hv hne

/-- A call of a worker that validates `v` and changes a status only if `v` is current. -/
lemma respects_assign_validator {r : Role} {s : Scheduler} (hw : σ.role w = .validator v)
    (hstatus : s.statusOf v.txIdx ≠ σ.scheduler.statusOf v.txIdx →
      σ.scheduler.incarnationOf v.txIdx = v.txIncarnation) : Respects σ (σ.assign w r s) := by
  intro w' u hu hne
  by_cases hww : w' = w
  · subst hww
    rw [hw] at hu
    cases hu
    exact hstatus
  · rw [assign_role_of_ne hww] at hne
    exact absurd hu hne

/-- A punctual validation changes the status of its own incarnation only. -/
theorem Punctual.respects {σ' : Crew W ρ} (h : Punctual σ) (hstep : Step σ σ') :
    Respects σ σ' := by
  cases hstep with
  | nextTask hw => exact respects_assign (by simp [hw])
  | addDependency hw => exact respects_assign (by simp [hw])
  | @storeResult w v result hw =>
    have hnot : ∀ u, (σ.storeResult v.txIdx result).role w ≠ .validator u := by
      intro u
      show σ.role w ≠ _
      simp [hw]
    exact respects_assign hnot
  | finishExecution flags hw => exact respects_assign (by simp [hw])
  | @tryValidationAbort w v hw =>
    refine respects_assign_validator hw fun hne => ?_
    by_cases hdone : σ.scheduler.Done v.txIdx
    · exact ((h w v hw).2 hdone).symm
    · rw [Scheduler.tryValidationAbort_eq, if_neg hdone] at hne
      exact absurd rfl hne
  | @finishValidation w v hw =>
    refine respects_assign_validator hw fun hne => ?_
    by_cases hst : σ.scheduler.statusOf v.txIdx = .executed
    · exact ((h w v hw).2 (.inl hst)).symm
    · simp [Scheduler.finishValidation, hst] at hne
  | finishAbort hw => exact respects_assign (by simp [hw])

end Crew

namespace Pexe
variable {W J κ ν ρ : Type} {σ σ' : Pexe W J κ ν ρ}

lemma phase_of_validator {w : W} {u : TxVersion} (h : σ.crew.role w = .validator u) :
    σ.phase w = .validating u ∨ σ.phase w = .failed u ∨ σ.phase w = .settled u := by
  unfold crew at h
  dsimp only at h
  cases hphase : σ.phase w <;> simp_all [Phase.role]

lemma phase_of_finisher {w : W} {v : TxVersion} (h : σ.crew.role w = .finisher v) :
    ∃ flags, σ.phase w = .stored v flags := by
  unfold crew at h
  dsimp only at h
  cases hphase : σ.phase w <;> simp_all [Phase.role]

variable [DecidableEq W] [DecidableEq κ] {vm : Vm J κ ν ρ} {n : ℕ}
  {estimatedLocations : List (κ × List ℕ)}

/-- A validation that has been decided acts on whatever incarnation is executed. -/
lemma exists_late_step {w : W} {u : TxVersion} (hw : σ.phase w = .failed u ∨ σ.phase w = .settled u)
    (hst : σ.scheduler.statusOf u.txIdx = .executed)
    (hlate : σ.scheduler.incarnationOf u.txIdx ≠ u.txIncarnation) :
    ∃ σ', Step vm σ σ' ∧ ¬ Crew.Respects σ.crew σ'.crew := by
  have hrole : σ.crew.role w = .validator u := by
    rcases hw with hw | hw <;> simp [crew, hw, Phase.role]
  rcases hw with hw | hw
  · refine ⟨_, .tryValidationAbort hw, fun hrespects => hlate ?_⟩
    have hdone : σ.scheduler.Done u.txIdx := .inl hst
    rw [crew_move, Scheduler.tryValidationAbort_eq, if_pos hdone] at hrespects
    apply hrespects w u hrole
    · simp [Phase.role]
    · have hcrew : σ.crew.scheduler.statusOf u.txIdx = .executed := hst
      rw [hcrew]
      simp
  · refine ⟨_, .finishValidation hw, fun hrespects => hlate ?_⟩
    rw [crew_move, Phase.role_ofTask] at hrespects
    apply hrespects w u hrole
    · simp [Scheduler.finishValidation, hst, Role.ofTask]
    · have hcrew : σ.crew.scheduler.statusOf u.txIdx = .executed := hst
      rw [hcrew]
      simp [Scheduler.finishValidation, hst, Scheduler.markValidated]

lemma Step.nonempty (h : Step vm σ σ') : Nonempty W := by
  cases h <;> exact ⟨‹W›⟩

/-- A worker that finishes an execution does so by the call of the scheduler. -/
lemma Step.of_finisher (h : Step vm σ σ') {w : W} {v : TxVersion}
    (hw : σ.crew.role w = .finisher v) (hne : σ'.crew.role w ≠ .finisher v) :
    ∃ flags, σ' = σ.move w (.ofTask vm (σ.scheduler.finishExecution v flags).1)
      (σ.scheduler.finishExecution v flags).2 := by
  obtain ⟨flags, hphase⟩ := phase_of_finisher hw
  -- the worker that moves is the one that finishes
  have hmover : ∀ {w' p}, σ'.phase = Function.update σ.phase w' p → w' = w := by
    intro w' p hupdate
    by_contra hww
    apply hne
    show (σ'.phase w).role = _
    rw [hupdate, Function.update_of_ne (Ne.symm hww), hphase]
    rfl
  cases h with
  | finishExecution hstored =>
    obtain rfl := hmover rfl
    rw [hphase] at hstored
    cases hstored
    exact ⟨flags, rfl⟩
  | nextTask hw' =>
    obtain rfl := hmover rfl
    simp [hphase] at hw'
  | read hw' =>
    obtain rfl := hmover rfl
    simp [hphase] at hw'
  | retry hw' =>
    obtain rfl := hmover rfl
    simp [hphase] at hw'
  | block hw' =>
    obtain rfl := hmover rfl
    simp [hphase] at hw'
  | addDependency hw' =>
    obtain rfl := hmover rfl
    simp [hphase] at hw'
  | record hw' =>
    obtain rfl := hmover rfl
    simp [hphase] at hw'
  | storeResult hw' =>
    obtain rfl := hmover rfl
    simp [hphase] at hw'
  | validateReadLocations hw' =>
    obtain rfl := hmover rfl
    simp [hphase] at hw'
  | tryValidationAbort hw' =>
    obtain rfl := hmover rfl
    simp [hphase] at hw'
  | convertWritesToEstimates hw' =>
    obtain rfl := hmover rfl
    simp [hphase] at hw'
  | finishAbort hw' =>
    obtain rfl := hmover rfl
    simp [hphase] at hw'
  | finishValidation hw' =>
    obtain rfl := hmover rfl
    simp [hphase] at hw'

/-- An execution that is finished while a validation of an earlier incarnation is under way is at
the mercy of that validation. -/
theorem exists_late_validation (h : (system W vm n estimatedLocations).Reachable σ)
    (hstep : Step vm σ σ') (hlate : ¬ Crew.Prompt σ.crew σ'.crew) :
    ∃ σ₁ σ₂, Relation.ReflTransGen (Step vm) σ' σ₁ ∧ Step vm σ₁ σ₂ ∧
      ¬ Crew.Respects σ₁.crew σ₂.crew := by
  simp only [Crew.Prompt, not_forall, not_not] at hlate
  obtain ⟨w, v, hw, hne, w', u, hu, huv, hlt⟩ := hlate
  obtain ⟨flags, rfl⟩ := hstep.of_finisher hw hne
  have hworker : Nonempty W := ⟨w⟩
  obtain ⟨hinv, -⟩ := crew_invariant h
  have hwE : (σ.crew.role w).Executes v.txIdx := by simp [hw]
  obtain ⟨hi, -, -, -, hpark⟩ := hinv.executing_facts hwE
  have hcurrent : v.txIncarnation = σ.scheduler.incarnationOf v.txIdx :=
    congrArg TxVersion.txIncarnation ((hinv.tx _ hi).incarnation w v (.inr hw) rfl)
  have hinc := Scheduler.finishExecution_incarnationOf hi flags (hinv.tx _ hi).parkedNodup v.txIdx
  rw [if_neg (hpark _)] at hinc
  have hst := Scheduler.finishExecution_statusOf hi flags v.txIdx
  rw [if_pos rfl] at hst
  have hww : w' ≠ w := by
    rintro rfl
    rw [hw] at hu
    cases hu
  generalize hs : (σ.scheduler.finishExecution v flags).2 = s at *
  have hs' : (σ.crew.scheduler.finishExecution v flags).2 = s := hs
  rw [hs', ← huv] at hst hinc
  have hlater : s.incarnationOf u.txIdx ≠ u.txIncarnation := by
    have hcrew : σ.crew.scheduler.incarnationOf u.txIdx = v.txIncarnation := by
      rw [hcurrent, huv]
      rfl
    omega
  have hact : ∀ τ : Pexe W J κ ν ρ, τ.scheduler = s → τ.phase w' = .failed u ∨
      τ.phase w' = .settled u → ∃ σ₂, Step vm τ σ₂ ∧ ¬ Crew.Respects τ.crew σ₂.crew := by
    rintro τ rfl hτ
    exact exists_late_step hτ hst hlater
  generalize Phase.ofTask vm (σ.scheduler.finishExecution v flags).1 = p
  have hphase : (σ.move w p s).phase w' = σ.phase w' := by simp [move, hww]
  rcases phase_of_validator hu with hu | hu | hu
  · -- the reads are still to be checked
    have hcheck : Step vm (σ.move w p s) _ := .validateReadLocations (hphase.trans hu)
    obtain ⟨σ₂, hstep, hnot⟩ := hact ((σ.move w p s).move w'
      (if (σ.move w p s).mvMemory.validateReadLocations u.txIdx then .settled u else .failed u) s)
      rfl (by
        by_cases hvalid : σ.mvMemory.validateReadLocations u.txIdx = true
        · exact .inr (by simp [move, hvalid])
        · exact .inl (by simp [move, hvalid]))
    exact ⟨_, σ₂, .single hcheck, hstep, hnot⟩
  · obtain ⟨σ₂, hstep, hnot⟩ := hact (σ.move w p s) rfl (.inl (hphase.trans hu))
    exact ⟨_, σ₂, .refl, hstep, hnot⟩
  · obtain ⟨σ₂, hstep, hnot⟩ := hact (σ.move w p s) rfl (.inr (hphase.trans hu))
    exact ⟨_, σ₂, .refl, hstep, hnot⟩

/-- Along a run in which no execution is finished while a validation of an earlier incarnation is
under way, a validation changes the status of its own incarnation only; and after any other step
some run goes on to break this. -/
theorem validations_respect_incarnations :
    (∀ steps σ, (system W vm n estimatedLocations).Run steps σ →
      (∀ p ∈ steps, Crew.Prompt p.1.crew p.2.crew) →
        ∀ p ∈ steps, Crew.Respects p.1.crew p.2.crew) ∧
    ∀ σ σ', (system W vm n estimatedLocations).Reachable σ → Step vm σ σ' →
      ¬ Crew.Prompt σ.crew σ'.crew → ∃ σ₁ σ₂, Relation.ReflTransGen (Step vm) σ' σ₁ ∧
        Step vm σ₁ σ₂ ∧ ¬ Crew.Respects σ₁.crew σ₂.crew := by
  refine ⟨?_, fun σ σ' h hstep hlate => exists_late_validation h hstep hlate⟩
  have hinit : ∀ σ : Pexe W J κ ν ρ, (system W vm n estimatedLocations).init σ →
      σ.crew.Punctual := by
    intro σ hσ w u hu
    simp [crew, hσ.2.2 w, Phase.role] at hu
  have hkeep : ∀ σ σ' : Pexe W J κ ν ρ, (system W vm n estimatedLocations).Reachable σ →
      σ.crew.Punctual → Step vm σ σ' → Crew.Prompt σ.crew σ'.crew → σ'.crew.Punctual := by
    intro σ σ' hreach hpunctual hstep hprompt
    have hworker := hstep.nonempty
    have hgen := Step.crew hstep
    revert hgen hprompt
    generalize σ'.crew = τ
    intro hprompt hgen
    cases hgen with
    | refl => exact hpunctual
    | single hstep => exact hpunctual.step (crew_invariant hreach).1 hstep hprompt
  intro steps σ hrun hprompt p hp
  obtain ⟨-, hall⟩ := hrun.invariant hinit hkeep hprompt
  obtain ⟨-, hpunctual, hstep⟩ := hall p hp
  have hgen := Step.crew hstep
  revert hgen
  generalize p.2.crew = τ
  intro hgen
  cases hgen with
  | refl => exact fun w v hv hne => absurd hv hne
  | single hstep => exact hpunctual.respects hstep

/-- The phases of the machine below, told apart by their parts. -/
def Phase.parts : Phase Unit ℕ → ℕ × Option TxVersion × ℕ × FinishExecFlags
  | .polling => (0, none, 0, .empty)
  | .executing v _ => (1, some v, 0, .empty)
  | .blocked v b _ => (2, some v, b, .empty)
  | .recorded v flags result => (3, some v, result, flags)
  | .stored v flags => (4, some v, 0, flags)
  | .validating v => (5, some v, 0, .empty)
  | .failed v => (6, some v, 0, .empty)
  | .aborted v => (7, some v, 0, .empty)
  | .converted v => (8, some v, 0, .empty)
  | .settled v => (9, some v, 0, .empty)
  | .gone => (10, none, 0, .empty)

lemma Phase.parts_injective : Function.Injective Phase.parts := by
  intro p q h
  cases p <;> cases q <;> simp_all [Phase.parts]

instance : DecidableEq (Phase Unit ℕ) := Phase.parts_injective.decidableEq

/-- Transaction 1 reads the location that transaction 0 writes, and nothing else is read or written.
-/
def writeThenRead : Vm Unit ℕ ℕ ℕ where
  start _ := ()
  next v _ mem step := step =
    if v.txIdx = 1 then
      match mem.closestEntry 0 1 with
      | some (k, .data inc _) =>
        .finished (AList.singleton 0 [.mvMemory ⟨k, inc⟩]) [] .needValidation 7
      | some (_, .estimate) => .blocking 0
      | none => .finished (AList.singleton 0 [.storage]) [] .needValidation 7
    else .finished ∅ [(0, 6)] .empty 7
  blocking_lt := by
    intro v _ mem b h
    split at h
    · rename_i hv
      split at h
      · cases h
      · cases h
        omega
      · cases h
    · cases h

/-- One worker finds transaction 1 valid before transaction 0 has written. Before it says so,
another worker executes transaction 0, aborts transaction 1 and executes it again. -/
lemma exists_overtaken : ∃ σ : Pexe Bool Unit ℕ ℕ ℕ,
    (system Bool writeThenRead 2 []).Reachable σ ∧ σ.phase true = .settled ⟨1, 0⟩ ∧
      σ.scheduler.statusOf 1 = .executed ∧ σ.scheduler.incarnationOf 1 = 1 := by
  let start : Pexe Bool Unit ℕ ℕ ℕ := ⟨.new 2, fun _ => none, .new [], fun _ => .polling⟩
  have h : (system Bool writeThenRead 2 []).Reachable start := .init ⟨rfl, rfl, fun _ => rfl⟩
  have h := h.step (.nextTask (w := false)
    (by decide +kernel : (_ : Phase Unit ℕ) = .polling))
  have h := h.step (.nextTask (w := true)
    (by decide +kernel : (_ : Phase Unit ℕ) = .polling))
  have h := h.step (.record (w := true)
    (by decide +kernel : (_ : Phase Unit ℕ) = .executing ⟨1, 0⟩ ()) rfl)
  have h := h.step (.storeResult (w := true)
    (by decide +kernel : (_ : Phase Unit ℕ) = .recorded ⟨1, 0⟩ .needValidation 7))
  have h := h.step (.finishExecution (w := true)
    (by decide +kernel : (_ : Phase Unit ℕ) = .stored ⟨1, 0⟩ .needValidation))
  have h := h.step (.validateReadLocations (w := true)
    (by decide +kernel : (_ : Phase Unit ℕ) = .validating ⟨1, 0⟩))
  have h := h.step (.record (w := false)
    (by decide +kernel : (_ : Phase Unit ℕ) = .executing ⟨0, 0⟩ ()) rfl)
  have h := h.step (.storeResult (w := false)
    (by decide +kernel : (_ : Phase Unit ℕ) = .recorded ⟨0, 0⟩ .wroteNewLocation 7))
  have h := h.step (.finishExecution (w := false)
    (by decide +kernel : (_ : Phase Unit ℕ) = .stored ⟨0, 0⟩ .wroteNewLocation))
  have h := h.step (.validateReadLocations (w := false)
    (by decide +kernel : (_ : Phase Unit ℕ) = .validating ⟨0, 0⟩))
  have h := h.step (.finishValidation (w := false)
    (by decide +kernel : (_ : Phase Unit ℕ) = .settled ⟨0, 0⟩))
  have h := h.step (.nextTask (w := false)
    (by decide +kernel : (_ : Phase Unit ℕ) = .polling))
  have h := h.step (.validateReadLocations (w := false)
    (by decide +kernel : (_ : Phase Unit ℕ) = .validating ⟨1, 0⟩))
  have h := h.step (.tryValidationAbort (w := false)
    (by decide +kernel : (_ : Phase Unit ℕ) = .failed ⟨1, 0⟩))
  have h := h.step (.convertWritesToEstimates (w := false)
    (by decide +kernel : (_ : Phase Unit ℕ) = .aborted ⟨1, 0⟩))
  have h := h.step (.finishAbort (w := false)
    (by decide +kernel : (_ : Phase Unit ℕ) = .converted ⟨1, 0⟩))
  have h := h.step (.record (w := false)
    (by decide +kernel : (_ : Phase Unit ℕ) = .executing ⟨1, 1⟩ ()) rfl)
  have h := h.step (.storeResult (w := false)
    (by decide +kernel : (_ : Phase Unit ℕ) = .recorded ⟨1, 1⟩ .needValidation 7))
  have h := h.step (.finishExecution (w := false)
    (by decide +kernel : (_ : Phase Unit ℕ) = .stored ⟨1, 1⟩ .needValidation))
  exact ⟨_, h, by decide +kernel, by decide +kernel, by decide +kernel⟩

/-- The validation of the first incarnation then makes the second one validated. -/
theorem not_respects_overtaken :
    ¬ ∀ σ σ' : Pexe Bool Unit ℕ ℕ ℕ, (system Bool writeThenRead 2 []).Reachable σ →
      Step writeThenRead σ σ' → Crew.Respects σ.crew σ'.crew := by
  intro hall
  obtain ⟨σ, h, hphase, hst, hinc⟩ := exists_overtaken
  obtain ⟨σ', hstep, hnot⟩ := exists_late_step (u := ⟨1, 0⟩) (.inr hphase)
    hst (by
      rw [hinc]
      decide)
  exact hnot (hall σ σ' h hstep)

end Pexe

end Pevm
