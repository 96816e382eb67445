import Pevm.Pexe

/-!
# Stale transactions stay covered

A transaction that is done but whose read set is no longer valid is still to be
validated: the validation counter is not past it, a worker is checking it, or a worker
has changed the entries of a lower transaction and will lower the counter.

A re-execution that writes no new location lowers no counter. It is harmless because it
only replaces estimates, and no valid read set has met an estimate.
-/
namespace Pevm
open Transition

namespace Phase
variable {J ρ : Type}

/-- The entries of `i` may hold data that the scheduler does not know as done: its execution is
being finished, or its abort is on its way. -/
def HoldsData (p : Phase J ρ) (i : ℕ) : Prop :=
  ∃ v, ((∃ flags result, p = .recorded v flags result) ∨ (∃ flags, p = .stored v flags) ∨
    p = .aborted v) ∧ v.txIdx = i

/-- The report of the worker on `i` will lower the validation counter to `i + 1`. -/
def Lowers (p : Phase J ρ) (i : ℕ) : Prop :=
  ∃ v, ((∃ flags result, p = .recorded v flags result ∧
      flags.contains .wroteNewLocation = true) ∨
    (∃ flags, p = .stored v flags ∧ flags.contains .wroteNewLocation = true) ∨
    p = .converted v) ∧ v.txIdx = i

lemma Lowers.unreported {p : Phase J ρ} {i : ℕ} (h : p.Lowers i) : p.Unreported i := by
  obtain ⟨v, ⟨flags, result, hp, -⟩ | ⟨flags, hp, -⟩ | hp, hi⟩ := h
  · exact ⟨v, .inl ⟨flags, result, hp⟩, hi⟩
  · exact ⟨v, .inr (.inl ⟨flags, hp⟩), hi⟩
  · exact ⟨v, .inr (.inr hp), hi⟩

end Phase

namespace Pexe
variable {W J κ ν ρ : Type}

/-- The entries of `i` may hold data: it is done, or a worker holds it on the way there or back. -/
def Live (σ : Pexe W J κ ν ρ) (i : ℕ) : Prop :=
  σ.scheduler.Done i ∨ ∃ w, (σ.phase w).HoldsData i

/-- Something will look at the reads of `j`: the counter for validations, a worker that checks it,
or one that is about to lower the counter. -/
def Covered (σ : Pexe W J κ ν ρ) (j : ℕ) : Prop :=
  σ.scheduler.validationIdx ≤ j ∨ (∃ w, (σ.phase w).Checks j) ∨
    ∃ i < j, ∃ w, (σ.phase w).Lowers i

/-- What holds of the memory beside the scheduler between any two calls. Its last field is the
point: invalid reads of a done transaction are covered. -/
structure MemoryInvariant (σ : Pexe W J κ ν ρ) : Prop where
  written : ∀ i, ∀ l ∈ (σ.mvMemory.lastLocations i).write, σ.mvMemory.entry l i ≠ none
  listed : ∀ i l inc value, σ.mvMemory.entry l i = some (.data inc value) →
    l ∈ (σ.mvMemory.lastLocations i).write
  estimates : ∀ i < σ.scheduler.blockSize, ¬ σ.Live i →
    ∀ l e, σ.mvMemory.entry l i = some e → e = .estimate
  covered : ∀ j < σ.scheduler.blockSize, σ.scheduler.Done j →
    σ.mvMemory.validateReadLocations j = false → σ.Covered j

section Move
variable [DecidableEq W] {σ : Pexe W J κ ν ρ} {w : W} {p : Phase J ρ} {s : Scheduler}

lemma exists_phase_move {P : Phase J ρ → Prop} (h : ∃ w', P (σ.phase w')) :
    P (σ.phase w) ∨ ∃ w', P ((σ.move w p s).phase w') := by
  obtain ⟨w', hw'⟩ := h
  by_cases hww : w' = w
  · subst hww
    exact .inl hw'
  · exact .inr ⟨w', by simpa [move, hww] using hw'⟩

lemma phase_move_self : (σ.move w p s).phase w = p := by simp [move]

lemma Live.move {i : ℕ} (h : σ.Live i) (hdone : σ.scheduler.Done i → s.Done i ∨ p.HoldsData i)
    (hphase : (σ.phase w).HoldsData i → s.Done i ∨ p.HoldsData i) : (σ.move w p s).Live i := by
  have hnew : s.Done i ∨ p.HoldsData i → (σ.move w p s).Live i := by
    rintro (hd | hp)
    · exact .inl hd
    · exact .inr ⟨w, by rwa [phase_move_self]⟩
  rcases h with hd | hex
  · exact hnew (hdone hd)
  · rcases exists_phase_move (P := (Phase.HoldsData · i)) hex with hw | hex
    · exact hnew (hphase hw)
    · exact .inr hex

lemma Covered.move {j : ℕ} (h : σ.Covered j)
    (hval : σ.scheduler.validationIdx ≤ j → s.validationIdx ≤ j ∨ p.Checks j)
    (hchecks : (σ.phase w).Checks j → s.validationIdx ≤ j ∨ p.Checks j)
    (hlowers : ∀ i < j, (σ.phase w).Lowers i →
      s.validationIdx ≤ j ∨ p.Checks j ∨ p.Lowers i) : (σ.move w p s).Covered j := by
  have hnew : s.validationIdx ≤ j ∨ p.Checks j → (σ.move w p s).Covered j := by
    rintro (hle | hp)
    · exact .inl hle
    · exact .inr (.inl ⟨w, by rwa [phase_move_self]⟩)
  rcases h with hle | hex | ⟨i, hi, hex⟩
  · exact hnew (hval hle)
  · rcases exists_phase_move (P := (Phase.Checks · j)) hex with hw | hex
    · exact hnew (hchecks hw)
    · exact .inr (.inl hex)
  · rcases exists_phase_move (P := (Phase.Lowers · i)) hex with hw | hex
    · rcases hlowers i hi hw with hle | hp | hp
      · exact hnew (.inl hle)
      · exact hnew (.inr hp)
      · exact .inr (.inr ⟨i, hi, w, by rwa [phase_move_self]⟩)
    · exact .inr (.inr ⟨i, hi, hex⟩)

/-- A call that leaves the memory as it is. -/
lemma MemoryInvariant.of_move (h : MemoryInvariant σ)
    (hsize : s.blockSize = σ.scheduler.blockSize)
    (hdone : ∀ i, σ.scheduler.Done i → s.Done i ∨ p.HoldsData i)
    (hphase : ∀ i, (σ.phase w).HoldsData i → s.Done i ∨ p.HoldsData i)
    (hcovered : ∀ j < σ.scheduler.blockSize, s.Done j →
      σ.mvMemory.validateReadLocations j = false → (σ.move w p s).Covered j) :
    MemoryInvariant (σ.move w p s) where
  written := h.written
  listed := h.listed
  estimates i hi hlive :=
    h.estimates i (hsize ▸ hi) fun hl => hlive (hl.move (hdone i) (hphase i))
  covered j hj hd hv := hcovered j (hsize ▸ hj) hd hv

end Move

section Steps
variable {vm : Vm J κ ν ρ} {σ : Pexe W J κ ν ρ} {w : W} {v : TxVersion}

/-- A transaction in execution whose sets are not recorded has only estimates. -/
lemma MemoryInvariant.only_estimates (h : MemoryInvariant σ) (hc : Crew.Invariant σ.crew)
    {job : J} (hw : σ.phase w = .executing v job) :
    ∀ l e, σ.mvMemory.entry l v.txIdx = some e → e = .estimate := by
  have hwE : (σ.crew.role w).Executes v.txIdx := by simp [crew, hw, Phase.role]
  obtain ⟨hi, hst, honly, haborts, -⟩ := hc.executing_facts hwE
  have hst' : σ.scheduler.statusOf v.txIdx = .executing := hst
  apply h.estimates v.txIdx hi
  rintro (hd | ⟨w', v', hphase, hv'⟩)
  · rcases hd with hd | hd <;> simp [hst'] at hd
  · rcases hphase with ⟨flags, result, hphase⟩ | ⟨flags, hphase⟩ | hphase
    · have hww : w' = w := honly w' (by simp [crew, hphase, Phase.role, hv'])
      rw [hww, hw] at hphase
      cases hphase
    · have hww : w' = w := honly w' (by simp [crew, hphase, Phase.role, hv'])
      rw [hww, hw] at hphase
      cases hphase
    · exact haborts w' (by simp [crew, hphase, Phase.role, hv'])

variable [DecidableEq W]

lemma MemoryInvariant.nextTask (h : MemoryInvariant σ) (hw : σ.phase w = .polling) :
    MemoryInvariant (σ.move w (.ofPoll vm σ.scheduler.poll.1) σ.scheduler.poll.2) := by
  have hspec := σ.scheduler.poll_spec
  apply h.of_move hspec.blockSize
  · exact fun i hd => .inl ((hspec.done i).mpr hd)
  · simp [hw, Phase.HoldsData]
  · intro j hj hd hv
    have hdone := (hspec.done j).mp hd
    apply (h.covered j hj hdone hv).move
    · intro hle
      rcases hspec.validationIdx hdone hle with hle | htask
      · exact .inl hle
      · right
        rw [htask]
        exact ⟨_, .inl rfl, rfl⟩
    · simp [hw, Phase.Checks]
    · simp [hw, Phase.Lowers]

/-- A worker goes on executing. -/
lemma MemoryInvariant.execute (h : MemoryInvariant σ) {p : Phase J ρ}
    (hwD : ∀ i, ¬ (σ.phase w).HoldsData i) (hwC : ∀ i, ¬ (σ.phase w).Checks i)
    (hwL : ∀ i, ¬ (σ.phase w).Lowers i) : MemoryInvariant (σ.move w p σ.scheduler) := by
  apply h.of_move rfl
  · exact fun i hd => .inl hd
  · exact fun i hi => absurd hi (hwD i)
  · intro j hj hd hv
    apply (h.covered j hj hd hv).move
    · exact .inl
    · exact fun hc => absurd hc (hwC j)
    · exact fun i _ hl => absurd hl (hwL i)

lemma MemoryInvariant.addDependency (h : MemoryInvariant σ) (hc : Crew.Invariant σ.crew) {b : ℕ}
    {lower : b < v.txIdx} (hw : σ.phase w = .blocked v b lower) :
    MemoryInvariant (σ.move w
      (if (σ.scheduler.addDependency v.txIdx b).1 then .polling else .executing v (vm.start v))
      (σ.scheduler.addDependency v.txIdx b).2) := by
  have hwE : (σ.crew.role w).Executes v.txIdx := by simp [crew, hw, Phase.role]
  have hst : σ.scheduler.statusOf v.txIdx = .executing := (hc.executing_facts hwE).2.1
  rw [Scheduler.addDependency_eq]
  by_cases hdone : σ.scheduler.Done b
  · rw [if_pos hdone]
    apply h.execute
    · simp [hw, Phase.HoldsData]
    · simp [hw, Phase.Checks]
    · simp [hw, Phase.Lowers]
  · rw [if_neg hdone]
    apply h.of_move
    · rfl
    · intro i hd
      have hne : i ≠ v.txIdx := by
        rintro rfl
        rcases hd with hd | hd <;> simp [hd] at hst
      left
      simpa [Scheduler.Done, hne] using hd
    · simp [hw, Phase.HoldsData]
    · intro j hj hd hv
      have hold : σ.scheduler.Done j := Scheduler.Done.of_setStatus (by simp) (by simp) hd
      apply (h.covered j hj hold hv).move
      · exact .inl
      · simp [hw, Phase.Checks]
      · simp [hw, Phase.Lowers]

lemma MemoryInvariant.storeResult (h : MemoryInvariant σ) {flags : FinishExecFlags} {result : ρ}
    (hw : σ.phase w = .recorded v flags result) :
    MemoryInvariant ({ σ with
      executionResults := Function.update σ.executionResults v.txIdx (some result) }.move w
        (.stored v flags) σ.scheduler) := by
  have hmove : MemoryInvariant (σ.move w (.stored v flags) σ.scheduler) := by
    apply h.of_move rfl
    · exact fun i hd => .inl hd
    · simp [hw, Phase.HoldsData]
    · intro j hj hd hv
      apply (h.covered j hj hd hv).move
      · exact .inl
      · simp [hw, Phase.Checks]
      · intro i _ hl
        right; right
        simpa [hw, Phase.Lowers] using hl
  exact ⟨hmove.written, hmove.listed, hmove.estimates, hmove.covered⟩

lemma MemoryInvariant.finishExecution (h : MemoryInvariant σ) (hc : Crew.Invariant σ.crew)
    {flags : FinishExecFlags} (hw : σ.phase w = .stored v flags) :
    MemoryInvariant (σ.move w (.ofTask vm (σ.scheduler.finishExecution v flags).1)
      (σ.scheduler.finishExecution v flags).2) := by
  have hwE : (σ.crew.role w).Executes v.txIdx := by simp [crew, hw, Phase.role]
  have hi : v.txIdx < σ.scheduler.blockSize := (hc.executing_facts hwE).1
  have hstatus := Scheduler.finishExecution_statusOf hi flags
  have hval := Scheduler.finishExecution_validationIdx hi flags
  have htask := Scheduler.finishExecution_task hi flags
  have hparked : ∀ i ∈ σ.scheduler.transactionsDependents v.txIdx,
      σ.scheduler.statusOf i = .aborting := fun i hmem =>
    ((hc.tx i (hc.parkedBound _ i hmem)).parked _ hmem).2.1
  have hdone : ∀ i, (σ.scheduler.finishExecution v flags).2.Done i ↔
      σ.scheduler.Done i ∨ i = v.txIdx := by
    intro i
    simp only [Scheduler.Done, hstatus]
    by_cases hiv : i = v.txIdx
    · simp [hiv]
    · by_cases hmem : i ∈ σ.scheduler.transactionsDependents v.txIdx
      · simp [hiv, hmem, hparked i hmem]
      · simp [hiv, hmem]
  apply h.of_move (Scheduler.finishExecution_blockSize hi flags).1
  · exact fun i hd => .inl ((hdone i).mpr (.inl hd))
  · intro i hd
    have hiv : v.txIdx = i := by simpa [hw, Phase.HoldsData] using hd
    exact .inl ((hdone i).mpr (.inr hiv.symm))
  · intro j hj hd hv
    rcases (hdone j).mp hd with hd | rfl
    · apply (h.covered j hj hd hv).move
      · intro hle
        left
        rw [hval]
        split_ifs <;> omega
      · simp [hw, Phase.Checks]
      · intro i hij hl
        obtain ⟨rfl, hflag⟩ : v.txIdx = i ∧ flags.contains .wroteNewLocation = true := by
          simpa [hw, Phase.Lowers, and_comm] using hl
        left
        rw [hval]
        simp only [hflag, and_true]
        split_ifs <;> omega
    · by_cases hlt : v.txIdx < σ.scheduler.validationIdx
      · refine .inr (.inl ⟨w, ?_⟩)
        rw [phase_move_self, htask, if_pos hlt]
        exact ⟨v, .inl rfl, rfl⟩
      · left
        change (σ.scheduler.finishExecution v flags).2.validationIdx ≤ v.txIdx
        rw [hval]
        simp only [hlt, false_and, if_false]
        omega

lemma MemoryInvariant.validateReadLocations (h : MemoryInvariant σ)
    (hw : σ.phase w = .validating v) :
    MemoryInvariant (σ.move w
      (if σ.mvMemory.validateReadLocations v.txIdx then .settled v else .failed v)
      σ.scheduler) := by
  apply h.of_move rfl
  · exact fun i hd => .inl hd
  · simp [hw, Phase.HoldsData]
  · intro j hj hd hv
    apply (h.covered j hj hd hv).move
    · exact .inl
    · intro hcheck
      have hvj : v.txIdx = j := by simpa [hw, Phase.Checks] using hcheck
      right
      rw [hvj, hv]
      exact ⟨v, .inr rfl, hvj⟩
    · simp [hw, Phase.Lowers]

lemma MemoryInvariant.tryValidationAbort (h : MemoryInvariant σ) (hw : σ.phase w = .failed v) :
    MemoryInvariant (σ.move w
      (if (σ.scheduler.tryValidationAbort v).1 then .aborted v else .settled v)
      (σ.scheduler.tryValidationAbort v).2) := by
  rw [Scheduler.tryValidationAbort_eq]
  by_cases hdone : σ.scheduler.Done v.txIdx
  · rw [if_pos hdone]
    have hother : ∀ {i}, i ≠ v.txIdx → ∀ k,
        (((σ.scheduler.setStatus v.txIdx .aborting).withNumValidated k).Done i ↔
          σ.scheduler.Done i) := by
      intro i hne k
      simp [Scheduler.Done, hne]
    apply h.of_move
    · rfl
    · intro i hd
      by_cases hiv : i = v.txIdx
      · exact .inr ⟨v, .inr (.inr rfl), hiv.symm⟩
      · exact .inl ((hother hiv _).mpr hd)
    · simp [hw, Phase.HoldsData]
    · intro j hj hd hv
      have hne : j ≠ v.txIdx := by
        rintro rfl
        simp [Scheduler.Done] at hd
      apply (h.covered j hj ((hother hne _).mp hd) hv).move
      · exact .inl
      · intro hcheck
        have hvj : v.txIdx = j := by simpa [hw, Phase.Checks] using hcheck
        exact absurd hvj.symm hne
      · simp [hw, Phase.Lowers]
  · rw [if_neg hdone]
    apply h.of_move rfl
    · exact fun i hd => .inl hd
    · simp [hw, Phase.HoldsData]
    · intro j hj hd hv
      apply (h.covered j hj hd hv).move
      · exact .inl
      · intro hcheck
        have hvj : v.txIdx = j := by simpa [hw, Phase.Checks] using hcheck
        rw [hvj] at hdone
        exact absurd hd hdone
      · simp [hw, Phase.Lowers]

lemma MemoryInvariant.finishAbort (h : MemoryInvariant σ) (hc : Crew.Invariant σ.crew)
    (hw : σ.phase w = .converted v) :
    MemoryInvariant (σ.move w (.ofTask vm (σ.scheduler.finishValidation v true).1)
      (σ.scheduler.finishValidation v true).2) := by
  have hwA : (σ.crew.role w).Aborts v.txIdx := by simp [crew, hw, Phase.role]
  have hi : v.txIdx < σ.scheduler.blockSize := (hc.aborting_facts hwA).1
  have hst : σ.scheduler.statusOf v.txIdx = .aborting := (hc.aborting_facts hwA).2.1
  have hspec : ∀ j, ((σ.scheduler.finishValidation v true).2.Done j ↔ σ.scheduler.Done j) := by
    intro j
    rw [Scheduler.finishValidation_true v hi]
    by_cases hjv : j = v.txIdx
    · subst hjv
      dsimp only
      split_ifs <;> simp [Scheduler.Done, hst]
    · dsimp only
      split_ifs <;> simp [Scheduler.Done, hjv]
  have hval : (σ.scheduler.finishValidation v true).2.validationIdx =
      min σ.scheduler.validationIdx (v.txIdx + 1) := by
    rw [Scheduler.finishValidation_true v hi]
    dsimp only
    split_ifs <;> rfl
  have hsize : (σ.scheduler.finishValidation v true).2.blockSize = σ.scheduler.blockSize := by
    rw [Scheduler.finishValidation_true v hi]
    dsimp only
    split_ifs <;> rfl
  apply h.of_move hsize
  · exact fun i hd => .inl ((hspec i).mpr hd)
  · simp [hw, Phase.HoldsData]
  · intro j hj hd hv
    apply (h.covered j hj ((hspec j).mp hd) hv).move
    · intro hle
      left
      omega
    · simp [hw, Phase.Checks]
    · intro i hij hl
      have hvi : v.txIdx = i := by simpa [hw, Phase.Lowers] using hl
      left
      omega

lemma MemoryInvariant.finishValidation (h : MemoryInvariant σ) (hw : σ.phase w = .settled v) :
    MemoryInvariant (σ.move w (.ofTask vm (σ.scheduler.finishValidation v false).1)
      (σ.scheduler.finishValidation v false).2) := by
  have hfields : (σ.scheduler.finishValidation v false).2.blockSize = σ.scheduler.blockSize ∧
      (σ.scheduler.finishValidation v false).2.validationIdx = σ.scheduler.validationIdx := by
    simp only [Scheduler.finishValidation, Bool.false_eq_true, if_false]
    split_ifs <;> exact ⟨rfl, rfl⟩
  apply h.of_move hfields.1
  · exact fun i hd => .inl ((Scheduler.finishValidation_false_done v i).mpr hd)
  · simp [hw, Phase.HoldsData]
  · intro j hj hd hv
    apply (h.covered j hj ((Scheduler.finishValidation_false_done v j).mp hd) hv).move
    · intro hle
      left
      rw [hfields.2]
      exact hle
    · simp [hw, Phase.Checks]
    · simp [hw, Phase.Lowers]

variable [DecidableEq κ]

omit [DecidableEq W] [DecidableEq κ] in
/-- While a transaction is in execution, what it wrote before stands as estimates. -/
lemma MemoryInvariant.estimate_of_mem (h : MemoryInvariant σ) (hc : Crew.Invariant σ.crew) {job : J}
    (hw : σ.phase w = .executing v job) {l : κ}
    (hl : l ∈ (σ.mvMemory.lastLocations v.txIdx).write) :
    σ.mvMemory.entry l v.txIdx = some .estimate := by
  cases he : σ.mvMemory.entry l v.txIdx with
  | none => exact absurd he (h.written _ l hl)
  | some e => rw [h.only_estimates hc hw l e he]

omit [DecidableEq W] in
/-- The read sets that a record makes invalid are those of higher transactions, and then it wrote
a new location. -/
lemma MemoryInvariant.record_invalid (h : MemoryInvariant σ) (hc : Crew.Invariant σ.crew) {job : J}
    (hw : σ.phase w = .executing v job) (readSet : ReadSet κ) (writeSet : WriteSet κ ν) {j : ℕ}
    (hjv : j ≠ v.txIdx)
    (hv : (σ.mvMemory.record v readSet writeSet).2.validateReadLocations j = false) :
    σ.mvMemory.validateReadLocations j = false ∨
      v.txIdx < j ∧ (σ.mvMemory.record v readSet writeSet).1 = true := by
  by_cases hvalid : σ.mvMemory.validateReadLocations j = true
  · right
    constructor
    · by_contra hge
      have hlt : j < v.txIdx := by omega
      have hkept := MvMemory.validate_record_of_lt hlt readSet writeSet hvalid
      rw [hv] at hkept
      cases hkept
    · by_contra hnew
      have hkept := MvMemory.validate_record_of_not_new hjv readSet writeSet
        (by simpa using hnew) (fun l hl => h.estimate_of_mem hc hw hl) hvalid
      rw [hv] at hkept
      cases hkept
  · left
    simpa using hvalid

lemma MemoryInvariant.record (h : MemoryInvariant σ) (hc : Crew.Invariant σ.crew) {job : J}
    (hw : σ.phase w = .executing v job) (readSet : ReadSet κ) (writeSet : WriteSet κ ν)
    (flags : FinishExecFlags) (result : ρ) :
    MemoryInvariant ({ σ with mvMemory := (σ.mvMemory.record v readSet writeSet).2 }.move w
      (.recorded v (σ.recordFlags v readSet writeSet flags) result) σ.scheduler) := by
  have hwE : (σ.crew.role w).Executes v.txIdx := by simp [crew, hw, Phase.role]
  have hst : σ.scheduler.statusOf v.txIdx = .executing := (hc.executing_facts hwE).2.1
  constructor
  case written =>
    intro i l hl
    change l ∈ ((σ.mvMemory.record v readSet writeSet).2.lastLocations i).write at hl
    change (σ.mvMemory.record v readSet writeSet).2.entry l i ≠ none
    rw [MvMemory.record_entry]
    by_cases hiv : i = v.txIdx
    · subst hiv
      rw [MvMemory.record_write] at hl
      rw [if_pos rfl]
      cases hwl : MvMemory.written writeSet l with
      | none => exact absurd hwl hl
      | some value => simp
    · rw [MvMemory.record_lastLocations_of_ne _ _ _ _ hiv] at hl
      rw [if_neg hiv]
      exact h.written i l hl
  case listed =>
    intro i l inc value he
    change (σ.mvMemory.record v readSet writeSet).2.entry l i = _ at he
    change l ∈ ((σ.mvMemory.record v readSet writeSet).2.lastLocations i).write
    rw [MvMemory.record_entry] at he
    by_cases hiv : i = v.txIdx
    · subst hiv
      rw [MvMemory.record_write]
      intro hnone
      rw [if_pos rfl, hnone] at he
      dsimp only at he
      split_ifs at he
      have hest := h.only_estimates hc hw l _ he
      cases hest
    · rw [if_neg hiv] at he
      rw [MvMemory.record_lastLocations_of_ne _ _ _ _ hiv]
      exact h.listed i l inc value he
  case estimates =>
    intro i hi hlive l e he
    change (σ.mvMemory.record v readSet writeSet).2.entry l i = _ at he
    have hiv : i ≠ v.txIdx := by
      rintro rfl
      exact hlive (.inr ⟨w, by rw [phase_move_self]; exact ⟨v, .inl ⟨_, _, rfl⟩, rfl⟩⟩)
    rw [MvMemory.record_entry_of_ne _ hiv] at he
    refine h.estimates i hi (fun hl => hlive ?_) l e he
    have hmove : (σ.move w (.recorded v (σ.recordFlags v readSet writeSet flags) result)
        σ.scheduler).Live i := by
      apply hl.move
      · exact .inl
      · simp [hw, Phase.HoldsData]
    exact hmove
  case covered =>
    intro j hj hd hv
    change (σ.mvMemory.record v readSet writeSet).2.validateReadLocations j = false at hv
    have hdone : σ.scheduler.Done j := hd
    have hjv : j ≠ v.txIdx := by
      rintro rfl
      rcases hdone with hd | hd <;> simp [hst] at hd
    rcases h.record_invalid hc hw readSet writeSet hjv hv with hold | ⟨hlt, hnew⟩
    · -- what was covered before stays so
      have hmove : (σ.move w (.recorded v (σ.recordFlags v readSet writeSet flags) result)
          σ.scheduler).Covered j := by
        apply (h.covered j hj hdone hold).move
        · exact .inl
        · simp [hw, Phase.Checks]
        · simp [hw, Phase.Lowers]
      exact hmove
    · refine .inr (.inr ⟨v.txIdx, hlt, w, ?_⟩)
      rw [phase_move_self]
      refine ⟨v, .inl ⟨_, result, rfl, ?_⟩, rfl⟩
      simp [recordFlags, hnew]

lemma MemoryInvariant.convertWritesToEstimates (h : MemoryInvariant σ)
    (hc : Crew.Invariant σ.crew) (hw : σ.phase w = .aborted v) :
    MemoryInvariant ({ σ with
      mvMemory := σ.mvMemory.convertWritesToEstimates v.txIdx }.move w (.converted v)
        σ.scheduler) := by
  have hwA : (σ.crew.role w).Aborts v.txIdx := by simp [crew, hw, Phase.role]
  have hst : σ.scheduler.statusOf v.txIdx = .aborting := (hc.aborting_facts hwA).2.1
  constructor
  case written =>
    intro i l hl
    change (σ.mvMemory.convertWritesToEstimates v.txIdx).entry l i ≠ none
    rw [MvMemory.convert_entry]
    split_ifs
    · simp
    · exact h.written i l hl
  case listed =>
    intro i l inc value he
    change (σ.mvMemory.convertWritesToEstimates v.txIdx).entry l i = _ at he
    rw [MvMemory.convert_entry] at he
    split_ifs at he
    · cases he
    · exact h.listed i l inc value he
  case estimates =>
    intro i hi hlive l e he
    change (σ.mvMemory.convertWritesToEstimates v.txIdx).entry l i = _ at he
    rw [MvMemory.convert_entry] at he
    split_ifs at he with hconv
    · cases he
      rfl
    · by_cases hiv : i = v.txIdx
      · subst hiv
        cases e with
        | estimate => rfl
        | data inc value =>
          -- data entries are listed, so they have been turned into estimates
          obtain ⟨m, hm, -⟩ := σ.mvMemory.data_of_entry he
          exact absurd ⟨rfl, h.listed _ l inc value he, by simp [hm]⟩ hconv
      · refine h.estimates i hi (fun hl => hlive ?_) l e he
        have hmove : (σ.move w (.converted v) σ.scheduler).Live i := by
          apply hl.move
          · exact .inl
          · intro hp
            have hvi : v.txIdx = i := by simpa [hw, Phase.HoldsData] using hp
            exact absurd hvi.symm hiv
        exact hmove
  case covered =>
    intro j hj hd hv
    change (σ.mvMemory.convertWritesToEstimates v.txIdx).validateReadLocations j = false at hv
    have hdone : σ.scheduler.Done j := hd
    have hjv : j ≠ v.txIdx := by
      rintro rfl
      rcases hdone with hd | hd <;> simp [hst] at hd
    by_cases hlt : v.txIdx < j
    · refine .inr (.inr ⟨v.txIdx, hlt, w, ?_⟩)
      rw [phase_move_self]
      exact ⟨v, .inr (.inr rfl), rfl⟩
    · have hold : σ.mvMemory.validateReadLocations j = false := by
        by_contra hvalid
        have hkept := MvMemory.validate_convert_of_lt (i := v.txIdx) (by omega)
          (by simpa using hvalid : σ.mvMemory.validateReadLocations j = true)
        rw [hv] at hkept
        cases hkept
      have hmove : (σ.move w (.converted v) σ.scheduler).Covered j := by
        apply (h.covered j hj hdone hold).move
        · exact .inl
        · simp [hw, Phase.Checks]
        · simp [hw, Phase.Lowers]
      exact hmove

lemma MemoryInvariant.step (h : MemoryInvariant σ) (hc : Crew.Invariant σ.crew)
    {σ' : Pexe W J κ ν ρ} (hs : Step vm σ σ') : MemoryInvariant σ' := by
  cases hs with
  | nextTask hw => exact h.nextTask hw
  | read hw _ | retry hw _ | block hw _ =>
    apply h.execute
    · simp [hw, Phase.HoldsData]
    · simp [hw, Phase.Checks]
    · simp [hw, Phase.Lowers]
  | addDependency hw => exact h.addDependency hc hw
  | record hw _ => exact h.record hc hw _ _ _ _
  | storeResult hw => exact h.storeResult hw
  | finishExecution hw => exact h.finishExecution hc hw
  | validateReadLocations hw => exact h.validateReadLocations hw
  | tryValidationAbort hw => exact h.tryValidationAbort hw
  | convertWritesToEstimates hw => exact h.convertWritesToEstimates hc hw
  | finishAbort hw => exact h.finishAbort hc hw
  | finishValidation hw => exact h.finishValidation hw

end Steps

section Runs
variable [DecidableEq W] [DecidableEq κ] {vm : Vm J κ ν ρ} {n : ℕ}
  {estimatedLocations : List (κ × List ℕ)} {σ : Pexe W J κ ν ρ}

lemma MemoryInvariant.init (h : (system W vm n estimatedLocations).init σ) :
    MemoryInvariant σ := by
  obtain ⟨hscheduler, hmem, -⟩ := h
  constructor
  case written =>
    intro i l hl
    simp [hmem, MvMemory.new] at hl
  case listed =>
    intro i l inc value he
    rw [hmem] at he
    have hest := MvMemory.new_entry he
    cases hest
  case estimates =>
    intro i _ _ l e he
    rw [hmem] at he
    exact MvMemory.new_entry he
  case covered =>
    intro j hj hd _
    have hidle : ¬ σ.scheduler.Done j := by
      rw [hscheduler]
      simp [Scheduler.Done, Scheduler.new, Scheduler.statusOf]
    exact absurd hd hidle

variable [Nonempty W]

lemma crew_invariant (h : (system W vm n estimatedLocations).Reachable σ) :
    Crew.Invariant σ.crew ∧ σ.scheduler.blockSize = n :=
  Crew.Invariant.of_reachable ((abstraction vm n estimatedLocations).reachable h)

theorem MemoryInvariant.of_reachable (h : (system W vm n estimatedLocations).Reachable σ) :
    MemoryInvariant σ := by
  apply h.invariant (P := MemoryInvariant)
  · exact fun σ hσ => MemoryInvariant.init hσ
  · exact fun σ σ' hr hinv hs => hinv.step (crew_invariant hr).1 hs

/-- A done transaction whose read set fails the check is still to be validated: the validation
counter is not past it, a worker is about to check it, or a worker is going to report a lower
execution. This holds in every reachable state, between the calls of the workers. -/
theorem stale_is_covered (h : (system W vm n estimatedLocations).Reachable σ) {j : ℕ}
    (hj : j < n) (hdone : σ.scheduler.Done j)
    (hstale : σ.mvMemory.validateReadLocations j = false) :
    σ.scheduler.validationIdx ≤ j ∨ (∃ w, (σ.phase w).Checks j) ∨
      ∃ i < j, ∃ w, (σ.phase w).Unreported i := by
  have hsize := (crew_invariant h).2
  rcases (MemoryInvariant.of_reachable h).covered j (hsize ▸ hj) hdone hstale with
    hle | hchecks | ⟨i, hi, w, hw⟩
  · exact .inl hle
  · exact .inr (.inl hchecks)
  · exact .inr (.inr ⟨i, hi, w, hw.unreported⟩)

/-- Transaction 1 reads from the storage the location that transaction 0 writes. -/
def writeBehindRead : Vm Unit ℕ ℕ ℕ where
  start _ := ()
  next v _ _ step := step = .finished (if v.txIdx = 1 then AList.singleton 0 [.storage] else ∅)
    (if v.txIdx = 0 then [(0, 5)] else []) .empty 7
  blocking_lt v _ _ b h := by cases h

/-- The first of two workers records transaction 0 after the second has finished
transaction 1. -/
theorem stale_is_covered_writeBehindRead :
    ∃ σ : Pexe Bool Unit ℕ ℕ ℕ, (system Bool writeBehindRead 2 []).Reachable σ ∧
      σ.scheduler.Done 1 ∧ σ.mvMemory.validateReadLocations 1 = false ∧
      (σ.scheduler.validationIdx ≤ 1 ∨ (∃ w, (σ.phase w).Checks 1) ∨
        ∃ i < 1, ∃ w, (σ.phase w).Unreported i) := by
  let start : Pexe Bool Unit ℕ ℕ ℕ := ⟨.new 2, fun _ => none, .new [], fun _ => .polling⟩
  have hstart : (system Bool writeBehindRead 2 []).Reachable start :=
    .init ⟨rfl, rfl, fun _ => rfl⟩
  have hfirst := hstart.step (.nextTask (w := false) rfl)
  have hsecond := hfirst.step (.nextTask (w := true) rfl)
  have hread := hsecond.step (.record (w := true) (v := ⟨1, 0⟩) rfl rfl)
  have hstored := hread.step (.storeResult (w := true) (v := ⟨1, 0⟩) rfl)
  have hfinished := hstored.step (.finishExecution (w := true) (v := ⟨1, 0⟩) rfl)
  have hwritten := hfinished.step (.record (w := false) (v := ⟨0, 0⟩) rfl rfl)
  exact ⟨_, hwritten, by decide, by decide, stale_is_covered hwritten (by decide) (by decide)
    (by decide)⟩

end Runs

end Pexe

end Pevm
