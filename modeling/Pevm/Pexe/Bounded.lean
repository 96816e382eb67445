import Pevm.Pexe.Chronicle
import Pevm.Pexe.Restarts
import Pevm.Scheduler.Polls

/-!
# How often a transaction is executed

While nothing below a transaction is touched, an execution of it that has started comes to reads
that stay valid, and every failed check of an older version costs one start at most. So what is
touched below pays for the starts, and the starts of a transaction are bounded, whatever the
workers do and in whatever order.
-/
namespace Pevm
open Transition TransitionSystem

section Machine
variable {J κ ν ρ : Type}

/-- An execution that is on course stays so while nothing below changes. It never starts over,
waits for estimates only, and ends with valid reads. -/
structure Vm.Steers [DecidableEq κ] (vm : Vm J κ ν ρ) (blockSize : ℕ) (locations : Set κ)
    (OnCourse : MvMemory κ ν → TxVersion → J → Prop) : Prop where
  start : ∀ mem v, v.txIdx < blockSize → OnCourse mem v (vm.start v)
  congr : ∀ mem mem' v job, (∀ l, ∀ i < v.txIdx, mem'.entry l i = mem.entry l i) →
    OnCourse mem v job → OnCourse mem' v job
  running : ∀ mem v job job', OnCourse mem v job → vm.next v job mem (.running job') →
    OnCourse mem v job' ∧ job' ≠ vm.start v
  retry : ∀ mem v job, OnCourse mem v job → ¬ vm.next v job mem .retry
  blocking : ∀ mem v job b, OnCourse mem v job → vm.next v job mem (.blocking b) →
    ∃ l ∈ locations, mem.entry l b = some .estimate
  finished : ∀ mem v job readSet writeSet flags result, OnCourse mem v job →
    vm.next v job mem (.finished readSet writeSet flags result) →
    (mem.record v readSet writeSet).2.validateReadLocations v.txIdx = true

/-- Whoever is expected to write to one of the locations always does, so no estimate there outlives
the execution it stands for. -/
def Vm.KeepsUp [DecidableEq κ] (vm : Vm J κ ν ρ) (estimatedLocations : List (κ × List ℕ))
    (locations : Set κ) : Prop :=
  ∀ v job mem readSet writeSet flags result,
    vm.next v job mem (.finished readSet writeSet flags result) → ∀ l ∈ locations,
      (MvMemory.new estimatedLocations : MvMemory κ ν).entry l v.txIdx ≠ none →
        MvMemory.written writeSet l ≠ none

end Machine

namespace MvMemory
variable {κ ν : Type} [DecidableEq κ] {mem : MvMemory κ ν} {j : ℕ}

/-- The estimates of a transaction leave its own read set valid. -/
lemma validate_convert_self (h : mem.validateReadLocations j = true) :
    (mem.convertWritesToEstimates j).validateReadLocations j = true := by
  rw [validateReadLocations_iff] at h ⊢
  rw [convert_lastLocations]
  intro e he
  have hloc := h e he
  unfold validateLocation at hloc ⊢
  rw [convert_data]
  split_ifs
  · cases hd : mem.data e.1 with
    | none => simpa [hd] using hloc
    | some m =>
      rw [hd] at hloc
      dsimp only [Option.map_some] at hloc ⊢
      rw [← hloc]
      apply originsMatch_congr
      intro k hk
      rw [Function.update_of_ne hk.ne]
  · exact hloc

end MvMemory

namespace Pexe
variable {W J κ ν ρ : Type} [DecidableEq κ] {vm : Vm J κ ν ρ} {n : ℕ}
  {estimatedLocations : List (κ × List ℕ)} {locations : Set κ}
  {OnCourse : MvMemory κ ν → TxVersion → J → Prop} {σ σ' : Pexe W J κ ν ρ} {w : W} {j : ℕ}
  {mem mem' : MvMemory κ ν} {p : Phase J ρ}

/-- The worker is not going to find that its execution of `j` has been in vain. -/
def PhaseOnCourse (locations : Set κ) (OnCourse : MvMemory κ ν → TxVersion → J → Prop)
    (mem : MvMemory κ ν) (j : ℕ) : Phase J ρ → Prop
  | .executing v job => v.txIdx = j → OnCourse mem v job
  | .blocked v b _ => v.txIdx = j → ∃ l ∈ locations, mem.entry l b = some .estimate
  | .recorded v _ _ | .stored v _ => v.txIdx = j → mem.validateReadLocations j = true
  | .polling | .validating _ | .failed _ | .aborted _ | .converted _ | .settled _ | .gone => True

/-- Nothing below `j` has been touched since `j` started last: its reads hold, or it waits for an
estimate. -/
structure Undisturbed (locations : Set κ) (OnCourse : MvMemory κ ν → TxVersion → J → Prop) (j : ℕ)
    (σ : Pexe W J κ ν ρ) : Prop where
  phases : ∀ w, PhaseOnCourse locations OnCourse σ.mvMemory j (σ.phase w)
  parked : ∀ b, j ∈ σ.scheduler.transactionsDependents b →
    ∃ l ∈ locations, σ.mvMemory.entry l b = some .estimate
  done : σ.scheduler.Done j → σ.mvMemory.validateReadLocations j = true

/-- How often the worker can still make `j` start, from where it stands. -/
def toll (mem : MvMemory κ ν) (j : ℕ) : Phase J ρ → ℕ
  | .validating v => if v.txIdx = j ∧ mem.validateReadLocations j = false then 1 else 0
  | .failed v | .aborted v | .converted v => if v.txIdx = j then 1 else 0
  | .polling | .executing _ _ | .blocked _ _ _ | .recorded _ _ _ | .stored _ _ | .settled _
  | .gone => 0

/-- No estimate is left where an execution stands. -/
lemma Chronicle.no_estimate (hkeeps : vm.KeepsUp estimatedLocations locations)
    {log : TxVersion → Option (Execution J κ ν ρ)}
    (h : Chronicle vm (.new estimatedLocations) log σ) {b : ℕ} {result : ρ}
    (hkept : Kept (.new estimatedLocations) log σ.mvMemory b result) {l : κ}
    (hl : l ∈ locations) : σ.mvMemory.entry l b ≠ some .estimate := by
  intro hentry
  obtain ⟨v, e, rfl, hv, -, hstands⟩ := hkept
  cases hwritten : MvMemory.written e.writeSet l with
  | some x => simp [hstands.written l x hwritten] at hentry
  | none =>
    have hinitial := hstands.others l _ hwritten hentry
    exact hkeeps v _ _ _ _ _ _ (h.sound v e hv) l hl (by simp [hinitial]) hwritten

section Phases

omit [DecidableEq κ] in
lemma toll_le_one (p : Phase J ρ) : toll mem j p ≤ 1 := by
  cases p with
  | validating | failed | aborted | converted =>
    simp only [toll]
    split_ifs <;> simp
  | polling | executing | blocked | recorded | stored | settled | gone => exact Nat.zero_le _

omit [DecidableEq κ] in
lemma toll_mono (hvalid : mem.validateReadLocations j = true → mem'.validateReadLocations j = true)
    (p : Phase J ρ) : toll mem' j p ≤ toll mem j p := by
  cases p with
  | validating v =>
    simp only [toll]
    split_ifs with hinvalid hold
    · exact le_rfl
    · have hold' : mem.validateReadLocations j = true := by
        by_contra hnot
        exact hold ⟨hinvalid.1, by simpa using hnot⟩
      simp [hvalid hold'] at hinvalid
    · exact Nat.zero_le _
    · exact le_rfl
  | polling | executing | blocked | recorded | stored | failed | aborted | converted | settled
  | gone => exact le_rfl

lemma PhaseOnCourse.mono (hsteers : vm.Steers n locations OnCourse)
    (hentries : ∀ l, ∀ i < j, mem'.entry l i = mem.entry l i)
    (hvalid : mem.validateReadLocations j = true → mem'.validateReadLocations j = true)
    (h : PhaseOnCourse locations OnCourse mem j p) :
    PhaseOnCourse locations OnCourse mem' j p := by
  cases p with
  | executing v job =>
    rintro rfl
    exact hsteers.congr _ _ _ _ hentries (h rfl)
  | blocked v b lower =>
    rintro rfl
    obtain ⟨l, hl, hestimate⟩ := h rfl
    exact ⟨l, hl, (hentries l b lower).trans hestimate⟩
  | recorded | stored => exact fun hv => hvalid (h hv)
  | polling | validating | failed | aborted | converted | settled | gone => trivial

end Phases

section Load
variable [Fintype W]

/-- How often `j` can still start while it is undisturbed: at most once for itself and once for each
worker. -/
noncomputable def load (j : ℕ) (σ : Pexe W J κ ν ρ) : ℕ :=
  tally (σ.scheduler.statusOf j = .readyToExecute) + ∑ w, toll σ.mvMemory j (σ.phase w)

variable [DecidableEq W]

/-- What remains to be said of a call to one worker: what it reads is on course, and a start is paid
for. -/
structure Charged (vm : Vm J κ ν ρ) (locations : Set κ)
    (OnCourse : MvMemory κ ν → TxVersion → J → Prop) (j : ℕ) (σ : Pexe W J κ ν ρ) (w : W)
    (p : Phase J ρ) (s : Scheduler) (mem : MvMemory κ ν) : Prop where
  phase : PhaseOnCourse locations OnCourse mem j p
  parked : ∀ b, j ∈ s.transactionsDependents b → j ∈ σ.scheduler.transactionsDependents b ∨
    ∃ l ∈ locations, mem.entry l b = some .estimate
  done : s.Done j → σ.scheduler.Done j ∨ mem.validateReadLocations j = true
  paid : tally (s.statusOf j = .readyToExecute) + toll mem j p +
      tally ((σ.phase w).Starts vm j p) ≤
    tally (σ.scheduler.statusOf j = .readyToExecute) + toll σ.mvMemory j (σ.phase w)

lemma Undisturbed.update (hsteers : vm.Steers n locations OnCourse) (hc : Crew.Invariant σ.crew)
    (h : Undisturbed locations OnCourse j σ) (hphase : σ'.phase = Function.update σ.phase w p)
    (hentries : ∀ l, ∀ i < j, σ'.mvMemory.entry l i = σ.mvMemory.entry l i)
    (hvalid : σ.mvMemory.validateReadLocations j = true →
      σ'.mvMemory.validateReadLocations j = true)
    (hcharged : Charged vm locations OnCourse j σ w p σ'.scheduler σ'.mvMemory) :
    Undisturbed locations OnCourse j σ' ∧
      load j σ' + tally (Starts vm j σ σ') ≤ load j σ := by
  constructor
  · constructor
    case phases =>
      intro w'
      by_cases hww : w' = w
      · rw [hww, hphase, Function.update_self]
        exact hcharged.phase
      · rw [hphase, Function.update_of_ne hww]
        exact (h.phases w').mono hsteers hentries hvalid
    case parked =>
      intro b hb
      rcases hcharged.parked b hb with hold | hnew
      · obtain ⟨l, hl, hestimate⟩ := h.parked b hold
        have hlt : b < j := ((hc.tx j (hc.parkedBound b j hold)).parked b hold).1
        exact ⟨l, hl, (hentries l b hlt).trans hestimate⟩
      · exact hnew
    case done =>
      intro hd
      rcases hcharged.done hd with hold | hnew
      · exact hvalid (h.done hold)
      · exact hnew
  · have hsum : ∑ w', toll σ'.mvMemory j (σ'.phase w') + toll σ.mvMemory j (σ.phase w) ≤
        ∑ w', toll σ.mvMemory j (σ.phase w') + toll σ'.mvMemory j p :=
      sum_update_le hphase fun w' _ => toll_mono hvalid _
    have hpaid := hcharged.paid
    rw [starts_iff hphase]
    unfold load
    omega

/-- A call that leaves the memory as it is. -/
lemma Undisturbed.move (hsteers : vm.Steers n locations OnCourse) (hc : Crew.Invariant σ.crew)
    (h : Undisturbed locations OnCourse j σ) {s : Scheduler}
    (hcharged : Charged vm locations OnCourse j σ w p s σ.mvMemory) :
    Undisturbed locations OnCourse j (σ.move w p s) ∧
      load j (σ.move w p s) + tally (Starts vm j σ (σ.move w p s)) ≤ load j σ :=
  h.update hsteers hc rfl (fun _ _ _ => rfl) id hcharged

end Load

section Calls
variable {s : Scheduler} {v : TxVersion}

omit [DecidableEq κ] in
/-- A call that does not start the transaction. -/
lemma Charged.of_not_starts (hphase : PhaseOnCourse locations OnCourse mem j p)
    (hparked : ∀ b, j ∈ s.transactionsDependents b → j ∈ σ.scheduler.transactionsDependents b ∨
      ∃ l ∈ locations, mem.entry l b = some .estimate)
    (hdone : s.Done j → σ.scheduler.Done j)
    (hready : s.statusOf j = .readyToExecute → σ.scheduler.statusOf j = .readyToExecute)
    (htoll : toll mem j p ≤ toll σ.mvMemory j (σ.phase w))
    (hstarts : ¬ (σ.phase w).Starts vm j p) :
    Charged vm locations OnCourse j σ w p s mem where
  phase := hphase
  parked := hparked
  done hd := .inl (hdone hd)
  paid := by
    rw [tally_of_not hstarts]
    have hmono := tally_mono hready
    omega

/-- A start that has been paid for. -/
lemma Charged.of_start (hsteers : vm.Steers n locations OnCourse) (hv : v.txIdx < n)
    (hexecuting : s.statusOf j = .executing)
    (hparked : ∀ b, j ∈ s.transactionsDependents b → j ∈ σ.scheduler.transactionsDependents b)
    (hpaid : 1 ≤ tally (σ.scheduler.statusOf j = .readyToExecute) +
      toll σ.mvMemory j (σ.phase w)) :
    Charged vm locations OnCourse j σ w (.executing v (vm.start v)) s mem where
  phase _ := hsteers.start _ v hv
  parked b hb := .inl (hparked b hb)
  done hd := by
    rcases hd with hd | hd <;> simp [hexecuting] at hd
  paid := by
    have hone := tally_le_one ((σ.phase w).Starts vm j (.executing v (vm.start v)))
    have htoll : toll mem j (.executing v (vm.start v) : Phase J ρ) = 0 := rfl
    rw [htoll, tally_of_not (by simp [hexecuting])]
    omega

omit [DecidableEq κ] in
lemma not_starts_of_ne {q : Phase J ρ} (hvj : v.txIdx ≠ j) :
    ¬ q.Starts vm j (.executing v (vm.start v)) := by
  rintro ⟨u, rfl, hu, -⟩
  cases hu
  exact hvj rfl

lemma Charged.nextTask (hsteers : vm.Steers n locations OnCourse)
    (h : Undisturbed locations OnCourse j σ) (hsize : σ.scheduler.blockSize = n) :
    Charged vm locations OnCourse j σ w (.ofPoll vm σ.scheduler.poll.1) σ.scheduler.poll.2
      σ.mvMemory := by
  have hspec := σ.scheduler.poll_spec
  revert hspec
  generalize σ.scheduler.poll = r
  obtain ⟨r, s⟩ := r
  intro hspec
  have hparked : ∀ b, j ∈ s.transactionsDependents b →
      j ∈ σ.scheduler.transactionsDependents b ∨
        ∃ l ∈ locations, σ.mvMemory.entry l b = some .estimate :=
    fun b hb => .inl (hspec.dependents ▸ hb)
  rcases r with (v | v) | - | -
  · obtain ⟨hlt, hready, hexecuting⟩ := hspec.execution
    by_cases hv : v.txIdx = j
    · rw [hv] at hready hexecuting
      exact .of_start hsteers (hsize ▸ hlt) hexecuting (fun b hb => hspec.dependents ▸ hb)
        (by simp [hready])
    · exact .of_not_starts (fun _ => hsteers.start _ v (hsize ▸ hlt)) hparked (hspec.done j).mp
        hspec.ready (Nat.zero_le _) (not_starts_of_ne hv)
  · refine .of_not_starts trivial hparked (hspec.done j).mp hspec.ready ?_
      (by simp [Phase.Starts, Phase.ofPoll, Phase.ofTask])
    by_cases hv : v.txIdx = j
    · subst hv
      simp [Phase.ofPoll, Phase.ofTask, toll, h.done hspec.validation]
    · simp [Phase.ofPoll, Phase.ofTask, toll, hv]
  · exact .of_not_starts trivial hparked (hspec.done j).mp hspec.ready (Nat.zero_le _)
      (by simp [Phase.Starts, Phase.ofPoll])
  · exact .of_not_starts trivial hparked (hspec.done j).mp hspec.ready (Nat.zero_le _)
      (by simp [Phase.Starts, Phase.ofPoll])

/-- Whom the transaction waits for has not been executed. -/
lemma Charged.addDependency {b : ℕ} {lower : b < v.txIdx}
    (h : Undisturbed locations OnCourse j σ) (hw : σ.phase w = .blocked v b lower)
    (hblocked : ∀ l ∈ locations, σ.mvMemory.entry l b = some .estimate → ¬ σ.scheduler.Done b)
    (hsteers : vm.Steers n locations OnCourse) (hv : v.txIdx < n) :
    Charged vm locations OnCourse j σ w
      (if (σ.scheduler.addDependency v.txIdx b).1 then .polling else .executing v (vm.start v))
      (σ.scheduler.addDependency v.txIdx b).2 σ.mvMemory := by
  have hestimate := h.phases w
  rw [hw] at hestimate
  have hadd := Scheduler.addDependency_eq (s := σ.scheduler) v.txIdx b
  by_cases hd : σ.scheduler.Done b
  · rw [if_pos hd] at hadd
    rw [hadd]
    refine .of_not_starts (fun _ => hsteers.start _ v hv) (fun _ => .inl) id id (Nat.zero_le _) ?_
    rintro ⟨u, rfl, hu, -⟩
    cases hu
    obtain ⟨l, hl, hestimate⟩ := hestimate rfl
    exact hblocked l hl hestimate hd
  · rw [if_neg hd] at hadd
    rw [hadd]
    refine .of_not_starts trivial ?_ (Scheduler.Done.of_setStatus (by simp) (by simp)) ?_
      (Nat.zero_le _) (by simp [Phase.Starts])
    · intro b' hb'
      by_cases hbb : b' = b
      · subst hbb
        simp only [Scheduler.withDependents_transactionsDependents, Function.update_self,
          List.mem_append, List.mem_singleton] at hb'
        exact hb'.imp id fun hj => hestimate hj.symm
      · left
        simpa [hbb] using hb'
    · intro hready
      simp only [Scheduler.withDependents_statusOf, Scheduler.setStatus_statusOf] at hready
      split_ifs at hready
      exact hready

omit [DecidableEq κ] in
lemma Charged.finishExecution {flags : FinishExecFlags}
    (h : Undisturbed locations OnCourse j σ) (hw : σ.phase w = .stored v flags)
    (hv : v.txIdx < σ.scheduler.blockSize)
    (hrecorded : ∀ l ∈ locations, σ.mvMemory.entry l v.txIdx ≠ some .estimate) :
    Charged vm locations OnCourse j σ w (.ofTask vm (σ.scheduler.finishExecution v flags).1)
      (σ.scheduler.finishExecution v flags).2 σ.mvMemory := by
  have hvalid := h.phases w
  rw [hw] at hvalid
  -- who waits for this transaction waits for an estimate, and there is none left
  have hresumed : j ∉ σ.scheduler.transactionsDependents v.txIdx := by
    intro hj
    obtain ⟨l, hl, hestimate⟩ := h.parked _ hj
    exact hrecorded l hl hestimate
  have hparked : ∀ b, j ∈ (σ.scheduler.finishExecution v flags).2.transactionsDependents b →
      j ∈ σ.scheduler.transactionsDependents b :=
    fun b hb => ((Scheduler.mem_finishExecution_dependents flags hv b).mp hb).2
  have hready : (σ.scheduler.finishExecution v flags).2.statusOf j = .readyToExecute →
      σ.scheduler.statusOf j = .readyToExecute := by
    rw [Scheduler.finishExecution_statusOf hv, if_neg hresumed]
    split_ifs <;> simp
  constructor
  case phase =>
    rw [Scheduler.finishExecution_task hv]
    split <;> trivial
  case parked => exact fun b hb => .inl (hparked b hb)
  case done =>
    intro hd
    rcases Scheduler.finishExecution_done hv flags hd with hd | rfl
    · exact .inl hd
    · exact .inr (hvalid rfl)
  case paid =>
    have htoll : toll σ.mvMemory j (.ofTask vm (σ.scheduler.finishExecution v flags).1) = 0 := by
      rw [Scheduler.finishExecution_task hv]
      split_ifs
      · by_cases hvj : v.txIdx = j
        · simp [Phase.ofTask, toll, hvalid hvj]
        · simp [Phase.ofTask, toll, hvj]
      · rfl
    have hstarts :
        ¬ (σ.phase w).Starts vm j (.ofTask vm (σ.scheduler.finishExecution v flags).1) := by
      rw [Scheduler.finishExecution_task hv]
      split_ifs <;> simp [Phase.Starts, Phase.ofTask]
    have hmono := tally_mono hready
    rw [htoll, tally_of_not hstarts]
    omega

omit [DecidableEq κ] in
lemma Charged.tryValidationAbort (hw : σ.phase w = .failed v) :
    Charged vm locations OnCourse j σ w
      (if (σ.scheduler.tryValidationAbort v).1 then .aborted v else .settled v)
      (σ.scheduler.tryValidationAbort v).2 σ.mvMemory := by
  have habort := Scheduler.tryValidationAbort_eq (s := σ.scheduler) v
  by_cases hd : σ.scheduler.Done v.txIdx
  · rw [if_pos hd] at habort
    rw [habort]
    refine .of_not_starts trivial (fun _ => .inl) (Scheduler.Done.of_setStatus (by simp) (by simp))
      ?_ (by simp [hw, toll]) (by simp [Phase.Starts])
    intro hready
    simp only [Scheduler.withNumValidated_statusOf, Scheduler.setStatus_statusOf] at hready
    split_ifs at hready
    exact hready
  · rw [if_neg hd] at habort
    rw [habort]
    exact .of_not_starts trivial (fun _ => .inl) id id (Nat.zero_le _) (by simp [Phase.Starts])

/-- An abort is over, and the transaction starts again or is ready to. -/
lemma Charged.finishAbort (hsteers : vm.Steers n locations OnCourse) (hw : σ.phase w = .converted v)
    (hv : v.txIdx < σ.scheduler.blockSize) (hsize : σ.scheduler.blockSize = n) :
    Charged vm locations OnCourse j σ w (.ofTask vm (σ.scheduler.finishValidation v true).1)
      (σ.scheduler.finishValidation v true).2 σ.mvMemory := by
  have htrue := Scheduler.finishValidation_true v hv
  have hdone : ∀ {j}, (σ.scheduler.finishValidation v true).2.Done j → σ.scheduler.Done j :=
    Scheduler.finishValidation_true_done v hv
  by_cases hlt : v.txIdx < σ.scheduler.executionIdx
  · rw [if_pos hlt] at htrue
    rw [htrue] at hdone ⊢
    by_cases hvj : v.txIdx = j
    · exact .of_start hsteers (hsize ▸ hv) (by simp [hvj]) (fun _ => id)
        (by simp [hw, toll, hvj])
    · refine .of_not_starts (fun _ => hsteers.start _ _ (hsize ▸ hv)) (fun _ => .inl) hdone ?_
        (Nat.zero_le _) (not_starts_of_ne hvj)
      simp [Ne.symm hvj]
  · rw [if_neg hlt] at htrue
    rw [htrue] at hdone ⊢
    by_cases hvj : v.txIdx = j
    · refine ⟨trivial, fun _ => .inl, fun hd => .inl (hdone hd), ?_⟩
      have hone := tally_le_one ((σ.scheduler.setReadyStatus v.txIdx).statusOf j = .readyToExecute)
      simp only [hw, toll, hvj, if_true, Phase.ofTask]
      simp [Phase.Starts]
    · refine .of_not_starts trivial (fun _ => .inl) hdone ?_ (Nat.zero_le _)
        (by simp [Phase.Starts, Phase.ofTask])
      simp [Ne.symm hvj]

omit [DecidableEq κ] in
lemma Charged.finishValidation :
    Charged vm locations OnCourse j σ w (.ofTask vm (σ.scheduler.finishValidation v false).1)
      (σ.scheduler.finishValidation v false).2 σ.mvMemory := by
  have hdone := (Scheduler.finishValidation_false_done (s := σ.scheduler) v j).mp
  simp only [Scheduler.finishValidation, Bool.false_eq_true, if_false] at hdone ⊢
  by_cases hst : σ.scheduler.statusOf v.txIdx = .executed
  · rw [if_pos hst] at hdone ⊢
    refine .of_not_starts trivial (fun _ => .inl) hdone ?_ (Nat.zero_le _)
      (by simp [Phase.Starts, Phase.ofTask])
    intro hready
    simp only [Scheduler.markValidated, Scheduler.withNumValidated_statusOf,
      Scheduler.setStatus_statusOf] at hready
    split_ifs at hready
    exact hready
  · rw [if_neg hst] at hdone ⊢
    exact .of_not_starts trivial (fun _ => .inl) hdone id (Nat.zero_le _)
      (by simp [Phase.Starts, Phase.ofTask])

end Calls

section Steps
variable [DecidableEq W]

/-- Only a worker that touches a transaction changes its entries. -/
lemma entry_of_not_touches {i : ℕ} (hs : Step vm σ σ') (h : ¬ Touches i σ σ') (l : κ) :
    σ'.mvMemory.entry l i = σ.mvMemory.entry l i := by
  cases hs with
  | @record w v job readSet writeSet flags result hw _ =>
    have hne : i ≠ v.txIdx := by
      rintro rfl
      apply h
      refine ⟨w, v, rfl, .inl ⟨job, _, result, hw, phase_move_self⟩⟩
    exact MvMemory.record_entry_of_ne _ hne _ _ _
  | @convertWritesToEstimates w v hw =>
    have hne : i ≠ v.txIdx := by
      rintro rfl
      exact h ⟨w, v, rfl, .inr ⟨hw, phase_move_self⟩⟩
    change (σ.mvMemory.convertWritesToEstimates v.txIdx).entry l i = _
    rw [MvMemory.convert_entry, if_neg (by simp [hne])]
  | nextTask | read | retry | block | addDependency | storeResult | finishExecution
  | validateReadLocations | tryValidationAbort | finishAbort | finishValidation => rfl

/-- While nothing below it is touched a transaction keeps a valid read set, or gets one. -/
lemma valid_of_not_touches (hsteers : vm.Steers n locations OnCourse)
    (h : Undisturbed locations OnCourse j σ) (hs : Step vm σ σ')
    (hbelow : ∀ i < j, ¬ Touches i σ σ') (hvalid : σ.mvMemory.validateReadLocations j = true) :
    σ'.mvMemory.validateReadLocations j = true := by
  cases hs with
  | @record w v job readSet writeSet flags result hw hnext =>
    rcases lt_trichotomy v.txIdx j with hlt | rfl | hlt
    · exact absurd ⟨w, v, rfl, .inl ⟨job, _, result, hw, phase_move_self⟩⟩ (hbelow _ hlt)
    · have hphase := h.phases w
      rw [hw] at hphase
      exact hsteers.finished _ _ _ _ _ _ _ (hphase rfl) hnext
    · exact MvMemory.validate_record_of_lt hlt readSet writeSet hvalid
  | @convertWritesToEstimates w v hw =>
    rcases lt_trichotomy v.txIdx j with hlt | rfl | hlt
    · exact absurd ⟨w, v, rfl, .inr ⟨hw, phase_move_self⟩⟩ (hbelow _ hlt)
    · exact MvMemory.validate_convert_self hvalid
    · exact MvMemory.validate_convert_of_lt hlt hvalid
  | nextTask | read | retry | block | addDependency | storeResult | finishExecution
  | validateReadLocations | tryValidationAbort | finishAbort | finishValidation => exact hvalid

variable [Nonempty W]

/-- No estimate is left of a transaction that has been executed. -/
lemma no_estimate_of_done (hkeeps : vm.KeepsUp estimatedLocations locations)
    (hr : (system W vm n estimatedLocations).Reachable σ) {b : ℕ} (hd : σ.scheduler.Done b)
    {l : κ} (hl : l ∈ locations) : σ.mvMemory.entry l b ≠ some .estimate := by
  obtain ⟨log, hlog⟩ := Chronicle.of_reachable hr
  obtain ⟨result, -, hkept⟩ := hlog.done b hd
  exact hlog.no_estimate hkeeps hkept hl

/-- No estimate is left of an execution whose result is stored. -/
lemma no_estimate_of_stored (hkeeps : vm.KeepsUp estimatedLocations locations)
    (hr : (system W vm n estimatedLocations).Reachable σ) {v : TxVersion} {flags : FinishExecFlags}
    (hw : σ.phase w = .stored v flags) {l : κ} (hl : l ∈ locations) :
    σ.mvMemory.entry l v.txIdx ≠ some .estimate := by
  obtain ⟨log, hlog⟩ := Chronicle.of_reachable hr
  have hphase := hlog.phases w
  rw [hw] at hphase
  obtain ⟨result, -, hkept⟩ := hphase
  exact hlog.no_estimate hkeeps hkept hl

variable [Fintype W]

/-- While nothing below a transaction is touched, every start of it lowers its load, and nothing
raises it. -/
lemma Undisturbed.step (hsteers : vm.Steers n locations OnCourse)
    (hkeeps : vm.KeepsUp estimatedLocations locations)
    (hr : (system W vm n estimatedLocations).Reachable σ)
    (h : Undisturbed locations OnCourse j σ) (hs : Step vm σ σ')
    (hbelow : ∀ i < j, ¬ Touches i σ σ') :
    Undisturbed locations OnCourse j σ' ∧ load j σ' + tally (Starts vm j σ σ') ≤ load j σ := by
  obtain ⟨hcrew, hsize⟩ := crew_invariant hr
  have hentries : ∀ l, ∀ i < j, σ'.mvMemory.entry l i = σ.mvMemory.entry l i :=
    fun l i hi => entry_of_not_touches hs (hbelow i hi) l
  have hvalid := valid_of_not_touches hsteers h hs hbelow
  have hblock : ∀ w v, (σ.crew.role w).version = some v → v.txIdx < σ.scheduler.blockSize :=
    fun w v hv => hcrew.bound w v.txIdx ⟨v, hv, rfl⟩
  cases hs with
  | nextTask => exact h.move hsteers hcrew (.nextTask hsteers h hsize)
  | @read w v job job' hw hnext =>
    have hphase := h.phases w
    rw [hw] at hphase
    refine h.move hsteers hcrew (.of_not_starts (fun hv => ?_) (fun _ => .inl) id id
      (Nat.zero_le _) ?_)
    · exact (hsteers.running _ _ _ _ (hphase hv) hnext).1
    · rintro ⟨u, hv, hu, -⟩
      cases hu
      exact (hsteers.running _ _ _ _ (hphase hv) hnext).2 rfl
  | @retry w v job hw hnext =>
    have hphase := h.phases w
    rw [hw] at hphase
    have hvj : v.txIdx ≠ j := fun hv => hsteers.retry _ _ _ (hphase hv) hnext
    exact h.move hsteers hcrew (.of_not_starts (fun hv => absurd hv hvj) (fun _ => .inl) id id
      (Nat.zero_le _) (not_starts_of_ne hvj))
  | @block w v job b hw hnext =>
    have hphase := h.phases w
    rw [hw] at hphase
    exact h.move hsteers hcrew (.of_not_starts
      (fun hv => hsteers.blocking _ _ _ _ (hphase hv) hnext) (fun _ => .inl) id id (Nat.zero_le _)
      (by simp [Phase.Starts]))
  | @addDependency w v b lower hw =>
    have hv : v.txIdx < σ.scheduler.blockSize :=
      hblock w v (by simp [crew, hw, Phase.role, Role.version])
    refine h.move hsteers hcrew (.addDependency h hw ?_ hsteers (hsize ▸ hv))
    exact fun l hl hestimate hd => no_estimate_of_done hkeeps hr hd hl hestimate
  | @record w v job readSet writeSet flags result hw hnext =>
    have hphase := h.phases w
    rw [hw] at hphase
    refine h.update hsteers hcrew rfl hentries hvalid (.of_not_starts ?_ (fun _ => .inl) id id
      (Nat.zero_le _) (by simp [Phase.Starts]))
    rintro rfl
    exact hsteers.finished _ _ _ _ _ _ _ (hphase rfl) hnext
  | @storeResult w v flags result hw =>
    have hphase := h.phases w
    rw [hw] at hphase
    exact h.update hsteers hcrew rfl hentries hvalid (.of_not_starts hphase (fun _ => .inl) id id
      (Nat.zero_le _) (by simp [Phase.Starts]))
  | @finishExecution w v flags hw =>
    have hv : v.txIdx < σ.scheduler.blockSize :=
      hblock w v (by simp [crew, hw, Phase.role, Role.version])
    exact h.move hsteers hcrew
      (.finishExecution h hw hv fun l hl => no_estimate_of_stored hkeeps hr hw hl)
  | @validateReadLocations w v hw =>
    refine h.move hsteers hcrew (.of_not_starts ?_ (fun _ => .inl) id id ?_ ?_)
    · split <;> trivial
    · by_cases hvj : v.txIdx = j
      · subst hvj
        by_cases hv : σ.mvMemory.validateReadLocations v.txIdx = true <;> simp [hw, hv, toll]
      · split <;> simp [toll, hvj]
    · split <;> simp [Phase.Starts]
  | @tryValidationAbort w v hw => exact h.move hsteers hcrew (.tryValidationAbort hw)
  | @convertWritesToEstimates w v hw =>
    exact h.update hsteers hcrew rfl hentries hvalid (.of_not_starts trivial (fun _ => .inl) id id
      (by simp [hw, toll]) (by simp [Phase.Starts]))
  | @finishAbort w v hw =>
    have hv : v.txIdx < σ.scheduler.blockSize :=
      hblock w v (by simp [crew, hw, Phase.role, Role.version])
    exact h.move hsteers hcrew (.finishAbort hsteers hw hv hsize)
  | finishValidation => exact h.move hsteers hcrew .finishValidation

/-- Once it starts, a transaction is undisturbed, and no more than the other workers can make it
start again. -/
lemma undisturbed_of_start (hsteers : vm.Steers n locations OnCourse)
    (hr : (system W vm n estimatedLocations).Reachable σ) {v : TxVersion}
    (hw : σ.phase w = .executing v (vm.start v)) :
    Undisturbed locations OnCourse v.txIdx σ ∧ load v.txIdx σ + 1 ≤ Fintype.card W := by
  obtain ⟨hcrew, hsize⟩ := crew_invariant hr
  obtain ⟨hv, hst, honly, -, hparked⟩ := hcrew.executing_facts (w := w) (i := v.txIdx)
    (by simp [crew, hw, Phase.role])
  have hst' : σ.scheduler.statusOf v.txIdx = .executing := hst
  constructor
  · constructor
    case phases =>
      intro w'
      by_cases hww : w' = w
      · rw [hww, hw]
        exact fun _ => hsteers.start _ v (hsize ▸ hv)
      · have hnot : ¬ (σ.crew.role w').Executes v.txIdx := fun h => hww (honly w' h)
        cases hphase : σ.phase w' with
        | executing u | blocked u | recorded u | stored u =>
          exact fun hu => absurd hu (by simpa [crew, hphase, Phase.role] using hnot)
        | polling | validating | failed | aborted | converted | settled | gone => trivial
    case parked => exact fun b hb => absurd hb (hparked b)
    case done =>
      intro hd
      rcases hd with hd | hd <;> simp [hst'] at hd
  · have hothers : ∑ w' ∈ Finset.univ.erase w, toll σ.mvMemory v.txIdx (σ.phase w') ≤
        (Finset.univ.erase w).card := by
      simpa using Finset.sum_le_card_nsmul (Finset.univ.erase w)
        (fun w' => toll σ.mvMemory v.txIdx (σ.phase w')) 1 fun w' _ => toll_le_one _
    have hsum := Finset.add_sum_erase Finset.univ
      (fun w' => toll σ.mvMemory v.txIdx (σ.phase w')) (Finset.mem_univ w)
    have hcard := Finset.card_erase_add_one (Finset.mem_univ w)
    have hself : toll σ.mvMemory v.txIdx (σ.phase w) = 0 := by
      rw [hw]
      rfl
    have hready : tally (σ.scheduler.statusOf v.txIdx = .readyToExecute) = 0 :=
      tally_of_not (by simp [hst'])
    rw [Finset.card_univ] at hcard
    rw [hself] at hsum
    unfold load
    omega

open Classical in
/-- How often a transaction can still start before anything below it is touched. -/
noncomputable def restarts (locations : Set κ) (OnCourse : MvMemory κ ν → TxVersion → J → Prop)
    (j : ℕ) (σ : Pexe W J κ ν ρ) : ℕ :=
  if Undisturbed locations OnCourse j σ then min (load j σ) (Fintype.card W) else Fintype.card W

omit [DecidableEq W] [DecidableEq κ] [Nonempty W] in
lemma restarts_le : restarts locations OnCourse j σ ≤ Fintype.card W := by
  unfold restarts
  split
  · exact min_le_right _ _
  · exact le_rfl

/-- What is touched below pays for the starts. -/
lemma restarts_step (hsteers : vm.Steers n locations OnCourse)
    (hkeeps : vm.KeepsUp estimatedLocations locations)
    (hr : (system W vm n estimatedLocations).Reachable σ) (hs : Step vm σ σ') :
    restarts locations OnCourse j σ' + tally (Starts vm j σ σ') ≤
      restarts locations OnCourse j σ +
        Fintype.card W * tally (∃ i < j, Touches i σ σ') := by
  have hstart : Starts vm j σ σ' →
      Undisturbed locations OnCourse j σ' ∧ load j σ' + 1 ≤ Fintype.card W := by
    rintro ⟨w, v, rfl, hw, -⟩
    exact undisturbed_of_start hsteers (hr.step hs) hw
  have hafter : restarts locations OnCourse j σ' + tally (Starts vm j σ σ') ≤
      Fintype.card W := by
    by_cases hstarts : Starts vm j σ σ'
    · obtain ⟨hcalm, hload⟩ := hstart hstarts
      rw [tally_of hstarts, restarts, if_pos hcalm]
      omega
    · rw [tally_of_not hstarts]
      exact restarts_le
  by_cases hbelow : ∃ i < j, Touches i σ σ'
  · rw [tally_of hbelow]
    omega
  · rw [tally_of_not hbelow]
    by_cases hcalm : Undisturbed locations OnCourse j σ
    · obtain ⟨hcalm', hload⟩ := hcalm.step hsteers hkeeps hr hs
        fun i hi htouches => hbelow ⟨i, hi, htouches⟩
      rw [restarts, if_pos hcalm'] at hafter ⊢
      rw [restarts, if_pos hcalm]
      omega
    · have hbefore : restarts locations OnCourse j σ = Fintype.card W := if_neg hcalm
      omega

/-- The starts of a transaction are bounded, whatever the workers do and in whatever order. -/
theorem starts_le (hsteers : vm.Steers n locations OnCourse)
    (hkeeps : vm.KeepsUp estimatedLocations locations)
    {steps : List (Pexe W J κ ν ρ × Pexe W J κ ν ρ)}
    (h : (system W vm n estimatedLocations).Run steps σ) (j : ℕ) :
    occurrences (Starts vm j) steps ≤
      Fintype.card W * (Fintype.card W * 2 + 1) ^ j := by
  apply le_mul_pow_of_le_sum (x := fun j => occurrences (Starts vm j) steps)
  intro j
  have hpaid := h.occurrences_le (m := restarts locations OnCourse j) (E := Starts vm j)
    (F := fun σ σ' => ∃ i < j, Touches i σ σ') (fun _ _ => restarts_le)
    fun σ σ' hr hs => restarts_step hsteers hkeeps hr hs
  have hsum := occurrences_exists_le (E := Touches) j steps
  have htouches : ∑ i ∈ Finset.range j, occurrences (Touches i) steps ≤
      ∑ i ∈ Finset.range j, 2 * occurrences (Starts vm i) steps :=
    Finset.sum_le_sum fun i _ => touches_le h i
  have hmul := Nat.mul_le_mul_left (Fintype.card W) (hsum.trans htouches)
  omega

end Steps

end Pexe

end Pevm
