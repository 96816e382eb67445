import Pevm.Pexe.Coverage

/-!
# What the workers leave behind

The executions that are recorded, version by version, for any machine. When all workers have
left, the slot and the memory of every transaction hold what one of its executions came to,
and nothing has become of what this execution has read.
-/
namespace Pevm
open Transition VersionMap

namespace Scheduler

/-- The current incarnation executes no more: it is done, or it is to be aborted. -/
def Settled (s : Scheduler) (i : ℕ) : Prop := s.Done i ∨ s.statusOf i = .aborting

/-- Incarnations do not go back, and a settled transaction stays settled until its next incarnation.
-/
def Advances (s s' : Scheduler) : Prop :=
  ∀ i, s.incarnationOf i < s'.incarnationOf i ∨
    s'.incarnationOf i = s.incarnationOf i ∧ (s.Settled i → s'.Settled i)

variable {s s' : Scheduler} {v : TxVersion}

lemma Advances.refl (s : Scheduler) : s.Advances s := fun _ => .inr ⟨rfl, id⟩

/-- A transaction that starts to execute was not settled. -/
lemma Advances.setExecuting {j : ℕ} (hinc : ∀ i, s'.incarnationOf i = s.incarnationOf i)
    (hstatus : ∀ i, s'.statusOf i = s.statusOf i) (hready : s.statusOf j = .readyToExecute) :
    s.Advances (s'.setStatus j .executing) := by
  intro i
  right
  constructor
  · simp [hinc]
  · intro hs
    have hne : i ≠ j := by
      rintro rfl
      simp [Settled, Done, hready] at hs
    simpa [Settled, Done, hne, hstatus] using hs

lemma PollSpec.advances {p : Poll} (h : PollSpec s p s') : s.Advances s' := by
  cases h with
  | exit => exact .refl s
  | wait => exact .refl s
  | skip => exact .refl s
  | execute _ hready => exact .setExecuting (fun _ => rfl) (fun _ => rfl) hready
  | steal _ _ hready => exact .setExecuting (fun _ => rfl) (fun _ => rfl) hready
  | validate => exact .refl s

lemma addDependency_advances (i b : ℕ) : s.Advances (s.addDependency i b).2 := by
  rw [addDependency_eq]
  split_ifs
  · exact .refl s
  · intro j
    right
    constructor
    · simp
    · intro hs
      by_cases hji : j = i
      · simp [Settled, hji]
      · simpa [Settled, Done, hji] using hs

lemma tryValidationAbort_advances : s.Advances (s.tryValidationAbort v).2 := by
  rw [tryValidationAbort_eq]
  by_cases hdone : s.Done v.txIdx
  · rw [if_pos hdone]
    intro j
    right
    constructor
    · simp
    · intro hs
      by_cases hjv : j = v.txIdx
      · simp [Settled, hjv]
      · simpa [Settled, Done, hjv] using hs
  · rw [if_neg hdone]
    exact .refl s

lemma finishExecution_advances (hv : v.txIdx < s.blockSize)
    (hnodup : (s.transactionsDependents v.txIdx).Nodup) (flags : FinishExecFlags) :
    s.Advances (s.finishExecution v flags).2 := by
  intro i
  rw [finishExecution_incarnationOf hv flags hnodup]
  simp only [Settled, Done, finishExecution_statusOf hv flags]
  by_cases hmem : i ∈ s.transactionsDependents v.txIdx
  · left
    rw [if_pos hmem]
    omega
  · right
    rw [if_neg hmem]
    refine ⟨rfl, fun hs => ?_⟩
    by_cases hiv : i = v.txIdx
    · simp [hiv]
    · simpa [hiv, hmem] using hs

lemma finishValidation_false_advances : s.Advances (s.finishValidation v false).2 := by
  simp only [finishValidation, Bool.false_eq_true, if_false]
  split_ifs with hst
  · intro j
    right
    constructor
    · simp [markValidated]
    · intro hs
      by_cases hjv : j = v.txIdx
      · simp [Settled, Done, markValidated, hjv]
      · simpa [Settled, Done, markValidated, hjv] using hs
  · exact .refl s

lemma finishValidation_true_advances (hv : v.txIdx < s.blockSize) :
    s.Advances (s.finishValidation v true).2 := by
  rw [finishValidation_true v hv]
  intro j
  by_cases hjv : j = v.txIdx
  · left
    dsimp only
    split_ifs <;> simp [hjv]
  · right
    dsimp only
    split_ifs <;> simp [hjv, Settled, Done]

end Scheduler

namespace Phase
variable {J ρ : Type}

/-- The version of `i` that the worker holds has been recorded, and cannot be recorded again. -/
def Spends (p : Phase J ρ) (i : ℕ) : Prop :=
  ∃ v, ((∃ flags result, p = .recorded v flags result) ∨ ∃ flags, p = .stored v flags) ∧
    v.txIdx = i

end Phase

/-- A recorded execution: where the machine stood, the memory it stood before, and what it came
to. -/
structure Execution (J κ ν ρ : Type) where
  job : J
  mvMemory : MvMemory κ ν
  readSet : ReadSet κ
  writeSet : WriteSet κ ν
  flags : FinishExecFlags
  result : ρ

/-- Everything that the second machine can do the first one can do too. -/
structure Vm.Extends {J κ ν ρ : Type} (vm vm' : Vm J κ ν ρ) : Prop where
  start : vm.start = vm'.start
  next : ∀ v job mem step, vm'.next v job mem step → vm.next v job mem step

lemma Vm.Extends.refl {J κ ν ρ : Type} (vm : Vm J κ ν ρ) : vm.Extends vm :=
  ⟨rfl, fun _ _ _ _ h => h⟩

/-- The memory has what the execution of a version recorded, and what it began with. -/
structure Execution.Stands {J κ ν ρ : Type} [DecidableEq κ] (e : Execution J κ ν ρ)
    (initial mem : MvMemory κ ν) (v : TxVersion) : Prop where
  read : (mem.lastLocations v.txIdx).read = e.readSet
  written : ∀ l x, MvMemory.written e.writeSet l = some x →
    mem.entry l v.txIdx = some (.data v.txIncarnation x)
  others : ∀ l x, MvMemory.written e.writeSet l = none → mem.entry l v.txIdx = some x →
    initial.entry l v.txIdx = some x

namespace Pexe
variable {W J κ ν ρ : Type} [DecidableEq κ]

section Chronicle
variable (vm : Vm J κ ν ρ) (initial : MvMemory κ ν) (log : TxVersion → Option (Execution J κ ν ρ))

/-- The execution that the memory has of `i` had this result, and stands in the memory. -/
def Kept (mem : MvMemory κ ν) (i : ℕ) (result : ρ) : Prop :=
  ∃ v e, v.txIdx = i ∧ log v = some e ∧ e.result = result ∧ e.Stands initial mem v

/-- What a worker holds after a record, or has just stored, is the result of the execution that
stands in the memory. -/
def PhaseKept (mem : MvMemory κ ν) (executionResults : ℕ → Option ρ) : Phase J ρ → Prop
  | .recorded v _ result => Kept initial log mem v.txIdx result
  | .stored v _ => ∃ result, executionResults v.txIdx = some result ∧
      Kept initial log mem v.txIdx result
  | _ => True

/-- What the log of executions says of the state between any two calls: they were possible, are not
logged twice, and those of transactions that are done stand in the memory. -/
structure Chronicle (σ : Pexe W J κ ν ρ) : Prop where
  sound : ∀ v e, log v = some e →
    vm.next v e.job e.mvMemory (.finished e.readSet e.writeSet e.flags e.result)
  fresh : ∀ v, log v ≠ none → v.txIncarnation < σ.scheduler.incarnationOf v.txIdx ∨
    v.txIncarnation = σ.scheduler.incarnationOf v.txIdx ∧
      (σ.scheduler.Settled v.txIdx ∨ ∃ w, (σ.phase w).Spends v.txIdx)
  unlisted : ∀ i l x, l ∉ (σ.mvMemory.lastLocations i).write →
    σ.mvMemory.entry l i = some x → initial.entry l i = some x
  phases : ∀ w, PhaseKept initial log σ.mvMemory σ.executionResults (σ.phase w)
  done : ∀ i, σ.scheduler.Done i → ∃ result, σ.executionResults i = some result ∧
    Kept initial log σ.mvMemory i result

end Chronicle

variable {vm : Vm J κ ν ρ} {initial : MvMemory κ ν}
  {log log' : TxVersion → Option (Execution J κ ν ρ)} {mem mem' : MvMemory κ ν}
  {executionResults executionResults' : ℕ → Option ρ} {σ : Pexe W J κ ν ρ} {w : W} {v : TxVersion}

section Kept
variable {i : ℕ} {result : ρ}

/-- What is kept stays while the log grows and the memory of the transaction is left alone. -/
lemma Kept.mono (h : Kept initial log mem i result)
    (hlog : ∀ v e, log v = some e → log' v = some e)
    (hlocations : mem'.lastLocations i = mem.lastLocations i)
    (hentry : ∀ l, mem'.entry l i = mem.entry l i) : Kept initial log' mem' i result := by
  obtain ⟨v, e, rfl, hv, hresult, hstands⟩ := h
  refine ⟨v, e, rfl, hlog v e hv, hresult, ?_, fun l x hx => ?_, fun l x hx hl => ?_⟩
  · rw [hlocations]
    exact hstands.read
  · rw [hentry]
    exact hstands.written l x hx
  · rw [hentry] at hl
    exact hstands.others l x hx hl

lemma PhaseKept.mono {p : Phase J ρ} (h : PhaseKept initial log mem executionResults p)
    (hlog : ∀ v e, log v = some e → log' v = some e)
    (hkept : ∀ i, p.Spends i → mem'.lastLocations i = mem.lastLocations i ∧
      (∀ l, mem'.entry l i = mem.entry l i) ∧ executionResults' i = executionResults i) :
    PhaseKept initial log' mem' executionResults' p := by
  cases p with
  | recorded v flags result =>
    obtain ⟨hlocations, hentry, -⟩ := hkept v.txIdx ⟨v, .inl ⟨flags, result, rfl⟩, rfl⟩
    exact Kept.mono h hlog hlocations hentry
  | stored v flags =>
    obtain ⟨hlocations, hentry, hresults⟩ := hkept v.txIdx ⟨v, .inr ⟨flags, rfl⟩, rfl⟩
    obtain ⟨result, hr, hkept⟩ := h
    exact ⟨result, hresults.trans hr, hkept.mono hlog hlocations hentry⟩
  | polling | executing | blocked | validating | failed | aborted | converted | settled
  | gone => trivial

lemma phaseKept_ofTask (t : Option Task) :
    PhaseKept initial log mem executionResults (.ofTask vm t) := by
  rcases t with _ | (v | v) <;> trivial

lemma phaseKept_ofPoll (p : Scheduler.Poll) :
    PhaseKept initial log mem executionResults (.ofPoll vm p) := by
  cases p with
  | task t => exact phaseKept_ofTask (some t)
  | again => trivial
  | exit => trivial

end Kept

omit [DecidableEq κ] in
/-- No other worker has recorded the transaction that a worker executes. -/
lemma spends_ne (hc : Crew.Invariant σ.crew) {i : ℕ} (hw : (σ.crew.role w).Executes i) {w' : W}
    (hww : w' ≠ w) {j : ℕ} (hspends : (σ.phase w').Spends j) : j ≠ i := by
  rintro rfl
  apply hww
  apply (hc.executing_facts hw).2.2.1
  obtain ⟨u, ⟨flags, result, hphase⟩ | ⟨flags, hphase⟩, hu⟩ := hspends <;>
    simp [crew, hphase, Phase.role, hu]

/-- A version in execution has not been recorded. -/
lemma Chronicle.unused (h : Chronicle vm initial log σ) (hc : Crew.Invariant σ.crew) {job : J}
    (hw : σ.phase w = .executing v job) : log v = none := by
  have hrole : σ.crew.role w = .executor v := by simp [crew, hw, Phase.role]
  obtain ⟨hi, hst, honly, -⟩ := hc.executing_facts (w := w) (i := v.txIdx) (by simp [hrole])
  have hst' : σ.scheduler.statusOf v.txIdx = .executing := hst
  have hv : v = σ.scheduler.versionOf v.txIdx :=
    (hc.tx _ hi).incarnation w v (.inl hrole) rfl
  have hinc : v.txIncarnation = σ.scheduler.incarnationOf v.txIdx :=
    congrArg TxVersion.txIncarnation hv
  by_contra hlog
  rcases h.fresh v hlog with hlt | ⟨-, hsettled | ⟨w', u, hphase, hu⟩⟩
  · omega
  · simp [Scheduler.Settled, Scheduler.Done, hst'] at hsettled
  · have hww : w' = w := by
      apply honly
      rcases hphase with ⟨flags, result, hphase⟩ | ⟨flags, hphase⟩ <;>
        simp [crew, hphase, Phase.role, hu]
    subst hww
    rcases hphase with ⟨flags, result, hphase⟩ | ⟨flags, hphase⟩ <;> simp [hw] at hphase

/-- The memory has what is recorded. -/
lemma Chronicle.stands_record (h : Chronicle vm initial log σ) (e : Execution J κ ν ρ) :
    e.Stands initial (σ.mvMemory.record v e.readSet e.writeSet).2 v where
  read := MvMemory.record_read _ _ _ _
  written l x hx := by simp [MvMemory.record_entry, hx]
  others l x hx hl := by
    rw [MvMemory.record_entry, if_pos rfl, hx] at hl
    dsimp only at hl
    split_ifs at hl with hmem
    exact h.unlisted _ _ _ hmem hl

section Move
variable [DecidableEq W] {p : Phase J ρ} {s : Scheduler}

lemma Chronicle.fresh_move (h : Chronicle vm initial log σ) (hadvances : σ.scheduler.Advances s)
    (hspends : ∀ i, (σ.phase w).Spends i → p.Spends i ∨ s.Done i) {u : TxVersion}
    (hu : log u ≠ none) : u.txIncarnation < s.incarnationOf u.txIdx ∨
      u.txIncarnation = s.incarnationOf u.txIdx ∧
        (s.Settled u.txIdx ∨ ∃ w', ((σ.move w p s).phase w').Spends u.txIdx) := by
  have hfresh := h.fresh u hu
  rcases hadvances u.txIdx with hlt | ⟨hinc, hsettled⟩
  · omega
  rw [hinc]
  refine hfresh.imp_right fun ⟨heq, hheld⟩ => ⟨heq, ?_⟩
  rcases hheld with hs | hex
  · exact .inl (hsettled hs)
  · rcases exists_phase_move (P := (Phase.Spends · u.txIdx)) hex with hw | hex
    · rcases hspends _ hw with hp | hd
      · exact .inr ⟨w, by rwa [phase_move_self]⟩
      · exact .inl (.inl hd)
    · exact .inr hex

/-- The other workers stay where they are. -/
lemma Chronicle.phases_move (h : Chronicle vm initial log σ)
    (hself : PhaseKept initial log' mem' executionResults' p)
    (hlog : ∀ u e, log u = some e → log' u = some e)
    (hkept : ∀ w' i, w' ≠ w → (σ.phase w').Spends i →
      mem'.lastLocations i = σ.mvMemory.lastLocations i ∧
        (∀ l, mem'.entry l i = σ.mvMemory.entry l i) ∧
          executionResults' i = σ.executionResults i) (w' : W) :
    PhaseKept initial log' mem' executionResults' ((σ.move w p s).phase w') := by
  by_cases hww : w' = w
  · subst hww
    rw [phase_move_self]
    exact hself
  · have hother : (σ.move w p s).phase w' = σ.phase w' := by simp [move, hww]
    rw [hother]
    exact (h.phases w').mono hlog fun i hspends => hkept w' i hww hspends

/-- A call that leaves the memory and the results as they are. -/
lemma Chronicle.of_move (h : Chronicle vm initial log σ) (hadvances : σ.scheduler.Advances s)
    (hspends : ∀ i, (σ.phase w).Spends i → p.Spends i ∨ s.Done i)
    (hphase : PhaseKept initial log σ.mvMemory σ.executionResults p)
    (hdone : ∀ i, s.Done i → σ.scheduler.Done i ∨
      ∃ v flags, σ.phase w = .stored v flags ∧ v.txIdx = i) :
    Chronicle vm initial log (σ.move w p s) where
  sound := h.sound
  fresh _ hu := h.fresh_move hadvances hspends hu
  unlisted := h.unlisted
  phases := h.phases_move hphase (fun _ _ hu => hu) fun _ _ _ _ => ⟨rfl, fun _ => rfl, rfl⟩
  done := by
    intro i hd
    rcases hdone i hd with hd | ⟨v, flags, hw, rfl⟩
    · exact h.done i hd
    · have hkept := h.phases w
      rw [hw] at hkept
      exact hkept

lemma Chronicle.storeResult (h : Chronicle vm initial log σ) (hc : Crew.Invariant σ.crew)
    {flags : FinishExecFlags} {result : ρ} (hw : σ.phase w = .recorded v flags result) :
    Chronicle vm initial log ({ σ with
      executionResults := Function.update σ.executionResults v.txIdx (some result) }.move w
        (.stored v flags) σ.scheduler) := by
  have hwE : (σ.crew.role w).Executes v.txIdx := by simp [crew, hw, Phase.role]
  have hst : σ.scheduler.statusOf v.txIdx = .executing := (hc.executing_facts hwE).2.1
  have hkept : Kept initial log σ.mvMemory v.txIdx result := by
    have hphase := h.phases w
    rwa [hw] at hphase
  constructor
  case sound => exact h.sound
  case fresh =>
    intro u hu
    apply h.fresh_move (.refl _) _ hu
    intro i hspends
    exact .inl ⟨v, .inr ⟨flags, rfl⟩, by simpa [hw, Phase.Spends] using hspends⟩
  case unlisted => exact h.unlisted
  case phases =>
    refine h.phases_move (s := σ.scheduler) ⟨result, by simp [move], hkept⟩ (fun _ _ hu => hu)
      fun w' i hww hspends => ⟨rfl, fun _ => rfl, ?_⟩
    exact Function.update_of_ne (spends_ne hc hwE hww hspends) _ _
  case done =>
    intro i hd
    have hiv : i ≠ v.txIdx := by
      rintro rfl
      have hd' : σ.scheduler.Done v.txIdx := hd
      simp [Scheduler.Done, hst] at hd'
    obtain ⟨r, hr, hi⟩ := h.done i hd
    exact ⟨r, by simp [move, hiv, hr], hi⟩

lemma Chronicle.record (h : Chronicle vm initial log σ) (hc : Crew.Invariant σ.crew)
    {e : Execution J κ ν ρ} (hw : σ.phase w = .executing v e.job)
    (hnext : vm.next v e.job e.mvMemory (.finished e.readSet e.writeSet e.flags e.result))
    (flags : FinishExecFlags) :
    Chronicle vm initial (Function.update log v (some e))
      ({ σ with mvMemory := (σ.mvMemory.record v e.readSet e.writeSet).2 }.move w
        (.recorded v flags e.result) σ.scheduler) := by
  have hrole : σ.crew.role w = .executor v := by simp [crew, hw, Phase.role]
  have hwE : (σ.crew.role w).Executes v.txIdx := by simp [hrole]
  obtain ⟨hblock, hst, -⟩ := hc.executing_facts hwE
  have hst' : σ.scheduler.statusOf v.txIdx = .executing := hst
  have hlog : ∀ u e', log u = some e' → Function.update log v (some e) u = some e' := by
    intro u e' hu
    have hne : u ≠ v := by
      rintro rfl
      simp [h.unused hc hw] at hu
    rw [Function.update_of_ne hne, hu]
  constructor
  case sound =>
    intro u e' hu
    by_cases huv : u = v
    · subst huv
      rw [Function.update_self] at hu
      cases hu
      exact hnext
    · rw [Function.update_of_ne huv] at hu
      exact h.sound u e' hu
  case fresh =>
    intro u hu
    by_cases huv : u = v
    · subst huv
      have hversion : u = σ.scheduler.versionOf u.txIdx :=
        (hc.tx _ hblock).incarnation w u (.inl hrole) rfl
      refine .inr ⟨congrArg TxVersion.txIncarnation hversion, .inr ⟨w, ?_⟩⟩
      rw [phase_move_self]
      exact ⟨u, .inl ⟨flags, e.result, rfl⟩, rfl⟩
    · rw [Function.update_of_ne huv] at hu
      exact h.fresh_move (.refl _) (by simp [hw, Phase.Spends]) hu
  case unlisted =>
    intro i l x hl hx
    change l ∉ ((σ.mvMemory.record v e.readSet e.writeSet).2.lastLocations i).write at hl
    change (σ.mvMemory.record v e.readSet e.writeSet).2.entry l i = some x at hx
    by_cases hi : i = v.txIdx
    · subst hi
      rw [MvMemory.record_write, not_not] at hl
      exact (h.stands_record e).others l x hl hx
    · rw [MvMemory.record_lastLocations_of_ne _ _ _ _ hi] at hl
      rw [MvMemory.record_entry_of_ne _ hi] at hx
      exact h.unlisted i l x hl hx
  case phases =>
    refine h.phases_move (s := σ.scheduler) ?_ hlog fun w' i hww hspends => ?_
    · exact ⟨v, e, rfl, Function.update_self _ _ _, rfl, h.stands_record e⟩
    · have hi := spends_ne hc hwE hww hspends
      exact ⟨MvMemory.record_lastLocations_of_ne _ _ _ _ hi,
        MvMemory.record_entry_of_ne _ hi _ _, rfl⟩
  case done =>
    intro i hd
    have hi : i ≠ v.txIdx := by
      rintro rfl
      have hd' : σ.scheduler.Done v.txIdx := hd
      simp [Scheduler.Done, hst'] at hd'
    obtain ⟨r, hr, hkept⟩ := h.done i hd
    exact ⟨r, hr, hkept.mono hlog (MvMemory.record_lastLocations_of_ne _ _ _ _ hi)
      (MvMemory.record_entry_of_ne _ hi _ _)⟩

lemma Chronicle.convertWritesToEstimates (h : Chronicle vm initial log σ)
    (hc : Crew.Invariant σ.crew) (hw : σ.phase w = .aborted v) :
    Chronicle vm initial log ({ σ with
      mvMemory := σ.mvMemory.convertWritesToEstimates v.txIdx }.move w (.converted v)
        σ.scheduler) := by
  have hwA : (σ.crew.role w).Aborts v.txIdx := by simp [crew, hw, Phase.role]
  obtain ⟨-, hst, -, hexecutes, -⟩ := hc.aborting_facts hwA
  have hst' : σ.scheduler.statusOf v.txIdx = .aborting := hst
  have hentry : ∀ i, i ≠ v.txIdx → ∀ l,
      (σ.mvMemory.convertWritesToEstimates v.txIdx).entry l i = σ.mvMemory.entry l i := by
    intro i hi l
    rw [MvMemory.convert_entry, if_neg (by simp [hi])]
  have hspends_ne : ∀ w' i, (σ.phase w').Spends i → i ≠ v.txIdx := by
    rintro w' i ⟨u, ⟨flags, result, hphase⟩ | ⟨flags, hphase⟩, hu⟩ rfl
    · exact hexecutes w' (by simp [crew, hphase, Phase.role, hu])
    · exact hexecutes w' (by simp [crew, hphase, Phase.role, hu])
  constructor
  case sound => exact h.sound
  case fresh =>
    intro u hu
    exact h.fresh_move (.refl _) (by simp [hw, Phase.Spends]) hu
  case unlisted =>
    intro i l x hl hx
    change l ∉ (σ.mvMemory.lastLocations i).write at hl
    change (σ.mvMemory.convertWritesToEstimates v.txIdx).entry l i = some x at hx
    rw [MvMemory.convert_entry] at hx
    split_ifs at hx with hconvert
    · exact absurd (hconvert.1 ▸ hconvert.2.1) hl
    · exact h.unlisted i l x hl hx
  case phases =>
    exact h.phases_move (s := σ.scheduler) trivial (fun _ _ hu => hu)
      fun w' i _ hspends => ⟨rfl, hentry i (hspends_ne w' i hspends), rfl⟩
  case done =>
    intro i hd
    have hiv : i ≠ v.txIdx := by
      rintro rfl
      have hd' : σ.scheduler.Done v.txIdx := hd
      simp [Scheduler.Done, hst'] at hd'
    obtain ⟨r, hr, hkept⟩ := h.done i hd
    exact ⟨r, hr, hkept.mono (fun _ _ hu => hu) rfl (hentry i hiv)⟩

lemma Chronicle.finishExecution (h : Chronicle vm initial log σ) (hc : Crew.Invariant σ.crew)
    (vm' : Vm J κ ν ρ) {flags : FinishExecFlags} (hw : σ.phase w = .stored v flags) :
    Chronicle vm initial log (σ.move w (.ofTask vm' (σ.scheduler.finishExecution v flags).1)
      (σ.scheduler.finishExecution v flags).2) := by
  have hwE : (σ.crew.role w).Executes v.txIdx := by simp [crew, hw, Phase.role]
  have hi : v.txIdx < σ.scheduler.blockSize := (hc.executing_facts hwE).1
  apply h.of_move (Scheduler.finishExecution_advances hi (hc.tx _ hi).parkedNodup flags)
  · intro i hspends
    have hv : v.txIdx = i := by simpa [hw, Phase.Spends] using hspends
    right; left
    rw [Scheduler.finishExecution_statusOf hi flags, if_pos hv.symm]
  · exact phaseKept_ofTask _
  · intro i hd
    rcases Scheduler.finishExecution_done hi flags hd with hd | rfl
    · exact .inl hd
    · exact .inr ⟨v, flags, hw, rfl⟩

omit [DecidableEq κ] in
lemma ofTask_congr {vm' : Vm J κ ν ρ} (h : vm.start = vm'.start) (t : Option Task) :
    Phase.ofTask vm t = Phase.ofTask vm' t := by
  rcases t with _ | (v | v)
  · rfl
  · exact congrArg (Phase.executing v) (congrFun h v)
  · rfl

omit [DecidableEq κ] in
lemma ofPoll_congr {vm' : Vm J κ ν ρ} (h : vm.start = vm'.start) (p : Scheduler.Poll) :
    Phase.ofPoll vm p = Phase.ofPoll vm' p := by
  cases p with
  | task t => exact ofTask_congr h (some t)
  | again => rfl
  | exit => rfl

/-- A call with the second machine is one with the first. -/
lemma Step.extend {vm' : Vm J κ ν ρ} {σ' : Pexe W J κ ν ρ} (hextends : vm.Extends vm')
    (h : Step vm' σ σ') : Step vm σ σ' := by
  cases h with
  | nextTask hw =>
    rw [← ofPoll_congr hextends.start]
    exact .nextTask hw
  | read hw hnext => exact .read hw (hextends.next _ _ _ _ hnext)
  | retry hw hnext =>
    rw [← hextends.start]
    exact .retry hw (hextends.next _ _ _ _ hnext)
  | block hw hnext => exact .block hw (hextends.next _ _ _ _ hnext)
  | addDependency hw =>
    rw [← hextends.start]
    exact .addDependency hw
  | record hw hnext => exact .record hw (hextends.next _ _ _ _ hnext)
  | storeResult hw => exact .storeResult hw
  | finishExecution hw =>
    rw [← ofTask_congr hextends.start]
    exact .finishExecution hw
  | validateReadLocations hw => exact .validateReadLocations hw
  | tryValidationAbort hw => exact .tryValidationAbort hw
  | convertWritesToEstimates hw => exact .convertWritesToEstimates hw
  | finishAbort hw =>
    rw [← ofTask_congr hextends.start]
    exact .finishAbort hw
  | finishValidation hw =>
    rw [← ofTask_congr hextends.start]
    exact .finishValidation hw

/-- Where a machine comes to stand by a call: where it was, at a start, or one read further. -/
def Advanced (vm : Vm J κ ν ρ) (σ : Pexe W J κ ν ρ) (w : W) (v : TxVersion) (job : J) : Prop :=
  σ.phase w = .executing v job ∨ job = vm.start v ∨
    ∃ job₀, σ.phase w = .executing v job₀ ∧ vm.next v job₀ σ.mvMemory (.running job)

omit [DecidableEq κ] in
lemma eq_start_of_ofTask {t : Option Task} {job : J}
    (h : Phase.ofTask vm t = (.executing v job : Phase J ρ)) : job = vm.start v := by
  rcases t with _ | (u | u)
  · cases h
  · cases h
    rfl
  · cases h

omit [DecidableEq κ] in
lemma eq_start_of_ofPoll {p : Scheduler.Poll} {job : J}
    (h : Phase.ofPoll vm p = (.executing v job : Phase J ρ)) : job = vm.start v := by
  cases p with
  | task t => exact eq_start_of_ofTask h
  | again => cases h
  | exit => cases h

omit [DecidableEq κ] in
lemma advanced_of_move {p : Phase J ρ} {s : Scheduler} {mem : MvMemory κ ν}
    {results : ℕ → Option ρ} {w' : W} {job : J}
    (hself : p = .executing v job → Advanced vm σ w v job)
    (h : ((⟨σ.scheduler, results, mem, σ.phase⟩ : Pexe W J κ ν ρ).move w p s).phase w' =
      .executing v job) : Advanced vm σ w' v job := by
  by_cases hww : w' = w
  · subst hww
    rw [phase_move_self] at h
    exact hself h
  · left
    simpa [move, hww] using h

/-- A machine stays where it is, starts, or goes on. -/
theorem Step.advances {σ' : Pexe W J κ ν ρ} (h : Step vm σ σ') {job : J}
    (hjob : σ'.phase w = .executing v job) : Advanced vm σ w v job := by
  cases h with
  | nextTask hw => exact advanced_of_move (fun h => .inr (.inl (eq_start_of_ofPoll h))) hjob
  | read hw hnext =>
    refine advanced_of_move (fun h => ?_) hjob
    cases h
    exact .inr (.inr ⟨_, hw, hnext⟩)
  | retry hw _ =>
    refine advanced_of_move (fun h => ?_) hjob
    cases h
    exact .inr (.inl rfl)
  | addDependency hw =>
    refine advanced_of_move (fun h => ?_) hjob
    split_ifs at h
    cases h
    exact .inr (.inl rfl)
  | finishExecution hw | finishAbort hw | finishValidation hw =>
    exact advanced_of_move (fun h => .inr (.inl (eq_start_of_ofTask h))) hjob
  | validateReadLocations hw | tryValidationAbort hw =>
    refine advanced_of_move (fun h => ?_) hjob
    split_ifs at h
  | block hw _ | record hw _ | storeResult hw | convertWritesToEstimates hw =>
    exact advanced_of_move (fun h => by cases h) hjob

/-- What a call of the second machine does to the memory, and how the log goes on with it. -/
inductive Chronicles (vm vm' : Vm J κ ν ρ) (initial : MvMemory κ ν)
    (log : TxVersion → Option (Execution J κ ν ρ)) (σ σ' : Pexe W J κ ν ρ) : Prop
  | silent : σ'.mvMemory = σ.mvMemory → Chronicle vm initial log σ' →
      Chronicles vm vm' initial log σ σ'
  | convert (i : ℕ) : σ'.mvMemory = σ.mvMemory.convertWritesToEstimates i →
      Chronicle vm initial log σ' → Chronicles vm vm' initial log σ σ'
  | record {w : W} {v : TxVersion} {e : Execution J κ ν ρ} : σ.phase w = .executing v e.job →
      vm'.next v e.job σ.mvMemory (.finished e.readSet e.writeSet e.flags e.result) →
      log v = none → σ'.mvMemory = (σ.mvMemory.record v e.readSet e.writeSet).2 →
      Chronicle vm initial (Function.update log v (some e)) σ' →
      Chronicles vm vm' initial log σ σ'

/-- The log grows by what a call records. -/
theorem Chronicle.step {vm' : Vm J κ ν ρ} (h : Chronicle vm initial log σ)
    (hc : Crew.Invariant σ.crew) (hextends : vm.Extends vm') {σ' : Pexe W J κ ν ρ}
    (hs : Step vm' σ σ') : Chronicles vm vm' initial log σ σ' := by
  cases hs with
  | nextTask hw =>
    have hspec := σ.scheduler.poll_spec
    refine .silent rfl (h.of_move hspec.advances (by simp [hw, Phase.Spends])
      (phaseKept_ofPoll _) ?_)
    exact fun i hd => .inl ((hspec.done i).mp hd)
  | read hw _ | retry hw _ | block hw _ =>
    exact .silent rfl (h.of_move (.refl _) (by simp [hw, Phase.Spends]) trivial
      fun i hd => .inl hd)
  | @addDependency w v blocking lower hw =>
    refine .silent rfl (h.of_move (Scheduler.addDependency_advances _ _)
      (by simp [hw, Phase.Spends]) ?_ fun i hd => .inl (Scheduler.addDependency_done hd))
    split <;> trivial
  | @record w v job readSet writeSet flags result hw hnext =>
    let e : Execution J κ ν ρ := ⟨job, σ.mvMemory, readSet, writeSet, flags, result⟩
    exact .record (e := e) hw hnext (h.unused hc hw) rfl
      (h.record (e := e) hc hw (hextends.next _ _ _ _ hnext) _)
  | storeResult hw => exact .silent rfl (h.storeResult hc hw)
  | finishExecution hw => exact .silent rfl (h.finishExecution hc vm' hw)
  | validateReadLocations hw =>
    refine .silent rfl (h.of_move (.refl _) (by simp [hw, Phase.Spends]) ?_ fun i hd => .inl hd)
    split <;> trivial
  | tryValidationAbort hw =>
    refine .silent rfl (h.of_move Scheduler.tryValidationAbort_advances
      (by simp [hw, Phase.Spends]) ?_ fun i hd => .inl (Scheduler.tryValidationAbort_done _ hd))
    split <;> trivial
  | convertWritesToEstimates hw => exact .convert _ rfl (h.convertWritesToEstimates hc hw)
  | @finishAbort w v hw =>
    have hwA : (σ.crew.role w).Aborts v.txIdx := by simp [crew, hw, Phase.role]
    have hi : v.txIdx < σ.scheduler.blockSize := (hc.aborting_facts hwA).1
    exact .silent rfl (h.of_move (Scheduler.finishValidation_true_advances hi)
      (by simp [hw, Phase.Spends]) (phaseKept_ofTask _)
      fun i hd => .inl (Scheduler.finishValidation_true_done v hi hd))
  | @finishValidation w v hw =>
    exact .silent rfl (h.of_move Scheduler.finishValidation_false_advances
      (by simp [hw, Phase.Spends]) (phaseKept_ofTask _)
      fun i hd => .inl ((Scheduler.finishValidation_false_done v i).mp hd))

end Move

section Runs
variable [DecidableEq W] {n : ℕ} {estimatedLocations : List (κ × List ℕ)}

lemma Chronicle.init (h : (system W vm n estimatedLocations).init σ) :
    Chronicle vm (.new estimatedLocations) (fun _ => none) σ := by
  obtain ⟨hscheduler, hmem, hphase⟩ := h
  constructor
  case sound =>
    intro v e hv
    cases hv
  case fresh =>
    intro v hv
    exact absurd rfl hv
  case unlisted =>
    intro i l x _ hx
    rwa [hmem] at hx
  case phases =>
    intro w
    rw [hphase w]
    trivial
  case done =>
    intro i hd
    rw [hscheduler] at hd
    simp [Scheduler.Done, Scheduler.new, Scheduler.statusOf] at hd

variable [Nonempty W]

theorem Chronicle.of_reachable (h : (system W vm n estimatedLocations).Reachable σ) :
    ∃ log, Chronicle vm (.new estimatedLocations) log σ := by
  apply h.invariant (P := fun σ => ∃ log, Chronicle vm (.new estimatedLocations) log σ)
  · exact fun σ hσ => ⟨_, Chronicle.init hσ⟩
  · rintro σ σ' hr ⟨log, hlog⟩ hs
    cases hlog.step (crew_invariant hr).1 (.refl vm) hs with
    | silent _ hnew => exact ⟨_, hnew⟩
    | convert _ _ hnew => exact ⟨_, hnew⟩
    | record _ _ _ _ hnew => exact ⟨_, hnew⟩

/-- No transaction outside the block is ever recorded. -/
lemma lastLocations_write_of_le (h : (system W vm n estimatedLocations).Reachable σ) {i : ℕ}
    (hi : n ≤ i) : (σ.mvMemory.lastLocations i).write = [] := by
  apply h.invariant (P := fun σ => (σ.mvMemory.lastLocations i).write = [])
  · rintro σ ⟨-, hmem, -⟩
    rw [hmem]
    rfl
  · intro σ σ' hr ih hs
    obtain ⟨hcrew, hsize⟩ := crew_invariant hr
    cases hs with
    | @record w v job readSet writeSet flags result hw hnext =>
      have hwE : (σ.crew.role w).Executes v.txIdx := by simp [crew, hw, Phase.role]
      have hv : v.txIdx < σ.scheduler.blockSize := (hcrew.executing_facts hwE).1
      have hne : i ≠ v.txIdx := by omega
      change ((σ.mvMemory.record v readSet writeSet).2.lastLocations i).write = []
      rw [MvMemory.record_lastLocations_of_ne _ _ _ _ hne]
      exact ih
    | nextTask | read | retry | block | addDependency | storeResult | finishExecution
    | validateReadLocations | tryValidationAbort | convertWritesToEstimates | finishAbort
    | finishValidation => exact ih

/-- When all workers have left, every transaction is done and no read set is stale. -/
theorem valid_of_gone (h : (system W vm n estimatedLocations).Reachable σ)
    (hgone : ∀ w, σ.phase w = .gone) {j : ℕ} (hj : j < n) :
    σ.scheduler.Done j ∧ σ.mvMemory.validateReadLocations j = true := by
  obtain ⟨hcrew, hsize⟩ := crew_invariant h
  obtain ⟨hidx, hvalidated⟩ := hcrew.goneDone fun w => by simp [crew, hgone w, Phase.role]
  have hidx' : σ.scheduler.blockSize ≤ σ.scheduler.validationIdx := hidx
  have hjs : j < σ.scheduler.blockSize := by omega
  have hdone : σ.scheduler.Done j := .inr (hvalidated j hjs)
  refine ⟨hdone, ?_⟩
  by_contra hstale
  rcases (MemoryInvariant.of_reachable h).covered j hjs hdone (by simpa using hstale) with
    hle | ⟨w, v, hphase, -⟩ | ⟨i, -, w, hlowers⟩
  · omega
  · simp [hgone w] at hphase
  · obtain ⟨v, hphase, -⟩ := hlowers.unreported
    simp [hgone w] at hphase

end Runs

end Pexe

end Pevm
