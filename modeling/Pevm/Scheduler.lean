import Mathlib.Logic.Function.Basic
import Mathlib.Tactic.Simps.Basic
import Pevm.Primitives

/-!
# The collaborative scheduler

Workers pull tasks through two counters, one for executions and one for
validations. A transaction has a status; one that reads an estimate is parked in the
list of the transaction it waits for.

Transaction indices and incarnations are natural numbers. A vector over the block is a
function on indices here; only indices below the block size are ever used.
-/
namespace Pevm

/-- A transaction at one of its executions: an abort raises the incarnation, and the first execution
has incarnation 0. -/
structure TxVersion where
  txIdx : ℕ
  txIncarnation : ℕ
  deriving DecidableEq, Repr

/-- How far the current incarnation of a transaction is. It waits in `aborting` too, until the
transaction it depends on is through or its estimates have been made. -/
inductive IncarnationStatus
  | readyToExecute
  | executing
  | executed
  | validated
  | aborting
  deriving DecidableEq, Repr

/-- The current incarnation of a transaction and how far it is. The source keeps the pair behind one
mutex for each transaction. -/
structure TxStatus where
  incarnation : ℕ
  status : IncarnationStatus
  deriving DecidableEq, Repr

/-- What a worker is given to do: to execute a transaction or to look whether its reads still hold.
-/
inductive Task
  | execution (version : TxVersion)
  | validation (version : TxVersion)
  deriving DecidableEq, Repr

/-- The bit flags that an execution hands to `finish_execution`, as they are laid out in a byte. -/
structure FinishExecFlags where
  bits : U8
  deriving DecidableEq, Repr

namespace FinishExecFlags

def empty : FinishExecFlags := ⟨0⟩
/-- `NeedValidation = 0` in the source: no bit is set in this flag, so every value contains it. -/
def needValidation : FinishExecFlags := ⟨0⟩
/-- The execution wrote where the incarnation before it had not written. -/
def wroteNewLocation : FinishExecFlags := ⟨1⟩

/-- `bitflags`: all bits of the other value are set. A value without bits is contained in every one.
-/
def contains (flags other : FinishExecFlags) : Bool := flags.bits &&& other.bits = other.bits

def union (flags other : FinishExecFlags) : FinishExecFlags := ⟨flags.bits ||| other.bits⟩

@[simp] theorem contains_needValidation (flags : FinishExecFlags) :
    flags.contains needValidation = true := by
  simp [contains, needValidation]

@[simp] theorem contains_union (flags other : FinishExecFlags) :
    (flags.union other).contains other = true := by
  have hbits : (flags.bits ||| other.bits) &&& other.bits = other.bits := by
    ext i hi
    simp only [BitVec.getElem_and, BitVec.getElem_or]
    cases other.bits[i] <;> simp
  simp [contains, union, hbits]

end FinishExecFlags

/-- The scheduler of a block: for each transaction its status and who waits for it, and the counters
that the workers share. Atomics and mutexes are plain fields here; which accesses come in between is
for the systems over it to say. -/
structure Scheduler where
  blockSize : ℕ
  transactionsStatus : ℕ → TxStatus
  transactionsDependents : ℕ → List ℕ
  executionIdx : ℕ
  validationIdx : ℕ
  minValidationIdx : ℕ
  numValidated : ℕ
  aborted : Bool

namespace Scheduler

/-- `Scheduler::new`: every transaction is ready for its first incarnation, and there is nothing to
validate yet. -/
def new (blockSize : ℕ) : Scheduler where
  blockSize
  transactionsStatus _ := ⟨0, .readyToExecute⟩
  transactionsDependents _ := []
  executionIdx := 0
  validationIdx := blockSize
  minValidationIdx := blockSize
  numValidated := 0
  aborted := false

/-- `Scheduler::abort`: the workers are told to leave. -/
def abort (s : Scheduler) : Scheduler := { s with aborted := true }

/-- How far the current incarnation of a transaction is. -/
def statusOf (s : Scheduler) (j : ℕ) : IncarnationStatus := (s.transactionsStatus j).status

/-- The number of the current incarnation of a transaction. -/
def incarnationOf (s : Scheduler) (j : ℕ) : ℕ :=
  (s.transactionsStatus j).incarnation

/-- The transaction at its current incarnation, as it is handed out in a task. -/
def versionOf (s : Scheduler) (j : ℕ) : TxVersion := ⟨j, s.incarnationOf j⟩

/-- The current incarnation has been executed and has not been aborted since. -/
def Done (s : Scheduler) (j : ℕ) : Prop := s.statusOf j = .executed ∨ s.statusOf j = .validated

instance (s : Scheduler) (j : ℕ) : Decidable (s.Done j) :=
  inferInstanceAs (Decidable (s.statusOf j = .executed ∨ s.statusOf j = .validated))

/-- The same scheduler with another counter for executions. -/
@[simps]
def withExecutionIdx (s : Scheduler) (e : ℕ) : Scheduler := { s with executionIdx := e }

/-- The same scheduler with another counter for validations. -/
@[simps]
def withValidationIdx (s : Scheduler) (v : ℕ) : Scheduler := { s with validationIdx := v }

/-- The same scheduler with another lowest transaction that needs validation. -/
@[simps]
def withMinValidationIdx (s : Scheduler) (m : ℕ) : Scheduler := { s with minValidationIdx := m }

/-- The same scheduler with another number of validated transactions. -/
@[simps]
def withNumValidated (s : Scheduler) (k : ℕ) : Scheduler := { s with numValidated := k }

/-- The same scheduler with other transactions that wait for transaction `j`. -/
@[simps]
def withDependents (s : Scheduler) (j : ℕ) (deps : List ℕ) : Scheduler :=
  { s with transactionsDependents := Function.update s.transactionsDependents j deps }

/-- The same scheduler with another status of transaction `j`, whose incarnation stays. -/
@[simps]
def setStatus (s : Scheduler) (j : ℕ) (status : IncarnationStatus) : Scheduler :=
  { s with
    transactionsStatus :=
      Function.update s.transactionsStatus j { s.transactionsStatus j with status } }

/-- `Scheduler::try_execute`: a transaction that is ready is taken for execution. One beyond the
block, or one that is not ready, is left as it is. -/
def tryExecute (s : Scheduler) (txIdx : ℕ) : Option TxVersion × Scheduler :=
  if txIdx < s.blockSize ∧ s.statusOf txIdx = .readyToExecute then
    (some (s.versionOf txIdx), s.setStatus txIdx .executing)
  else (none, s)

/-- What one iteration of the loop in `next_task` ends with: a task, the end of the worker, or
another iteration. -/
inductive Poll
  | task (task : Task)
  | exit
  | again
  deriving DecidableEq, Repr

/-- The last part of an iteration: the next transaction to execute is taken off the counter, and
taken if it is ready. -/
def pollExecution (s : Scheduler) : Poll × Scheduler :=
  match (s.withExecutionIdx (s.executionIdx + 1)).tryExecute s.executionIdx with
  | (some version, s) => (.task (.execution version), s)
  | (none, s) => (.again, s)

/-- One iteration of the loop in `next_task`. -/
def poll (s : Scheduler) : Poll × Scheduler :=
  if s.aborted then (.exit, s)
  else if s.blockSize ≤ s.executionIdx ∧ s.blockSize ≤ s.validationIdx then
    if s.blockSize - s.minValidationIdx ≤ s.numValidated then (.exit, s) else (.again, s)
  else if s.validationIdx < s.executionIdx then
    let txIdx := s.validationIdx
    let s := s.withValidationIdx (s.validationIdx + 1)
    if txIdx < s.blockSize then
      match s.statusOf txIdx with
      -- the execution is stolen
      | .readyToExecute => (.task (.execution (s.versionOf txIdx)), s.setStatus txIdx .executing)
      | .executed | .validated => (.task (.validation (s.versionOf txIdx)), s)
      | .aborting => (.again, s)
      | .executing => s.pollExecution
    else s.pollExecution
  else s.pollExecution

/-- `next_task` with a bound on its iterations; `none` when the bound is used up. -/
def nextTask : ℕ → Scheduler → Option (Option Task × Scheduler)
  | 0, _ => none
  | fuel + 1, s =>
    match s.poll with
    | (.task t, s) => some (some t, s)
    | (.exit, s) => some (none, s)
    | (.again, s) => nextTask fuel s

/-- The answer is `false` when the blocking transaction has been executed meanwhile. -/
def addDependency (s : Scheduler) (txIdx blockingTxIdx : ℕ) : Bool × Scheduler :=
  match s.statusOf blockingTxIdx with
  | .executed | .validated => (false, s)
  | _ =>
    let s := s.setStatus txIdx .aborting
    (true, s.withDependents blockingTxIdx (s.transactionsDependents blockingTxIdx ++ [txIdx]))

/-- `Scheduler::set_ready_status`: the next incarnation is ready to be executed. -/
@[simps]
def setReadyStatus (s : Scheduler) (txIdx : ℕ) : Scheduler :=
  { s with
    transactionsStatus := Function.update s.transactionsStatus txIdx
      ⟨s.incarnationOf txIdx + 1, .readyToExecute⟩ }

/-- One dependent transaction is made ready, and the counter for executions goes back to it. -/
def resume (s : Scheduler) (txIdx : ℕ) : Scheduler :=
  let s := s.setReadyStatus txIdx
  s.withExecutionIdx (min s.executionIdx txIdx)

def markValidated (s : Scheduler) (txIdx : ℕ) : Scheduler :=
  (s.setStatus txIdx .validated).withNumValidated (s.numValidated + 1)

def finishExecution (s : Scheduler) (version : TxVersion) (flags : FinishExecFlags) :
    Option Task × Scheduler :=
  let txIdx := version.txIdx
  let dependents := s.transactionsDependents txIdx
  let s := dependents.foldl resume (s.withDependents txIdx [])
  let minValidationIdx :=
    if flags.contains .needValidation then min s.minValidationIdx txIdx else s.minValidationIdx
  let s := if flags.contains .needValidation then
    s.withMinValidationIdx (min s.minValidationIdx txIdx) else s
  let finish (s : Scheduler) : Option Task × Scheduler :=
    (none, if flags.contains .needValidation then s.setStatus txIdx .executed
      else s.markValidated txIdx)
  if minValidationIdx < s.blockSize then
    if txIdx < minValidationIdx then
      finish (if flags.contains .wroteNewLocation then
        s.withValidationIdx (min s.validationIdx minValidationIdx) else s)
    else if txIdx < s.validationIdx then
      let s := if flags.contains .wroteNewLocation then
        s.withValidationIdx (min s.validationIdx (txIdx + 1)) else s
      if flags.contains .needValidation then
        (some (.validation version), s.setStatus txIdx .executed)
      else finish (s.markValidated txIdx)
    else finish s
  else finish s

/-- `Scheduler::try_validation_abort`: the first worker that finds the reads invalid gets to abort
the incarnation. One that was validated is no longer counted. -/
def tryValidationAbort (s : Scheduler) (version : TxVersion) : Bool × Scheduler :=
  match s.statusOf version.txIdx with
  | .validated =>
    (true, (s.setStatus version.txIdx .aborting).withNumValidated (s.numValidated - 1))
  | .executed => (true, s.setStatus version.txIdx .aborting)
  | _ => (false, s)

/-- `Scheduler::finish_validation`: after an abort the next incarnation is made ready, and executed
at once where the counter has passed it; else the transaction is validated, if it has not been
before. -/
def finishValidation (s : Scheduler) (version : TxVersion) (aborted : Bool) :
    Option Task × Scheduler :=
  if aborted then
    let s := s.setReadyStatus version.txIdx
    let s := s.withValidationIdx (min s.validationIdx (version.txIdx + 1))
    if version.txIdx < s.executionIdx then
      match s.tryExecute version.txIdx with
      | (some v, s) => (some (.execution v), s)
      | (none, s) => (none, s)
    else (none, s)
  else if s.statusOf version.txIdx = .executed then (none, s.markValidated version.txIdx)
  else (none, s)

section Updates
variable (s : Scheduler) (j i : ℕ)

@[simp] theorem withExecutionIdx_statusOf (e : ℕ) :
    (s.withExecutionIdx e).statusOf i = s.statusOf i := rfl

@[simp] theorem withExecutionIdx_incarnationOf (e : ℕ) :
    (s.withExecutionIdx e).incarnationOf i = s.incarnationOf i := rfl

@[simp] theorem withExecutionIdx_versionOf (e : ℕ) :
    (s.withExecutionIdx e).versionOf i = s.versionOf i := rfl

@[simp] theorem withValidationIdx_statusOf (v : ℕ) :
    (s.withValidationIdx v).statusOf i = s.statusOf i := rfl

@[simp] theorem withValidationIdx_incarnationOf (v : ℕ) :
    (s.withValidationIdx v).incarnationOf i = s.incarnationOf i := rfl

@[simp] theorem withValidationIdx_versionOf (v : ℕ) :
    (s.withValidationIdx v).versionOf i = s.versionOf i := rfl

@[simp] theorem withMinValidationIdx_statusOf (m : ℕ) :
    (s.withMinValidationIdx m).statusOf i = s.statusOf i := rfl

@[simp] theorem withMinValidationIdx_incarnationOf (m : ℕ) :
    (s.withMinValidationIdx m).incarnationOf i = s.incarnationOf i := rfl

@[simp] theorem withNumValidated_statusOf (k : ℕ) :
    (s.withNumValidated k).statusOf i = s.statusOf i := rfl

@[simp] theorem withNumValidated_incarnationOf (k : ℕ) :
    (s.withNumValidated k).incarnationOf i = s.incarnationOf i := rfl

@[simp] theorem withDependents_statusOf (deps : List ℕ) :
    (s.withDependents j deps).statusOf i = s.statusOf i := rfl

@[simp] theorem withDependents_incarnationOf (deps : List ℕ) :
    (s.withDependents j deps).incarnationOf i = s.incarnationOf i := rfl

@[simp] theorem setStatus_statusOf (status : IncarnationStatus) :
    (s.setStatus j status).statusOf i = if i = j then status else s.statusOf i := by
  by_cases h : i = j
  · subst h
    simp [setStatus, statusOf]
  · simp [setStatus, statusOf, h]

@[simp] theorem setStatus_incarnationOf (status : IncarnationStatus) :
    (s.setStatus j status).incarnationOf i = s.incarnationOf i := by
  by_cases h : i = j
  · subst h
    simp [setStatus, incarnationOf]
  · simp [setStatus, incarnationOf, h]

@[simp] theorem setReadyStatus_statusOf :
    (s.setReadyStatus j).statusOf i = if i = j then .readyToExecute else s.statusOf i := by
  by_cases h : i = j
  · subst h
    simp [setReadyStatus, statusOf]
  · simp [setReadyStatus, statusOf, h]

@[simp] theorem setReadyStatus_incarnationOf :
    (s.setReadyStatus j).incarnationOf i =
      if i = j then s.incarnationOf i + 1 else s.incarnationOf i := by
  by_cases h : i = j
  · subst h
    simp [setReadyStatus, incarnationOf]
  · simp [setReadyStatus, incarnationOf, h]

@[simp] theorem withExecutionIdx_done (e : ℕ) : (s.withExecutionIdx e).Done i ↔ s.Done i :=
  Iff.rfl

@[simp] theorem withValidationIdx_done (v : ℕ) : (s.withValidationIdx v).Done i ↔ s.Done i :=
  Iff.rfl

@[simp] theorem withNumValidated_done (k : ℕ) : (s.withNumValidated k).Done i ↔ s.Done i :=
  Iff.rfl

@[simp] theorem withDependents_done (deps : List ℕ) :
    (s.withDependents j deps).Done i ↔ s.Done i := Iff.rfl

variable {s j i}

/-- A status that is not done makes nothing done. -/
lemma Done.of_setStatus {status : IncarnationStatus} (hexecuted : status ≠ .executed)
    (hvalidated : status ≠ .validated) (h : (s.setStatus j status).Done i) : s.Done i := by
  simp only [Done, setStatus_statusOf] at h
  by_cases hij : i = j
  · simp [hij, hexecuted, hvalidated] at h
  · rw [if_neg hij] at h
    exact h

lemma Done.of_setReadyStatus (h : (s.setReadyStatus j).Done i) : s.Done i := by
  simp only [Done, setReadyStatus_statusOf] at h
  by_cases hij : i = j
  · simp [hij] at h
  · rw [if_neg hij] at h
    exact h

end Updates

section Resume

lemma resume_foldl_fields (deps : List ℕ) (s : Scheduler) :
    (deps.foldl resume s).blockSize = s.blockSize ∧
      (deps.foldl resume s).transactionsDependents = s.transactionsDependents ∧
      (deps.foldl resume s).validationIdx = s.validationIdx ∧
      (deps.foldl resume s).minValidationIdx = s.minValidationIdx ∧
      (deps.foldl resume s).aborted = s.aborted := by
  induction deps generalizing s with
  | nil => simp
  | cons d deps ih => exact ih (s.resume d)

lemma resume_foldl_executionIdx (deps : List ℕ) (s : Scheduler) :
    (deps.foldl resume s).executionIdx ≤ s.executionIdx ∧
      ∀ d ∈ deps, (deps.foldl resume s).executionIdx ≤ d := by
  induction deps generalizing s with
  | nil => simp
  | cons d deps ih =>
    obtain ⟨hle, hmem⟩ := ih (s.resume d)
    have hd : (s.resume d).executionIdx = min s.executionIdx d := rfl
    rw [List.foldl_cons]
    constructor
    · omega
    · intro d' hd'
      rcases List.mem_cons.mp hd' with rfl | hd'
      · omega
      · exact hmem d' hd'

lemma resume_foldl_statusOf (deps : List ℕ) (s : Scheduler) (i : ℕ) :
    (deps.foldl resume s).statusOf i = if i ∈ deps then .readyToExecute else s.statusOf i := by
  induction deps generalizing s with
  | nil => simp
  | cons d deps ih =>
    have hd : (s.resume d).statusOf i = (s.setReadyStatus d).statusOf i := rfl
    rw [List.foldl_cons, ih, hd]
    by_cases h : i ∈ deps <;> simp [h]

lemma resume_foldl_incarnationOf {deps : List ℕ} (hnodup : deps.Nodup) (s : Scheduler)
    (i : ℕ) :
    (deps.foldl resume s).incarnationOf i =
      if i ∈ deps then s.incarnationOf i + 1 else s.incarnationOf i := by
  induction deps generalizing s with
  | nil => simp
  | cons d deps ih =>
    obtain ⟨hd, hdeps⟩ := List.nodup_cons.mp hnodup
    have hresume : (s.resume d).incarnationOf i = (s.setReadyStatus d).incarnationOf i := rfl
    rw [List.foldl_cons, ih hdeps, hresume]
    by_cases h : i = d
    · subst h
      simp [hd]
    · simp [h]

end Resume

section Specs
variable {s : Scheduler}

/-- What an iteration of `next_task` can do to the scheduler, one constructor for each way out of
it. -/
inductive PollSpec (s : Scheduler) : Poll → Scheduler → Prop
  | exit : (s.aborted = true ∨ s.blockSize ≤ s.executionIdx ∧ s.blockSize ≤ s.validationIdx) →
      PollSpec s .exit s
  /-- All is handed out, but not all is validated. -/
  | wait : s.blockSize ≤ s.executionIdx → s.blockSize ≤ s.validationIdx → PollSpec s .again s
  /-- The counters pass transactions that need no worker. -/
  | skip {e v : ℕ} :
      (e = s.executionIdx ∨ e = s.executionIdx + 1 ∧
        (s.executionIdx < s.blockSize → s.statusOf s.executionIdx ≠ .readyToExecute)) →
      (v = s.validationIdx ∨ v = s.validationIdx + 1 ∧
        (s.statusOf s.validationIdx = .aborting ∨ s.statusOf s.validationIdx = .executing)) →
      (s.executionIdx < s.blockSize ∧ e = s.executionIdx + 1 ∨
        s.validationIdx < s.blockSize ∧ v = s.validationIdx + 1) →
      PollSpec s .again ((s.withValidationIdx v).withExecutionIdx e)
  /-- An execution is handed out at the execution counter. -/
  | execute {v : ℕ} : s.executionIdx < s.blockSize →
      s.statusOf s.executionIdx = .readyToExecute →
      (v = s.validationIdx ∨ v = s.validationIdx + 1 ∧
        s.statusOf s.validationIdx = .executing) →
      PollSpec s (.task (.execution (s.versionOf s.executionIdx)))
        (((s.withValidationIdx v).withExecutionIdx (s.executionIdx + 1)).setStatus
          s.executionIdx .executing)
  /-- An execution is stolen at the validation counter. -/
  | steal : s.validationIdx < s.blockSize → s.validationIdx < s.executionIdx →
      s.statusOf s.validationIdx = .readyToExecute →
      PollSpec s (.task (.execution (s.versionOf s.validationIdx)))
        ((s.withValidationIdx (s.validationIdx + 1)).setStatus s.validationIdx .executing)
  | validate : s.validationIdx < s.blockSize →
      (s.statusOf s.validationIdx = .executed ∨ s.statusOf s.validationIdx = .validated) →
      PollSpec s (.task (.validation (s.versionOf s.validationIdx)))
        (s.withValidationIdx (s.validationIdx + 1))

lemma pollExecution_spec {v : ℕ}
    (hv : v = s.validationIdx ∧ s.executionIdx < s.blockSize ∨ v = s.validationIdx + 1 ∧
      s.validationIdx < s.blockSize ∧ s.statusOf s.validationIdx = .executing) :
    PollSpec s (s.withValidationIdx v).pollExecution.1 (s.withValidationIdx v).pollExecution.2 := by
  by_cases h : s.executionIdx < s.blockSize ∧ s.statusOf s.executionIdx = .readyToExecute
  · have hpoll : (s.withValidationIdx v).pollExecution =
        (.task (.execution (s.versionOf s.executionIdx)),
          ((s.withValidationIdx v).withExecutionIdx (s.executionIdx + 1)).setStatus
            s.executionIdx .executing) := by
      simp [pollExecution, tryExecute, h]
    rw [hpoll]
    apply PollSpec.execute h.1 h.2
    rcases hv with ⟨rfl, -⟩ | ⟨rfl, -, hexec⟩
    · exact .inl rfl
    · exact .inr ⟨rfl, hexec⟩
  · have hpoll : (s.withValidationIdx v).pollExecution =
        (.again, (s.withValidationIdx v).withExecutionIdx (s.executionIdx + 1)) := by
      simp [pollExecution, tryExecute, h]
    rw [hpoll]
    apply PollSpec.skip (.inr ⟨rfl, fun hlt hready => h ⟨hlt, hready⟩⟩)
    · rcases hv with ⟨rfl, -⟩ | ⟨rfl, -, hexec⟩
      · exact .inl rfl
      · exact .inr ⟨rfl, .inr hexec⟩
    · rcases hv with ⟨rfl, hlt⟩ | ⟨rfl, hlt, -⟩
      · exact .inl ⟨hlt, rfl⟩
      · exact .inr ⟨hlt, rfl⟩

/-- Every iteration of `next_task` does one of the things listed, for any state of the counters. -/
theorem poll_spec (s : Scheduler) : PollSpec s s.poll.1 s.poll.2 := by
  unfold poll
  by_cases hab : s.aborted = true
  · rw [if_pos hab]
    exact .exit (.inl hab)
  rw [if_neg hab]
  by_cases hdone : s.blockSize ≤ s.executionIdx ∧ s.blockSize ≤ s.validationIdx
  · rw [if_pos hdone]
    split
    · exact .exit (.inr hdone)
    · exact .wait hdone.1 hdone.2
  rw [if_neg hdone]
  by_cases hlt : s.validationIdx < s.executionIdx
  · have hval : s.validationIdx < s.blockSize := by omega
    rw [if_pos hlt]
    simp only [withValidationIdx_blockSize, hval, if_true, withValidationIdx_statusOf]
    cases h : s.statusOf s.validationIdx with
    | readyToExecute => exact .steal hval hlt h
    | executing => exact pollExecution_spec (.inr ⟨rfl, hval, h⟩)
    | executed => exact .validate hval (.inl h)
    | validated => exact .validate hval (.inr h)
    | aborting => exact .skip (.inl rfl) (.inr ⟨rfl, .inl h⟩) (.inr ⟨hval, rfl⟩)
  · have hexec : s.executionIdx < s.blockSize := by omega
    rw [if_neg hlt]
    exact pollExecution_spec (.inl ⟨rfl, hexec⟩)

lemma PollSpec.blockSize {p : Poll} {s' : Scheduler} (h : PollSpec s p s') :
    s'.blockSize = s.blockSize := by
  cases h <;> rfl

lemma PollSpec.done {p : Poll} {s' : Scheduler} (h : PollSpec s p s') (j : ℕ) :
    s'.Done j ↔ s.Done j := by
  cases h with
  | exit => exact Iff.rfl
  | wait => exact Iff.rfl
  | skip => exact Iff.rfl
  | @execute v _ hready =>
    refine ⟨fun hd => Done.of_setStatus (by simp) (by simp) hd, fun hd => ?_⟩
    have hne : j ≠ s.executionIdx := by
      rintro rfl
      rcases hd with hd | hd <;> simp [hready] at hd
    simpa only [Done, setStatus_statusOf, hne, if_false, withExecutionIdx_statusOf,
      withValidationIdx_statusOf] using hd
  | steal _ _ hready =>
    refine ⟨fun hd => Done.of_setStatus (by simp) (by simp) hd, fun hd => ?_⟩
    have hne : j ≠ s.validationIdx := by
      rintro rfl
      rcases hd with hd | hd <;> simp [hready] at hd
    simpa only [Done, setStatus_statusOf, hne, if_false, withValidationIdx_statusOf] using hd
  | validate => exact Iff.rfl

/-- The validation counter passes a transaction that is done only with a validation of it. -/
lemma PollSpec.validationIdx {p : Poll} {s' : Scheduler} (h : PollSpec s p s') {j : ℕ}
    (hd : s.Done j) (hle : s.validationIdx ≤ j) :
    s'.validationIdx ≤ j ∨ p = .task (.validation (s.versionOf j)) := by
  have hnot : ∀ status, status ≠ .executed → status ≠ .validated →
      s.statusOf s.validationIdx = status → s.validationIdx + 1 ≤ j := by
    intro status hexecuted hvalidated hst
    have hne : s.validationIdx ≠ j := by
      rintro rfl
      rcases hd with hd | hd
      · exact hexecuted (hst.symm.trans hd)
      · exact hvalidated (hst.symm.trans hd)
    omega
  cases h with
  | exit => exact .inl hle
  | wait => exact .inl hle
  | @skip e v _ hv =>
    left
    rw [withExecutionIdx_validationIdx, withValidationIdx_validationIdx]
    rcases hv with rfl | ⟨rfl, hst | hst⟩
    · exact hle
    · exact hnot _ (by simp) (by simp) hst
    · exact hnot _ (by simp) (by simp) hst
  | @execute v _ _ hv =>
    left
    rw [setStatus_validationIdx, withExecutionIdx_validationIdx, withValidationIdx_validationIdx]
    rcases hv with rfl | ⟨rfl, hst⟩
    · exact hle
    · exact hnot _ (by simp) (by simp) hst
  | steal _ _ hst => exact .inl (hnot _ (by simp) (by simp) hst)
  | validate =>
    by_cases hj : s.validationIdx = j
    · exact .inr (by rw [hj])
    · left
      rw [withValidationIdx_validationIdx]
      omega

lemma finishExecution_eq {v : TxVersion} (hv : v.txIdx < s.blockSize)
    (flags : FinishExecFlags) :
    s.finishExecution v flags =
      let r := (s.transactionsDependents v.txIdx).foldl resume (s.withDependents v.txIdx [])
      let r := r.withMinValidationIdx (min r.minValidationIdx v.txIdx)
      if v.txIdx < r.validationIdx then
        (some (.validation v), (if flags.contains .wroteNewLocation then
          r.withValidationIdx (min r.validationIdx (v.txIdx + 1)) else r).setStatus
            v.txIdx .executed)
      else (none, r.setStatus v.txIdx .executed) := by
  have hsize : ((s.transactionsDependents v.txIdx).foldl resume
      (s.withDependents v.txIdx [])).blockSize = s.blockSize :=
    (resume_foldl_fields _ _).1
  simp only [finishExecution, FinishExecFlags.contains_needValidation, if_true,
    withMinValidationIdx_blockSize, hsize]
  generalize (s.transactionsDependents v.txIdx).foldl resume (s.withDependents v.txIdx []) = r
  have hmin : min r.minValidationIdx v.txIdx < s.blockSize := by omega
  have hle : ¬ v.txIdx < min r.minValidationIdx v.txIdx := by omega
  rw [if_pos hmin, if_neg hle]

section FinishExecution
variable {v : TxVersion} (hv : v.txIdx < s.blockSize) (flags : FinishExecFlags)
include hv

lemma finishExecution_task :
    (s.finishExecution v flags).1 =
      if v.txIdx < s.validationIdx then some (.validation v) else none := by
  have hval := (resume_foldl_fields (s.transactionsDependents v.txIdx)
    (s.withDependents v.txIdx [])).2.2.1
  rw [finishExecution_eq hv]
  simp only [withMinValidationIdx_validationIdx, hval, withDependents_validationIdx]
  split <;> rfl

lemma finishExecution_blockSize :
    (s.finishExecution v flags).2.blockSize = s.blockSize ∧
      (s.finishExecution v flags).2.aborted = s.aborted := by
  have hfields := resume_foldl_fields (s.transactionsDependents v.txIdx)
    (s.withDependents v.txIdx [])
  rw [finishExecution_eq hv]
  dsimp only
  split_ifs <;> exact ⟨hfields.1, hfields.2.2.2.2⟩

lemma finishExecution_dependents :
    (s.finishExecution v flags).2.transactionsDependents =
      Function.update s.transactionsDependents v.txIdx [] := by
  have hfields := resume_foldl_fields (s.transactionsDependents v.txIdx)
    (s.withDependents v.txIdx [])
  rw [finishExecution_eq hv]
  dsimp only
  split_ifs <;> exact hfields.2.1

lemma finishExecution_statusOf (i : ℕ) :
    (s.finishExecution v flags).2.statusOf i =
      if i = v.txIdx then .executed
      else if i ∈ s.transactionsDependents v.txIdx then .readyToExecute
      else s.statusOf i := by
  have hstatus := resume_foldl_statusOf (s.transactionsDependents v.txIdx)
    (s.withDependents v.txIdx []) i
  rw [finishExecution_eq hv]
  dsimp only
  split_ifs <;> simp_all

lemma finishExecution_done {i : ℕ} (h : (s.finishExecution v flags).2.Done i) :
    s.Done i ∨ i = v.txIdx := by
  simp only [Done, finishExecution_statusOf hv flags] at h
  by_cases hiv : i = v.txIdx
  · exact .inr hiv
  · left
    rw [if_neg hiv] at h
    by_cases hmem : i ∈ s.transactionsDependents v.txIdx
    · simp [hmem] at h
    · rw [if_neg hmem] at h
      exact h

lemma finishExecution_incarnationOf (hnodup : (s.transactionsDependents v.txIdx).Nodup) (i : ℕ) :
    (s.finishExecution v flags).2.incarnationOf i =
      if i ∈ s.transactionsDependents v.txIdx then s.incarnationOf i + 1
      else s.incarnationOf i := by
  have hinc := resume_foldl_incarnationOf hnodup (s.withDependents v.txIdx []) i
  rw [finishExecution_eq hv]
  dsimp only
  split_ifs <;> simp_all

lemma finishExecution_executionIdx :
    (s.finishExecution v flags).2.executionIdx ≤ s.executionIdx ∧
      ∀ d ∈ s.transactionsDependents v.txIdx,
        (s.finishExecution v flags).2.executionIdx ≤ d := by
  have hexec := resume_foldl_executionIdx (s.transactionsDependents v.txIdx)
    (s.withDependents v.txIdx [])
  rw [finishExecution_eq hv]
  dsimp only
  split_ifs <;> exact hexec

lemma finishExecution_validationIdx :
    (s.finishExecution v flags).2.validationIdx =
      if v.txIdx < s.validationIdx ∧ flags.contains .wroteNewLocation = true then v.txIdx + 1
      else s.validationIdx := by
  have hval := (resume_foldl_fields (s.transactionsDependents v.txIdx)
    (s.withDependents v.txIdx [])).2.2.1
  rw [finishExecution_eq hv]
  simp only [withMinValidationIdx_validationIdx, hval, withDependents_validationIdx]
  by_cases hlt : v.txIdx < s.validationIdx
  · by_cases hw : flags.contains .wroteNewLocation = true
    · simp only [hlt, hw, and_self, if_true, setStatus_validationIdx,
        withValidationIdx_validationIdx]
      omega
    · simp [hlt, hw, hval]
  · simp [hlt, hval]

end FinishExecution

section Validation
variable (v : TxVersion)

lemma addDependency_eq (txIdx blocking : ℕ) :
    s.addDependency txIdx blocking =
      if s.Done blocking then (false, s)
      else (true, (s.setStatus txIdx .aborting).withDependents blocking
        (s.transactionsDependents blocking ++ [txIdx])) := by
  unfold addDependency
  cases h : s.statusOf blocking <;> simp [Done, h]

lemma tryValidationAbort_eq :
    s.tryValidationAbort v =
      if s.Done v.txIdx then
        (true, (s.setStatus v.txIdx .aborting).withNumValidated
          (s.numValidated - if s.statusOf v.txIdx = .validated then 1 else 0))
      else (false, s) := by
  unfold tryValidationAbort
  cases h : s.statusOf v.txIdx with
  | executed =>
    simp only [Done, h, true_or, if_true]
    rfl
  | validated => simp [Done, h]
  | readyToExecute => simp [Done, h]
  | executing => simp [Done, h]
  | aborting => simp [Done, h]

/-- A worker whose abort has succeeded executes the transaction again unless the execution
counter is still to come to it. -/
lemma finishValidation_true (hv : v.txIdx < s.blockSize) :
    s.finishValidation v true =
      let r := (s.setReadyStatus v.txIdx).withValidationIdx (min s.validationIdx (v.txIdx + 1))
      if v.txIdx < s.executionIdx then
        (some (.execution (r.versionOf v.txIdx)), r.setStatus v.txIdx .executing)
      else (none, r) := by
  simp only [finishValidation, if_true, withValidationIdx_executionIdx,
    setReadyStatus_executionIdx, setReadyStatus_validationIdx]
  split
  · simp [tryExecute, hv]
  · rfl

lemma addDependency_incarnationOf (txIdx blocking i : ℕ) :
    (s.addDependency txIdx blocking).2.incarnationOf i = s.incarnationOf i := by
  rw [addDependency_eq]
  split <;> simp

lemma tryValidationAbort_incarnationOf (i : ℕ) :
    (s.tryValidationAbort v).2.incarnationOf i = s.incarnationOf i := by
  rw [tryValidationAbort_eq]
  split <;> simp

lemma finishValidation_false_incarnationOf (i : ℕ) :
    (s.finishValidation v false).2.incarnationOf i = s.incarnationOf i := by
  simp only [finishValidation, Bool.false_eq_true, if_false]
  split <;> simp [markValidated]

lemma addDependency_done {txIdx blocking i : ℕ} (h : (s.addDependency txIdx blocking).2.Done i) :
    s.Done i := by
  rw [addDependency_eq] at h
  split_ifs at h
  · exact h
  · exact Done.of_setStatus (by simp) (by simp) h

lemma tryValidationAbort_done {i : ℕ} (h : (s.tryValidationAbort v).2.Done i) : s.Done i := by
  rw [tryValidationAbort_eq] at h
  by_cases hdone : s.Done v.txIdx
  · rw [if_pos hdone] at h
    exact Done.of_setStatus (by simp) (by simp) h
  · rw [if_neg hdone] at h
    exact h

lemma finishValidation_false_done (i : ℕ) :
    (s.finishValidation v false).2.Done i ↔ s.Done i := by
  simp only [finishValidation, Bool.false_eq_true, if_false]
  split_ifs with hst
  · by_cases hiv : i = v.txIdx
    · simp [Done, markValidated, hiv, hst]
    · simp [Done, markValidated, hiv]
  · exact Iff.rfl

lemma finishValidation_true_done (hv : v.txIdx < s.blockSize) {i : ℕ}
    (h : (s.finishValidation v true).2.Done i) : s.Done i := by
  rw [finishValidation_true v hv] at h
  dsimp only at h
  split_ifs at h
  · exact Done.of_setReadyStatus (Done.of_setStatus (by simp) (by simp) h)
  · exact Done.of_setReadyStatus h

end Validation

end Specs

end Scheduler

end Pevm
