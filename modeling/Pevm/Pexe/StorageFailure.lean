import Pevm.LazyEvaluation.Calls
import Pevm.Pexe.Sequential

/-!
# Blocks on a storage that fails

`execute_revm_parallel` on a storage whose calls may fail one by one. Executions carry the calls
that they have made, and leave them with their results and errors, so that a returned result is
known with the calls behind it. A failed call of an execution is what the block fails with; a
failed look-up of an account at the end of the block is dropped.
-/
namespace Pevm
open LazyEvaluation Saturating Transition

/-- An execution on its way: `VmDb::new` is still to come, or revm is at some point of its program.
-/
inductive Job (κ Bytecode L : Type)
  | opening
  | running (program : EvmProgram Bytecode L) (db : VmDb κ)

/-- What an execution comes to when it goes on: another point of its program, or its end. -/
inductive Progress (κ Code Bytecode L : Type)
  | running (job : Job κ Bytecode L)
  | finished (readSet : ReadSet κ) (writeSet : WriteSet κ MemoryValue) (flags : FinishExecFlags)
      (result : PexeTxExecutionResult L (TxState Code))

/-- A block for `execute_revm_parallel`, with what revm makes of its transactions when it is run
under the handler without rewards, and under the one with rewards. -/
structure ParallelEvmBlock (κ Code Bytecode L : Type) extends EvmBlock κ where
  concurrencyLevel : ℕ
  nonZero : concurrencyLevel ≠ 0
  toBytecode : Code → Option Bytecode
  toCode : Bytecode → Code
  emptyCode : Bytecode
  program : ℕ → EvmProgram Bytecode L
  sequentialProgram : ℕ → EvmProgram Bytecode L
  /-- How revm prints a database error. -/
  printDatabaseError : String → String

/-- A result or an error with the calls of the storage behind it. -/
abbrev Traced (α : Type) := α × List Call

namespace ParallelEvmBlock
variable {κ Code Bytecode L : Type}

section Results
variable {S ε : Type}

def withCalls (calls : List Call) (result : PexeTxExecutionResult L S) :
    PexeTxExecutionResult L (Traced S) :=
  ⟨result.receipt, (result.state, calls)⟩

/-- The result as it is returned, without the calls behind it. -/
def withoutCalls (result : PexeTxExecutionResult L (Traced S)) : PexeTxExecutionResult L S :=
  ⟨result.receipt, result.state.1⟩

/-- The error as it is returned, without the calls behind it. -/
def forgetError : BlockError (Traced ε) → BlockError ε
  | .executionError error => .executionError error.1
  | .evaluation error => .evaluation error

/-- The result of the whole call as it is returned. -/
def forget (result : PexeResult (PexeTxExecutionResult L (Traced S)) (Traced ε)) :
    PexeResult (PexeTxExecutionResult L S) ε :=
  (result.map (List.map withoutCalls)).mapError forgetError

end Results

variable (block : ParallelEvmBlock κ Code Bytecode L)

/-- What a call of the database finds at some moment of the block. -/
def envAt (storage : Storage Code) (mvMemory : MvMemory κ MemoryValue)
    (newBytecodes : B256 → Option Bytecode) : VmEnv κ Code Bytecode where
  hash := block.hashes.location
  storage := storage
  mvMemory := mvMemory
  newBytecodes := newBytecodes
  toBytecode := block.toBytecode

/-- The addresses that `build_mv_memory` leaves to the evaluation at the end of the block. -/
def initialLazyAddresses : Finset Address :=
  match block.chain with
  | .ethereum => {block.env.beneficiary}
  | .optimism => {block.env.beneficiary, block.recipients.l1FeeRecipient,
      block.recipients.baseFeeRecipient}

variable [DecidableEq κ]

/-- A piece of an execution. The storage may answer differently in each of them, and in each half
of a read of an account. -/
inductive Piece (v : TxVersion) (mvMemory : MvMemory κ MemoryValue) :
    Job κ Bytecode L → Logged Call VmFailure (Progress κ Code Bytecode L) → Prop
  | new {tx : OptimismTxEnv} {storage : Storage Code} {newBytecodes : B256 → Option Bytecode} :
      block.txs[v.txIdx]? = some tx →
      Piece v mvMemory .opening (
        ((VmDb.Watched.new (block.envAt storage mvMemory newBytecodes) v.txIdx tx.toTxEnv).mapError
          .ofReadError) >>= fun db => pure (.running (.running (block.program v.txIdx) db)))
  | answer {question : Question} {next : question.Answer Bytecode → EvmProgram Bytecode L}
      {db : VmDb κ} {storage : FullStorage Code} {storage' : Storage Code}
      {mvMemory' : MvMemory κ MemoryValue} {newBytecodes newBytecodes' : B256 → Option Bytecode} :
      db.txIdx = v.txIdx →
      Piece v mvMemory (.running (.ask question next) db) (
        ((VmDb.Watched.answer db (block.envAt storage.toStorage mvMemory newBytecodes)
          (block.envAt storage' mvMemory' newBytecodes') block.emptyCode storage question).mapError
            .ofReadError) >>= fun found => pure (.running (.running (next found.1) found.2)))
  | done {tx : OptimismTxEnv} {transacted : Except EvmError (ResultAndState Bytecode)} {outcome : L}
      {calculateTxL1Cost : Option (List U8 → U256)} {db : VmDb κ}
      {finished : Except VmFailure
        (ReadSet κ × WriteSet κ MemoryValue × FinishExecFlags × ResultAndState Bytecode)} :
      db.txIdx = v.txIdx → block.txs[v.txIdx]? = some tx →
      Vm.finish block.hashes.location block.env
        (block.chain.getRewardPolicy block.hashes block.recipients) db tx calculateTxL1Cost
          transacted = some finished →
      Piece v mvMemory (.running (.done transacted outcome calculateTxL1Cost) db) (
        .quiet (finished.map fun r => .finished r.1 r.2.1 r.2.2.1
          ⟨⟨r.2.2.2.gasUsed, outcome⟩,
            fromRevm block.toCode block.env.isEip161Enabled r.2.2.2.state⟩))

/-- How `try_execute` goes on with what an execution comes to; none where it aborts the block. -/
def toStep (calls : List Call) : Except VmFailure (Progress κ Code Bytecode L) →
    Option (VmStep (Traced (Job κ Bytecode L)) κ MemoryValue
      (PexeTxExecutionResult L (Traced (TxState Code))))
  | .ok (.running job) => some (.running (job, calls))
  | .ok (.finished readSet writeSet flags result) =>
    some (.finished readSet writeSet flags (withCalls calls result))
  | .error .retry => some .retry
  | .error (.blocking txIdx) => some (.blocking txIdx)
  | .error .fallbackToSequential => none
  | .error (.executionError _) => none

/-- Why `try_execute` aborts the block, if it does. -/
def toReason (calls : List Call) : Except VmFailure (Progress κ Code Bytecode L) →
    Option (Pexe.AbortReason (Traced ExecutionError))
  | .error .fallbackToSequential => some .fallbackToSequential
  | .error (.executionError error) => some (.executionError (error, calls))
  | _ => none

section Piece
variable {block} {v : TxVersion} {mvMemory : MvMemory κ MemoryValue} {job : Job κ Bytecode L}
  {x : Logged Call VmFailure (Progress κ Code Bytecode L)}

/-- A failed call is what the execution fails with. -/
lemma Piece.reports (h : block.Piece v mvMemory job x) :
    x.Reports fun call => (VmDb.reported call).map .ofReadError := by
  cases h with
  | new _ => exact .bind ((VmDb.Watched.new_reports _ _).mapError _) fun _ _ => .pure _
  | answer _ => exact .bind (VmDb.Watched.answer_reports.mapError _) fun _ _ => .pure _
  | done _ _ _ => exact .quiet _

/-- An execution only ever waits for a lower transaction. -/
lemma Piece.waits (h : block.Piece v mvMemory job x) {b : ℕ}
    (hb : x.result = .error (.blocking b)) : b < v.txIdx := by
  have hread : ∀ {α : Type} {y : Logged Call ReadError α},
      Fallible.Fails y.result (VmDb.WaitsBelow v.txIdx) →
      Fallible.Fails (y.mapError VmFailure.ofReadError).result
        fun e => e = .blocking b → b < v.txIdx := by
    intro α y hy e he hblocking
    subst hblocking
    cases hr : y.result with
    | ok a =>
      rw [Logged.mapError, hr] at he
      cases he
    | error e' =>
      rw [Logged.mapError, hr] at he
      exact hy e' hr b (VmFailure.ofReadError_blocking (Except.error.inj he))
  cases h with
  | new _ =>
    rw [Logged.result_bind] at hb
    refine Fallible.Fails.bind (hread ?_) (fun _ _ => .ok _) _ hb rfl
    rw [VmDb.Watched.new_result]
    exact VmDb.newAcross_waits _ _
  | answer hidx =>
    rw [Logged.result_bind] at hb
    refine Fallible.Fails.bind (hread ?_) (fun _ _ => .ok _) _ hb rfl
    rw [← hidx]
    exact VmDb.Watched.answer_waits
  | @done tx transacted outcome calculateTxL1Cost db finished hidx _ hfinish =>
    have hfinished : finished = .error (.blocking b) := by
      cases finished with
      | ok r => cases hb
      | error e =>
        cases hb
        rfl
    subst hfinished
    rw [← hidx]
    exact Vm.finish_blocking hfinish

/-- The database of a running execution belongs to its transaction. -/
lemma Piece.txIdx (h : block.Piece v mvMemory job x) {program : EvmProgram Bytecode L}
    {db : VmDb κ} (hx : x.result = .ok (.running (.running program db))) :
    db.txIdx = v.txIdx := by
  cases h with
  | new _ =>
    rw [Logged.result_bind] at hx
    obtain ⟨db', hnew, heq⟩ := Fallible.bind_eq_ok.mp hx
    cases heq
    rw [Logged.result_mapError_eq_ok, VmDb.Watched.new_result] at hnew
    exact VmDb.newAcross_txIdx hnew
  | answer hidx =>
    rw [Logged.result_bind] at hx
    obtain ⟨found, hfound, heq⟩ := Fallible.bind_eq_ok.mp hx
    cases heq
    rw [Logged.result_mapError_eq_ok] at hfound
    exact (VmDb.Watched.answer_sameTx hfound).txIdx.trans hidx
  | @done tx transacted outcome calculateTxL1Cost db finished hidx _ hfinish =>
    cases finished <;> cases hx

end Piece

/-- The machine of `try_execute`: each step is a piece of an execution, with the storage as it
answers then. -/
def vm : AbortingVm (Traced (Job κ Bytecode L)) κ MemoryValue
    (PexeTxExecutionResult L (Traced (TxState Code))) (Traced ExecutionError) where
  start _ := (.opening, [])
  next v job mvMemory step := ∃ x, block.Piece v mvMemory job.1 x ∧
    toStep (job.2 ++ x.log) x.result = some step
  blocking_lt := by
    rintro v job mvMemory b ⟨x, hpiece, hstep⟩
    refine hpiece.waits ?_
    revert hstep
    generalize x.result = result
    intro hstep
    match result with
    | .error (.blocking b) =>
      cases hstep
      rfl
  fatal v job mvMemory reason := ∃ x, block.Piece v mvMemory job.1 x ∧
    toReason (job.2 ++ x.log) x.result = some reason
  lazyAddresses _ job :=
    match job.1 with
    | .opening => []
    | .running _ db => if db.isLazy then db.tx.caller :: db.tx.toAddress.toList else []

/-- The calls have all gone through. -/
def Clean (calls : List Call) : Prop := ∀ call ∈ calls, call.failure = none

/-- An error is the one of the call that has failed, if one has. -/
def Blames : Pexe.AbortReason (Traced ExecutionError) → Prop
  | .fallbackToSequential => True
  | .executionError error => ∀ call ∈ error.2, ∀ message, call.failure = some message →
      error.1 = .database (.storageError message)

lemma Piece.clean {v : TxVersion} {mvMemory : MvMemory κ MemoryValue} {job : Job κ Bytecode L}
    {x : Logged Call VmFailure (Progress κ Code Bytecode L)} (h : block.Piece v mvMemory job x)
    {progress : Progress κ Code Bytecode L} (hx : x.result = .ok progress) : Clean x.log := by
  intro call hcall
  have hnone := h.reports.failure_eq_none hx hcall
  cases hfailure : call.failure with
  | none => rfl
  | some message => simp [VmDb.reported, hfailure] at hnone

/-- Executions go on and end with clean calls only, and fail with the error of a failed call. -/
theorem vm_keeps : block.vm.Keeps (fun _ job => Clean job.2) (fun result => Clean result.state.2)
    Blames := by
  have happend : ∀ {calls calls' : List Call}, Clean calls → Clean calls' →
      Clean (calls ++ calls') := fun h h' call hcall =>
    (List.mem_append.mp hcall).elim (h call) (h' call)
  constructor
  · intro v call hcall
    exact absurd hcall List.not_mem_nil
  · rintro v job mem job' hclean ⟨x, hpiece, hstep⟩
    cases hx : x.result with
    | error e =>
      rw [hx] at hstep
      cases e <;> cases hstep
    | ok progress =>
      have hlog := hpiece.clean block hx
      rw [hx] at hstep
      cases progress <;> cases hstep
      exact happend hclean hlog
  · rintro v job mem readSet writeSet flags result hclean ⟨x, hpiece, hstep⟩
    cases hx : x.result with
    | error e =>
      rw [hx] at hstep
      cases e <;> cases hstep
    | ok progress =>
      have hlog := hpiece.clean block hx
      rw [hx] at hstep
      cases progress <;> cases hstep
      exact happend hclean hlog
  · rintro v job mem reason hclean ⟨x, hpiece, hreason⟩
    cases hx : x.result with
    | ok progress =>
      rw [hx] at hreason
      cases hreason
    | error e =>
      rw [hx] at hreason
      cases e with
      | retry => cases hreason
      | blocking b => cases hreason
      | fallbackToSequential =>
        cases hreason
        trivial
      | executionError error =>
        cases hreason
        intro call hcall message hmessage
        rcases List.mem_append.mp hcall with hcall | hcall
        · rw [hclean call hcall] at hmessage
          cases hmessage
        · have hreport := hpiece.reports call hcall (.executionError (.database
            (.storageError message))) (by simp [VmDb.reported, hmessage, VmFailure.ofReadError])
          rw [hx] at hreport
          cases hreport
          rfl

/-- The evaluation of the lazy addresses on the collected results, each address with the storage as
it answers then. -/
def evaluateResults (mvMemory : MvMemory κ MemoryValue) (addresses : List (Address × Storage Code))
    (results : List (PexeTxExecutionResult L (Traced (TxState Code)))) :
    Logged Call PexeError (List (PexeTxExecutionResult L (Traced (TxState Code)))) := do
  let states ← LazyEvaluation.Watched.evaluate block.hashes.location mvMemory
    block.env.isEip161Enabled block.txAt block.txs.length addresses
    (fun j => ((results[j]?).map fun result => result.state.1).getD fun _ => none)
  return results.mapIdx fun j result => ⟨result.receipt, (states j, result.state.2)⟩

/-- `execute_revm_sequential` for the block, with its calls on record. -/
def ExecutesSequentially : Logged Call ExecutionError
    (List (PexeTxExecutionResult L (TxState Code))) → Prop :=
  SequentialRun.ExecutesAll block.toBytecode block.emptyCode block.toCode block.printDatabaseError
    block.env.isEip161Enabled ((List.range block.txs.length).map block.sequentialProgram) 0

/-- The call of `execute_revm_parallel` for the block. -/
def toParallelBlock : ParallelBlock (Traced (Job κ Bytecode L)) κ MemoryValue L
    (Traced (TxState Code)) (Traced ExecutionError) where
  concurrencyLevel := block.concurrencyLevel
  nonZero := block.nonZero
  blockSize := block.txs.length
  vm := block.vm
  estimatedLocations := block.chain.estimatedLocations block.hashes block.recipients block.env
    block.txs
  lazyAddresses := block.initialLazyAddresses
  evaluate mvMemory addresses results result := ∃ storages : List (Address × Storage Code),
    storages.map Prod.fst = addresses ∧
      result = (block.evaluateResults mvMemory storages results).result
  sequential result := ∃ x, block.ExecutesSequentially x ∧
    result = (x.result.map (List.map (withCalls []))).mapError fun error =>
      .executionError (error, x.log)

/-- What a call can return, with the storage calls of the executions that it comes from, and of
the evaluation. Those of executions that are repeated or given up are not among them. -/
inductive Computes (p : Resources (PexeTxExecutionResult L (Traced (TxState Code)))
    (Traced ExecutionError)) :
    PexeResult (PexeTxExecutionResult L (TxState Code)) ExecutionError →
      List Call → List Call → Prop
  | empty : block.txs.length = 0 → Computes p (.ok []) [] []
  | fallbackToSequential {σ : Attempt (Fin block.toParallelBlock.concurrencyLevel) _ κ MemoryValue
        (PexeTxExecutionResult L (Traced (TxState Code))) (Traced ExecutionError)}
      {x : Logged Call ExecutionError (List (PexeTxExecutionResult L (TxState Code)))} :
      block.txs.length ≠ 0 → block.toParallelBlock.Ends p σ →
      σ.abortReason = some .fallbackToSequential → block.ExecutesSequentially x →
      Computes p (x.result.mapError .executionError) x.log []
  | executionError {σ : Attempt (Fin block.toParallelBlock.concurrencyLevel) _ κ MemoryValue
        (PexeTxExecutionResult L (Traced (TxState Code))) (Traced ExecutionError)}
      {error : ExecutionError} {calls : List Call} :
      block.txs.length ≠ 0 → block.toParallelBlock.Ends p σ →
      σ.abortReason = some (.executionError (error, calls)) →
      Computes p (.error (.executionError error)) calls []
  | evaluated {σ : Attempt (Fin block.toParallelBlock.concurrencyLevel) _ κ MemoryValue
        (PexeTxExecutionResult L (Traced (TxState Code))) (Traced ExecutionError)}
      {results : List (PexeTxExecutionResult L (Traced (TxState Code)))}
      {addresses : List (Address × Storage Code)} :
      block.txs.length ≠ 0 → block.toParallelBlock.Ends p σ → σ.abortReason = none →
      collect 0 (σ.executionResults.take block.txs.length) = some results →
      (addresses.map Prod.fst).Nodup → (addresses.map Prod.fst).toFinset = σ.lazyAddresses →
      Computes p (((block.evaluateResults σ.mvMemory addresses results).result.map
          (List.map withoutCalls)).mapError .evaluation)
        (results.flatMap fun result => result.state.2)
        (block.evaluateResults σ.mvMemory addresses results).log

section Returned
variable {block} {p : Resources (PexeTxExecutionResult L (Traced (TxState Code)))
    (Traced ExecutionError)}
  {result : PexeResult (PexeTxExecutionResult L (TxState Code)) ExecutionError}
  {calls endCalls : List Call}

omit [DecidableEq κ] in
lemma forget_sequential {ε S : Type} (x : Logged Call ε (List (PexeTxExecutionResult L S))) :
    forget ((x.result.map (List.map (withCalls []))).mapError fun error =>
      .executionError (error, x.log)) = x.result.mapError .executionError := by
  have hforget : (withoutCalls ∘ withCalls [] :
      PexeTxExecutionResult L S → PexeTxExecutionResult L S) = id := rfl
  unfold forget
  cases x.result with
  | error e => rfl
  | ok results => simp [Except.map, Except.mapError, hforget]

omit [DecidableEq κ] in
lemma forget_evaluation {ε S : Type}
    (x : Except PexeError (List (PexeTxExecutionResult L (Traced S)))) :
    forget (x.mapError .evaluation : PexeResult _ (Traced ε)) =
      (x.map (List.map withoutCalls)).mapError .evaluation := by
  cases x <;> rfl

/-- With the calls behind it or without, the same is returned. -/
theorem canReturn_iff_computes : (∃ traced, block.toParallelBlock.CanReturn p traced ∧
    forget traced = result) ↔ ∃ calls endCalls, block.Computes p result calls endCalls := by
  constructor
  · rintro ⟨traced, ⟨after, hexecutes⟩, rfl⟩
    cases hexecutes with
    | empty hsize => exact ⟨[], [], .empty hsize⟩
    | fallbackToSequential hsize hends hreason hsequential =>
      obtain ⟨x, hx, rfl⟩ := hsequential
      rw [forget_sequential]
      exact ⟨x.log, [], .fallbackToSequential hsize hends hreason hx⟩
    | executionError hsize hends hreason => exact ⟨_, [], .executionError hsize hends hreason⟩
    | evaluated hsize hends hreason hcollect hnodup haddresses hevaluate =>
      obtain ⟨storages, rfl, rfl⟩ := hevaluate
      rw [forget_evaluation]
      exact ⟨_, _, .evaluated hsize hends hreason hcollect hnodup haddresses⟩
  · rintro ⟨calls, endCalls, hcomputes⟩
    cases hcomputes with
    | empty hsize => exact ⟨.ok [], ⟨_, .empty hsize⟩, rfl⟩
    | fallbackToSequential hsize hends hreason hsequential =>
      exact ⟨_, ⟨_, .fallbackToSequential hsize hends hreason ⟨_, hsequential, rfl⟩⟩,
        forget_sequential _⟩
    | @executionError σ error calls hsize hends hreason =>
      exact ⟨.error (.executionError (error, calls)),
        ⟨_, .executionError hsize hends hreason⟩, rfl⟩
    | evaluated hsize hends hreason hcollect hnodup haddresses =>
      exact ⟨_, ⟨_, .evaluated hsize hends hreason hcollect hnodup haddresses ⟨_, rfl, rfl⟩⟩,
        forget_evaluation _⟩

end Returned

section Failures
variable {p : Resources (PexeTxExecutionResult L (Traced (TxState Code))) (Traced ExecutionError)}
  {result : PexeResult (PexeTxExecutionResult L (TxState Code)) ExecutionError}
  {calls endCalls : List Call}

/-- The error tells of a failed call of the storage. The sequential execution leaves its message
out. -/
def TellsOf (message : String)
    (result : PexeResult (PexeTxExecutionResult L (TxState Code)) ExecutionError) : Prop :=
  result = .error (.executionError (.database (.storageError message))) ∨
    result = .error (.executionError (.custom (block.printDatabaseError "storage error"))) ∨
    result = .error (.evaluation (.storageError message))

/-- A failed call is never turned into a value: the result tells of every one of them. -/
def HidesNoFailure (calls : List Call)
    (result : PexeResult (PexeTxExecutionResult L (TxState Code)) ExecutionError) : Prop :=
  ∀ call ∈ calls, ∀ message, call.failure = some message → block.TellsOf message result

variable {block}

/-- What a block is left with: clean results, or the error of the call that has failed. -/
lemma keeps_of_ends (hp : p.abortReason = none)
    {σ : Attempt (Fin block.toParallelBlock.concurrencyLevel) _ κ MemoryValue
      (PexeTxExecutionResult L (Traced (TxState Code))) (Traced ExecutionError)}
    (hends : block.toParallelBlock.Ends p σ) :
    (∀ reason, σ.abortReason = some reason → Blames reason) ∧
      (σ.abortReason = none → ∀ slot, some slot ∈ σ.executionResults.take block.txs.length →
        Clean slot.state.2) := by
  obtain ⟨slots, hnew, hslots⟩ := hends.replace hp (q := .new) rfl
  have hkeeps := Attempt.Keeps.of_reachable block.vm_keeps (fun result hresult => by
    simp [grow, Resources.new] at hresult) hnew.reachable
  refine ⟨hkeeps.reason, fun hreason slot hslot => ?_⟩
  have htake : slots.take block.txs.length = σ.executionResults.take block.txs.length :=
    (hslots hreason).1
  rw [← htake] at hslot
  exact hkeeps.slots slot (List.mem_of_mem_take hslot)

lemma collect_state {gas : U64} {S : Type} {slots : List (Option (PexeTxExecutionResult L S))}
    {results : List (PexeTxExecutionResult L S)} (h : collect gas slots = some results) :
    ∀ result ∈ results, ∃ slot, some slot ∈ slots ∧ result.state = slot.state := by
  induction slots generalizing gas results with
  | nil =>
    cases h
    simp
  | cons slot slots ih =>
    cases slot with
    | none => cases h
    | some first =>
      obtain ⟨rest, hrest, rfl⟩ := Option.map_eq_some_iff.mp h
      intro result hresult
      rcases List.mem_cons.mp hresult with rfl | hresult
      · exact ⟨first, List.mem_cons_self, rfl⟩
      · obtain ⟨slot, hslot, hstate⟩ := ih hrest result hresult
        exact ⟨slot, List.mem_cons_of_mem _ hslot, hstate⟩

omit [DecidableEq κ] in
lemma evaluateResults_failures (mvMemory : MvMemory κ MemoryValue)
    (addresses : List (Address × Storage Code))
    (results : List (PexeTxExecutionResult L (Traced (TxState Code)))) :
    (block.evaluateResults mvMemory addresses results).Reports LazyEvaluation.reported ∧
      (block.evaluateResults mvMemory addresses results).Records IsStorageError
        LazyEvaluation.reported :=
  ⟨.bind (LazyEvaluation.Watched.evaluate_failures _ _).1 fun _ _ => .pure _,
    .bind (LazyEvaluation.Watched.evaluate_failures _ _).2 fun _ => .pure _⟩

/-- A failed call is never turned into a value, but for the look-up of an account at the end of the
block. The struct may have been used before, and any calls of the storage may fail, on the workers
or in the sequential execution. -/
theorem hidesNoFailure_iff (hused : Used p) (h : block.Computes p result calls endCalls) :
    block.HidesNoFailure (calls ++ endCalls) result ↔
      ∀ call ∈ endCalls, call.request.IsBasic → ∀ message, call.failure = some message →
        ∃ other ∈ endCalls, ¬ other.request.IsBasic ∧ other.failure = some message := by
  cases h with
  | empty _ => simp [HidesNoFailure]
  | @fallbackToSequential σ x _ hends hreason hsequential =>
    refine iff_of_true ?_ (by simp)
    rw [List.append_nil]
    intro call hcall message hmessage
    have hreport := hsequential.reports call hcall _ (by
      rw [SequentialRun.reported, hmessage]
      rfl)
    rw [hreport]
    exact .inr (.inl rfl)
  | @executionError σ error calls _ hends hreason =>
    refine iff_of_true ?_ (by simp)
    rw [List.append_nil]
    intro call hcall message hmessage
    have hblames := (keeps_of_ends hused.abortReason hends).1 _ hreason
    rw [show error = _ from hblames call hcall message hmessage]
    exact .inl rfl
  | @evaluated σ results addresses _ hends hreason hcollect _ _ =>
    have hclean : Clean (results.flatMap fun result => result.state.2) := by
      intro call hcall
      obtain ⟨result, hresult, hcall⟩ := List.mem_flatMap.mp hcall
      obtain ⟨slot, hslot, hstate⟩ := collect_state hcollect result hresult
      rw [hstate] at hcall
      exact (keeps_of_ends hused.abortReason hends).2 hreason slot hslot call hcall
    obtain ⟨hreports, hrecords⟩ := block.evaluateResults_failures σ.mvMemory addresses results
    generalize block.evaluateResults σ.mvMemory addresses results = x at *
    constructor
    · intro hhides call hcall _ message hmessage
      have htells := hhides call (List.mem_append_right _ hcall) message hmessage
      have hx : x.result = .error (.storageError message) := by
        cases hr : x.result with
        | ok results =>
          rw [hr] at htells
          rcases htells with h | h | h <;> cases h
        | error e =>
          rw [hr] at htells
          rcases htells with h | h | h <;> cases h
          rfl
      obtain ⟨other, hother, hreported⟩ := hrecords _ ⟨message, rfl⟩ hx
      unfold LazyEvaluation.reported at hreported
      split_ifs at hreported with hkind
      obtain ⟨message', hmessage', heq⟩ := Option.map_eq_some_iff.mp hreported
      cases heq
      exact ⟨other, hother, hkind, hmessage'⟩
    · intro hreported call hcall message hmessage
      rcases List.mem_append.mp hcall with hcall | hcall
      · rw [hclean call hcall] at hmessage
        cases hmessage
      · obtain ⟨other, hother, hkind, hfailure⟩ : ∃ other ∈ x.log,
            ¬ other.request.IsBasic ∧ other.failure = some message := by
          by_cases hbasic : call.request.IsBasic
          · exact hreported call hcall hbasic message hmessage
          · exact ⟨call, hcall, hbasic, hmessage⟩
        have hx := hreports other hother (.storageError message) (by
          simp [LazyEvaluation.reported, hkind, hfailure])
        rw [hx]
        exact .inr (.inr rfl)

end Failures

section Sample

/-- The end of a transfer of 5 from account 1 to account 2. -/
def transferred : EvmProgram Unit Unit :=
  .done (.ok ⟨21000,
    [(1, ⟨⟨978995, 1, keccakEmpty, none⟩, [], true, false, false⟩),
      (2, ⟨⟨105, 0, keccakEmpty, none⟩, [], true, false, false⟩)]⟩) () none

/-- A block of this transfer, for which account 7 is rewarded. -/
def transferBlock : ParallelEvmBlock ℕ Unit Unit Unit where
  chain := .ethereum
  hashes :=
    { location := fun
        | .basic address => address.toNat
        | .codeHash address => 10 + address.toNat
        | .storage _ _ => 20
      address := fun address => 30 + address.toNat }
  recipients := ⟨8, 9⟩
  env := ⟨true, true, 0, 7⟩
  txs := [⟨⟨1, 21000, 1, .call 2, 5, some 0, none, [], none⟩, ⟨none, none⟩⟩]
  concurrencyLevel := 1
  nonZero := by decide
  toBytecode := some
  toCode := id
  emptyCode := ()
  program _ := .ask (.basic 1) fun _ => .ask (.basic 2) fun _ => transferred
  sequentialProgram _ := .ask (.basic 1) fun _ => .ask (.basic 2) fun _ => transferred
  printDatabaseError text := "database error: " ++ text

/-- Account 1 has one million, all others have 100. -/
def healthyStorage : FullStorage Unit where
  basic address := .ok (some ⟨if address = 1 then 1000000 else 100, 0⟩)
  codeHash _ := .ok none
  codeByHash _ := .ok none
  storage _ _ := .ok 0
  blockHash _ := .ok 0

/-- Accounts cannot be looked up. -/
def failingStorage : Storage Unit :=
  { healthyStorage.toStorage with basic := fun _ => .error "timeout" }

def sampleMemory : MvMemory ℕ MemoryValue := .new [(7, [0])]

def openedDb : VmDb ℕ where
  txIdx := 0
  tx := transferBlock.txAt 0
  fromHash := 1
  toHash := some 2
  toCodeHash := none
  isLazy := false
  readSet := (∅ : ReadSet ℕ).insert 12 [.storage]
  readAccounts := ∅

def senderDb : VmDb ℕ :=
  ((openedDb.withOrigins 1 [.storage]).withOrigins 11 [.storage]).cacheAccount 1 ⟨1000000, 0⟩ none

def recipientDb : VmDb ℕ := (senderDb.withOrigins 2 [.storage]).cacheAccount 2 ⟨100, 0⟩ none

def transferCalls : List Call :=
  [⟨.codeHash 2, none⟩, ⟨.basic 1, none⟩, ⟨.codeHash 1, none⟩, ⟨.basic 2, none⟩]

def transferResult : PexeTxExecutionResult Unit (Traced (TxState Unit)) :=
  ⟨⟨21000, ()⟩, (fromRevm id true [(1, ⟨⟨978995, 1, keccakEmpty, none⟩, [], true, false, false⟩),
    (2, ⟨⟨105, 0, keccakEmpty, none⟩, [], true, false, false⟩)], transferCalls)⟩

/-- The rewarded account cannot be looked up at the end. -/
def failingCalls : List Call := [⟨.basic 7, some "timeout"⟩, ⟨.codeHash 7, none⟩]

/-! The transfer, one read after the other. -/

lemma transfer_opens : transferBlock.vm.next ⟨0, 0⟩ (.opening, []) sampleMemory
    (.running (.running (transferBlock.program 0) openedDb, transferCalls.take 1)) :=
  ⟨_, @Piece.new ℕ Unit Unit Unit transferBlock _ ⟨0, 0⟩ _ _ healthyStorage.toStorage
    (fun _ => none) rfl, rfl⟩

lemma transfer_readsSender : transferBlock.vm.next ⟨0, 0⟩
    (.running (transferBlock.program 0) openedDb, transferCalls.take 1) sampleMemory
    (.running (.running (.ask (.basic 2) fun _ => transferred) senderDb, transferCalls.take 3)) :=
  ⟨_, @Piece.answer ℕ Unit Unit Unit transferBlock _ ⟨0, 0⟩ _ _ _ _ healthyStorage
    healthyStorage.toStorage sampleMemory (fun _ => none) (fun _ => none) rfl, rfl⟩

lemma transfer_readsRecipient : transferBlock.vm.next ⟨0, 0⟩
    (.running (.ask (.basic 2) fun _ => transferred) senderDb, transferCalls.take 3) sampleMemory
    (.running (.running transferred recipientDb, transferCalls)) :=
  ⟨_, @Piece.answer ℕ Unit Unit Unit transferBlock _ ⟨0, 0⟩ _ _ _ _ healthyStorage
    healthyStorage.toStorage sampleMemory (fun _ => none) (fun _ => none) rfl, rfl⟩

lemma transfer_finishes : transferBlock.vm.next ⟨0, 0⟩
    (.running transferred recipientDb, transferCalls) sampleMemory
    (.finished recipientDb.readSet
      [(1, .basic ⟨978995, 1⟩), (2, .basic ⟨105, 0⟩), (7, .lazyRecipient 21000)] .empty
      transferResult) :=
  ⟨_, @Piece.done ℕ Unit Unit Unit transferBlock _ ⟨0, 0⟩ _ _ _ _ _ _ _ rfl rfl rfl, rfl⟩

def transferStart : Attempt (Fin 1) (Traced (Job ℕ Unit Unit)) ℕ MemoryValue
    (PexeTxExecutionResult Unit (Traced (TxState Unit))) (Traced ExecutionError) :=
  ⟨.new 1, [none], sampleMemory, {7}, none, fun _ => .working .polling⟩

/-- The storage fails when the block has been executed and the rewarded account is looked up. -/
lemma transferBlock_computes :
    ∃ results, transferBlock.Computes .new (.ok results) transferCalls failingCalls := by
  have hstart : (Attempt.system (Fin 1) transferBlock.vm 1 [(7, [0])] {7} [none] none).Reachable
      transferStart := .init ⟨rfl, rfl, rfl, rfl, rfl, fun _ => rfl⟩
  have htaken := hstart.step (.nextTask (w := 0) rfl)
  have hopened := htaken.step (.read (w := 0) (v := ⟨0, 0⟩) rfl transfer_opens)
  have hsender := hopened.step (.read (w := 0) (v := ⟨0, 0⟩) rfl transfer_readsSender)
  have hrecipient := hsender.step (.read (w := 0) (v := ⟨0, 0⟩) rfl transfer_readsRecipient)
  have hrecorded := hrecipient.step (.record (w := 0) (v := ⟨0, 0⟩) rfl transfer_finishes)
  have hstored := hrecorded.step (.storeResult (w := 0) (v := ⟨0, 0⟩) rfl)
  have hfinished := hstored.step (.finishExecution (w := 0) (v := ⟨0, 0⟩) rfl)
  have hvalidating := hfinished.step (.goOn (w := 0) rfl rfl)
  have hvalidated := hvalidating.step (.validateReadLocations (w := 0) (v := ⟨0, 0⟩) rfl)
  have hsettled := hvalidated.step (.finishValidation (w := 0) (v := ⟨0, 0⟩) rfl)
  have hpolling := hsettled.step (.goOn (w := 0) rfl rfl)
  have hgone := hpolling.step (.nextTask (w := 0) rfl)
  have hends : transferBlock.toParallelBlock.Ends .new _ :=
    ⟨hgone, fun w => by fin_cases w; rfl⟩
  have hcomputes := @Computes.evaluated ℕ Unit Unit Unit transferBlock _ .new _ _
    [(7, failingStorage)] (by decide) hends rfl rfl (by decide) rfl
  exact ⟨_, hcomputes⟩

/-- The reward is returned as all that the account has. -/
theorem hidesNoFailure_transferBlock : ∃ results,
    transferBlock.Computes .new (.ok results) transferCalls failingCalls ∧
    (transferBlock.HidesNoFailure (transferCalls ++ failingCalls) (.ok results) ↔
      ∀ call ∈ failingCalls, call.request.IsBasic → ∀ message, call.failure = some message →
        ∃ other ∈ failingCalls, ¬ other.request.IsBasic ∧ other.failure = some message) := by
  obtain ⟨results, hcomputes⟩ := transferBlock_computes
  exact ⟨results, hcomputes, hidesNoFailure_iff .new hcomputes⟩

/-- The failed look-up is hidden behind a value. -/
theorem not_hidesNoFailure : ¬ ∀ result calls endCalls,
    transferBlock.Computes .new result calls endCalls →
      transferBlock.HidesNoFailure (calls ++ endCalls) result := by
  intro h
  obtain ⟨results, hcomputes⟩ := transferBlock_computes
  have htells := h _ _ _ hcomputes ⟨.basic 7, some "timeout"⟩
    (by simp [failingCalls]) "timeout" rfl
  rcases htells with htells | htells | htells <;> cases htells

end Sample

end ParallelEvmBlock

end Pevm
