import Pevm.Vm.Completed
import Pevm.VmDb.Calls

/-!
# Executions under watch

One execution in pieces, a piece for every read of the machine, with the calls of the storage
on record. A call that fails makes the execution fail with its error.
-/
namespace Pevm
open VmDb

/-- What revm asks its database for, the four methods of the `Database` trait. -/
inductive Question
  | basic (address : Address)
  | codeByHash (codeHash : B256)
  | storage (address : Address) (index : U256)
  | blockHash (number : U64)

/-- What the database answers to a question. -/
def Question.Answer (Bytecode : Type) : Question → Type
  | basic _ => Option (AccountInfo Bytecode)
  | codeByHash _ => Bytecode
  | storage _ _ => U256
  | blockHash _ => B256

/-- The errors that revm finds by itself, as far as `Vm::execute` tells them apart. -/
inductive EvmError
  | lackOfFundForMaxFeeOrNonceTooHigh
  | other
  deriving DecidableEq, Repr

/-- What `transact` comes to where no read has failed. -/
def Transacted.ofEvm {Bytecode : Type} :
    Except EvmError (ResultAndState Bytecode) → Transacted Bytecode
  | .ok result => .ok result
  | .error .lackOfFundForMaxFeeOrNonceTooHigh => .lackOfFundForMaxFeeOrNonceTooHigh
  | .error .other => .error

/-- What revm does for a transaction depends on what its database answers. `outcome` is what the
receipt holds besides the gas. -/
inductive EvmProgram (Bytecode L : Type)
  | done (transacted : Except EvmError (ResultAndState Bytecode)) (outcome : L)
      (calculateTxL1Cost : Option (List U8 → U256))
  | ask (question : Question) (next : question.Answer Bytecode → EvmProgram Bytecode L)

/-- The error that a call for a block ends in: a failed read, a message, or an error of revm. -/
inductive ExecutionError
  | database (error : ReadError)
  | custom (message : String)
  | evm (error : EvmError)
  deriving DecidableEq, Repr

/-- `VmExecutionError` with the error that it carries. -/
inductive VmFailure
  | retry
  | fallbackToSequential
  | blocking (txIdx : ℕ)
  | executionError (error : ExecutionError)
  deriving DecidableEq, Repr

namespace VmFailure

/-- `From<ReadError>`, with the error carried on where it is final. -/
def ofReadError : ReadError → VmFailure
  | .inconsistentRead => .retry
  | .selfDestructedAccount => .fallbackToSequential
  | .blocking txIdx => .blocking txIdx
  | error => .executionError (.database error)

/-- The failure without the error that it carries. -/
def kind : VmFailure → VmExecutionError
  | retry => .retry
  | fallbackToSequential => .fallbackToSequential
  | blocking txIdx => .blocking txIdx
  | executionError _ => .executionError

lemma kind_ofReadError (error : ReadError) :
    (ofReadError error).kind = .ofReadError error := by
  cases error <;> rfl

lemma ofReadError_blocking {error : ReadError} {b : ℕ} (h : ofReadError error = .blocking b) :
    error = .blocking b := by
  cases error <;> cases h
  rfl

end VmFailure

namespace Vm
variable {κ Bytecode : Type} [DecidableEq κ] (hash : MemoryLocation → κ) (env : ChainEnv)

/-- `Vm::execute` behind `transact`: write set, rewards and flags. Nothing where the code panics. -/
def finish (policy : RewardPolicy κ) (db : VmDb κ) (tx : OptimismTxEnv)
    (calculateTxL1Cost : Option (List U8 → U256))
    (transacted : Except EvmError (ResultAndState Bytecode)) :
    Option (Except VmFailure
      (ReadSet κ × WriteSet κ MemoryValue × FinishExecFlags × ResultAndState Bytecode)) :=
  match transacted with
  | .ok result =>
    (rewards hash env policy tx calculateTxL1Cost (result.gasUsed.setWidth 256)).map fun rewards =>
      match applyRewardList rewards (writeSet hash env db result.state) with
      | .ok writeSet =>
        .ok (db.readSet, writeSet,
          if 0 < db.txIdx ∧ ¬ db.isLazy then .needValidation else .empty, result)
      | .error error => .error (.ofReadError error)
  | .error error =>
    some (.error (
      if 0 < db.txIdx ∧ error = .lackOfFundForMaxFeeOrNonceTooHigh then .blocking (db.txIdx - 1)
      else .executionError (.evm error)))

variable {hash env} {policy : RewardPolicy κ} {db : VmDb κ} {tx : OptimismTxEnv}
  {calculateTxL1Cost : Option (List U8 → U256)}
  {transacted : Except EvmError (ResultAndState Bytecode)}

/-- Up to what the errors carry this is `executeUnder`. -/
theorem finish_kind : (finish hash env policy db tx calculateTxL1Cost transacted).map (fun x =>
      (x.map fun r => (r.1, r.2.1, r.2.2.1)).mapError VmFailure.kind) =
    executeUnder hash env policy db tx calculateTxL1Cost (.ofEvm transacted) := by
  cases transacted with
  | ok result =>
    cases hrewards : rewards hash env policy tx calculateTxL1Cost
        (result.gasUsed.setWidth 256) with
    | none => simp [finish, executeUnder, Transacted.ofEvm, hrewards]
    | some rewards =>
      cases hresult : applyRewardList rewards (writeSet hash env db result.state) with
      | ok writeSet =>
        simp [finish, executeUnder, Transacted.ofEvm, hrewards, hresult, Except.map,
          Except.mapError]
      | error error =>
        simp [finish, executeUnder, Transacted.ofEvm, hrewards, hresult, Except.map,
          Except.mapError, VmFailure.kind_ofReadError]
  | error error =>
    cases error with
    | lackOfFundForMaxFeeOrNonceTooHigh =>
      by_cases hpos : 0 < db.txIdx
      · simp [finish, executeUnder, execute, Transacted.ofEvm, hpos, Except.map, Except.mapError,
          VmFailure.kind]
      · simp [finish, executeUnder, execute, Transacted.ofEvm, hpos, Except.map, Except.mapError,
          VmFailure.kind]
    | other =>
      simp [finish, executeUnder, execute, Transacted.ofEvm, Except.map, Except.mapError,
        VmFailure.kind]

lemma applyRewardList_fails (rewards : List (κ × U256)) (writeSet : WriteSet κ MemoryValue) :
    Fallible.Fails (applyRewardList rewards writeSet) (· = .invalidMemoryValueType) := by
  induction rewards generalizing writeSet with
  | nil => exact .ok _
  | cons reward rewards ih =>
    rw [applyRewardList, List.foldlM_cons]
    exact .bind (applyReward_fails _ _ _) fun writeSet _ => ih writeSet

/-- What is left to be done waits at most for the transaction before. -/
lemma finish_blocking {b : ℕ} (h : finish hash env policy db tx calculateTxL1Cost transacted =
    some (.error (.blocking b))) : b < db.txIdx := by
  cases transacted with
  | ok result =>
    obtain ⟨rewards, -, heq⟩ := Option.map_eq_some_iff.mp h
    cases hresult : applyRewardList rewards (writeSet hash env db result.state) with
    | ok writeSet =>
      rw [hresult] at heq
      cases heq
    | error error =>
      rw [hresult, applyRewardList_fails _ _ error hresult] at heq
      cases heq
  | error error =>
    have heq := Except.error.inj (Option.some.inj h)
    split_ifs at heq with hpos
    cases heq
    omega

end Vm

namespace VmDb.Watched
variable {κ Code Bytecode : Type} [DecidableEq κ]

/-- The database answers revm, with its calls of the storage on record. -/
def answer (db : VmDb κ) (env env' : VmEnv κ Code Bytecode) (emptyCode : Bytecode)
    (fullStorage : FullStorage Code) :
    (question : Question) → Reading (question.Answer Bytecode × VmDb κ)
  | .basic address => basic db env env' address
  | .codeByHash codeHash => do
    let code ← codeByHash env.toBytecode emptyCode fullStorage codeHash
    return (code, db)
  | .storage address index => storage db env address index
  | .blockHash number => do
    let hash ← blockHash fullStorage number
    return (hash, db)

variable {db : VmDb κ} {env env' : VmEnv κ Code Bytecode} {emptyCode : Bytecode}
  {fullStorage : FullStorage Code} {question : Question}

lemma answer_reports : (answer db env env' emptyCode fullStorage question).Reports reported := by
  cases question with
  | basic address => exact basic_reports
  | codeByHash codeHash => exact .bind (codeByHash_reports codeHash) fun _ _ => .pure _
  | storage address index => exact storage_reports index
  | blockHash number => exact .bind ask_reports fun _ _ => .pure _

lemma answer_sameTx {found : question.Answer Bytecode × VmDb κ}
    (h : (answer db env env' emptyCode fullStorage question).result = .ok found) :
    SameTx db found.2 := by
  cases question with
  | basic address =>
    have hbasic : db.basicAcross env env' address = .ok found := by
      rw [← basic_result]
      exact h
    exact (basicAcross_eq_ok hbasic).1
  | codeByHash codeHash =>
    obtain ⟨code, -, heq⟩ := Fallible.bind_eq_ok.mp ((Logged.result_bind _ _).symm.trans h)
    cases heq
    exact .refl db
  | storage address index =>
    have hstorage : db.storage env address index = .ok found := by
      rw [← storage_result]
      exact h
    exact (storage_eq_ok hstorage).1
  | blockHash number =>
    obtain ⟨hash, -, heq⟩ := Fallible.bind_eq_ok.mp ((Logged.result_bind _ _).symm.trans h)
    cases heq
    exact .refl db

lemma answer_waits :
    Fallible.Fails (answer db env env' emptyCode fullStorage question).result
      (WaitsBelow db.txIdx) := by
  have hcall : ∀ (request : Request) {α : Type} (x : Except String α),
      Fallible.Fails (ask ReadError.storageError request x).result (WaitsBelow db.txIdx) := by
    intro request α x
    rw [ask_storageError]
    exact orStorageError_waits x
  cases question with
  | basic address =>
    show Fallible.Fails (basic db env env' address).result _
    rw [basic_result]
    exact basicAcross_waits
  | codeByHash codeHash =>
    show Fallible.Fails (codeByHash env.toBytecode emptyCode fullStorage codeHash >>= _).result _
    rw [Logged.result_bind]
    refine .bind ?_ fun _ _ => .ok _
    unfold codeByHash
    rw [Logged.result_bind]
    refine .bind (hcall _ _) fun stored _ => ?_
    cases stored with
    | none => exact .ok _
    | some code =>
      dsimp only
      split
      · exact .ok _
      · exact .error fun b hb => by cases hb
  | storage address index =>
    show Fallible.Fails (storage db env address index).result _
    rw [storage_result]
    exact storage_waits index
  | blockHash number =>
    show Fallible.Fails (blockHash fullStorage number >>= _).result _
    rw [Logged.result_bind]
    exact .bind (hcall _ _) fun _ _ => .ok _

end VmDb.Watched

end Pevm
