import Pevm.Pexe.Reuse
import Pevm.Vm.Calls

/-!
# The sequential execution under watch

`execute_revm_sequential` reads through `CacheDB` and `StorageWrapper`. What the cache answers by
itself is left open; what it does not hold it asks of the wrapper, and it passes an error on.
-/
namespace Pevm
open LazyEvaluation Saturating

/-- `StorageWrapperError`: how revm's database fails. -/
inductive StorageWrapperError
  | storageError (message : String)
  | invalidBytecode
  deriving DecidableEq, Repr

namespace StorageWrapperError

/-- `Display`. The message of the storage is not part of what is printed. -/
def print : StorageWrapperError → String
  | storageError _ => "storage error"
  | invalidBytecode => "invalid byte code"

/-- How a failed call is reported: under the message that the storage gave. -/
def reported (call : Call) : Option StorageWrapperError := call.failure.map .storageError

end StorageWrapperError

namespace StorageWrapper
variable {Code Bytecode : Type} (toBytecode : Code → Option Bytecode) (emptyCode : Bytecode)
  (storage : FullStorage Code)

/-- A read of the storage with its calls on record. -/
abbrev Reading := Logged Call StorageWrapperError

/-- The code behind a hash, if the storage has it and it can be read as bytecode. -/
def loadCode (codeHash : Option B256) : Reading (Option Bytecode) :=
  match codeHash with
  | none => return none
  | some codeHash => do
    match ← ask .storageError (.codeByHash codeHash) (storage.codeByHash codeHash) with
    | none => return none
    | some code =>
      match toBytecode code with
      | some code => return some code
      | none => .quiet (.error .invalidBytecode)

/-- `StorageWrapper::basic_ref`: balance and nonce, then the code hash, then the code. -/
def basicRef (address : Address) : Reading (Option (AccountInfo Bytecode)) := do
  match ← ask .storageError (.basic address) (storage.basic address) with
  | none => return none
  | some basic =>
    let codeHash ← ask .storageError (.codeHash address) (storage.codeHash address)
    let code ← loadCode toBytecode storage codeHash
    return some ⟨basic.balance, basic.nonce, codeHash.getD keccakEmpty, code⟩

/-- `StorageWrapper::code_by_hash_ref`: code that the storage does not have is empty. -/
def codeByHashRef (codeHash : B256) : Reading Bytecode := do
  let code ← loadCode toBytecode storage (some codeHash)
  return code.getD emptyCode

/-- `StorageWrapper::storage_ref`, a call of the storage. -/
def storageRef (address : Address) (index : U256) : Reading U256 :=
  ask .storageError (.storage address index) (storage.storage address index)

/-- `StorageWrapper::block_hash_ref`, a call of the storage. -/
def blockHashRef (number : U64) : Reading B256 :=
  ask .storageError (.blockHash number) (storage.blockHash number)

/-- What the database answers to a question of revm. -/
def answer : (question : Question) → Reading (question.Answer Bytecode)
  | .basic address => basicRef toBytecode storage address
  | .codeByHash codeHash => codeByHashRef toBytecode emptyCode storage codeHash
  | .storage address index => storageRef storage address index
  | .blockHash number => blockHashRef storage number

section Reports
variable {toBytecode emptyCode storage}

lemma loadCode_reports (codeHash : Option B256) :
    (loadCode toBytecode storage codeHash).Reports StorageWrapperError.reported := by
  cases codeHash with
  | none => exact .pure _
  | some codeHash =>
    refine .bind ask_reports fun stored _ => ?_
    cases stored with
    | none => exact .pure _
    | some code =>
      dsimp only
      split
      · exact .pure _
      · exact .quiet _

lemma answer_reports (question : Question) :
    (answer toBytecode emptyCode storage question).Reports StorageWrapperError.reported := by
  cases question with
  | basic address =>
    refine Logged.Reports.bind ask_reports fun found _ => ?_
    cases found with
    | none => exact .pure _
    | some basic =>
      exact .bind ask_reports fun codeHash _ => .bind (loadCode_reports codeHash) fun _ _ => .pure _
  | codeByHash codeHash => exact .bind (loadCode_reports _) fun _ _ => .pure _
  | storage address index => exact ask_reports
  | blockHash number => exact ask_reports

end Reports

end StorageWrapper

namespace CacheDb
variable {Code Bytecode L : Type} (toBytecode : Code → Option Bytecode) (emptyCode : Bytecode)

/-- What the cache asks of the wrapper for one answer: nothing, or one thing after the other. -/
inductive Consults : Logged Call StorageWrapperError PUnit → Prop
  | cached : Consults (pure .unit)
  | ask {storage : FullStorage Code} {question : Question}
      {rest : Logged Call StorageWrapperError PUnit} : Consults rest →
      Consults (StorageWrapper.answer toBytecode emptyCode storage question >>= fun _ => rest)

/-- `evm.transact()` over `CacheDB`. For a question of revm the storage is consulted any number of
times, not at all where everything is cached. -/
inductive Transacts :
    EvmProgram Bytecode L →
      Logged Call StorageWrapperError (Except EvmError (ResultAndState Bytecode) × L) → Prop
  | done {transacted : Except EvmError (ResultAndState Bytecode)} {outcome : L}
      {calculateTxL1Cost : Option (List U8 → U256)} :
      Transacts (.done transacted outcome calculateTxL1Cost) (pure (transacted, outcome))
  | ask {question : Question} {next : question.Answer Bytecode → EvmProgram Bytecode L}
      {answer : question.Answer Bytecode} {look : Logged Call StorageWrapperError PUnit}
      {rest : Logged Call StorageWrapperError (Except EvmError (ResultAndState Bytecode) × L)} :
      Consults toBytecode emptyCode look → Transacts (next answer) rest →
      Transacts (.ask question next) (look >>= fun _ => rest)

variable {toBytecode emptyCode}

lemma Consults.reports {look : Logged Call StorageWrapperError PUnit}
    (h : Consults toBytecode emptyCode look) : look.Reports StorageWrapperError.reported := by
  induction h with
  | cached => exact .pure _
  | ask _ ih => exact .bind (StorageWrapper.answer_reports _) fun _ _ => ih

lemma Transacts.reports {program : EvmProgram Bytecode L}
    {x : Logged Call StorageWrapperError (Except EvmError (ResultAndState Bytecode) × L)}
    (h : Transacts toBytecode emptyCode program x) : x.Reports StorageWrapperError.reported := by
  induction h with
  | done => exact .pure _
  | ask hlook _ ih => exact .bind hlook.reports fun _ _ => ih

end CacheDb

namespace SequentialRun
variable {Code Bytecode L : Type} (toBytecode : Code → Option Bytecode) (emptyCode : Bytecode)
  (toCode : Bytecode → Code) (printDatabaseError : String → String) (isEip161Enabled : Bool)

/-- One transaction. An error becomes its text, a database error the one that revm makes of it. -/
inductive Executes (program : EvmProgram Bytecode L) :
    Logged Call ExecutionError (ResultAndState Bytecode × L) → Prop
  | ok {result : ResultAndState Bytecode} {outcome : L}
      {x : Logged Call StorageWrapperError (Except EvmError (ResultAndState Bytecode) × L)} :
      CacheDb.Transacts toBytecode emptyCode program x → x.result = .ok (.ok result, outcome) →
      Executes program ⟨.ok (result, outcome), x.log⟩
  | rejected {error : EvmError} {outcome : L} {text : String}
      {x : Logged Call StorageWrapperError (Except EvmError (ResultAndState Bytecode) × L)} :
      CacheDb.Transacts toBytecode emptyCode program x → x.result = .ok (.error error, outcome) →
      Executes program ⟨.error (.custom text), x.log⟩
  | failed {error : StorageWrapperError}
      {x : Logged Call StorageWrapperError (Except EvmError (ResultAndState Bytecode) × L)} :
      CacheDb.Transacts toBytecode emptyCode program x → x.result = .error error →
      Executes program ⟨.error (.custom (printDatabaseError error.print)), x.log⟩

/-- The loop over the transactions, with the gas used so far, up to the first that fails. -/
inductive ExecutesAll : List (EvmProgram Bytecode L) → U64 →
    Logged Call ExecutionError (List (PexeTxExecutionResult L (TxState Code))) → Prop
  | nil {cumulativeGasUsed : U64} : ExecutesAll [] cumulativeGasUsed (pure [])
  | failed {program : EvmProgram Bytecode L} {programs : List (EvmProgram Bytecode L)}
      {cumulativeGasUsed : U64} {error : ExecutionError}
      {x : Logged Call ExecutionError (ResultAndState Bytecode × L)} :
      Executes toBytecode emptyCode printDatabaseError program x → x.result = .error error →
      ExecutesAll (program :: programs) cumulativeGasUsed ⟨.error error, x.log⟩
  | cons {program : EvmProgram Bytecode L} {programs : List (EvmProgram Bytecode L)}
      {cumulativeGasUsed : U64} {result : ResultAndState Bytecode} {outcome : L}
      {x : Logged Call ExecutionError (ResultAndState Bytecode × L)}
      {rest : Logged Call ExecutionError (List (PexeTxExecutionResult L (TxState Code)))} :
      Executes toBytecode emptyCode printDatabaseError program x →
      x.result = .ok (result, outcome) →
      ExecutesAll programs (saturatingAdd cumulativeGasUsed result.gasUsed) rest →
      ExecutesAll (program :: programs) cumulativeGasUsed (x >>= fun _ => rest >>= fun results =>
        pure (⟨⟨saturatingAdd cumulativeGasUsed result.gasUsed, outcome⟩,
          fromRevm toCode isEip161Enabled result.state⟩ :: results))

/-- The error that a failed call ends in, in `execute_revm_sequential`. -/
def reported (call : Call) : Option ExecutionError :=
  call.failure.map fun _ => .custom (printDatabaseError "storage error")

variable {toBytecode emptyCode toCode printDatabaseError isEip161Enabled}

lemma Executes.reports {program : EvmProgram Bytecode L}
    {x : Logged Call ExecutionError (ResultAndState Bytecode × L)}
    (h : Executes toBytecode emptyCode printDatabaseError program x) :
    x.Reports (reported printDatabaseError) := by
  have hnone : ∀ {y : Logged Call StorageWrapperError (Except EvmError (ResultAndState Bytecode) × L)}
      {a : Except EvmError (ResultAndState Bytecode) × L},
      CacheDb.Transacts toBytecode emptyCode program y →
        y.result = .ok a → ∀ call ∈ y.log, call.failure = none := by
    intro y a hy ha call hcall
    exact Option.map_eq_none_iff.mp (hy.reports.failure_eq_none ha hcall)
  intro call hcall e he
  unfold reported at he
  obtain ⟨message, hmessage, rfl⟩ := Option.map_eq_some_iff.mp he
  cases h with
  | ok hy ha =>
    rw [hnone hy ha call hcall] at hmessage
    cases hmessage
  | rejected hy ha =>
    rw [hnone hy ha call hcall] at hmessage
    cases hmessage
  | failed hy herror =>
    have hreport := hy.reports call hcall (.storageError message) (by
      rw [StorageWrapperError.reported, hmessage]
      rfl)
    rw [herror] at hreport
    obtain rfl := Except.error.inj hreport
    rfl

/-- A failed call ends the sequential execution with the text of a storage error. -/
theorem ExecutesAll.reports {programs : List (EvmProgram Bytecode L)} {cumulativeGasUsed : U64}
    {x : Logged Call ExecutionError (List (PexeTxExecutionResult L (TxState Code)))}
    (h : ExecutesAll toBytecode emptyCode toCode printDatabaseError isEip161Enabled programs
      cumulativeGasUsed x) : x.Reports (reported printDatabaseError) := by
  induction h with
  | nil => exact .pure _
  | failed hx herror =>
    intro call hcall e he
    have hreport := hx.reports call hcall e he
    rw [herror] at hreport
    exact congrArg Except.error (Except.error.inj hreport)
  | cons hx _ _ ih => exact .bind hx.reports fun _ _ => .bind ih fun _ _ => .pure _

end SequentialRun

end Pevm
