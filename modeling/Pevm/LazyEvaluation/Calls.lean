import Pevm.LazyEvaluation
import Pevm.VmDb.Calls

/-!
# The evaluation under watch

The evaluation of the lazy addresses with every call of the storage on record. A failed
`code_hash` or `code_by_hash` ends the evaluation with its error. A failed `basic` does not:
the account counts as empty.
-/
namespace Pevm

/-- The request is for balance and nonce. Its failures are the ones that the evaluation drops. -/
def Request.IsBasic : Request → Prop
  | basic _ => True
  | _ => False

instance : DecidablePred Request.IsBasic := fun request => by
  cases request <;> unfold Request.IsBasic <;> infer_instance

namespace LazyEvaluation

/-- How a failed call is reported, if it is: one for balance and nonce is not. -/
def reported (call : Call) : Option PexeError :=
  if call.request.IsBasic then none else call.failure.map .storageError

def IsStorageError (error : PexeError) : Prop := ∃ message, error = .storageError message

namespace Watched
variable {κ Code : Type} (hash : MemoryLocation → κ) (storage : Storage Code)
  (mvMemory : MvMemory κ MemoryValue) (eip161 : Bool) (txs : ℕ → TxEnv) (blockSize : ℕ)

/-- A piece of the evaluation with its calls on record. -/
abbrev Evaluating := Logged Call PexeError

/-- The account that the evaluation starts from, on record; a failed call is as good as no account.
-/
def initialAccount (address : Address) (entries : List (ℕ × MemoryEntry MemoryValue)) :
    Evaluating AccountBasic :=
  match entries with
  | (_, .data _ (.basic _)) :: _ => return .default
  | _ => do
    let found ← (ask .storageError (.basic address) (storage.basic address)).attempt
    return found.join.getD .default

def loadCode (codeHash : Option B256) : Evaluating (Option Code) :=
  match codeHash with
  | none => return none
  | some codeHash => ask .storageError (.codeByHash codeHash) (storage.codeByHash codeHash)

/-- The evaluation of one lazy address with its calls on record. -/
def evaluateAddress (address : Address) (states : ℕ → TxState Code) :
    Evaluating (ℕ → TxState Code) :=
  match mvMemory.data (hash (.basic address)) with
  | none => return states
  | some m => do
    let entries := history m blockSize
    let account ← initialAccount storage address entries
    let codeHash ← ask .storageError (.codeHash address) (storage.codeHash address)
    let code ← loadCode storage codeHash
    .quiet (evaluateEntries eip161 address txs codeHash code entries account states)

/-- All lazy addresses, each with what the storage answers by then. -/
def evaluate : List (Address × Storage Code) → (ℕ → TxState Code) →
    Evaluating (ℕ → TxState Code)
  | [], states => return states
  | (address, storage) :: addresses, states => do
    let states ← evaluateAddress hash storage mvMemory eip161 txs blockSize address states
    evaluate addresses states

section Result
variable {hash storage mvMemory eip161 txs blockSize}

lemma initialAccount_result (address : Address) (entries : List (ℕ × MemoryEntry MemoryValue)) :
    (initialAccount storage address entries).result =
      .ok (LazyEvaluation.initialAccount
        (match storage.basic address with | .ok account => account | .error _ => none)
          entries) := by
  have hfound : ((ask .storageError (.basic address) (storage.basic address)).attempt >>=
      fun found => return found.join.getD .default : Evaluating AccountBasic).result =
        .ok ((match storage.basic address with
          | .ok account => account
          | .error _ => none).getD .default) := by
    cases storage.basic address <;> rfl
  cases entries with
  | nil => exact hfound
  | cons entry entries =>
    obtain ⟨txIdx, entry⟩ := entry
    cases entry with
    | estimate => exact hfound
    | data txIncarnation value =>
      cases value with
      | basic info => rfl
      | codeHash | storage | lazyRecipient | lazySender | selfDestructed => exact hfound

lemma loadCode_result (codeHash : Option B256) :
    (loadCode storage codeHash).result =
      match codeHash with
      | none => .ok none
      | some codeHash => orStorageError (storage.codeByHash codeHash) := by
  cases codeHash with
  | none => rfl
  | some codeHash =>
    show (ask _ _ (storage.codeByHash codeHash)).result = orStorageError _
    cases storage.codeByHash codeHash <;> rfl

/-- Forgetting the record gives the evaluation of the address. -/
lemma evaluateAddress_result (address : Address) (states : ℕ → TxState Code) :
    (evaluateAddress hash storage mvMemory eip161 txs blockSize address states).result =
      LazyEvaluation.evaluateAddress hash storage mvMemory eip161 txs blockSize address
        states := by
  have hcodeHash : (ask PexeError.storageError (.codeHash address)
      (storage.codeHash address)).result = orStorageError (storage.codeHash address) := by
    cases storage.codeHash address <;> rfl
  unfold evaluateAddress LazyEvaluation.evaluateAddress
  cases mvMemory.data (hash (.basic address)) with
  | none => rfl
  | some m =>
    simp only [Logged.result_bind, initialAccount_result, Fallible.ok_bind, hcodeHash,
      loadCode_result, Logged.result_quiet]
    refine bind_congr fun codeHash => ?_
    cases codeHash <;> rfl

/-- With a storage that always answers the same, this is the evaluation of all addresses. -/
theorem evaluate_result (addresses : List Address) (states : ℕ → TxState Code) :
    (evaluate hash mvMemory eip161 txs blockSize
      (addresses.map fun address => (address, storage)) states).result =
      LazyEvaluation.evaluate hash storage mvMemory eip161 txs blockSize addresses states := by
  induction addresses generalizing states with
  | nil => rfl
  | cons address addresses ih =>
    rw [List.map_cons, evaluate, LazyEvaluation.evaluate, Logged.result_bind,
      evaluateAddress_result]
    exact bind_congr fun states => ih states

end Result

section Failures
variable {hash storage mvMemory eip161 txs blockSize}

lemma ask_reports {α : Type} {request : Request} {answer : Except String α} :
    (ask .storageError request answer).Reports reported := by
  intro call hcall e he
  unfold reported at he
  split_ifs at he
  exact Pevm.ask_reports call hcall e he

lemma ask_records {α : Type} {request : Request} {answer : Except String α}
    (h : ¬ request.IsBasic) : (ask .storageError request answer).Records IsStorageError reported := by
  intro e _ he
  cases answer with
  | ok a => cases he
  | error message =>
    cases he
    exact ⟨_, List.mem_singleton_self _, by simp [reported, h]⟩

/-- The account that the evaluation begins with is never the reason for an error. -/
lemma initialAccount_failures (address : Address)
    (entries : List (ℕ × MemoryEntry MemoryValue)) :
    (initialAccount storage address entries).Reports reported ∧
      (initialAccount storage address entries).Records IsStorageError reported := by
  constructor
  · unfold initialAccount
    split
    · exact .pure _
    · refine .bind (fun call hcall e he => ?_) fun _ _ => .pure _
      cases List.mem_singleton.mp hcall
      cases he
  · intro e _ he
    rw [initialAccount_result] at he
    cases he

lemma loadCode_failures (codeHash : Option B256) :
    (loadCode storage codeHash).Reports reported ∧
      (loadCode storage codeHash).Records IsStorageError reported := by
  cases codeHash with
  | none => exact ⟨.pure _, .pure _⟩
  | some codeHash => exact ⟨ask_reports, ask_records id⟩

/-- The entries are evaluated without the storage. -/
lemma evaluateEntries_fails {codeHash : Option B256} {code : Option Code} {address : Address}
    {entries : List (ℕ × MemoryEntry MemoryValue)} {account : AccountBasic}
    {states : ℕ → TxState Code} :
    Fallible.Fails (evaluateEntries eip161 address txs codeHash code entries account states)
      fun e => ¬ IsStorageError e := by
  have hcheck : ∀ txIdx tx account, Fallible.Fails
      (checkNonce address txIdx tx account >>= fun _ => .ok account)
        fun e => ¬ IsStorageError e := by
    intro txIdx tx account
    refine .bind ?_ fun _ _ => .ok _
    unfold checkNonce
    split
    · split
      · exact .ok _
      · split
        · exact .error (by simp [IsStorageError])
        · split
          · exact .error (by simp [IsStorageError])
          · exact .ok _
    · exact .ok _
  induction entries generalizing account states with
  | nil => exact .ok _
  | cons entry entries ih =>
    refine .bind ?_ fun account _ => ih
    unfold evaluateEntry
    dsimp only
    split
    · exact hcheck _ _ _
    · exact hcheck _ _ _
    · split_ifs
      · exact .error (by simp [IsStorageError])
      · exact hcheck _ _ _
    · exact .error (by simp [IsStorageError])

lemma evaluateAddress_failures (address : Address) (states : ℕ → TxState Code) :
    (evaluateAddress hash storage mvMemory eip161 txs blockSize address states).Reports reported ∧
      (evaluateAddress hash storage mvMemory eip161 txs blockSize address states).Records
        IsStorageError reported := by
  unfold evaluateAddress
  split
  · exact ⟨.pure _, .pure _⟩
  · constructor
    · exact .bind (initialAccount_failures _ _).1 fun _ _ => .bind ask_reports fun codeHash _ =>
        .bind (loadCode_failures codeHash).1 fun _ _ => .quiet _
    · exact .bind (initialAccount_failures _ _).2 fun _ => .bind (ask_records id) fun codeHash =>
        .bind (loadCode_failures codeHash).2 fun _ => .quiet evaluateEntries_fails

/-- Every failed call but those of `basic` is what the evaluation fails with, and a storage error
comes from such a call. -/
theorem evaluate_failures (addresses : List (Address × Storage Code)) (states : ℕ → TxState Code) :
    (evaluate hash mvMemory eip161 txs blockSize addresses states).Reports reported ∧
      (evaluate hash mvMemory eip161 txs blockSize addresses states).Records
        IsStorageError reported := by
  induction addresses generalizing states with
  | nil => exact ⟨.pure _, .pure _⟩
  | cons first addresses ih =>
    obtain ⟨address, storage⟩ := first
    exact ⟨.bind (evaluateAddress_failures address states).1 fun states _ => (ih states).1,
      .bind (evaluateAddress_failures address states).2 fun states => (ih states).2⟩

end Failures

end Watched

end LazyEvaluation

end Pevm
