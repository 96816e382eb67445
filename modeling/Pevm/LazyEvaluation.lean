import Pevm.Account
import Pevm.Lib.Fallible
import Pevm.Lib.Saturating
import Pevm.MvMemory

/-!
# Evaluation of lazy accounts

At the end of a block the accounts with lazy entries are replayed forwards, one account
after the other, with the checks that the lazy executions left out.
-/
namespace Pevm
open Saturating

/-- The errors of the evaluation at the end of the block, and its panic. -/
inductive PexeError
  | lackOfFundForMaxFee (balance fee : U256)
  | nonceMismatch (txIdx : ℕ) (txNonce executedNonce : U64)
  | unreachableError
  | storageError (message : String)
  /-- `unreachable!`, a panic. -/
  | unreachable
  deriving DecidableEq, Repr

/-- An account in the state changes of a transaction: what it is after, with the slots that were
changed. -/
structure EvmAccount (Code : Type) where
  balance : U256
  nonce : U64
  codeHash : Option B256
  code : Option Code
  storage : U256 → Option U256

/-- The entries of a location below a bound, in index order. The source iterates over the map of the
location. -/
def history (m : ℕ → Option (MemoryEntry MemoryValue)) : ℕ → List (ℕ × MemoryEntry MemoryValue)
  | 0 => []
  | bound + 1 => history m bound ++ ((m bound).map fun e => (bound, e)).toList

lemma mem_history {m : ℕ → Option (MemoryEntry MemoryValue)} {bound : ℕ}
    {e : ℕ × MemoryEntry MemoryValue} : e ∈ history m bound ↔ e.1 < bound ∧ m e.1 = some e.2 := by
  induction bound with
  | zero => simp [history]
  | succ idx ih =>
    rw [history, List.mem_append, ih, Option.mem_toList, Option.map_eq_some_iff]
    constructor
    · rintro (⟨hlt, hm⟩ | ⟨e', he', rfl⟩)
      · exact ⟨by omega, hm⟩
      · exact ⟨by simp, he'⟩
    · rintro ⟨hlt, hm⟩
      by_cases hidx : e.1 = idx
      · exact .inr ⟨e.2, hidx ▸ hm, by rw [← hidx]⟩
      · exact .inl ⟨by omega, hm⟩

namespace LazyEvaluation
variable {Code : Type}

/-- What the sender must have at hand: gas at its price, the value and the blob fee, all saturating.
-/
def maxFee (tx : TxEnv) : U256 :=
  let maxFee := saturatingAdd (saturatingMul (tx.gasLimit.setWidth 256) tx.gasPrice) tx.value
  match tx.maxFeePerBlobGas with
  | some blobFee => saturatingAdd maxFee (saturatingMul (tx.getTotalBlobGas.setWidth 256) blobFee)
  | none => maxFee

/-- An entry applied to the account, without the checks that the evaluation makes. -/
def applyValue (account : AccountBasic) : MemoryValue → AccountBasic
  | .basic info => info
  | .lazyRecipient addition => { account with balance := saturatingAdd account.balance addition }
  | .lazySender subtraction =>
    { balance := saturatingSub account.balance subtraction, nonce := account.nonce + 1 }
  | .codeHash _ | .storage _ | .selfDestructed => account

/-- The same for an entry that may be an estimate, which changes nothing here. -/
def applyEntry (account : AccountBasic) : MemoryEntry MemoryValue → AccountBasic
  | .data _ value => applyValue account value
  | .estimate => account

/-- The account that the evaluation starts from: that of the storage, unless the first entry is an
absolute value and makes it irrelevant. -/
def initialAccount (storage : Option AccountBasic) (entries : List (ℕ × MemoryEntry MemoryValue)) :
    AccountBasic :=
  match entries with
  | (_, .data _ (.basic _)) :: _ => .default
  | _ => storage.getD .default

/-- The account that a history ends with, checks aside. -/
def replay (storage : Option AccountBasic) (entries : List (ℕ × MemoryEntry MemoryValue)) :
    AccountBasic :=
  entries.foldl (fun account e => applyEntry account e.2) (initialAccount storage entries)

/-- The evaluated nonce must be the one after that of the transaction when the address is the
caller. -/
def checkNonce (address : Address) (txIdx : ℕ) (tx : TxEnv) (account : AccountBasic) :
    Except PexeError Unit :=
  if tx.caller = address then
    match tx.nonce with
    | none => .ok ()
    | some txNonce =>
      if account.nonce = 0 then .error .unreachableError
      else if txNonce ≠ account.nonce - 1 then
        .error (.nonceMismatch txIdx txNonce (account.nonce - 1))
      else .ok ()
  else .ok ()

/-- One entry, with the checks for funds and nonce. An estimate, or a value of another kind, is
`unreachable!`. -/
def evaluateEntry (address : Address) (txs : ℕ → TxEnv) (account : AccountBasic)
    (entry : ℕ × MemoryEntry MemoryValue) : Except PexeError AccountBasic := do
  let tx := txs entry.1
  let account ←
    match entry.2 with
    | .data _ (.basic info) => .ok info
    | .data _ (.lazyRecipient addition) =>
      .ok { account with balance := saturatingAdd account.balance addition }
    | .data _ (.lazySender subtraction) =>
      if account.balance < maxFee tx then
        .error (.lackOfFundForMaxFee account.balance (maxFee tx))
      else
        .ok { balance := saturatingSub account.balance subtraction, nonce := account.nonce + 1 }
    | _ => .error .unreachable
  checkNonce address entry.1 tx account
  return account

/-- The evaluated account in the state changes of one transaction; under EIP-161 one that is empty
is deleted. -/
def storeAccount (eip161 : Bool) (codeHash : Option B256) (code : Option Code)
    (account : AccountBasic) (old : Option (EvmAccount Code)) : Option (EvmAccount Code) :=
  if eip161 ∧ codeHash = none ∧ account.nonce = 0 ∧ account.balance = 0 then none
  else
    match old with
    | some old => some { old with balance := account.balance, nonce := account.nonce }
    | none =>
      some
        { balance := account.balance, nonce := account.nonce, codeHash, code
          storage := fun _ => none }

/-- The state changes of a transaction: `some none` is an account that is cleared. -/
abbrev TxState (Code : Type) := Address → Option (Option (EvmAccount Code))

/-- An error of the storage under the name that it has in `PexeError`. -/
def orStorageError {α : Type} (x : Except String α) : Except PexeError α :=
  match x with
  | .ok a => .ok a
  | .error message => .error (.storageError message)

/-- The evaluation of the history of one address, which stores the account after each of its
entries. -/
def evaluateEntries (eip161 : Bool) (address : Address) (txs : ℕ → TxEnv)
    (codeHash : Option B256) (code : Option Code) :
    List (ℕ × MemoryEntry MemoryValue) → AccountBasic → (ℕ → TxState Code) →
      Except PexeError (ℕ → TxState Code)
  | [], _, states => .ok states
  | entry :: entries, account, states => do
    let account ← evaluateEntry address txs account entry
    let state := states entry.1
    let stored := storeAccount eip161 codeHash code account ((state address).getD none)
    evaluateEntries eip161 address txs codeHash code entries account
      (Function.update states entry.1 (Function.update state address (some stored)))

/-- The account that the storage gives. The source drops an error of `basic` here and goes on as if
there were no account. -/
def storedAccount (storage : Storage Code) (address : Address) : Option AccountBasic :=
  match storage.basic address with
  | .ok account => account
  | .error _ => none

/-- The evaluation of one lazy address; an address without a map in the memory is passed over. -/
def evaluateAddress {κ : Type} (hash : MemoryLocation → κ) (storage : Storage Code)
    (mvMemory : MvMemory κ MemoryValue) (eip161 : Bool) (txs : ℕ → TxEnv) (blockSize : ℕ)
    (address : Address) (states : ℕ → TxState Code) : Except PexeError (ℕ → TxState Code) :=
  match mvMemory.data (hash (.basic address)) with
  | none => .ok states
  | some m => do
    let entries := history m blockSize
    let account := initialAccount (storedAccount storage address) entries
    let codeHash ← orStorageError (storage.codeHash address)
    let code ← match codeHash with
      | none => .ok none
      | some codeHash => orStorageError (storage.codeByHash codeHash)
    evaluateEntries eip161 address txs codeHash code entries account states

/-- The lazy evaluation of `execute_revm_parallel`: all lazy addresses, one after the other, until
one fails. -/
def evaluate {κ : Type} (hash : MemoryLocation → κ) (storage : Storage Code)
    (mvMemory : MvMemory κ MemoryValue) (eip161 : Bool) (txs : ℕ → TxEnv) (blockSize : ℕ) :
    List Address → (ℕ → TxState Code) → Except PexeError (ℕ → TxState Code)
  | [], states => .ok states
  | address :: addresses, states => do
    let states ← evaluateAddress hash storage mvMemory eip161 txs blockSize address states
    evaluate hash storage mvMemory eip161 txs blockSize addresses states

end LazyEvaluation

end Pevm
