import Pevm.VmDb

/-!
# Execution of one transaction

What is made of the state that revm returns for a transaction: the write set with the
rewards, the flags for the scheduler, and the errors that hold the transaction back.
-/
namespace Pevm
open Saturating

/-- A storage slot as revm returns it: the value before the transaction and the present one. -/
structure EvmStorageSlot where
  originalValue : U256
  presentValue : U256
  deriving DecidableEq, Repr

/-- An account as revm returns it, with the flags that it has been given. -/
structure RevmAccount (Bytecode : Type) where
  info : AccountInfo Bytecode
  storage : List (U256 × EvmStorageSlot)
  isTouched : Bool
  isSelfdestructed : Bool
  isCreated : Bool

namespace RevmAccount
variable {Bytecode : Type} (account : RevmAccount Bytecode)

def hasCode : Prop := account.info.codeHash ≠ keccakEmpty

instance : Decidable account.hasCode := inferInstanceAs (Decidable (_ ≠ _))

/-- The account is empty in the sense of EIP-161: no code, no balance, and nonce 0. -/
def IsEmpty : Prop :=
  (account.info.codeHash = keccakEmpty ∨ account.info.codeHash = 0) ∧ account.info.balance = 0 ∧
    account.info.nonce = 0

instance : Decidable account.IsEmpty := inferInstanceAs (Decidable (_ ∧ _ ∧ _))

/-- `changed_storage_slots`: the slots whose value is another than before. -/
def changedStorageSlots : List (U256 × EvmStorageSlot) :=
  account.storage.filter fun s => s.2.originalValue ≠ s.2.presentValue

end RevmAccount

/-- What revm returns for a transaction, as far as the code reads it. -/
structure ResultAndState (Bytecode : Type) where
  gasUsed : U64
  state : List (Address × RevmAccount Bytecode)

/-- The parts of chain, specification and block that the write set depends on. -/
structure ChainEnv where
  isEip161Enabled : Bool
  isEip1559Enabled : Bool
  basefee : U256
  beneficiary : Address
  deriving DecidableEq, Repr

/-- How an execution fails, without the error that it carries. -/
inductive VmExecutionError
  | retry
  | fallbackToSequential
  | blocking (txIdx : ℕ)
  | executionError
  deriving DecidableEq, Repr

/-- `From<ReadError>`: an inconsistent read is retried, a destroyed account needs the sequential
execution. -/
def VmExecutionError.ofReadError : ReadError → VmExecutionError
  | .inconsistentRead => .retry
  | .selfDestructedAccount => .fallbackToSequential
  | .blocking txIdx => .blocking txIdx
  | _ => .executionError

/-- What `transact` comes to: a result, a failed read, or an error of the transaction itself. -/
inductive Transacted (Bytecode : Type)
  | ok (result : ResultAndState Bytecode)
  | database (error : ReadError)
  /-- The transaction may be valid after lower ones: its sender lacks funds, or its nonce is too
  high. -/
  | lackOfFundForMaxFeeOrNonceTooHigh
  | error

namespace Vm
variable {κ Bytecode : Type} [DecidableEq κ] (hash : MemoryLocation → κ) (chain : ChainEnv)
  (db : VmDb κ)

section Account
variable (address : Address) (account : RevmAccount Bytecode)

/-- There is code on an account that was read without. -/
def IsNewCode : Prop :=
  account.hasCode ∧ ∀ read, db.readAccounts.lookup (hash (.basic address)) = some read →
    read.2 = none

instance : Decidable (IsNewCode hash db address account) :=
  decidable_of_iff (account.hasCode ∧
      ((db.readAccounts.lookup (hash (.basic address))).all fun read => read.2.isNone) = true) (by
    unfold IsNewCode
    cases db.readAccounts.lookup (hash (.basic address)) <;> simp)

/-- The account was not read, or has other values than were read. -/
def IsChanged : Prop :=
  ∀ read, db.readAccounts.lookup (hash (.basic address)) = some read →
    read.1.nonce ≠ account.info.nonce ∨ read.1.balance ≠ account.info.balance

instance : Decidable (IsChanged hash db address account) :=
  decidable_of_iff ((db.readAccounts.lookup (hash (.basic address))).all (fun read =>
      decide (read.1.nonce ≠ account.info.nonce ∨ read.1.balance ≠ account.info.balance)) = true)
    (by
      unfold IsChanged
      cases db.readAccounts.lookup (hash (.basic address)) <;> simp)

/-- The write to the account itself. Empty accounts are not registered once they are cleared. -/
def writeBasic : WriteSet κ MemoryValue :=
  let l := hash (.basic address)
  if IsNewCode hash db address account ∨ IsChanged hash db address account then
    if db.isLazy then
      if l = db.fromHash then
        [(l, .lazySender (BitVec.allOnes 256 - account.info.balance))]
      else if some l = db.toHash then [(l, .lazyRecipient db.tx.value)]
      else []
    else if ¬ chain.isEip161Enabled ∨ ¬ account.IsEmpty then
      [(l, .basic ⟨account.info.balance, account.info.nonce⟩)]
    else []
  else []

/-- The code hash of a new contract is written; for others it is not, whatever it is. -/
def writeCodeHash : WriteSet κ MemoryValue :=
  if IsNewCode hash db address account then
    [(hash (.codeHash address), .codeHash account.info.codeHash)]
  else []

/-- The changed slots are written with their present values. -/
def writeStorage : WriteSet κ MemoryValue :=
  account.changedStorageSlots.map fun s =>
    (hash (.storage address s.1), .storage s.2.presentValue)

/-- The writes of one account: a destroyed one only loses its code hash. -/
def writeAccount : WriteSet κ MemoryValue :=
  if account.isSelfdestructed then [(hash (.codeHash address), .selfDestructed)]
  else
    (if account.isTouched then
      writeBasic hash chain db address account ++ writeCodeHash hash db address account
    else []) ++ writeStorage hash address account

end Account

/-- The write set before the rewards, account by account. -/
def writeSet (state : List (Address × RevmAccount Bytecode)) : WriteSet κ MemoryValue :=
  state.flatMap fun e => writeAccount hash chain db e.1 e.2

/-- The code that becomes available under its hash, for the code hashes that are written. -/
def newBytecodes (state : List (Address × RevmAccount Bytecode)) : List (B256 × Option Bytecode) :=
  (state.filter fun e => !e.2.isSelfdestructed && e.2.isTouched &&
    decide (IsNewCode hash db e.1 e.2)).map fun e => (e.2.info.codeHash, e.2.info.code)

/-- Where an account can be written to, its slots included. -/
def locations (e : Address × RevmAccount Bytecode) : List MemoryLocation :=
  .basic e.1 :: .codeHash e.1 :: e.2.storage.map fun s => .storage e.1 s.1

lemma address_of_mem_locations {e : Address × RevmAccount Bytecode} {location : MemoryLocation}
    (h : location ∈ locations e) : location.address = e.1 := by
  simp only [locations, List.mem_cons, List.mem_map] at h
  rcases h with rfl | rfl | ⟨s, -, rfl⟩
  · rfl
  · rfl
  · rfl

section Written
variable {hash chain db} {e : Address × RevmAccount Bytecode} {location : MemoryLocation}
  {state : List (Address × RevmAccount Bytecode)} {L : Set MemoryLocation}

lemma writeBasic_location {w : κ × MemoryValue} (h : w ∈ writeBasic hash chain db e.1 e.2) :
    w.1 = hash (.basic e.1) := by
  unfold writeBasic at h
  dsimp only at h
  split_ifs at h
  all_goals simp only [List.mem_singleton, List.not_mem_nil] at h
  all_goals rw [h]

lemma writeCodeHash_location {w : κ × MemoryValue} (h : w ∈ writeCodeHash hash db e.1 e.2) :
    w.1 = hash (.codeHash e.1) := by
  unfold writeCodeHash at h
  split_ifs at h
  · rw [List.mem_singleton.mp h]
  · simp at h

omit [DecidableEq κ] in
lemma writeStorage_location {w : κ × MemoryValue} (h : w ∈ writeStorage hash e.1 e.2) :
    ∃ s ∈ e.2.changedStorageSlots, w = (hash (.storage e.1 s.1), .storage s.2.presentValue) := by
  obtain ⟨s, hs, rfl⟩ := List.mem_map.mp h
  exact ⟨s, hs, rfl⟩

lemma storage_mem_locations {s : U256 × EvmStorageSlot} (h : s ∈ e.2.changedStorageSlots) :
    .storage e.1 s.1 ∈ locations e := by
  have hmem := (List.mem_filter.mp h).1
  simpa [locations] using ⟨s.2, hmem⟩

lemma writeAccount_location {w : κ × MemoryValue} (h : w ∈ writeAccount hash chain db e.1 e.2) :
    ∃ location ∈ locations e, w.1 = hash location := by
  have hstorage : ∀ w ∈ writeStorage hash e.1 e.2, ∃ location ∈ locations e,
      w.1 = hash location := by
    intro w hw
    obtain ⟨s, hs, rfl⟩ := writeStorage_location hw
    exact ⟨.storage e.1 s.1, storage_mem_locations hs, rfl⟩
  unfold writeAccount at h
  split_ifs at h
  · rw [List.mem_singleton.mp h]
    exact ⟨.codeHash e.1, by simp [locations], rfl⟩
  · rcases List.mem_append.mp h with h | h
    · rcases List.mem_append.mp h with h | h
      · exact ⟨.basic e.1, by simp [locations], writeBasic_location h⟩
      · exact ⟨.codeHash e.1, by simp [locations], writeCodeHash_location h⟩
    · exact hstorage w h
  · exact hstorage w (by simpa using h)

/-- An account writes to no location of another one. -/
lemma written_writeAccount_eq_none (hinj : Set.InjOn hash L)
    (hL : ∀ location ∈ locations e, location ∈ L) (hmem : location ∈ L)
    (h : location.address ≠ e.1) :
    MvMemory.written (writeAccount hash chain db e.1 e.2) (hash location) = none := by
  apply MvMemory.written_eq_none.mpr
  intro w hw heq
  obtain ⟨location', hlocation, hw⟩ := writeAccount_location hw
  have hsame := hinj (hL _ hlocation) hmem (hw.symm.trans heq)
  exact h (hsame ▸ address_of_mem_locations hlocation)

/-- Without collisions nothing is written to an account that is not in the state. -/
lemma written_writeSet_eq_none (hinj : Set.InjOn hash L)
    (hL : ∀ e ∈ state, ∀ location ∈ locations e, location ∈ L) (hmem : location ∈ L)
    (h : ∀ e ∈ state, location.address ≠ e.1) :
    MvMemory.written (writeSet hash chain db state) (hash location) = none := by
  induction state with
  | nil => rfl
  | cons e state ih =>
    have hrest := ih (fun e he => hL e (List.mem_cons_of_mem _ he))
      fun e he => h e (List.mem_cons_of_mem _ he)
    show MvMemory.written (writeAccount hash chain db e.1 e.2 ++ writeSet hash chain db state)
      (hash location) = none
    rw [MvMemory.written_append, hrest, written_writeAccount_eq_none hinj
      (hL e List.mem_cons_self) hmem (h e List.mem_cons_self)]
    rfl

/-- What is written to an account comes from that account. -/
theorem written_writeSet (hinj : Set.InjOn hash L)
    (hL : ∀ e ∈ state, ∀ location ∈ locations e, location ∈ L) (hmem : location ∈ L)
    (hnodup : (state.map Prod.fst).Nodup) (he : e ∈ state) (haddress : location.address = e.1) :
    MvMemory.written (writeSet hash chain db state) (hash location) =
      MvMemory.written (writeAccount hash chain db e.1 e.2) (hash location) := by
  induction state with
  | nil => simp at he
  | cons first state ih =>
    rw [List.map_cons, List.nodup_cons] at hnodup
    have hL' := fun e he => hL e (List.mem_cons_of_mem _ he)
    show MvMemory.written (writeAccount hash chain db first.1 first.2 ++
      writeSet hash chain db state) (hash location) = _
    rw [MvMemory.written_append]
    rcases List.mem_cons.mp he with rfl | he
    · rw [written_writeSet_eq_none hinj hL' hmem, Option.none_or]
      intro e' he' heq
      exact hnodup.1 (List.mem_map.mpr ⟨e', he', heq.symm.trans haddress⟩)
    · rw [ih hL' hnodup.2 he, written_writeAccount_eq_none (e := first) hinj
        (hL first List.mem_cons_self) hmem, Option.or_none]
      intro heq
      exact hnodup.1 (List.mem_map.mpr ⟨e, he, haddress.symm.trans heq⟩)

end Written

/-- One reward, on top of a write to the same location if there is one; else it is a write of its
own. -/
def applyReward (recipient : κ) (amount : U256) :
    WriteSet κ MemoryValue → Except ReadError (WriteSet κ MemoryValue)
  | [] => .ok [(recipient, .lazyRecipient amount)]
  | (l, value) :: writeSet =>
    if l = recipient then
      match value with
      | .basic basic =>
        .ok ((l, .basic { basic with balance := saturatingAdd basic.balance amount }) :: writeSet)
      | .lazySender subtraction =>
        .ok ((l, .lazySender (saturatingSub subtraction amount)) :: writeSet)
      | .lazyRecipient addition =>
        .ok ((l, .lazyRecipient (saturatingAdd addition amount)) :: writeSet)
      | _ => .error .invalidMemoryValueType
    else do
      let writeSet ← applyReward recipient amount writeSet
      return (l, value) :: writeSet

lemma applyReward_fails (recipient : κ) (amount : U256) (writeSet : WriteSet κ MemoryValue) :
    Fallible.Fails (applyReward recipient amount writeSet) (· = .invalidMemoryValueType) := by
  induction writeSet with
  | nil => exact .ok _
  | cons write writeSet ih =>
    unfold applyReward
    split_ifs
    · split
      · exact .ok _
      · exact .ok _
      · exact .ok _
      · exact .error rfl
    · exact .bind ih fun _ _ => .ok _

/-- The price that the beneficiary gets for a unit of gas, saturating. -/
def rewardGasPrice (tx : TxEnv) : U256 :=
  let gasPrice := match tx.gasPriorityFee with
    | some priorityFee =>
      if saturatingAdd priorityFee chain.basefee < tx.gasPrice then
        saturatingAdd priorityFee chain.basefee
      else tx.gasPrice
    | none => tx.gasPrice
  if chain.isEip1559Enabled then saturatingSub gasPrice chain.basefee else gasPrice

/-- `RewardPolicy::Ethereum`: the beneficiary is the only one to be rewarded. -/
def applyRewards (tx : TxEnv) (gasUsed : U256) (writeSet : WriteSet κ MemoryValue) :
    Except ReadError (WriteSet κ MemoryValue) :=
  applyReward (hash (.basic chain.beneficiary)) (saturatingMul (rewardGasPrice chain tx) gasUsed)
    writeSet

/-- `Vm::execute` behind `transact`: the sets to record and the flags, before `record` adds its
own. -/
def execute (transacted : Transacted Bytecode) :
    Except VmExecutionError (ReadSet κ × WriteSet κ MemoryValue × FinishExecFlags) :=
  match transacted with
  | .ok result =>
    match applyRewards hash chain db.tx (result.gasUsed.setWidth 256)
        (writeSet hash chain db result.state) with
    | .ok writeSet =>
      .ok (db.readSet, writeSet,
        if 0 < db.txIdx ∧ ¬ db.isLazy then .needValidation else .empty)
    | .error error => .error (.ofReadError error)
  | .database error => .error (.ofReadError error)
  | .lackOfFundForMaxFeeOrNonceTooHigh =>
    if 0 < db.txIdx then .error (.blocking (db.txIdx - 1)) else .error .executionError
  | .error => .error .executionError

end Vm

end Pevm
