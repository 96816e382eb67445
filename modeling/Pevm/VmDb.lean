import Pevm.Account
import Pevm.Lib.Fallible
import Pevm.Lib.Saturating
import Pevm.MvMemory

/-!
# The database of one execution

The reads that an execution makes while the machine runs it: from the entries of lower
transactions where there are some, from the storage otherwise. A balance may be spread
over many lazy entries, which a read sums up walking down from the reader.
-/
namespace Pevm
open VersionMap Saturating

/-- `ReadError`: why a read of the database fails. -/
inductive ReadError
  | storageError (message : String)
  | blocking (txIdx : ℕ)
  | inconsistentRead
  | invalidNonce (txIdx : ℕ)
  | selfDestructedAccount
  | invalidBytecode
  | invalidMemoryValueType
  deriving DecidableEq, Repr

/-- revm's `AccountInfo`, the answer to a read of an account. -/
structure AccountInfo (Bytecode : Type) where
  balance : U256
  nonce : U64
  codeHash : B256
  code : Option Bytecode

/-- What all executions of a block share. `toBytecode` converts stored code. -/
structure VmEnv (κ Code Bytecode : Type) where
  hash : MemoryLocation → κ
  storage : Storage Code
  mvMemory : MvMemory κ MemoryValue
  newBytecodes : B256 → Option Bytecode
  toBytecode : Code → Option Bytecode

/-- `VmDb`: the database of one execution, with what it has read so far. -/
structure VmDb (κ : Type) where
  txIdx : ℕ
  tx : TxEnv
  fromHash : κ
  toHash : Option κ
  toCodeHash : Option B256
  isLazy : Bool
  readSet : ReadSet κ
  readAccounts : AList fun _ : κ => AccountBasic × Option B256

/-- The lazy updates met so far on the way down: their sum by sign and magnitude, and how many
of them raise the nonce. -/
structure LazyUpdates where
  balanceAddition : U256
  positiveAddition : Bool
  nonceAddition : U64
  deriving DecidableEq, Repr

namespace LazyUpdates

def none : LazyUpdates := ⟨0, true, 0⟩

/-- A lazy addition joins the updates; sign and distance are kept apart. -/
def addRecipient (u : LazyUpdates) (addition : U256) : LazyUpdates :=
  if u.positiveAddition then
    { u with balanceAddition := saturatingAdd u.balanceAddition addition }
  else
    { u with
      positiveAddition := decide (u.balanceAddition ≤ addition)
      balanceAddition := absDiff u.balanceAddition addition }

/-- A lazy subtraction joins the updates, and the nonce goes up. -/
def addSender (u : LazyUpdates) (subtraction : U256) : LazyUpdates :=
  if u.positiveAddition then
    { positiveAddition := decide (subtraction ≤ u.balanceAddition)
      balanceAddition := absDiff u.balanceAddition subtraction
      nonceAddition := u.nonceAddition + 1 }
  else
    { u with
      balanceAddition := saturatingAdd u.balanceAddition subtraction
      nonceAddition := u.nonceAddition + 1 }

end LazyUpdates

namespace VmDb
variable {κ Code Bytecode : Type}

/-- What a read leaves as it is: everything but what has been read. -/
structure SameTx (db db' : VmDb κ) : Prop where
  txIdx : db'.txIdx = db.txIdx
  tx : db'.tx = db.tx
  fromHash : db'.fromHash = db.fromHash
  toHash : db'.toHash = db.toHash
  toCodeHash : db'.toCodeHash = db.toCodeHash
  isLazy : db'.isLazy = db.isLazy

lemma SameTx.refl (db : VmDb κ) : SameTx db db := ⟨rfl, rfl, rfl, rfl, rfl, rfl⟩

lemma SameTx.symm {db db' : VmDb κ} (h : SameTx db db') : SameTx db' db :=
  ⟨h.txIdx.symm, h.tx.symm, h.fromHash.symm, h.toHash.symm, h.toCodeHash.symm, h.isLazy.symm⟩

lemma SameTx.trans {db₁ db₂ db₃ : VmDb κ} (h : SameTx db₁ db₂) (h' : SameTx db₂ db₃) :
    SameTx db₁ db₃ where
  txIdx := h'.txIdx.trans h.txIdx
  tx := h'.tx.trans h.tx
  fromHash := h'.fromHash.trans h.fromHash
  toHash := h'.toHash.trans h.toHash
  toCodeHash := h'.toCodeHash.trans h.toCodeHash
  isLazy := h'.isLazy.trans h.isLazy

variable [DecidableEq κ]

/-- The origins on record for a location, none if it was not read. -/
def readOrigins (db : VmDb κ) (l : κ) : List ReadOrigin := (db.readSet.lookup l).getD []

/-- The same database with other origins for a location. -/
def withOrigins (db : VmDb κ) (l : κ) (origins : List ReadOrigin) : VmDb κ :=
  { db with readSet := db.readSet.insert l origins }

/-- The origins of the first read are put down; those of a later one are there already. -/
def register (db : VmDb κ) (l : κ) (newOrigins : List ReadOrigin) : VmDb κ :=
  if db.readOrigins l = [] then db.withOrigins l newOrigins else db

/-- `push_origin` on the read set: a second origin that differs from the first is an inconsistent
read. -/
def push (db : VmDb κ) (l : κ) (origin : ReadOrigin) : Except ReadError (VmDb κ) :=
  match pushOrigin (db.readOrigins l) origin with
  | some origins => .ok (db.withOrigins l origins)
  | none => .error .inconsistentRead

/-- `hash_basic`: the hashes of sender and recipient are at hand. -/
def hashBasic (db : VmDb κ) (env : VmEnv κ Code Bytecode) (address : Address) : κ :=
  if address = db.tx.caller then db.fromHash
  else if db.tx.toAddress = some address then db.toHash.getD (env.hash (.basic address))
  else env.hash (.basic address)

/-- An error of the storage under the name that it has in `ReadError`. -/
def orStorageError {α : Type} (x : Except String α) : Except ReadError α :=
  match x with
  | .ok a => .ok a
  | .error message => .error (.storageError message)

/-- `VmDb::get_code_hash`: the closest entry below decides; a destroyed account is an error. -/
def getCodeHash (db : VmDb κ) (env : VmEnv κ Code Bytecode) (address : Address) :
    Except ReadError (Option B256 × VmDb κ) :=
  let l := env.hash (.codeHash address)
  match env.mvMemory.closestEntry l db.txIdx with
  | some (_, .data _ .selfDestructed) => .error .selfDestructedAccount
  | some (txIdx, .data txIncarnation (.codeHash codeHash)) => do
    let db ← db.push l (.mvMemory ⟨txIdx, txIncarnation⟩)
    return (some codeHash, db)
  | _ => do
    let db ← db.push l .storage
    let codeHash ← orStorageError (env.storage.codeHash address)
    return (codeHash, db)

/-- A transfer to an account without code is lazy once its sender or its recipient has been
written in this block. -/
def new (env : VmEnv κ Code Bytecode) (txIdx : ℕ) (tx : TxEnv) : Except ReadError (VmDb κ) :=
  let db : VmDb κ :=
    { txIdx, tx
      fromHash := env.hash (.basic tx.caller)
      toHash := tx.toAddress.map fun address => env.hash (.basic address)
      toCodeHash := none
      isLazy := false
      readSet := ∅
      readAccounts := ∅ }
  match tx.transactTo with
  | .create => .ok db
  | .call address => do
    let (toCodeHash, db) ← db.getCodeHash env address
    let written := (env.mvMemory.data (env.hash (.basic tx.caller))).isSome ||
      (env.mvMemory.data (env.hash (.basic address))).isSome
    return { db with toCodeHash, isLazy := toCodeHash.isNone && written }

/-- `VmDb::new` while other workers go on: the code hash is read of one memory, and the sender and
the recipient are looked for in two later ones. -/
def newAcross (env envFrom envTo : VmEnv κ Code Bytecode) (txIdx : ℕ) (tx : TxEnv) :
    Except ReadError (VmDb κ) :=
  let db : VmDb κ :=
    { txIdx, tx
      fromHash := env.hash (.basic tx.caller)
      toHash := tx.toAddress.map fun address => env.hash (.basic address)
      toCodeHash := none
      isLazy := false
      readSet := ∅
      readAccounts := ∅ }
  match tx.transactTo with
  | .create => .ok db
  | .call address => do
    let (toCodeHash, db) ← db.getCodeHash env address
    let written := (envFrom.mvMemory.data (env.hash (.basic tx.caller))).isSome ||
      (envTo.mvMemory.data (env.hash (.basic address))).isSome
    return { db with toCodeHash, isLazy := toCodeHash.isNone && written }

lemma newAcross_self (env : VmEnv κ Code Bytecode) (txIdx : ℕ) (tx : TxEnv) :
    newAcross env env env txIdx tx = new env txIdx tx := rfl

/-- The loop over the entries below the reader. The first argument bounds what is left of them,
`newOrigins` are those met so far. -/
def walkDown (readOrigins : List ReadOrigin) (m : ℕ → Option (MemoryEntry MemoryValue)) :
    ℕ → List ReadOrigin → LazyUpdates →
      Except ReadError (Option AccountBasic × LazyUpdates × List ReadOrigin)
  | 0, newOrigins, updates => .ok (none, updates, newOrigins)
  | idx + 1, newOrigins, updates =>
    match m idx with
    | none => walkDown readOrigins m idx newOrigins updates
    | some .estimate => .error (.blocking idx)
    | some (.data txIncarnation value) =>
      let origin := ReadOrigin.mvMemory ⟨idx, txIncarnation⟩
      if readOrigins ≠ [] ∧ readOrigins.length = newOrigins.length then .error .inconsistentRead
      else if readOrigins ≠ [] ∧ readOrigins[newOrigins.length]? ≠ some origin then
        .error .inconsistentRead
      else
        match value with
        | .basic basic => .ok (some basic, updates, newOrigins ++ [origin])
        | .lazyRecipient addition =>
          walkDown readOrigins m idx (newOrigins ++ [origin]) (updates.addRecipient addition)
        | .lazySender subtraction =>
          walkDown readOrigins m idx (newOrigins ++ [origin]) (updates.addSender subtraction)
        | _ => .error .invalidMemoryValueType

/-- The account below all lazy entries, from the storage, when the walk down has met no absolute
value. -/
def fallBack (env : VmEnv κ Code Bytecode) (address : Address) (readOrigins : List ReadOrigin)
    (updates : LazyUpdates) (newOrigins : List ReadOrigin) :
    Except ReadError (Option AccountBasic × List ReadOrigin) := do
  let newOrigins ←
    if readOrigins = [] then .ok (newOrigins ++ [.storage])
    else if readOrigins.length ≠ newOrigins.length + 1 ∨ readOrigins.getLast? ≠ some .storage then
      .error .inconsistentRead
    else .ok newOrigins
  match env.storage.basic address with
  | .ok (some basic) => return (some basic, newOrigins)
  | .ok none =>
    return (if 0 < updates.balanceAddition then some .default else none, newOrigins)
  | .error message => .error (.storageError message)

/-- Code hash and code of an account that has been read. The recipient's hash is at hand. -/
def readCode (db : VmDb κ) (env : VmEnv κ Code Bytecode) (address : Address) (l : κ) :
    Except ReadError (Option B256 × Option Bytecode × VmDb κ) := do
  let (codeHash, db) ←
    if some l = db.toHash then .ok (db.toCodeHash, db) else db.getCodeHash env address
  let code ← match codeHash with
    | none => .ok none
    | some codeHash =>
      match env.newBytecodes codeHash with
      | some code => .ok (some code)
      | none => do
        match ← orStorageError (env.storage.codeByHash codeHash) with
        | none => .ok none
        | some code =>
          match env.toBytecode code with
          | some code => .ok (some code)
          | none => .error .invalidBytecode
  return (codeHash, code, db)

/-- The account is the sender's, and its nonce is not the one that the transaction carries. -/
def NonceMismatch (db : VmDb κ) (l : κ) (account : AccountBasic) : Prop :=
  l = db.fromHash ∧ ∃ nonce, db.tx.nonce = some nonce ∧ nonce ≠ account.nonce

instance (db : VmDb κ) (l : κ) (account : AccountBasic) :
    Decidable (db.NonceMismatch l account) :=
  decidable_of_iff (l = db.fromHash ∧ (db.tx.nonce.any fun nonce => nonce ≠ account.nonce) = true)
    (by simp [NonceMismatch, Option.any_eq_true])

/-- The walk down the entries of a location, if it has a map. -/
def readEntries (db : VmDb κ) (env : VmEnv κ Code Bytecode) (l : κ) :
    Except ReadError (Option AccountBasic × LazyUpdates × List ReadOrigin) :=
  match env.mvMemory.data l with
  | some m => walkDown (db.readOrigins l) m db.txIdx [] .none
  | none => .ok (none, .none, [])

/-- The account below the lazy entries, the updates on top of it and the origins of both. -/
def findAccount (db : VmDb κ) (env : VmEnv κ Code Bytecode) (address : Address) (l : κ) :
    Except ReadError (Option AccountBasic × LazyUpdates × List ReadOrigin) := do
  let (finalAccount, updates, newOrigins) ← db.readEntries env l
  match finalAccount with
  | some account => return (some account, updates, newOrigins)
  | none =>
    let (finalAccount, newOrigins) ←
      fallBack env address (db.readOrigins l) updates newOrigins
    return (finalAccount, updates, newOrigins)

/-- Check the sender's nonce, apply the updates and load the code. -/
def evaluateAccount (db : VmDb κ) (env : VmEnv κ Code Bytecode) (address : Address) (l : κ)
    (account : AccountBasic) (updates : LazyUpdates) :
    Except ReadError (Option (AccountInfo Bytecode) × VmDb κ) := do
  let account := { account with nonce := account.nonce + updates.nonceAddition }
  if db.NonceMismatch l account then
    if 0 < db.txIdx then .error (.blocking (db.txIdx - 1)) else .error (.invalidNonce db.txIdx)
  else
    let account : AccountBasic := { account with
      balance := if updates.positiveAddition then
        saturatingAdd account.balance updates.balanceAddition
      else saturatingSub account.balance updates.balanceAddition }
    let (codeHash, code, db) ← db.readCode env address l
    return (some ⟨account.balance, account.nonce, codeHash.getD keccakEmpty, code⟩,
      { db with readAccounts := db.readAccounts.insert l (account, codeHash) })

/-- `VmDb::basic`. A lazy transaction is shown a mocked sender and no recipient. -/
def basic (db : VmDb κ) (env : VmEnv κ Code Bytecode) (address : Address) :
    Except ReadError (Option (AccountInfo Bytecode) × VmDb κ) :=
  let l := db.hashBasic env address
  if db.isLazy ∧ l = db.fromHash then
    .ok (some ⟨BitVec.allOnes 256, db.tx.nonce.getD 1, keccakEmpty, none⟩, db)
  else if db.isLazy ∧ some l = db.toHash then .ok (none, db)
  else do
    let (finalAccount, updates, newOrigins) ← db.findAccount env address l
    let db := db.register l newOrigins
    match finalAccount with
    | none => return (none, db)
    | some account => db.evaluateAccount env address l account updates

/-- `VmDb::storage`. The first transaction does not look into the memory. -/
def storage (db : VmDb κ) (env : VmEnv κ Code Bytecode) (address : Address) (index : U256) :
    Except ReadError (U256 × VmDb κ) :=
  let l := env.hash (.storage address index)
  match if 0 < db.txIdx then env.mvMemory.closestEntry l db.txIdx else none with
  | some (closestIdx, .data txIncarnation (.storage value)) => do
    let db ← db.push l (.mvMemory ⟨closestIdx, txIncarnation⟩)
    return (value, db)
  | some (closestIdx, .estimate) => .error (.blocking closestIdx)
  | some _ => .error .invalidMemoryValueType
  | none => do
    let db ← db.push l .storage
    let value ← orStorageError (env.storage.storage address index)
    return (value, db)

/-- The reads that the machine makes while it executes, on one memory. -/
inductive Reads (env : VmEnv κ Code Bytecode) (db : VmDb κ) : VmDb κ → Prop
  | refl : Reads env db db
  | basic {db₁ db₂ : VmDb κ} {address : Address} {info : Option (AccountInfo Bytecode)} :
      Reads env db db₁ → db₁.basic env address = .ok (info, db₂) → Reads env db db₂
  | storage {db₁ db₂ : VmDb κ} {address : Address} {index value : U256} :
      Reads env db db₁ → db₁.storage env address index = .ok (value, db₂) → Reads env db db₂

section Frame
variable {db db' : VmDb κ} {env : VmEnv κ Code Bytecode}

lemma register_congr {l : κ} {origins newOrigins : List ReadOrigin}
    (h : db.readOrigins l = [] → newOrigins = origins) :
    db.register l newOrigins = db.register l origins := by
  unfold register
  split_ifs with hnone
  · rw [h hnone]
  · rfl

@[simp] lemma register_fromHash (l : κ) (origins : List ReadOrigin) :
    (db.register l origins).fromHash = db.fromHash := by
  unfold register
  split_ifs <;> rfl

@[simp] lemma register_tx (l : κ) (origins : List ReadOrigin) :
    (db.register l origins).tx = db.tx := by
  unfold register
  split_ifs <;> rfl

lemma walkDown_none (readOrigins newOrigins : List ReadOrigin) (u : LazyUpdates) (bound : ℕ) :
    walkDown readOrigins (fun _ => none) bound newOrigins u = .ok (none, u, newOrigins) := by
  induction bound with
  | zero => rfl
  | succ idx ih => exact ih

lemma readEntries_eq (l : κ) : db.readEntries env l =
    walkDown (db.readOrigins l) (env.mvMemory.entry l) db.txIdx [] .none := by
  unfold readEntries MvMemory.entry
  cases env.mvMemory.data l with
  | none => exact (walkDown_none (db.readOrigins l) [] .none db.txIdx).symm
  | some m => rfl

lemma push_eq_ok {l : κ} {origin : ReadOrigin} (h : db.push l origin = .ok db') :
    SameTx db db' ∧ db'.readAccounts = db.readAccounts := by
  unfold push at h
  split at h
  · cases h
    exact ⟨⟨rfl, rfl, rfl, rfl, rfl, rfl⟩, rfl⟩
  · cases h

lemma register_same (l : κ) (origins : List ReadOrigin) :
    SameTx db (db.register l origins) ∧ (db.register l origins).readAccounts = db.readAccounts := by
  unfold register
  split_ifs
  · exact ⟨⟨rfl, rfl, rfl, rfl, rfl, rfl⟩, rfl⟩
  · exact ⟨.refl db, rfl⟩

lemma getCodeHash_eq_ok {address : Address} {codeHash : Option B256}
    (h : db.getCodeHash env address = .ok (codeHash, db')) :
    SameTx db db' ∧ db'.readAccounts = db.readAccounts := by
  unfold getCodeHash at h
  dsimp only at h
  split at h
  · cases h
  · obtain ⟨db₁, hpush, heq⟩ := Fallible.bind_eq_ok.mp h
    cases heq
    exact push_eq_ok hpush
  · obtain ⟨db₁, hpush, heq⟩ := Fallible.bind_eq_ok.mp h
    obtain ⟨_, -, heq⟩ := Fallible.bind_eq_ok.mp heq
    cases heq
    exact push_eq_ok hpush

end Frame

end VmDb

end Pevm
