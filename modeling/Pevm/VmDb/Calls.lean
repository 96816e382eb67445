import Pevm.Lib.Logged
import Pevm.Vm.Machine
import Pevm.VmDb.Cache

/-!
# The database under watch

The reads of `VmDb` once more, with every call of the storage on record. A call that fails
fails the read, and no read goes on behind it.
-/
namespace Pevm
open VersionMap Saturating Fallible

/-- What the storage is asked for, one constructor for each method of the trait that is used here.
-/
inductive Request
  | basic (address : Address)
  | codeHash (address : Address)
  | codeByHash (codeHash : B256)
  | storage (address : Address) (index : U256)
  | blockHash (number : U64)
  deriving DecidableEq, Repr

/-- A call of the storage, with the error that it fails with. -/
structure Call where
  request : Request
  failure : Option String
  deriving DecidableEq, Repr

/-- The state before the block, together with the hashes of earlier blocks. -/
structure FullStorage (Code : Type) extends Storage Code where
  blockHash : U64 → Except String B256

/-- Call the storage, put the call on record and pass its error on. -/
def ask {ε α : Type} (report : String → ε) (request : Request) (answer : Except String α) :
    Logged Call ε α where
  result := answer.mapError report
  log := [⟨request, match answer with | .ok _ => none | .error message => some message⟩]

section Ask
variable {ε α : Type} {report : String → ε} {request : Request} {answer : Except String α}

lemma ask_reports :
    (ask report request answer).Reports fun call => call.failure.map report := by
  intro call hcall e he
  cases answer with
  | ok a =>
    cases List.mem_singleton.mp hcall
    cases he
  | error message =>
    cases List.mem_singleton.mp hcall
    cases he
    rfl

lemma ask_storageError : (ask .storageError request answer).result = VmDb.orStorageError answer := by
  cases answer <;> rfl

end Ask

namespace VmDb
variable {κ Code Bytecode : Type}

/-- How a failed call is reported by the database. -/
def reported (call : Call) : Option ReadError := call.failure.map .storageError

abbrev Reading := Logged Call ReadError

namespace Watched
variable [DecidableEq κ] (db : VmDb κ) (env env' : VmEnv κ Code Bytecode)

def getCodeHash (address : Address) : Reading (Option B256 × VmDb κ) :=
  let l := env.hash (.codeHash address)
  match env.mvMemory.closestEntry l db.txIdx with
  | some (_, .data _ .selfDestructed) => .quiet (.error .selfDestructedAccount)
  | some (txIdx, .data txIncarnation (.codeHash codeHash)) => do
    let db ← .quiet (db.push l (.mvMemory ⟨txIdx, txIncarnation⟩))
    return (some codeHash, db)
  | _ => do
    let db ← .quiet (db.push l .storage)
    let codeHash ← ask .storageError (.codeHash address) (env.storage.codeHash address)
    return (codeHash, db)

def new (txIdx : ℕ) (tx : TxEnv) : Reading (VmDb κ) :=
  let db : VmDb κ :=
    { txIdx, tx
      fromHash := env.hash (.basic tx.caller)
      toHash := tx.toAddress.map fun address => env.hash (.basic address)
      toCodeHash := none
      isLazy := false
      readSet := ∅
      readAccounts := ∅ }
  match tx.transactTo with
  | .create => return db
  | .call address => do
    let (toCodeHash, db) ← getCodeHash db env address
    let written := (env.mvMemory.data (env.hash (.basic tx.caller))).isSome ||
      (env.mvMemory.data (env.hash (.basic address))).isSome
    return { db with toCodeHash, isLazy := toCodeHash.isNone && written }

/-- The read of the storage below all lazy entries, on record. -/
def fallBack (address : Address) (readOrigins : List ReadOrigin) (updates : LazyUpdates)
    (newOrigins : List ReadOrigin) : Reading (Option AccountBasic × List ReadOrigin) := do
  let newOrigins ← .quiet (
    if readOrigins = [] then .ok (newOrigins ++ [.storage])
    else if readOrigins.length ≠ newOrigins.length + 1 ∨ readOrigins.getLast? ≠ some .storage then
      .error .inconsistentRead
    else .ok newOrigins)
  match ← ask .storageError (.basic address) (env.storage.basic address) with
  | some basic => return (some basic, newOrigins)
  | none => return (if 0 < updates.balanceAddition then some .default else none, newOrigins)

def findAccount (address : Address) (l : κ) :
    Reading (Option AccountBasic × LazyUpdates × List ReadOrigin) := do
  let (finalAccount, updates, newOrigins) ← .quiet (db.readEntries env l)
  match finalAccount with
  | some account => return (some account, updates, newOrigins)
  | none =>
    let (finalAccount, newOrigins) ←
      fallBack env address (db.readOrigins l) updates newOrigins
    return (finalAccount, updates, newOrigins)

/-- The code hash of an account that has been read; the recipient's is at hand. -/
def accountCodeHash (address : Address) (l : κ) : Reading (Option B256 × VmDb κ) :=
  if some l = db.toHash then return (db.toCodeHash, db) else getCodeHash db env address

/-- Code of this block, or stored code, on record. -/
def loadCode (codeHash : Option B256) : Reading (Option Bytecode) :=
  match codeHash with
  | none => return none
  | some codeHash =>
    match env.newBytecodes codeHash with
    | some code => return some code
    | none => do
      match ← ask .storageError (.codeByHash codeHash) (env.storage.codeByHash codeHash) with
      | none => return none
      | some code =>
        match env.toBytecode code with
        | some code => return some code
        | none => .quiet (.error .invalidBytecode)

/-- Code hash and code of an account that has been read, on record. -/
def readCode (address : Address) (l : κ) : Reading (Option B256 × Option Bytecode × VmDb κ) := do
  let hashed ← accountCodeHash db env address l
  let code ← loadCode env hashed.1
  return (hashed.1, code, hashed.2)

/-- The last part of a read of an account, on record. -/
def evaluateAccount (address : Address) (l : κ) (account : AccountBasic) (updates : LazyUpdates) :
    Reading (Option (AccountInfo Bytecode) × VmDb κ) := do
  let account := { account with nonce := account.nonce + updates.nonceAddition }
  if db.NonceMismatch l account then
    .quiet (if 0 < db.txIdx then .error (.blocking (db.txIdx - 1))
      else .error (.invalidNonce db.txIdx))
  else
    let account : AccountBasic := { account with
      balance := if updates.positiveAddition then
        saturatingAdd account.balance updates.balanceAddition
      else saturatingSub account.balance updates.balanceAddition }
    let (codeHash, code, db) ← readCode db env address l
    return (some ⟨account.balance, account.nonce, codeHash.getD keccakEmpty, code⟩,
      { db with readAccounts := db.readAccounts.insert l (account, codeHash) })

/-- `VmDb::basic` on record. The code is read at a later moment than the account. -/
def basic (address : Address) : Reading (Option (AccountInfo Bytecode) × VmDb κ) :=
  let l := db.hashBasic env address
  match db.mock env l with
  | some info => return (info, db)
  | none => do
    let (finalAccount, updates, newOrigins) ← findAccount db env address l
    let db := db.register l newOrigins
    match finalAccount with
    | none => return (none, db)
    | some account => evaluateAccount db env' address l account updates

def storage (address : Address) (index : U256) : Reading (U256 × VmDb κ) :=
  let l := env.hash (.storage address index)
  match if 0 < db.txIdx then env.mvMemory.closestEntry l db.txIdx else none with
  | some (closestIdx, .data txIncarnation (.storage value)) => do
    let db ← .quiet (db.push l (.mvMemory ⟨closestIdx, txIncarnation⟩))
    return (value, db)
  | some (closestIdx, .estimate) => .quiet (.error (.blocking closestIdx))
  | some _ => .quiet (.error .invalidMemoryValueType)
  | none => do
    let db ← .quiet (db.push l .storage)
    let value ← ask .storageError (.storage address index) (env.storage.storage address index)
    return (value, db)

/-- `VmDb::code_by_hash`, which asks the storage only: new code is looked up with the account. -/
def codeByHash (toBytecode : Code → Option Bytecode) (emptyCode : Bytecode)
    (storage : FullStorage Code) (codeHash : B256) : Reading Bytecode := do
  match ← ask .storageError (.codeByHash codeHash) (storage.codeByHash codeHash) with
  | some evmCode =>
    match toBytecode evmCode with
    | some code => return code
    | none => .quiet (.error .invalidBytecode)
  | none => return emptyCode

/-- `VmDb::block_hash`, a call of the storage. -/
def blockHash (storage : FullStorage Code) (number : U64) : Reading B256 :=
  ask .storageError (.blockHash number) (storage.blockHash number)

section Result
variable {db env env'} {address : Address}

/-! Forgetting the record gives the reads of the database. -/

@[simp] lemma getCodeHash_result :
    (getCodeHash db env address).result = db.getCodeHash env address := by
  have hstorage : ∀ l : κ, (do
      let db ← Logged.quiet (db.push l .storage)
      let codeHash ← ask .storageError (.codeHash address) (env.storage.codeHash address)
      return (codeHash, db) : Reading (Option B256 × VmDb κ)).result = do
        let db ← db.push l .storage
        let codeHash ← orStorageError (env.storage.codeHash address)
        return (codeHash, db) := by
    intro l
    simp only [Logged.result_bind, Logged.result_quiet, ask_storageError, Logged.result_pure]
    rfl
  unfold getCodeHash VmDb.getCodeHash
  dsimp only
  generalize env.mvMemory.closestEntry (env.hash (.codeHash address)) db.txIdx = entry
  cases entry with
  | none => exact hstorage _
  | some entry =>
    obtain ⟨txIdx, entry⟩ := entry
    cases entry with
    | estimate => exact hstorage _
    | data txIncarnation value =>
      cases value with
      | selfDestructed => rfl
      | codeHash codeHash =>
        simp only [Logged.result_bind, Logged.result_quiet, Logged.result_pure]
        rfl
      | basic | storage | lazyRecipient | lazySender => exact hstorage _

@[simp] lemma new_result (txIdx : ℕ) (tx : TxEnv) :
    (new env txIdx tx).result = VmDb.new env txIdx tx := by
  unfold new VmDb.new
  dsimp only
  cases tx.transactTo with
  | create => rfl
  | call address =>
    simp only [Logged.result_bind, getCodeHash_result, Logged.result_pure]
    rfl

omit [DecidableEq κ] in
@[simp] lemma fallBack_result (readOrigins newOrigins : List ReadOrigin) (updates : LazyUpdates) :
    (fallBack env address readOrigins updates newOrigins).result =
      VmDb.fallBack env address readOrigins updates newOrigins := by
  unfold fallBack VmDb.fallBack
  simp only [Logged.result_bind, Logged.result_quiet]
  cases env.storage.basic address with
  | ok basic => cases basic <;> split_ifs <;> rfl
  | error message => split_ifs <;> rfl

@[simp] lemma findAccount_result (l : κ) :
    (findAccount db env address l).result = db.findAccount env address l := by
  unfold findAccount VmDb.findAccount
  simp only [Logged.result_bind, Logged.result_quiet]
  refine bind_congr fun found => ?_
  obtain ⟨account, updates, newOrigins⟩ := found
  cases account with
  | some account => rfl
  | none =>
    simp only [Logged.result_bind, fallBack_result]
    rfl

@[simp] lemma accountCodeHash_result (l : κ) :
    (accountCodeHash db env address l).result = db.accountCodeHash env address l := by
  unfold accountCodeHash VmDb.accountCodeHash
  split_ifs
  · rfl
  · exact getCodeHash_result

omit [DecidableEq κ] in
@[simp] lemma loadCode_result (codeHash : Option B256) :
    (loadCode env codeHash).result = VmDb.loadCode env codeHash := by
  unfold loadCode VmDb.loadCode
  cases codeHash with
  | none => rfl
  | some codeHash =>
    dsimp only
    cases env.newBytecodes codeHash with
    | some code => rfl
    | none =>
      simp only [Logged.result_bind, ask_storageError]
      refine bind_congr fun stored => ?_
      cases stored with
      | none => rfl
      | some code =>
        dsimp only
        cases env.toBytecode code <;> rfl

@[simp] lemma readCode_result (l : κ) :
    (readCode db env address l).result = db.readCode env address l := by
  rw [VmDb.readCode_eq_bind]
  unfold readCode
  simp only [Logged.result_bind, accountCodeHash_result, loadCode_result]
  rfl

@[simp] lemma evaluateAccount_result (l : κ) (account : AccountBasic) (updates : LazyUpdates) :
    (evaluateAccount db env address l account updates).result =
      db.evaluateAccount env address l account updates := by
  unfold evaluateAccount VmDb.evaluateAccount
  dsimp only
  split_ifs
  · rfl
  · rfl
  · simp only [Logged.result_bind, readCode_result]
    rfl
  · simp only [Logged.result_bind, readCode_result]
    rfl

@[simp] lemma basic_result : (basic db env env' address).result =
    db.basicAcross env env' address := by
  unfold basic basicAcross finishRead
  dsimp only
  cases db.mock env (db.hashBasic env address) with
  | some info => rfl
  | none =>
    simp only [Logged.result_bind, findAccount_result]
    refine bind_congr fun found => ?_
    obtain ⟨account, updates, newOrigins⟩ := found
    cases account with
    | none => rfl
    | some account => exact evaluateAccount_result _ _ _

@[simp] lemma storage_result (index : U256) :
    (storage db env address index).result = db.storage env address index := by
  unfold storage VmDb.storage
  dsimp only
  generalize (if 0 < db.txIdx then
    env.mvMemory.closestEntry (env.hash (.storage address index)) db.txIdx else none) = entry
  cases entry with
  | none =>
    simp only [Logged.result_bind, Logged.result_quiet, ask_storageError, Logged.result_pure]
    rfl
  | some entry =>
    obtain ⟨closestIdx, entry⟩ := entry
    cases entry with
    | estimate => rfl
    | data txIncarnation value =>
      cases value with
      | storage value =>
        simp only [Logged.result_bind, Logged.result_quiet, Logged.result_pure]
        rfl
      | basic | codeHash | lazyRecipient | lazySender | selfDestructed => rfl

end Result

section Reports
variable {db env env'} {address : Address}

/-! A failed call fails the read. -/

lemma getCodeHash_reports : (getCodeHash db env address).Reports reported := by
  unfold getCodeHash
  dsimp only
  split
  · exact .quiet _
  · exact .bind (.quiet _) fun _ _ => .pure _
  · exact .bind (.quiet _) fun _ _ => .bind ask_reports fun _ _ => .pure _

lemma new_reports (txIdx : ℕ) (tx : TxEnv) : (new env txIdx tx).Reports reported := by
  unfold new
  dsimp only
  split
  · exact .pure _
  · exact .bind getCodeHash_reports fun _ _ => .pure _

omit [DecidableEq κ] in
lemma fallBack_reports (readOrigins newOrigins : List ReadOrigin) (updates : LazyUpdates) :
    (fallBack env address readOrigins updates newOrigins).Reports reported := by
  unfold fallBack
  refine .bind (.quiet _) fun _ _ => .bind ask_reports fun basic _ => ?_
  cases basic with
  | none => exact .pure _
  | some basic => exact .pure _

lemma findAccount_reports (l : κ) : (findAccount db env address l).Reports reported := by
  unfold findAccount
  refine .bind (.quiet _) fun found _ => ?_
  obtain ⟨account, updates, newOrigins⟩ := found
  cases account with
  | some account => exact .pure _
  | none => exact .bind (fallBack_reports _ _ _) fun _ _ => .pure _

lemma accountCodeHash_reports (l : κ) :
    (accountCodeHash db env address l).Reports reported := by
  unfold accountCodeHash
  split_ifs
  · exact .pure _
  · exact getCodeHash_reports

omit [DecidableEq κ] in
lemma loadCode_reports (codeHash : Option B256) : (loadCode env codeHash).Reports reported := by
  unfold loadCode
  cases codeHash with
  | none => exact .pure _
  | some codeHash =>
    dsimp only
    split
    · exact .pure _
    · refine .bind ask_reports fun stored _ => ?_
      cases stored with
      | none => exact .pure _
      | some code =>
        dsimp only
        split
        · exact .pure _
        · exact .quiet _

lemma evaluateAccount_reports (l : κ) (account : AccountBasic) (updates : LazyUpdates) :
    (evaluateAccount db env address l account updates).Reports reported := by
  have hcode : (readCode db env address l).Reports reported :=
    .bind (accountCodeHash_reports l) fun _ _ => .bind (loadCode_reports _) fun _ _ => .pure _
  unfold evaluateAccount
  dsimp only
  split
  · exact .quiet _
  · exact .bind hcode fun _ _ => .pure _

lemma basic_reports : (basic db env env' address).Reports reported := by
  unfold basic
  dsimp only
  split
  · exact .pure _
  · refine .bind (findAccount_reports _) fun found _ => ?_
    obtain ⟨account, updates, newOrigins⟩ := found
    cases account with
    | none => exact .pure _
    | some account => exact evaluateAccount_reports _ _ _

lemma storage_reports (index : U256) : (storage db env address index).Reports reported := by
  unfold storage
  dsimp only
  split
  · exact .bind (.quiet _) fun _ _ => .pure _
  · exact .quiet _
  · exact .quiet _
  · exact .bind (.quiet _) fun _ _ => .bind ask_reports fun _ _ => .pure _

lemma codeByHash_reports {toBytecode : Code → Option Bytecode} {emptyCode : Bytecode}
    {fullStorage : FullStorage Code} (codeHash : B256) :
    (codeByHash toBytecode emptyCode fullStorage codeHash).Reports reported := by
  unfold codeByHash
  refine .bind ask_reports fun stored _ => ?_
  cases stored with
  | none => exact .pure _
  | some code =>
    dsimp only
    split
    · exact .pure _
    · exact .quiet _

end Reports

end Watched

/-- The transaction that the read waits for, if it waits for any, is below the bound. -/
def WaitsBelow (bound : ℕ) (e : ReadError) : Prop := ∀ b, e = .blocking b → b < bound

section Waits
variable {db : VmDb κ} {env env' : VmEnv κ Code Bytecode} {address : Address} {bound : ℕ}

lemma orStorageError_waits {α : Type} (x : Except String α) :
    Fails (orStorageError x) (WaitsBelow bound) := by
  cases x with
  | ok a => exact .ok a
  | error message => exact .error fun b hb => by cases hb

lemma walkDown_waits {readOrigins newOrigins : List ReadOrigin} {u : LazyUpdates}
    {m : ℕ → Option (MemoryEntry MemoryValue)} :
    Fails (walkDown readOrigins m bound newOrigins u) (WaitsBelow bound) := by
  induction bound generalizing newOrigins u with
  | zero => exact .ok _
  | succ idx ih =>
    have hbelow : ∀ {newOrigins u}, Fails (walkDown readOrigins m idx newOrigins u)
        (WaitsBelow (idx + 1)) := fun e he b hb => (ih e he b hb).trans (Nat.lt_succ_self idx)
    unfold walkDown
    split
    · exact hbelow
    · refine .error fun b hb => ?_
      cases hb
      exact Nat.lt_succ_self idx
    · dsimp only
      split_ifs
      · exact .error fun b hb => by cases hb
      · exact .error fun b hb => by cases hb
      · split
        · exact .ok _
        · exact hbelow
        · exact hbelow
        · exact .error fun b hb => by cases hb

lemma fallBack_waits (readOrigins newOrigins : List ReadOrigin) (u : LazyUpdates) :
    Fails (fallBack env address readOrigins u newOrigins) (WaitsBelow bound) := by
  rw [← Watched.fallBack_result]
  unfold Watched.fallBack
  rw [Logged.result_bind]
  refine .bind ?_ fun newOrigins _ => ?_
  · rw [Logged.result_quiet]
    split_ifs
    · exact .ok _
    · exact .error fun b hb => by cases hb
    · exact .ok _
  · rw [Logged.result_bind, ask_storageError]
    refine .bind (orStorageError_waits _) fun basic _ => ?_
    cases basic with
    | none => exact .ok _
    | some basic => exact .ok _

lemma loadCode_waits (codeHash : Option B256) :
    Fails (loadCode env codeHash) (WaitsBelow bound) := by
  intro e he b hb
  subst hb
  exact absurd (loadCode_final he) id

variable [DecidableEq κ]

lemma push_waits (l : κ) (origin : ReadOrigin) : Fails (db.push l origin) (WaitsBelow bound) := by
  unfold push
  split
  · exact .ok _
  · exact .error fun b hb => by cases hb

lemma getCodeHash_waits : Fails (db.getCodeHash env address) (WaitsBelow bound) := by
  unfold getCodeHash
  dsimp only
  split
  · exact .error fun b hb => by cases hb
  · exact .bind (push_waits _ _) fun _ _ => .ok _
  · exact .bind (push_waits _ _) fun _ _ => .bind (orStorageError_waits _) fun _ _ => .ok _

lemma newAcross_waits {envFrom envTo : VmEnv κ Code Bytecode} (txIdx : ℕ) (tx : TxEnv) :
    Fails (newAcross env envFrom envTo txIdx tx) (WaitsBelow bound) := by
  unfold newAcross
  dsimp only
  split
  · exact .ok _
  · exact .bind getCodeHash_waits fun _ _ => .ok _

lemma readCode_waits (l : κ) : Fails (db.readCode env address l) (WaitsBelow bound) := by
  rw [readCode_eq_bind]
  refine .bind ?_ fun _ _ => .bind (loadCode_waits _) fun _ _ => .ok _
  unfold accountCodeHash
  split_ifs
  · exact .ok _
  · exact getCodeHash_waits

lemma evaluateAccount_waits (l : κ) (account : AccountBasic) (u : LazyUpdates) :
    Fails (db.evaluateAccount env address l account u) (WaitsBelow db.txIdx) := by
  unfold evaluateAccount
  dsimp only
  split_ifs with _ hpos
  · refine .error fun b hb => ?_
    cases hb
    omega
  · exact .error fun b hb => by cases hb
  all_goals exact .bind (readCode_waits l) fun _ _ => .ok _

lemma findAccount_waits (l : κ) :
    Fails (db.findAccount env address l) (WaitsBelow db.txIdx) := by
  unfold findAccount
  rw [readEntries_eq]
  refine .bind walkDown_waits fun found _ => ?_
  obtain ⟨account, u, newOrigins⟩ := found
  cases account with
  | some account => exact .ok _
  | none => exact .bind (fallBack_waits _ _ _) fun _ _ => .ok _

lemma basicAcross_waits : Fails (db.basicAcross env env' address) (WaitsBelow db.txIdx) := by
  unfold basicAcross
  dsimp only
  split
  · exact .ok _
  · refine .bind (findAccount_waits _) fun found _ => ?_
    obtain ⟨account, u, newOrigins⟩ := found
    cases account with
    | none => exact .ok _
    | some account =>
      have hidx : (db.register (db.hashBasic env address) newOrigins).txIdx = db.txIdx :=
        (register_same _ _).1.txIdx
      rw [← hidx]
      exact evaluateAccount_waits _ _ _

lemma storage_waits (index : U256) :
    Fails (db.storage env address index) (WaitsBelow db.txIdx) := by
  unfold VmDb.storage
  dsimp only
  split
  · exact .bind (push_waits _ _) fun _ _ => .ok _
  · rename_i hentry
    split_ifs at hentry
    refine .error fun b hb => ?_
    cases hb
    exact (MvMemory.closestEntry_eq_some _ |>.mp hentry).1
  · exact .error fun b hb => by cases hb
  · exact .bind (push_waits _ _) fun _ _ => .bind (orStorageError_waits _) fun _ _ => .ok _

end Waits

lemma newAcross_txIdx [DecidableEq κ] {env envFrom envTo : VmEnv κ Code Bytecode} {txIdx : ℕ}
    {tx : TxEnv} {db : VmDb κ} (h : newAcross env envFrom envTo txIdx tx = .ok db) :
    db.txIdx = txIdx := by
  unfold newAcross at h
  dsimp only at h
  split at h
  · cases h
    rfl
  · obtain ⟨⟨codeHash, db₁⟩, hhash, heq⟩ := bind_eq_ok.mp h
    cases heq
    exact (getCodeHash_eq_ok hhash).1.txIdx

end VmDb

end Pevm
