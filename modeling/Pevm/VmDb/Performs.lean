import Pevm.VmDb.Origins

/-!
# What a read does

Each read that goes through is described by its origins alone. The description stays true
while the block goes on, it gives the same answer twice, and where the origins are still those
of the memory the read goes through again.
-/
namespace Pevm
open Saturating

section ReadFrom
variable {α : Type} {w : TxVersion → Option MemoryValue} {decode : MemoryValue → Option α}
  {stored : Except String α} {origin : ReadOrigin} {a a' : α}

/-- A value with a single origin: a version that wrote it, or the storage. -/
inductive ReadFrom (w : TxVersion → Option MemoryValue) (decode : MemoryValue → Option α)
    (stored : Except String α) : ReadOrigin → α → Prop
  | mvMemory {v : TxVersion} {x : MemoryValue} {a : α} :
      w v = some x → decode x = some a → ReadFrom w decode stored (.mvMemory v) a
  | storage {a : α} : stored = .ok a → ReadFrom w decode stored .storage a

lemma ReadFrom.unique (h : ReadFrom w decode stored origin a)
    (h' : ReadFrom w decode stored origin a') : a = a' := by
  cases h with
  | mvMemory hv ha =>
    cases h' with
    | mvMemory hv' ha' =>
      rw [hv] at hv'
      cases hv'
      rw [ha] at ha'
      exact Option.some.inj ha'
  | storage ha =>
    cases h' with
    | storage ha' =>
      rw [ha] at ha'
      exact Except.ok.inj ha'

def codeHashOf : MemoryValue → Option (Option B256)
  | .codeHash codeHash => some (some codeHash)
  | _ => none

def slotOf : MemoryValue → Option U256
  | .storage value => some value
  | _ => none

end ReadFrom

/-- The reads of an execution. -/
inductive Read
  | basic (address : Address)
  | storage (address : Address) (index : U256)
  | codeHash (address : Address)
  deriving DecidableEq, Repr

inductive Answer (Bytecode : Type)
  | basic (info : Option (AccountInfo Bytecode))
  | storage (value : U256)
  | codeHash (codeHash : Option B256)

/-- Where a read looks. A read of an account looks for its code hash as well. -/
def Read.locations : Read → List MemoryLocation
  | .basic address => [.basic address, .codeHash address]
  | .storage address index => [.storage address index]
  | .codeHash address => [.codeHash address]

namespace VmDb
variable {κ Code Bytecode : Type}

lemma closestEntry_zero (db : VmDb κ) (env : VmEnv κ Code Bytecode) (l : κ) :
    (if 0 < db.txIdx then env.mvMemory.closestEntry l db.txIdx else none) =
      env.mvMemory.closestEntry l db.txIdx := by
  split_ifs with hpos
  · rfl
  · have hzero : db.txIdx = 0 := by omega
    symm
    rw [hzero, MvMemory.closestEntry_eq_none]
    intro i hi
    omega

/-- Code of this block, or stored code that can be converted. -/
def loadCode (env : VmEnv κ Code Bytecode) (codeHash : Option B256) :
    Except ReadError (Option Bytecode) :=
  match codeHash with
  | none => .ok none
  | some codeHash =>
    match env.newBytecodes codeHash with
    | some code => .ok (some code)
    | none =>
      orStorageError (env.storage.codeByHash codeHash) >>= fun stored =>
        match stored with
        | none => .ok none
        | some code =>
          match env.toBytecode code with
          | some code => .ok (some code)
          | none => .error .invalidBytecode

/-- Two moments of one block. A code is stored under its hash before an account refers to it,
so what a code hash loads once it loads later on. -/
structure SameBlock (env env' : VmEnv κ Code Bytecode) : Prop where
  hash : env'.hash = env.hash
  storage : env'.storage = env.storage
  toBytecode : env'.toBytecode = env.toBytecode
  code : ∀ codeHash code, loadCode env codeHash = .ok code → loadCode env' codeHash = .ok code

/-- The hashes at hand are those of sender and recipient. -/
structure Hashed (env : VmEnv κ Code Bytecode) (db : VmDb κ) : Prop where
  fromHash : db.fromHash = env.hash (.basic db.tx.caller)
  toHash : db.toHash = db.tx.toAddress.map fun address => env.hash (.basic address)

section Moments
variable {env env' : VmEnv κ Code Bytecode} {db : VmDb κ}

lemma SameBlock.refl (env : VmEnv κ Code Bytecode) : SameBlock env env :=
  ⟨rfl, rfl, rfl, fun _ _ h => h⟩

lemma SameBlock.trans {env'' : VmEnv κ Code Bytecode} (h : SameBlock env env')
    (h' : SameBlock env' env'') : SameBlock env env'' where
  hash := h'.hash.trans h.hash
  storage := h'.storage.trans h.storage
  toBytecode := h'.toBytecode.trans h.toBytecode
  code codeHash code hcode := h'.code codeHash code (h.code codeHash code hcode)

lemma Hashed.hashBasic_eq (h : Hashed env db) (address : Address) :
    db.hashBasic env address = env.hash (.basic address) := by
  unfold hashBasic
  split_ifs with hcaller hto
  · rw [h.fromHash, hcaller]
  · rw [h.toHash, hto]
    rfl
  · rfl

lemma Hashed.of_sameTx (h : Hashed env db) {db' : VmDb κ} (hsame : SameTx db db') :
    Hashed env db' where
  fromHash := by rw [hsame.fromHash, hsame.tx, h.fromHash]
  toHash := by rw [hsame.toHash, hsame.tx, h.toHash]

end Moments

variable [DecidableEq κ]

section ReadSet
variable {db db' db'' : VmDb κ} {l l' : κ}

lemma readOrigins_withOrigins (db : VmDb κ) (l l' : κ) (origins : List ReadOrigin) :
    (db.withOrigins l origins).readOrigins l' = if l' = l then origins else db.readOrigins l' := by
  unfold readOrigins withOrigins
  by_cases h : l' = l
  · subst h
    simp
  · simp [h, AList.lookup_insert_ne h]

/-- What was read keeps its origins. -/
def Grows (db db' : VmDb κ) : Prop :=
  ∀ l, db.readOrigins l ≠ [] → db'.readOrigins l = db.readOrigins l

lemma Grows.refl (db : VmDb κ) : Grows db db := fun _ _ => rfl

lemma Grows.trans (h : Grows db db') (h' : Grows db' db'') : Grows db db'' := by
  intro l hl
  have hfirst := h l hl
  rw [h' l (by rwa [hfirst]), hfirst]

lemma register_spec (db : VmDb κ) (l : κ) (origins : List ReadOrigin) :
    (∀ l', (db.register l origins).readOrigins l' =
      if l' = l ∧ db.readOrigins l = [] then origins else db.readOrigins l') ∧
      Grows db (db.register l origins) := by
  have hread : ∀ l', (db.register l origins).readOrigins l' =
      if l' = l ∧ db.readOrigins l = [] then origins else db.readOrigins l' := by
    intro l'
    unfold register
    by_cases hnil : db.readOrigins l = []
    · simp [hnil, readOrigins_withOrigins]
    · simp [hnil]
  refine ⟨hread, fun l' hl' => ?_⟩
  rw [hread]
  by_cases h : l' = l ∧ db.readOrigins l = []
  · obtain ⟨rfl, hnil⟩ := h
    exact absurd hnil hl'
  · rw [if_neg h]

/-- A location with a single origin keeps it, or gets one. -/
lemma push_spec {origin : ReadOrigin} (hlength : (db.readOrigins l).length ≤ 1)
    (h : db.push l origin = .ok db') :
    db'.readOrigins l = [origin] ∧ (∀ l', l' ≠ l → db'.readOrigins l' = db.readOrigins l') ∧
      Grows db db' := by
  have horigins : pushOrigin (db.readOrigins l) origin = some [origin] ∧
      (db.readOrigins l ≠ [] → db.readOrigins l = [origin]) := by
    unfold push at h
    cases hread : db.readOrigins l with
    | nil => exact ⟨rfl, fun hne => absurd rfl hne⟩
    | cons first rest =>
      rw [hread] at h hlength
      have hrest : rest = [] := List.length_eq_zero_iff.mp (by
        rw [List.length_cons] at hlength
        omega)
      subst hrest
      unfold pushOrigin at h ⊢
      by_cases hsame : first = origin
      · subst hsame
        simp
      · simp [hsame] at h
  unfold push at h
  rw [horigins.1] at h
  cases h
  refine ⟨by simp [readOrigins_withOrigins], fun l' hl' => by simp [readOrigins_withOrigins, hl'],
    fun l' hl' => ?_⟩
  rw [readOrigins_withOrigins]
  split_ifs with hl
  · subst hl
    exact (horigins.2 hl').symm
  · rfl

end ReadSet

section CodeHash
variable {db db' : VmDb κ} {env : VmEnv κ Code Bytecode} {address : Address}
  {w : κ → TxVersion → Option MemoryValue} {codeHash : Option B256}

lemma getCodeHash_from (hagrees : env.mvMemory.Agrees w)
    (h : db.getCodeHash env address = .ok (codeHash, db')) :
    ∃ origin, db.push (env.hash (.codeHash address)) origin = .ok db' ∧
      ReadFrom (w (env.hash (.codeHash address))) codeHashOf (env.storage.codeHash address)
        origin codeHash := by
  unfold getCodeHash at h
  dsimp only at h
  split at h
  · cases h
  · rename_i txIdx inc codeHash' hclosest
    obtain ⟨db₁, hpush, heq⟩ := Fallible.bind_eq_ok.mp h
    cases heq
    have hentry := (MvMemory.closestEntry_eq_some _).mp hclosest
    exact ⟨_, hpush, .mvMemory (hagrees _ _ _ _ hentry.2.1) rfl⟩
  · obtain ⟨db₁, hpush, heq⟩ := Fallible.bind_eq_ok.mp h
    obtain ⟨codeHash', hstored, heq⟩ := Fallible.bind_eq_ok.mp heq
    cases heq
    refine ⟨.storage, hpush, .storage ?_⟩
    unfold orStorageError at hstored
    split at hstored
    · rename_i hanswer
      cases hstored
      exact hanswer
    · cases hstored

lemma getCodeHash_of_from {origin : ReadOrigin} (hagrees : env.mvMemory.Agrees w)
    (hvalid : env.mvMemory.validateLocation db.txIdx (env.hash (.codeHash address)) [origin] =
      true)
    (hpush : db.push (env.hash (.codeHash address)) origin = .ok db')
    (hfrom : ReadFrom (w (env.hash (.codeHash address))) codeHashOf
      (env.storage.codeHash address) origin codeHash) :
    db.getCodeHash env address = .ok (codeHash, db') := by
  unfold getCodeHash
  cases hfrom with
  | @mvMemory v y _ hv hdecode =>
    obtain ⟨x, hclosest⟩ := MvMemory.validateLocation_mvMemory.mp hvalid
    have hentry := ((MvMemory.closestEntry_eq_some _).mp hclosest).2.1
    rw [hagrees _ _ _ _ hentry] at hv
    obtain rfl := Option.some.inj hv
    cases x <;> cases hdecode
    simp only [hclosest, hpush, Fallible.ok_bind]
    rfl
  | storage hstored =>
    have hclosest := MvMemory.validateLocation_storage.mp hvalid
    simp only [hclosest, hpush, Fallible.ok_bind, hstored, orStorageError]
    rfl

end CodeHash

section Slot
variable {db db' : VmDb κ} {env : VmEnv κ Code Bytecode} {address : Address} {index : U256}
  {w : κ → TxVersion → Option MemoryValue} {value : U256}

lemma storage_from (hagrees : env.mvMemory.Agrees w)
    (h : db.storage env address index = .ok (value, db')) :
    ∃ origin, db.push (env.hash (.storage address index)) origin = .ok db' ∧
      ReadFrom (w (env.hash (.storage address index))) slotOf (env.storage.storage address index)
        origin value := by
  unfold storage at h
  dsimp only at h
  rw [closestEntry_zero] at h
  split at h
  · rename_i txIdx inc value' hclosest
    obtain ⟨db₁, hpush, heq⟩ := Fallible.bind_eq_ok.mp h
    cases heq
    have hentry := (MvMemory.closestEntry_eq_some _).mp hclosest
    exact ⟨_, hpush, .mvMemory (hagrees _ _ _ _ hentry.2.1) rfl⟩
  · cases h
  · cases h
  · obtain ⟨db₁, hpush, heq⟩ := Fallible.bind_eq_ok.mp h
    obtain ⟨value', hstored, heq⟩ := Fallible.bind_eq_ok.mp heq
    cases heq
    refine ⟨.storage, hpush, .storage ?_⟩
    unfold orStorageError at hstored
    split at hstored
    · rename_i hanswer
      cases hstored
      exact hanswer
    · cases hstored

lemma storage_of_from {origin : ReadOrigin} (hagrees : env.mvMemory.Agrees w)
    (hvalid : env.mvMemory.validateLocation db.txIdx (env.hash (.storage address index))
      [origin] = true)
    (hpush : db.push (env.hash (.storage address index)) origin = .ok db')
    (hfrom : ReadFrom (w (env.hash (.storage address index))) slotOf
      (env.storage.storage address index) origin value) :
    db.storage env address index = .ok (value, db') := by
  unfold storage
  dsimp only
  rw [closestEntry_zero]
  cases hfrom with
  | @mvMemory v y _ hv hdecode =>
    obtain ⟨x, hclosest⟩ := MvMemory.validateLocation_mvMemory.mp hvalid
    have hentry := ((MvMemory.closestEntry_eq_some _).mp hclosest).2.1
    rw [hagrees _ _ _ _ hentry] at hv
    obtain rfl := Option.some.inj hv
    cases x <;> cases hdecode
    simp only [hclosest, hpush, Fallible.ok_bind]
    rfl
  | storage hstored =>
    have hclosest := MvMemory.validateLocation_storage.mp hvalid
    simp only [hclosest, hpush, Fallible.ok_bind, hstored, orStorageError]
    rfl

end Slot

section Basic
variable {db db' : VmDb κ} {env env' : VmEnv κ Code Bytecode} {address : Address} {l : κ}
  {w : κ → TxVersion → Option MemoryValue}

/-- The code hash of an account that has been read; the recipient's is at hand. -/
def accountCodeHash (db : VmDb κ) (env : VmEnv κ Code Bytecode) (address : Address) (l : κ) :
    Except ReadError (Option B256 × VmDb κ) :=
  if some l = db.toHash then .ok (db.toCodeHash, db) else db.getCodeHash env address

lemma readCode_eq_bind : db.readCode env address l =
    db.accountCodeHash env address l >>= fun hashed =>
      loadCode env hashed.1 >>= fun code => .ok (hashed.1, code, hashed.2) := by
  unfold readCode accountCodeHash loadCode
  split_ifs with hto
  all_goals
    refine bind_congr fun hashed => ?_
    obtain ⟨codeHash, db₁⟩ := hashed
    cases codeHash with
    | none => rfl
    | some codeHash =>
      dsimp only
      cases env.newBytecodes codeHash with
      | some code => rfl
      | none =>
        cases orStorageError (env.storage.codeByHash codeHash) with
        | error e => rfl
        | ok stored =>
          cases stored with
          | none => rfl
          | some code =>
            simp only [Fallible.ok_bind]
            cases env.toBytecode code <;> rfl

/-- A lazy transaction reads its sender and its recipient without looking: the sender has the
largest balance, and the recipient is not there. -/
def mock (db : VmDb κ) (_ : VmEnv κ Code Bytecode) (l : κ) : Option (Option (AccountInfo Bytecode)) :=
  if db.isLazy ∧ l = db.fromHash then
    some (some ⟨BitVec.allOnes 256, db.tx.nonce.getD 1, keccakEmpty, none⟩)
  else if db.isLazy ∧ some l = db.toHash then some none
  else none

/-- What remains of a read of an account once it is found. -/
def finishRead (db : VmDb κ) (env : VmEnv κ Code Bytecode) (address : Address) (l : κ)
    (account : Option AccountBasic) (updates : LazyUpdates) :
    Except ReadError (Option (AccountInfo Bytecode) × VmDb κ) :=
  match account with
  | none => .ok (none, db)
  | some account => db.evaluateAccount env address l account updates

/-- `VmDb::basic`, where the memory may change between the walk over the entries and the read
of the code. -/
def basicAcross (db : VmDb κ) (env env' : VmEnv κ Code Bytecode) (address : Address) :
    Except ReadError (Option (AccountInfo Bytecode) × VmDb κ) :=
  let l := db.hashBasic env address
  match db.mock env l with
  | some info => .ok (info, db)
  | none =>
    db.findAccount env address l >>= fun found =>
      (db.register l found.2.2).finishRead env' address l found.1 found.2.1

lemma basicAcross_self : db.basicAcross env env address = db.basic env address := by
  unfold basicAcross basic mock finishRead
  dsimp only
  split_ifs
  · rfl
  · rfl
  · cases db.findAccount env address (db.hashBasic env address) with
    | error e => rfl
    | ok found =>
      obtain ⟨account, updates, newOrigins⟩ := found
      cases account <;> rfl

/-- What a read makes of an account and its updates, saturating at both ends. -/
def accountWith (account : AccountBasic) (updates : LazyUpdates) : AccountBasic where
  balance :=
    if updates.positiveAddition then saturatingAdd account.balance updates.balanceAddition
    else saturatingSub account.balance updates.balanceAddition
  nonce := account.nonce + updates.nonceAddition

/-- The account that was answered is kept for the write set. -/
def cacheAccount (db : VmDb κ) (l : κ) (account : AccountBasic) (codeHash : Option B256) :
    VmDb κ :=
  { db with readAccounts := db.readAccounts.insert l (account, codeHash) }

lemma evaluateAccount_eq_ok {account : AccountBasic} {updates : LazyUpdates}
    {info : Option (AccountInfo Bytecode)} :
    db.evaluateAccount env address l account updates = .ok (info, db') ↔
      ¬ db.NonceMismatch l { account with nonce := account.nonce + updates.nonceAddition } ∧
      ∃ codeHash code db₁, db.accountCodeHash env address l = .ok (codeHash, db₁) ∧
        loadCode env codeHash = .ok code ∧
        info = some ⟨(accountWith account updates).balance, (accountWith account updates).nonce,
          codeHash.getD keccakEmpty, code⟩ ∧
        db' = db₁.cacheAccount l (accountWith account updates) codeHash := by
  unfold evaluateAccount
  dsimp only
  by_cases hnonce :
      db.NonceMismatch l { account with nonce := account.nonce + updates.nonceAddition }
  · rw [if_pos hnonce]
    refine iff_of_false ?_ fun h => h.1 hnonce
    split_ifs <;> simp
  · rw [if_neg hnonce, readCode_eq_bind]
    constructor
    · intro h
      obtain ⟨⟨codeHash, code, db₁⟩, hread, hinfo⟩ := Fallible.bind_eq_ok.mp h
      obtain ⟨⟨codeHash', db₂⟩, hhash, hread⟩ := Fallible.bind_eq_ok.mp hread
      obtain ⟨code', hcode, hread⟩ := Fallible.bind_eq_ok.mp hread
      cases hread
      cases hinfo
      exact ⟨hnonce, _, _, _, hhash, hcode, rfl, rfl⟩
    · rintro ⟨-, codeHash, code, db₁, hhash, hcode, rfl, rfl⟩
      simp only [hhash, hcode, Fallible.ok_bind]
      rfl

end Basic

section Performs

/-- One read. The memory may change inside a read of an account. -/
def read (db : VmDb κ) (env env' : VmEnv κ Code Bytecode) :
    Read → Except ReadError (Answer Bytecode × VmDb κ)
  | .basic address =>
    db.basicAcross env env' address >>= fun answered => .ok (.basic answered.1, answered.2)
  | .storage address index =>
    db.storage env address index >>= fun answered => .ok (.storage answered.1, answered.2)
  | .codeHash address =>
    db.getCodeHash env address >>= fun answered => .ok (.codeHash answered.1, answered.2)

/-- The code hash of an account: known from before, or read from its one origin. -/
inductive HashRead (w : κ → TxVersion → Option MemoryValue) (env : VmEnv κ Code Bytecode)
    (db : VmDb κ) (address : Address) (l : κ) : Option B256 → VmDb κ → Prop
  | known : some l = db.toHash → HashRead w env db address l db.toCodeHash db
  | read {origin : ReadOrigin} {codeHash : Option B256} {db' : VmDb κ} : some l ≠ db.toHash →
      db.push (env.hash (.codeHash address)) origin = .ok db' →
      ReadFrom (w (env.hash (.codeHash address))) codeHashOf (env.storage.codeHash address)
        origin codeHash →
      HashRead w env db address l codeHash db'

/-- What a read that goes through does, in terms of its origins and of what its versions wrote. -/
inductive Performs (w : κ → TxVersion → Option MemoryValue) (env : VmEnv κ Code Bytecode)
    (db : VmDb κ) : Read → Answer Bytecode → VmDb κ → Prop
  | mock {address : Address} {info : Option (AccountInfo Bytecode)} :
      db.mock env (db.hashBasic env address) = some info →
      Performs w env db (.basic address) (.basic info) db
  | missing {address : Address} {chain : List ReadOrigin} {met : Option AccountBasic}
      {u : LazyUpdates} :
      db.mock env (db.hashBasic env address) = none →
      (db.readOrigins (db.hashBasic env address) = [] ∨
        db.readOrigins (db.hashBasic env address) = chain) →
      Chain (w (db.hashBasic env address)) .none chain met u →
      settle env.storage address met u = .ok none →
      Performs w env db (.basic address) (.basic none)
        (db.register (db.hashBasic env address) chain)
  | account {address : Address} {chain : List ReadOrigin} {met : Option AccountBasic}
      {u : LazyUpdates} {account : AccountBasic} {codeHash : Option B256}
      {code : Option Bytecode} {db₁ : VmDb κ} :
      db.mock env (db.hashBasic env address) = none →
      (db.readOrigins (db.hashBasic env address) = [] ∨
        db.readOrigins (db.hashBasic env address) = chain) →
      Chain (w (db.hashBasic env address)) .none chain met u →
      settle env.storage address met u = .ok (some account) →
      ¬ db.NonceMismatch (db.hashBasic env address)
        { account with nonce := account.nonce + u.nonceAddition } →
      HashRead w env (db.register (db.hashBasic env address) chain) address
        (db.hashBasic env address) codeHash db₁ →
      loadCode env codeHash = .ok code →
      Performs w env db (.basic address)
        (.basic (some ⟨(accountWith account u).balance, (accountWith account u).nonce,
          codeHash.getD keccakEmpty, code⟩))
        (db₁.cacheAccount (db.hashBasic env address) (accountWith account u) codeHash)
  | storage {address : Address} {index value : U256} {origin : ReadOrigin} {db' : VmDb κ} :
      db.push (env.hash (.storage address index)) origin = .ok db' →
      ReadFrom (w (env.hash (.storage address index))) slotOf
        (env.storage.storage address index) origin value →
      Performs w env db (.storage address index) (.storage value) db'
  | codeHash {address : Address} {codeHash : Option B256} {origin : ReadOrigin} {db' : VmDb κ} :
      db.push (env.hash (.codeHash address)) origin = .ok db' →
      ReadFrom (w (env.hash (.codeHash address))) codeHashOf (env.storage.codeHash address)
        origin codeHash →
      Performs w env db (.codeHash address) (.codeHash codeHash) db'

/-- The origins of every location look as its reads leave them. -/
def Tracked (w : κ → TxVersion → Option MemoryValue) (env : VmEnv κ Code Bytecode)
    (L : Set MemoryLocation) (db : VmDb κ) : Prop :=
  ∀ location ∈ L,
    match location with
    | .basic _ => HasChain w (env.hash location) (db.readOrigins (env.hash location))
    | .codeHash _ | .storage _ _ => (db.readOrigins (env.hash location)).length ≤ 1

variable {w : κ → TxVersion → Option MemoryValue} {env env' : VmEnv κ Code Bytecode}
  {db db' : VmDb κ} {address : Address} {l : κ} {codeHash : Option B256} {r : Read}
  {answer : Answer Bytecode} {L : Set MemoryLocation}

lemma accountCodeHash_performs (hagrees : env.mvMemory.Agrees w)
    (h : db.accountCodeHash env address l = .ok (codeHash, db')) :
    HashRead w env db address l codeHash db' := by
  unfold accountCodeHash at h
  split_ifs at h with hto
  · cases h
    exact .known hto
  · obtain ⟨origin, hpush, hfrom⟩ := getCodeHash_from hagrees h
    exact .read hto hpush hfrom

/-- Every read that goes through is one of these. -/
theorem read_performs (hsame : SameBlock env env') (hashed : Hashed env db)
    (htracked : Tracked w env L db) (hlocations : ∀ location ∈ r.locations, location ∈ L)
    (hagrees : env.mvMemory.Agrees w) (hagrees' : env'.mvMemory.Agrees w)
    (h : db.read env env' r = .ok (answer, db')) : Performs w env' db r answer db' := by
  have hbasic : ∀ address, db.hashBasic env address = db.hashBasic env' address := by
    intro address
    unfold hashBasic
    rw [hsame.hash]
  cases r with
  | basic address =>
    obtain ⟨⟨info, db₁⟩, hread, heq⟩ := Fallible.bind_eq_ok.mp h
    cases heq
    unfold basicAcross at hread
    dsimp only at hread
    cases hmock : db.mock env (db.hashBasic env address) with
    | some mocked =>
      rw [hmock] at hread
      cases hread
      rw [hbasic] at hmock
      exact .mock hmock
    | none =>
      rw [hmock] at hread
      obtain ⟨⟨account, u, newOrigins⟩, hfind, hfinish⟩ := Fallible.bind_eq_ok.mp hread
      have hchain : HasChain w (db.hashBasic env address)
          (db.readOrigins (db.hashBasic env address)) := by
        rw [hashed.hashBasic_eq]
        exact htracked (.basic address) (hlocations _ (by simp [Read.locations]))
      obtain ⟨chain, met, hwalked, hsettle, hnew, hold⟩ := findAccount_chain hagrees hchain hfind
      have hread' : db.readOrigins (db.hashBasic env address) = [] ∨
          db.readOrigins (db.hashBasic env address) = chain := by
        by_cases hnil : db.readOrigins (db.hashBasic env address) = []
        · exact .inl hnil
        · exact .inr (hold hnil)
      dsimp only at hfinish
      rw [register_congr hnew] at hfinish
      rw [← hsame.storage] at hsettle
      rw [hbasic] at *
      cases account with
      | none =>
        cases hfinish
        exact .missing hmock hread' hwalked hsettle
      | some account =>
        obtain ⟨hnonce, codeHash, code, db₂, hhash, hcode, rfl, rfl⟩ :=
          evaluateAccount_eq_ok.mp hfinish
        have hnonce' : ¬ db.NonceMismatch (db.hashBasic env' address)
            { account with nonce := account.nonce + u.nonceAddition } := by
          unfold NonceMismatch at hnonce ⊢
          rwa [register_fromHash, register_tx] at hnonce
        exact .account hmock hread' hwalked hsettle hnonce'
          (accountCodeHash_performs hagrees' hhash) hcode
  | storage address index =>
    obtain ⟨⟨value, db₁⟩, hread, heq⟩ := Fallible.bind_eq_ok.mp h
    cases heq
    obtain ⟨origin, hpush, hfrom⟩ := storage_from hagrees hread
    rw [← hsame.hash] at hpush hfrom
    rw [← hsame.storage] at hfrom
    exact .storage hpush hfrom
  | codeHash address =>
    obtain ⟨⟨codeHash, db₁⟩, hread, heq⟩ := Fallible.bind_eq_ok.mp h
    cases heq
    obtain ⟨origin, hpush, hfrom⟩ := getCodeHash_from hagrees hread
    rw [← hsame.hash] at hpush hfrom
    rw [← hsame.storage] at hfrom
    exact .codeHash hpush hfrom

lemma HashRead.mono (hsame : SameBlock env env') (h : HashRead w env db address l codeHash db') :
    HashRead w env' db address l codeHash db' := by
  cases h with
  | known hto => exact .known hto
  | read hto hpush hfrom =>
    rw [← hsame.hash] at hpush hfrom
    rw [← hsame.storage] at hfrom
    exact .read hto hpush hfrom

/-- What a read does it would do at any later moment of the block. -/
lemma Performs.mono (hsame : SameBlock env env') (h : Performs w env db r answer db') :
    Performs w env' db r answer db' := by
  have hbasic : ∀ address, db.hashBasic env address = db.hashBasic env' address := by
    intro address
    unfold hashBasic
    rw [hsame.hash]
  cases h with
  | mock hmock =>
    rw [hbasic] at hmock
    exact .mock hmock
  | missing hmock hread hchain hsettle =>
    rw [← hsame.storage] at hsettle
    rw [hbasic] at *
    exact .missing hmock hread hchain hsettle
  | account hmock hread hchain hsettle hnonce hhash hcode =>
    rw [← hsame.storage] at hsettle
    rw [hbasic] at *
    exact .account hmock hread hchain hsettle hnonce (hhash.mono hsame) (hsame.code _ _ hcode)
  | storage hpush hfrom =>
    rw [← hsame.hash] at hpush hfrom
    rw [← hsame.storage] at hfrom
    exact .storage hpush hfrom
  | codeHash hpush hfrom =>
    rw [← hsame.hash] at hpush hfrom
    rw [← hsame.storage] at hfrom
    exact .codeHash hpush hfrom

section Frames

/-- What reading at one location leaves: the transaction, the origins there were, and the shape
of all origins. -/
structure Keeps (w : κ → TxVersion → Option MemoryValue) (env : VmEnv κ Code Bytecode)
    (L : Set MemoryLocation) (db db' : VmDb κ) : Prop where
  sameTx : SameTx db db'
  grows : Grows db db'
  tracked : Tracked w env L db'

lemma Keeps.trans {db'' : VmDb κ} (h : Keeps w env L db db') (h' : Keeps w env L db' db'') :
    Keeps w env L db db'' :=
  ⟨h.sameTx.trans h'.sameTx, h.grows.trans h'.grows, h'.tracked⟩

/-- A push at a location with a single origin. -/
lemma keeps_push {location : MemoryLocation} {origin : ReadOrigin}
    (hinj : Set.InjOn env.hash L) (hmem : location ∈ L) (hsingle : ∀ a, location ≠ .basic a)
    (htracked : Tracked w env L db) (h : db.push (env.hash location) origin = .ok db') :
    Keeps w env L db db' ∧ db'.readOrigins (env.hash location) = [origin] := by
  have hlength : (db.readOrigins (env.hash location)).length ≤ 1 := by
    have hthere := htracked location hmem
    cases location with
    | basic address => exact absurd rfl (hsingle address)
    | codeHash address => exact hthere
    | storage address index => exact hthere
  obtain ⟨hthere, hothers, hgrows⟩ := push_spec hlength h
  refine ⟨⟨(push_eq_ok h).1, hgrows, fun location' hmem' => ?_⟩, hthere⟩
  by_cases hsame : location' = location
  · subst hsame
    cases location' with
    | basic address => exact absurd rfl (hsingle address)
    | codeHash address => simp [hthere]
    | storage address index => simp [hthere]
  · have hne : env.hash location' ≠ env.hash location := fun heq => hsame (hinj hmem' hmem heq)
    have hbefore := htracked location' hmem'
    rw [← hothers _ hne] at hbefore
    exact hbefore

/-- The origins of an account, registered. -/
lemma keeps_register {chain : List ReadOrigin} {met : Option AccountBasic} {u : LazyUpdates}
    (hinj : Set.InjOn env.hash L) (hmem : .basic address ∈ L) (htracked : Tracked w env L db)
    (hread : db.readOrigins (env.hash (.basic address)) = [] ∨
      db.readOrigins (env.hash (.basic address)) = chain)
    (hchain : Chain (w (env.hash (.basic address))) .none chain met u) :
    Keeps w env L db (db.register (env.hash (.basic address)) chain) ∧
      (db.register (env.hash (.basic address)) chain).readOrigins (env.hash (.basic address)) =
        chain := by
  obtain ⟨horigins, hgrows⟩ := register_spec db (env.hash (.basic address)) chain
  have hthere : (db.register (env.hash (.basic address)) chain).readOrigins
      (env.hash (.basic address)) = chain := by
    rw [horigins]
    rcases hread with hnil | hsame
    · rw [if_pos ⟨rfl, hnil⟩]
    · rw [if_neg fun h => hchain.ne_nil (hsame.symm.trans h.2)]
      exact hsame
  refine ⟨⟨(register_same _ _).1, hgrows, fun location' hmem' => ?_⟩, hthere⟩
  by_cases hsame : location' = .basic address
  · subst hsame
    show HasChain w _ _
    rw [hthere]
    exact .inr ⟨met, u, hchain⟩
  · have hne : env.hash location' ≠ env.hash (.basic address) :=
      fun heq => hsame (hinj hmem' hmem heq)
    have hbefore := htracked location' hmem'
    have hother := horigins (env.hash location')
    rw [if_neg fun h => hne h.1] at hother
    rw [← hother] at hbefore
    exact hbefore

lemma HashRead.keeps (hinj : Set.InjOn env.hash L) (hmem : .codeHash address ∈ L)
    (htracked : Tracked w env L db) (h : HashRead w env db address l codeHash db') :
    Keeps w env L db db' := by
  cases h with
  | known => exact ⟨.refl db, .refl db, htracked⟩
  | read _ hpush => exact (keeps_push hinj hmem (by simp) htracked hpush).1

theorem Performs.keeps (hinj : Set.InjOn env.hash L) (hashed : Hashed env db)
    (hlocations : ∀ location ∈ r.locations, location ∈ L) (htracked : Tracked w env L db)
    (h : Performs w env db r answer db') : Keeps w env L db db' := by
  cases h with
  | mock => exact ⟨.refl db, .refl db, htracked⟩
  | missing _ hread hchain =>
    rw [hashed.hashBasic_eq] at *
    exact (keeps_register hinj (hlocations _ (by simp [Read.locations])) htracked hread hchain).1
  | account _ hread hchain _ _ hhash =>
    rw [hashed.hashBasic_eq] at *
    have hfirst :=
      (keeps_register hinj (hlocations _ (by simp [Read.locations])) htracked hread hchain).1
    have hsecond :=
      hhash.keeps hinj (hlocations _ (by simp [Read.locations])) hfirst.tracked
    have hboth := hfirst.trans hsecond
    exact ⟨hboth.sameTx.trans ⟨rfl, rfl, rfl, rfl, rfl, rfl⟩, hboth.grows, hboth.tracked⟩
  | storage hpush =>
    exact (keeps_push hinj (hlocations _ (by simp [Read.locations])) (by simp) htracked hpush).1
  | codeHash hpush =>
    exact (keeps_push hinj (hlocations _ (by simp [Read.locations])) (by simp) htracked hpush).1

end Frames

section Again

/-- The origins on record are those that the memory has now. -/
def Validates (mem : MvMemory κ MemoryValue) (db : VmDb κ) : Prop :=
  ∀ l, db.readOrigins l ≠ [] → mem.validateLocation db.txIdx l (db.readOrigins l) = true

lemma Validates.of_grows {mem : MvMemory κ MemoryValue} (h : Validates mem db')
    (hidx : db'.txIdx = db.txIdx) (hgrows : Grows db db') : Validates mem db := by
  intro l hl
  have hsame := hgrows l hl
  have hvalid := h l (by rwa [hsame])
  rwa [hsame, hidx] at hvalid

lemma accountCodeHash_of_read (hinj : Set.InjOn env.hash L) (hmem : .codeHash address ∈ L)
    (htracked : Tracked w env L db) (hagrees : env.mvMemory.Agrees w)
    (hvalid : Validates env.mvMemory db') (h : HashRead w env db address l codeHash db') :
    db.accountCodeHash env address l = .ok (codeHash, db') := by
  unfold accountCodeHash
  cases h with
  | known hto => rw [if_pos hto]
  | read hto hpush hfrom =>
    rw [if_neg hto]
    obtain ⟨hkeeps, hthere⟩ := keeps_push hinj hmem (by simp) htracked hpush
    have hlocation := hvalid (env.hash (.codeHash address)) (by simp [hthere])
    rw [hthere, hkeeps.sameTx.txIdx] at hlocation
    exact getCodeHash_of_from hagrees hlocation hpush hfrom

/-- A read whose origins are valid goes through again, with the same answer and origins. -/
theorem Performs.read_again (hinj : Set.InjOn env.hash L) (hashed : Hashed env db)
    (hlocations : ∀ location ∈ r.locations, location ∈ L) (htracked : Tracked w env L db)
    (hagrees : env.mvMemory.Agrees w) (hvalid : Validates env.mvMemory db')
    (h : Performs w env db r answer db') : db.read env env r = .ok (answer, db') := by
  cases h with
  | mock hmock =>
    simp only [read, basicAcross, hmock]
    rfl
  | @missing address chain met u hmock hread hchain hsettle =>
    rw [hashed.hashBasic_eq] at *
    obtain ⟨hkeeps, hthere⟩ :=
      keeps_register hinj (hlocations _ (by simp [Read.locations])) htracked hread hchain
    have hlocation := hvalid (env.hash (.basic address)) (by
      rw [hthere]
      exact hchain.ne_nil)
    rw [hthere, hkeeps.sameTx.txIdx] at hlocation
    obtain ⟨newOrigins, hfind, hnew⟩ :=
      findAccount_of_chain hagrees hchain hsettle hlocation hread
    simp only [read, basicAcross, hashed.hashBasic_eq, hmock, hfind, Fallible.ok_bind,
      register_congr hnew]
    rfl
  | @account address chain met u account codeHash code db₁ hmock hread hchain hsettle hnonce
      hhash hcode =>
    rw [hashed.hashBasic_eq] at *
    obtain ⟨hfirst, hthere⟩ :=
      keeps_register hinj (hlocations _ (by simp [Read.locations])) htracked hread hchain
    have hmem : .codeHash address ∈ L := hlocations _ (by simp [Read.locations])
    have hsecond := hhash.keeps hinj hmem hfirst.tracked
    have hvalid₁ : Validates env.mvMemory db₁ := hvalid
    have hlocation := hvalid₁.of_grows hsecond.sameTx.txIdx hsecond.grows
      (env.hash (.basic address)) (by
        rw [hthere]
        exact hchain.ne_nil)
    rw [hthere, hfirst.sameTx.txIdx] at hlocation
    obtain ⟨newOrigins, hfind, hnew⟩ :=
      findAccount_of_chain hagrees hchain hsettle hlocation hread
    have hhash' := accountCodeHash_of_read hinj hmem hfirst.tracked hagrees hvalid₁ hhash
    have hnonce' : ¬ (db.register (env.hash (.basic address)) chain).NonceMismatch
        (env.hash (.basic address)) { account with nonce := account.nonce + u.nonceAddition } := by
      unfold NonceMismatch at hnonce ⊢
      rwa [register_fromHash, register_tx]
    have hevaluate := evaluateAccount_eq_ok.mpr
      ⟨hnonce', codeHash, code, db₁, hhash', hcode, rfl, rfl⟩
    simp only [read, basicAcross, hashed.hashBasic_eq, hmock, hfind, Fallible.ok_bind,
      register_congr hnew, finishRead, hevaluate]
  | @storage address index value origin _ hpush hfrom =>
    obtain ⟨hkeeps, hthere⟩ :=
      keeps_push hinj (hlocations _ (by simp [Read.locations])) (by simp) htracked hpush
    have hlocation := hvalid (env.hash (.storage address index)) (by simp [hthere])
    rw [hthere, hkeeps.sameTx.txIdx] at hlocation
    simp only [read, storage_of_from hagrees hlocation hpush hfrom, Fallible.ok_bind]
  | @codeHash address codeHash origin _ hpush hfrom =>
    obtain ⟨hkeeps, hthere⟩ :=
      keeps_push hinj (hlocations _ (by simp [Read.locations])) (by simp) htracked hpush
    have hlocation := hvalid (env.hash (.codeHash address)) (by simp [hthere])
    rw [hthere, hkeeps.sameTx.txIdx] at hlocation
    simp only [read, getCodeHash_of_from hagrees hlocation hpush hfrom, Fallible.ok_bind]

end Again

section Unique
variable {db₁ db₂ db₃ : VmDb κ} {answer' : Answer Bytecode}

lemma keeps_push_unique {location : MemoryLocation} {origin origin' : ReadOrigin}
    (hinj : Set.InjOn env.hash L) (hmem : location ∈ L) (hsingle : ∀ a, location ≠ .basic a)
    (htracked : Tracked w env L db) (htracked' : Tracked w env L db₂) (hgrows : Grows db₁ db₂)
    (h : db.push (env.hash location) origin = .ok db₁)
    (h' : db₂.push (env.hash location) origin' = .ok db₃) : origin = origin' := by
  have hfirst := (keeps_push hinj hmem hsingle htracked h).2
  obtain ⟨hkeeps, hsecond⟩ := keeps_push hinj hmem hsingle htracked' h'
  have hlater := (hgrows.trans hkeeps.grows) (env.hash location) (by simp [hfirst])
  rw [hsecond, hfirst] at hlater
  exact (List.singleton_inj.mp hlater).symm

lemma HashRead.unique {codeHash' : Option B256} (hinj : Set.InjOn env.hash L)
    (hmem : .codeHash address ∈ L) (htracked : Tracked w env L db)
    (htracked' : Tracked w env L db₂) (hsame : SameTx db db₂) (hgrows : Grows db₁ db₂)
    (h : HashRead w env db address l codeHash db₁)
    (h' : HashRead w env db₂ address l codeHash' db₃) : codeHash = codeHash' := by
  cases h with
  | known hto =>
    cases h' with
    | known => exact hsame.toCodeHash.symm
    | read hto' =>
      rw [hsame.toHash] at hto'
      exact absurd hto hto'
  | read hto hpush hfrom =>
    cases h' with
    | known hto' =>
      rw [hsame.toHash] at hto'
      exact absurd hto' hto
    | read _ hpush' hfrom' =>
      have horigin :=
        keeps_push_unique hinj hmem (by simp) htracked htracked' hgrows hpush hpush'
      subst horigin
      exact hfrom.unique hfrom'

/-- An account read has one chain of origins, which later reads of it meet again. -/
lemma chain_unique {chain chain' : List ReadOrigin} {met met' : Option AccountBasic}
    {u u' : LazyUpdates} (hinj : Set.InjOn env.hash L) (hmem : .basic address ∈ L)
    (htracked : Tracked w env L db)
    (hread : db.readOrigins (env.hash (.basic address)) = [] ∨
      db.readOrigins (env.hash (.basic address)) = chain)
    (hchain : Chain (w (env.hash (.basic address))) .none chain met u)
    (hgrows : Grows (db.register (env.hash (.basic address)) chain) db₂)
    (hread' : db₂.readOrigins (env.hash (.basic address)) = [] ∨
      db₂.readOrigins (env.hash (.basic address)) = chain')
    (hchain' : Chain (w (env.hash (.basic address))) .none chain' met' u') :
    chain = chain' ∧ met = met' ∧ u = u' := by
  have hthere := (keeps_register hinj hmem htracked hread hchain).2
  have hne := hchain.ne_nil
  have hlater := hgrows (env.hash (.basic address)) (by rwa [hthere])
  rw [hthere] at hlater
  rw [hlater] at hread'
  rcases hread' with hnil | hsame
  · exact absurd hnil hne
  · subst hsame
    exact hchain.eq_of_prefix hchain' (List.prefix_refl chain)

/-- Two reads of one location by one execution give the same. -/
theorem Performs.unique (hinj : Set.InjOn env.hash L) (hashed : Hashed env db)
    (hlocations : ∀ location ∈ r.locations, location ∈ L) (htracked : Tracked w env L db)
    (htracked' : Tracked w env L db₂) (hsame : SameTx db db₂) (hgrows : Grows db₁ db₂)
    (h : Performs w env db r answer db₁) (h' : Performs w env db₂ r answer' db₃) :
    answer = answer' := by
  have hbasic := hashed.hashBasic_eq
  have hbasic' := (hashed.of_sameTx hsame).hashBasic_eq
  have hmocks : ∀ l, db₂.mock env l = db.mock env l := by
    intro l
    unfold VmDb.mock
    rw [hsame.isLazy, hsame.fromHash, hsame.toHash, hsame.tx]
  cases h with
  | mock hmock =>
    rw [hbasic] at hmock
    cases h' with
    | mock hmock' =>
      rw [hbasic', hmocks, hmock] at hmock'
      rw [Option.some.inj hmock']
    | missing hmock' =>
      rw [hbasic', hmocks, hmock] at hmock'
      cases hmock'
    | account hmock' =>
      rw [hbasic', hmocks, hmock] at hmock'
      cases hmock'
  | missing hmock hread hchain hsettle =>
    rw [hbasic] at *
    cases h' with
    | mock hmock' =>
      rw [hbasic', hmocks, hmock] at hmock'
      cases hmock'
    | missing => rfl
    | account _ hread' hchain' hsettle' =>
      rw [hbasic'] at *
      obtain ⟨-, rfl, rfl⟩ := chain_unique hinj (hlocations _ (by simp [Read.locations]))
        htracked hread hchain hgrows hread' hchain'
      rw [hsettle] at hsettle'
      cases hsettle'
  | @account address _ _ _ _ _ _ hashedDb hmock hread hchain hsettle _ hhash hcode =>
    rw [hbasic] at *
    have hlater : Grows hashedDb db₂ := hgrows
    have hmem : .codeHash address ∈ L := hlocations _ (by simp [Read.locations])
    have hfirst :=
      (keeps_register hinj (hlocations _ (by simp [Read.locations])) htracked hread hchain).1
    have hhashed := hhash.keeps hinj hmem hfirst.tracked
    have hgrows' := hhashed.grows.trans hlater
    cases h' with
    | mock hmock' =>
      rw [hbasic', hmocks, hmock] at hmock'
      cases hmock'
    | missing _ hread' hchain' hsettle' =>
      rw [hbasic'] at *
      obtain ⟨-, rfl, rfl⟩ := chain_unique hinj (hlocations _ (by simp [Read.locations]))
        htracked hread hchain hgrows' hread' hchain'
      rw [hsettle] at hsettle'
      cases hsettle'
    | account _ hread' hchain' hsettle' _ hhash' hcode' =>
      rw [hbasic'] at *
      obtain ⟨rfl, rfl, rfl⟩ := chain_unique hinj (hlocations _ (by simp [Read.locations]))
        htracked hread hchain hgrows' hread' hchain'
      rw [hsettle] at hsettle'
      cases hsettle'
      have hsecond := (keeps_register hinj (hlocations _ (by simp [Read.locations]))
        htracked' hread' hchain').1
      have hsame' := hfirst.sameTx.symm.trans (hsame.trans hsecond.sameTx)
      obtain rfl := hhash.unique hinj hmem hfirst.tracked hsecond.tracked hsame'
        (hlater.trans hsecond.grows) hhash'
      rw [hcode] at hcode'
      cases hcode'
      rfl
  | storage hpush hfrom =>
    cases h' with
    | storage hpush' hfrom' =>
      obtain rfl := keeps_push_unique hinj (hlocations _ (by simp [Read.locations])) (by simp)
        htracked htracked' hgrows hpush hpush'
      rw [hfrom.unique hfrom']
  | codeHash hpush hfrom =>
    cases h' with
    | codeHash hpush' hfrom' =>
      obtain rfl := keeps_push_unique hinj (hlocations _ (by simp [Read.locations])) (by simp)
        htracked htracked' hgrows hpush hpush'
      rw [hfrom.unique hfrom']

end Unique

end Performs

end VmDb

end Pevm
