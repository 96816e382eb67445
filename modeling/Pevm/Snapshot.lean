import Mathlib.Data.List.AList
import Pevm.Account

/-!
# Storages and snapshots

The storage that fetches over RPC keeps what it has fetched. What it has kept at the end is saved
as a snapshot, from which the storage in memory is built.
-/
namespace Pevm.Snapshot

/-- `EvmAccount`, with its storage as the map that it is. -/
structure EvmAccount (Code : Type) where
  balance : U256
  nonce : U64
  codeHash : Option B256
  code : Option Code
  storage : AList fun _ : U256 => U256

/-- What a provider answers at one block: the same whenever it is asked. A call may fail with a
message. -/
structure Provider where
  getTransactionCount : Address → Except String U64
  getBalance : Address → Except String U256
  getCodeAt : Address → Except String (List U8)
  getStorageAt : Address → U256 → Except String U256
  /-- The storage hash of the proof. -/
  getProof : Address → Except String B256
  /-- The hash of the block, if there is one. -/
  getBlockByNumber : U64 → Except String (Option B256)

/-- What the code uses of revm's `Bytecode`, and the `EvmCode` that is made of it. -/
structure BytecodeApi (Bytecode Code : Type) where
  newRaw : List U8 → Bytecode
  isEmpty : Bytecode → Bool
  hashSlow : Bytecode → B256
  into : Bytecode → Code

/-- How a call of the storage fails: the provider keeps failing, or the code panics. -/
inductive RpcError
  | transport (message : String)
  /-- `unwrap` of a block that is not there. -/
  | panic
  deriving DecidableEq, Repr

/-- `RpcStorage`: a provider at one block, and the caches of what it has been asked for. -/
structure RpcStorage (Bytecode Code : Type) where
  provider : Provider
  precompiles : List Address
  api : BytecodeApi Bytecode Code
  cacheAccounts : AList fun _ : Address => EvmAccount Code
  cacheBytecodes : AList fun _ : B256 => Code
  cacheBlockHashes : AList fun _ : U64 => B256

/-- The root hash of the empty trie, by which an account without storage is known. -/
def emptyRootHash : B256 := 0x56e81f171bcc55a6ff8345e692c0f86e5b48e01b996cadc001622fb5e363b421

/-- How often a request is repeated. -/
def retryLimit : ℕ := 8

/-- `fetch`: a request is repeated while it fails and there are lives left. The last message is the
error. -/
def fetch {α : Type} (request : Except String α) : ℕ → Except RpcError α
  | 0 =>
    match request with
    | .ok value => .ok value
    | .error message => .error (.transport message)
  | lives + 1 =>
    match request with
    | .ok value => .ok value
    | .error _ => fetch request lives

namespace RpcStorage
variable {Bytecode Code : Type}

def new (provider : Provider) (precompiles : List Address) (api : BytecodeApi Bytecode Code) :
    RpcStorage Bytecode Code :=
  ⟨provider, precompiles, api, ∅, ∅, ∅⟩

variable (rpc : RpcStorage Bytecode Code)

/-- The hash of a code that is not empty, and the cached bytecodes with it. -/
def keepCode (code : List U8) : Option B256 × AList (fun _ : B256 => Code) :=
  let code := rpc.api.newRaw code
  if rpc.api.isEmpty code then (none, rpc.cacheBytecodes)
  else
    (some (rpc.api.hashSlow code),
      rpc.cacheBytecodes.insert (rpc.api.hashSlow code) (rpc.api.into code))

/-- The account is cached with its code; none of its slots is known yet. -/
def keepAccount (address : Address) (nonce : U64) (balance : U256) (code : List U8) :
    RpcStorage Bytecode Code :=
  { rpc with
    cacheBytecodes := (rpc.keepCode code).2
    cacheAccounts :=
      rpc.cacheAccounts.insert address ⟨balance, nonce, (rpc.keepCode code).1, none, ∅⟩ }

/-- `RpcStorage::basic`: from the cache, or by three requests. New accounts that are no precompiles
are told apart, and not kept. -/
def basic (address : Address) : Except RpcError (Option AccountBasic × RpcStorage Bytecode Code) :=
  match rpc.cacheAccounts.lookup address with
  | some account => .ok (some ⟨account.balance, account.nonce⟩, rpc)
  | none => do
    let nonce ← fetch (rpc.provider.getTransactionCount address) retryLimit
    let balance ← fetch (rpc.provider.getBalance address) retryLimit
    let code ← fetch (rpc.provider.getCodeAt address) retryLimit
    if !rpc.precompiles.any (· = address) ∧ balance = 0 ∧ nonce = 0 ∧ code = [] then
      return (none, rpc)
    else return (some ⟨balance, nonce⟩, rpc.keepAccount address nonce balance code)

/-- `RpcStorage::code_hash`: the account is fetched first, so its code is cached afterwards. -/
def codeHash (address : Address) : Except RpcError (Option B256 × RpcStorage Bytecode Code) := do
  let (_, rpc) ← rpc.basic address
  return ((rpc.cacheAccounts.lookup address).bind (·.codeHash), rpc)

/-- `RpcStorage::code_by_hash`: only the cache is asked. -/
def codeByHash (codeHash : B256) : Option Code := rpc.cacheBytecodes.lookup codeHash

/-- `RpcStorage::has_storage`: nothing of it is cached. -/
def hasStorage (address : Address) : Except RpcError Bool := do
  let storageHash ← fetch (rpc.provider.getProof address) retryLimit
  return decide (storageHash ≠ emptyRootHash)

/-- The slot is only kept with its account; without one it is dropped. -/
def keepSlot (address : Address) (index value : U256) : RpcStorage Bytecode Code :=
  match rpc.cacheAccounts.lookup address with
  | some account =>
    { rpc with
      cacheAccounts := rpc.cacheAccounts.insert address
        { account with storage := account.storage.insert index value } }
  | none => rpc

/-- `RpcStorage::storage`: the value is fetched before the account that it is kept with. -/
def storage (address : Address) (index : U256) :
    Except RpcError (U256 × RpcStorage Bytecode Code) :=
  match (rpc.cacheAccounts.lookup address).bind (·.storage.lookup index) with
  | some value => .ok (value, rpc)
  | none => do
    let value ← fetch (rpc.provider.getStorageAt address index) retryLimit
    let (_, rpc) ← rpc.basic address
    return (value, rpc.keepSlot address index value)

/-- `RpcStorage::block_hash`: a block that the provider does not have is a panic. -/
def blockHash (number : U64) : Except RpcError (B256 × RpcStorage Bytecode Code) :=
  match rpc.cacheBlockHashes.lookup number with
  | some blockHash => .ok (blockHash, rpc)
  | none => do
    match ← fetch (rpc.provider.getBlockByNumber number) retryLimit with
    | some blockHash =>
      return (blockHash,
        { rpc with cacheBlockHashes := rpc.cacheBlockHashes.insert number blockHash })
    | none => .error .panic

end RpcStorage

/-- A snapshot as the storage that is built from it. -/
structure InMemoryStorage (Code : Type) where
  accounts : AList fun _ : Address => EvmAccount Code
  bytecodes : AList fun _ : B256 => Code
  blockHashes : AList fun _ : U64 => B256

/-- `into_snapshot`: the caches, as the storage that is built from them. -/
def RpcStorage.intoSnapshot {Bytecode Code : Type} (rpc : RpcStorage Bytecode Code) :
    InMemoryStorage Code :=
  ⟨rpc.cacheAccounts, rpc.cacheBytecodes, rpc.cacheBlockHashes⟩

namespace InMemoryStorage
variable {Code : Type} (memory : InMemoryStorage Code)

def basic (address : Address) : Option AccountBasic :=
  (memory.accounts.lookup address).map fun account => ⟨account.balance, account.nonce⟩

def codeHash (address : Address) : Option B256 :=
  (memory.accounts.lookup address).bind (·.codeHash)

def codeByHash (codeHash : B256) : Option Code := memory.bytecodes.lookup codeHash

/-- `InMemoryStorage::has_storage`: some slot was cached, whatever its value is. -/
def hasStorage (address : Address) : Bool :=
  (memory.accounts.lookup address).any fun account => !account.storage.entries.isEmpty

/-- `InMemoryStorage::storage`: a slot that is not there is zero. -/
def storage (address : Address) (index : U256) : U256 :=
  ((memory.accounts.lookup address).bind (·.storage.lookup index)).getD 0

/-- `InMemoryStorage::block_hash`: the hash of a block that is not there is one of its number. -/
def blockHash (hashNumber : U64 → B256) (number : U64) : B256 :=
  (memory.blockHashes.lookup number).getD (hashNumber number)

end InMemoryStorage

inductive Query
  | basic (address : Address)
  | codeHash (address : Address)
  | codeByHash (codeHash : B256)
  | hasStorage (address : Address)
  | storage (address : Address) (index : U256)
  | blockHash (number : U64)
  deriving DecidableEq, Repr

/-- What a call of the `Storage` trait returns when it does not fail. -/
inductive Answer (Code : Type)
  | basic (account : Option AccountBasic)
  | codeHash (codeHash : Option B256)
  | code (code : Option Code)
  | hasStorage (answer : Bool)
  | storage (value : U256)
  | blockHash (blockHash : B256)

namespace RpcStorage
variable {Bytecode Code : Type}

/-- The answer of the storage to a query, and the caches after it. -/
def answer (rpc : RpcStorage Bytecode Code) :
    Query → Except RpcError (Answer Code × RpcStorage Bytecode Code)
  | .basic address => (rpc.basic address).map fun r => (.basic r.1, r.2)
  | .codeHash address => (rpc.codeHash address).map fun r => (.codeHash r.1, r.2)
  | .codeByHash codeHash => .ok (.code (rpc.codeByHash codeHash), rpc)
  | .hasStorage address => (rpc.hasStorage address).map fun r => (.hasStorage r, rpc)
  | .storage address index => (rpc.storage address index).map fun r => (.storage r.1, r.2)
  | .blockHash number => (rpc.blockHash number).map fun r => (.blockHash r.1, r.2)

/-- The queries that one storage has answered, with their answers and in their order. -/
inductive Serves : RpcStorage Bytecode Code → List (Query × Answer Code) →
    RpcStorage Bytecode Code → Prop
  | nil {rpc : RpcStorage Bytecode Code} : Serves rpc [] rpc
  | snoc {start rpc rpc' : RpcStorage Bytecode Code} {log : List (Query × Answer Code)}
      {query : Query} {answer : Answer Code} : Serves start log rpc →
      rpc.answer query = .ok (answer, rpc') → Serves start (log ++ [(query, answer)]) rpc'

end RpcStorage

/-- The answer of a snapshot, which changes nothing. -/
def InMemoryStorage.answer {Code : Type} (memory : InMemoryStorage Code)
    (hashNumber : U64 → B256) : Query → Answer Code
  | .basic address => .basic (memory.basic address)
  | .codeHash address => .codeHash (memory.codeHash address)
  | .codeByHash codeHash => .code (memory.codeByHash codeHash)
  | .hasStorage address => .hasStorage (memory.hasStorage address)
  | .storage address index => .storage (memory.storage address index)
  | .blockHash number => .blockHash (memory.blockHash hashNumber number)

end Pevm.Snapshot
