import Pevm.Primitives

/-!
# Accounts, locations and transactions

The parts of an account that a block changes, where they lie, and the fields of a
transaction that the parallel executor itself reads.
-/
namespace Pevm

/-- Balance and nonce of an account, the part of it that `VmDb::basic` looks up in one read. -/
structure AccountBasic where
  balance : U256
  nonce : U64
  deriving DecidableEq, Repr

/-- The account that does not exist, which is also what `Default` gives in the source. -/
def AccountBasic.default : AccountBasic := ⟨0, 0⟩

/-- Where the EVM reads and writes: balance and nonce of an account, its code hash, or one slot of
its storage. -/
inductive MemoryLocation
  | basic (address : Address)
  | codeHash (address : Address)
  | storage (address : Address) (index : U256)
  deriving DecidableEq, Repr

/-- The account that a location belongs to, whichever part of it the location is. -/
def MemoryLocation.address : MemoryLocation → Address
  | basic address | codeHash address | storage address _ => address

/-- What an EVM execution leaves at a location. Lazy values are changes to a balance that has not
been read. -/
inductive MemoryValue
  | basic (info : AccountBasic)
  | codeHash (hash : B256)
  | storage (value : U256)
  /-- A balance addition. -/
  | lazyRecipient (addition : U256)
  /-- A balance subtraction; the nonce goes up by one. -/
  | lazySender (subtraction : U256)
  | selfDestructed
  deriving DecidableEq, Repr

/-- A transaction creates a contract or calls an account. -/
inductive TxKind
  | create
  | call (address : Address)
  deriving DecidableEq, Repr

/-- The fields of revm's transaction environment that the code reads. -/
structure TxEnv where
  caller : Address
  gasLimit : U64
  gasPrice : U256
  transactTo : TxKind
  value : U256
  nonce : Option U64
  gasPriorityFee : Option U256
  blobHashes : List B256
  maxFeePerBlobGas : Option U256
  deriving DecidableEq, Repr

namespace TxEnv

/-- `transact_to.to()`: the account that is called, none for a creation. -/
def toAddress (tx : TxEnv) : Option Address :=
  match tx.transactTo with
  | .create => none
  | .call address => some address

lemma toAddress_eq_some {tx : TxEnv} {address : Address} :
    tx.toAddress = some address ↔ tx.transactTo = .call address := by
  unfold toAddress
  cases tx.transactTo <;> simp

/-- `get_total_blob_gas`: `GAS_PER_BLOB` for every blob, in wrapping arithmetic of 64 bits. -/
def getTotalBlobGas (tx : TxEnv) : U64 := 131072 * BitVec.ofNat 64 tx.blobHashes.length

end TxEnv

/-- The state before the block, as the `Storage` trait gives it. Every call may fail with a message.
-/
structure Storage (Code : Type) where
  basic : Address → Except String (Option AccountBasic)
  codeHash : Address → Except String (Option B256)
  codeByHash : B256 → Except String (Option Code)
  storage : Address → U256 → Except String U256

/-- `KECCAK_EMPTY`, the code hash of an account without code. -/
def keccakEmpty : B256 := 0xc5d2460186f7233c927e7db2dcc703c0e500b653ca82273b7bfad8045d85a470

end Pevm
