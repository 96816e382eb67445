import Pevm.Chain
import Pevm.LazyEvaluation.Columns
import Pevm.Vm.Machine
import Pevm.VmDb.Validation

/-!
# Completed runs

What a parallel run of a block leaves behind: of every transaction one incarnation that
stands, with valid reads and its writes in the memory, and the results made of it.
-/
namespace Pevm

section Results
variable {Code Bytecode : Type} (toCode : Bytecode → Code)

/-- `EvmAccount::from`. It unwraps the code of an account that has a code hash; the panic where
revm gives a hash without its code is left out, and such an account has no code here. -/
def EvmAccount.ofRevm (account : RevmAccount Bytecode) : EvmAccount Code where
  balance := account.info.balance
  nonce := account.info.nonce
  codeHash := if account.hasCode then some account.info.codeHash else none
  code := if account.hasCode then account.info.code.map toCode else none
  storage index := (account.storage.lookup index).map EvmStorageSlot.presentValue

/-- The state in `PexeTxExecutionResult::from_revm`: touched accounts only, and those that are
destroyed or empty as gone. -/
def fromRevm (isEip161Enabled : Bool) (state : List (Address × RevmAccount Bytecode)) :
    LazyEvaluation.TxState Code := fun address =>
  (state.lookup address).bind fun account =>
    if account.isTouched then
      if account.isSelfdestructed ∨ (account.IsEmpty ∧ isEip161Enabled) then some none
      else some (some (.ofRevm toCode account))
    else none

end Results

/-- A block with its chain, as the executions see it. -/
structure EvmBlock (κ : Type) where
  chain : PexeChain
  hashes : Hashes κ
  recipients : FeeRecipients
  env : ChainEnv
  txs : List OptimismTxEnv

/-- The transaction at an index of the block, without the fields of Optimism. -/
def EvmBlock.txAt {κ : Type} (block : EvmBlock κ) (j : ℕ) : TxEnv :=
  match block.txs[j]? with
  | some tx => tx.toTxEnv
  | none => ⟨0, 0, 0, .create, 0, none, none, [], none⟩

/-- The account that a read asks for, whichever part of it. -/
def Read.address : Read → Address
  | basic address | storage address _ | codeHash address => address

variable {κ Code Bytecode : Type} [DecidableEq κ]

/-- The incarnation of a transaction that stands at the end of a run. Its reads are those that
the final memory gives, and its writes are there. -/
structure Standing (block : EvmBlock κ) (s : Recordings κ Code Bytecode) (txIdx : ℕ)
    (tx : OptimismTxEnv) where
  txIncarnation : ℕ
  /-- The block at the time of its last read. -/
  finished : Recordings κ Code Bytecode
  db : VmDb κ
  trace : List (Read × Answer Bytecode)
  calculateTxL1Cost : Option (List U8 → U256)
  result : ResultAndState Bytecode
  writeSet : WriteSet κ MemoryValue
  flags : FinishExecFlags
  incarnation : VmDb.Incarnation txIdx tx.toTxEnv finished db trace
  later : finished.Steps s
  executes : Vm.executeUnder block.hashes.location block.env
    (block.chain.getRewardPolicy block.hashes block.recipients) db tx calculateTxL1Cost
      (.ok result) = some (.ok (db.readSet, writeSet, flags))
  recorded : (s.env.mvMemory.lastLocations txIdx).read = db.readSet
  valid : s.env.mvMemory.validateReadLocations txIdx = true
  entries : ∀ l value, MvMemory.written writeSet l = some value →
    s.env.mvMemory.entry l txIdx = some (.data txIncarnation value)
  /-- Nothing else is there but estimates that the block began with. -/
  others : ∀ l e, MvMemory.written writeSet l = none → s.env.mvMemory.entry l txIdx = some e →
    e = .estimate ∧ l ∈ block.chain.expected block.hashes block.recipients block.env tx

/-- A parallel run that has come to its end without an abort: each transaction has an incarnation
that stands. -/
structure CompletedRun (κ Code Bytecode : Type) [DecidableEq κ] extends EvmBlock κ where
  recordings : Recordings κ Code Bytecode
  hash : recordings.env.hash = hashes.location
  standing : ∀ (j : ℕ) (h : j < txs.length), Standing toEvmBlock recordings j txs[j]
  above : ∀ j l, txs.length ≤ j → recordings.env.mvMemory.entry l j = none

namespace Standing
variable {block : EvmBlock κ} {s : Recordings κ Code Bytecode} {txIdx : ℕ} {tx : OptimismTxEnv}
  (standing : Standing block s txIdx tx)

/-- What revm keeps to: it loads an account before it reads its slots or changes it, and returns
each account once. -/
structure Loads : Prop where
  state : ∀ e ∈ standing.result.state, ∃ answer, (Read.basic e.1, answer) ∈ standing.trace
  storage : ∀ address index answer, (Read.storage address index, answer) ∈ standing.trace →
    ∃ answer', (Read.basic address, answer') ∈ standing.trace
  nodup : (standing.result.state.map Prod.fst).Nodup

/-- All locations that the incarnation reads or writes are in the set. -/
structure Within (L : Set MemoryLocation) : Prop where
  touched : VmDb.touched tx.toTxEnv standing.trace ⊆ L
  state : ∀ e ∈ standing.result.state, ∀ location ∈ Vm.locations e, location ∈ L

variable {standing} {L : Set MemoryLocation}

/-- Every read goes through again in the memory at the end. -/
theorem read_again (hwithin : standing.Within L) (hinj : Set.InjOn s.env.hash L)
    {p : Read × Answer Bytecode} (hp : p ∈ standing.trace) :
    ∃ db₀ db₁, VmDb.Hashed s.env db₀ ∧ VmDb.SameTx db₀ standing.db ∧ db₀.txIdx = txIdx ∧
      db₀.tx = tx.toTxEnv ∧ db₀.read s.env s.env p.1 = .ok (p.2, db₁) := by
  have hsame := Recordings.Steps.sameBlock standing.later
  have hinj' : Set.InjOn standing.finished.env.hash L := by
    rw [← hsame.hash]
    exact hinj
  obtain ⟨htraced, hidx, htx, hreach, -⟩ := standing.incarnation.traced hwithin.touched hinj'
    fun l v x hx => Recordings.Steps.valueAt standing.later hx
  replace htraced := htraced.mono hsame
  obtain ⟨db₀, db₁, htracked, hsameTx, hperforms, hgrows⟩ := htraced.made p hp
  have hashed := htraced.hashed.of_sameTx hsameTx.symm
  have hlocations : ∀ location ∈ p.1.locations, location ∈ L :=
    fun location hlocation => hwithin.touched (.inr (.inr ⟨p, hp, hlocation⟩))
  have hkeeps := hperforms.keeps hinj hashed hlocations htracked
  have hagrees := Recordings.reachable_agrees (Recordings.Steps.reachable hreach standing.later)
  have hrecorded : (s.env.mvMemory.lastLocations standing.db.txIdx).read = standing.db.readSet := by
    rw [hidx]
    exact standing.recorded
  have hvalid : s.env.mvMemory.validateReadLocations standing.db.txIdx = true := by
    rw [hidx]
    exact standing.valid
  have hvalidates := (VmDb.validates_of_validate hrecorded hvalid).of_grows
    (hsameTx.txIdx.trans hkeeps.sameTx.txIdx.symm) hgrows
  refine ⟨db₀, db₁, hashed, hsameTx, hsameTx.txIdx.symm.trans hidx, hsameTx.tx.symm.trans htx, ?_⟩
  exact hperforms.read_again hinj hashed hlocations htracked hagrees hvalidates

/-- The code hash of the recipient is the first thing that is read. -/
lemma recipient_read (hwithin : standing.Within L) (hinj : Set.InjOn s.env.hash L)
    {address : Address} (hto : tx.toAddress = some address) :
    ∃ answer, (Read.codeHash address, answer) ∈ standing.trace := by
  have hsame := Recordings.Steps.sameBlock standing.later
  have hinj' : Set.InjOn standing.finished.env.hash L := by
    rw [← hsame.hash]
    exact hinj
  obtain ⟨-, -, htx, -, hopening⟩ := standing.incarnation.traced hwithin.touched hinj'
    fun l v x hx => Recordings.Steps.valueAt standing.later hx
  refine ⟨.codeHash standing.db.toCodeHash, hopening _ ?_⟩
  unfold VmDb.opening
  rw [htx, TxEnv.toAddress_eq_some.mp hto]
  exact List.mem_singleton_self _

/-- What stands in the memory of an account that is not rewarded is what the account itself
was written. -/
lemma written_eq {location : MemoryLocation}
    (hinj : Set.InjOn block.hashes.location L) (hmem : location ∈ L)
    (hrewarded : ∀ address ∈ block.chain.rewarded block.recipients block.env tx,
      .basic address ∈ L ∧ location ≠ .basic address) :
    MvMemory.written standing.writeSet (block.hashes.location location) =
      MvMemory.written (Vm.writeSet block.hashes.location block.env standing.db
        standing.result.state) (block.hashes.location location) := by
  obtain ⟨result, rewards, hresult, -, hrewards, hlist⟩ :=
    Vm.executeUnder_eq_ok block.hashes.location block.env standing.executes
  obtain rfl := Transacted.ok.inj hresult
  apply Vm.applyRewardList_written_of_not_mem hlist
  rw [Vm.rewards_keys block.env hrewards, List.mem_map]
  rintro ⟨address, haddress, heq⟩
  obtain ⟨hL, hne⟩ := hrewarded address haddress
  exact hne (hinj hL hmem heq).symm

end Standing

namespace CompletedRun
variable (run : CompletedRun κ Code Bytecode) (toCode : Bytecode → Code)

/-- The state changes of the transactions before the lazy accounts are evaluated. -/
def executionResults : ℕ → LazyEvaluation.TxState Code := fun j =>
  if h : j < run.txs.length then
    fromRevm toCode run.env.isEip161Enabled (run.standing j h).result.state
  else fun _ => none

/-- The state changes that are returned, with these addresses to evaluate. -/
def fullyEvaluatedResults (lazyAddresses : List Address) :
    Except PexeError (ℕ → LazyEvaluation.TxState Code) :=
  LazyEvaluation.evaluate run.hashes.location run.recordings.env.storage
    run.recordings.env.mvMemory run.env.isEip161Enabled run.txAt run.txs.length lazyAddresses
    (run.executionResults toCode)

end CompletedRun

end Pevm
