import Pevm.Vm.Transfers

/-!
# Lazily executed deposits

A deposit of Optimism mints to its caller before it moves its value. The caller of a lazy execution
is loaded with the largest word, to which nothing can be added: the mint wraps around it, and the
debit that is read off what is left has nothing to do with the value any more.
-/
namespace Pevm
open Saturating

/-- The mint of a deposit as a balance; no mint is zero. -/
def minted (mint : Option U128) : U256 := (mint.getD 0).setWidth 256

lemma minted_toNat (mint : Option U128) : (minted mint).toNat = (mint.getD 0).toNat := by
  have hlt := (mint.getD 0).isLt
  rw [minted, BitVec.toNat_setWidth, Nat.mod_eq_of_lt]
  omega

/-- What a caller that was loaded with the largest word seems to have lost after the mint and the
transfer, in wrapping arithmetic. -/
def seemingLoss (mint : Option U128) (value : U256) : U256 :=
  BitVec.allOnes 256 - (BitVec.allOnes 256 + minted mint - value)

/-- The mint of a deposit wraps around the largest word. -/
lemma allOnes_add_minted (mint : Option U128) :
    (BitVec.allOnes 256 + minted mint).toNat =
      if mint.getD 0 = 0 then 2 ^ 256 - 1 else (mint.getD 0).toNat - 1 := by
  have hlt := (mint.getD 0).isLt
  rw [BitVec.toNat_add, BitVec.toNat_allOnes, minted_toNat]
  split_ifs with hzero
  · rw [hzero]
    rfl
  · have hpos : (mint.getD 0).toNat ≠ 0 := fun h => hzero (BitVec.eq_of_toNat_eq h)
    omega

lemma seemingLoss_toNat {mint : Option U128} {value : U256}
    (h : value ≤ BitVec.allOnes 256 + minted mint) :
    (seemingLoss mint value).toNat =
      if mint.getD 0 = 0 then value.toNat else 2 ^ 256 - (mint.getD 0).toNat + value.toNat := by
  have hleft : (BitVec.allOnes 256 + minted mint - value).toNat =
      (BitVec.allOnes 256 + minted mint).toNat - value.toNat := BitVec.toNat_sub_of_le h
  have hle : BitVec.allOnes 256 + minted mint - value ≤ BitVec.allOnes 256 := by
    have hlt := (BitVec.allOnes 256 + minted mint - value).isLt
    rw [BitVec.le_def, BitVec.toNat_allOnes]
    omega
  have hcovered := BitVec.le_def.mp h
  have hlt := (mint.getD 0).isLt
  rw [seemingLoss, BitVec.toNat_sub_of_le hle, BitVec.toNat_allOnes, hleft]
  rw [allOnes_add_minted] at hcovered ⊢
  split_ifs at hcovered ⊢ with hzero
  · omega
  · have hpos : (mint.getD 0).toNat ≠ 0 := fun h => hzero (BitVec.eq_of_toNat_eq h)
    omega

namespace LazyEvaluation
variable {tx : TxEnv} {txs : ℕ → TxEnv} {txIdx inc : ℕ} {before account : AccountBasic}

/-- Without a gas price and blobs the sender must have the value at hand. -/
lemma maxFee_of_free (hprice : tx.gasPrice = 0) (hblobs : tx.blobHashes = []) :
    maxFee tx = tx.value := by
  have hblobGas : tx.getTotalBlobGas = 0 := by
    rw [TxEnv.getTotalBlobGas, hblobs]
    rfl
  have hnat : maxFeeNat tx = tx.value.toNat := by
    unfold maxFeeNat
    rw [hprice, hblobGas]
    cases tx.maxFeePerBlobGas <;> simp
  apply BitVec.eq_of_toNat_eq
  rw [maxFee_toNat (by rw [hnat]; exact tx.value.isLt), hnat]

/-- The nonce after a debit is right if it has been the current one, unless it was the last. -/
lemma checkNonce_current {balance : U256} (hnonce : tx.nonce = some before.nonce) :
    checkNonce tx.caller txIdx tx ⟨balance, before.nonce + 1⟩ = .ok () ↔
      before.nonce ≠ BitVec.allOnes 64 := by
  have hwraps : before.nonce + 1 = 0 ↔ before.nonce = BitVec.allOnes 64 := by
    rw [← BitVec.toNat_inj, ← BitVec.toNat_inj, BitVec.toNat_add, BitVec.toNat_allOnes]
    have hlt := before.nonce.isLt
    show (before.nonce.toNat + 1) % 2 ^ 64 = 0 ↔ _
    omega
  unfold checkNonce
  rw [if_pos rfl, hnonce]
  dsimp only
  have hback : before.nonce + 1 - 1 = before.nonce := by simp
  rw [hback]
  split_ifs with hzero hne
  · exact iff_of_false (by simp) fun h => h (hwraps.mp hzero)
  · exact absurd rfl hne
  · exact iff_of_true rfl fun h => hzero (hwraps.mpr h)

end LazyEvaluation

namespace Standing
variable {κ Bytecode Code : Type} [DecidableEq κ] {block : EvmBlock κ}
  {s : Recordings κ Code Bytecode} {txIdx : ℕ} {tx : OptimismTxEnv}
  (standing : Standing block s txIdx tx)

/-- A deposit that is executed lazily. It has no gas price and no blobs, and the nonce of its
caller. -/
structure LazyDeposit (recipient : Address) (nonce : U64) : Prop where
  isLazy : standing.db.isLazy = true
  deposit : tx.IsDeposit
  gasPrice : tx.gasPrice = 0
  blobHashes : tx.blobHashes = []
  nonce : tx.nonce = some nonce
  called : tx.toAddress = some recipient
  ne : tx.caller ≠ recipient

/-- What Optimism's handler does with a deposit: it adds the mint to the balance that the caller
is loaded with, then moves the value if that is covered, and charges no gas. -/
structure MintsFirst (mint : Option U128) (recipient : Address) (succeeds : Prop) : Prop where
  loaded : ∃ info, (Read.basic tx.caller, Answer.basic (some info)) ∈ standing.trace ∧
    (succeeds ↔ tx.value ≤ info.balance + minted mint) ∧
    (succeeds → ∃ account, (tx.caller, account) ∈ standing.result.state ∧
      account.isTouched = true ∧ account.isSelfdestructed = false ∧
        account.info.balance = info.balance + minted mint - tx.value)
  credited : succeeds → ∃ account, (recipient, account) ∈ standing.result.state ∧
    account.isTouched = true ∧ account.isSelfdestructed = false

variable {standing} {L : Set MemoryLocation} {recipient : Address} {mint : Option U128}
  {succeeds : Prop} {nonce : U64}

/-- The caller of a lazy execution is loaded with the largest word. -/
lemma loaded_of_lazy (hlazy : standing.db.isLazy = true) (hwithin : standing.Within L)
    (hinj : Set.InjOn block.hashes.location L) (hhash : s.env.hash = block.hashes.location)
    {info : AccountInfo Bytecode}
    (h : (Read.basic tx.caller, Answer.basic (some info)) ∈ standing.trace) :
    info.balance = BitVec.allOnes 256 := by
  have hsame := Recordings.Steps.sameBlock standing.later
  have hhash' : block.hashes.location = standing.finished.env.hash := hhash.symm.trans hsame.hash
  rw [hhash'] at hinj
  obtain ⟨-, -, htx, -, -⟩ :=
    standing.incarnation.traced hwithin.touched hinj fun _ _ _ hx => hx
  obtain ⟨hashed, hcached⟩ := standing.incarnation.cached hwithin.touched hinj
  have hcaller : MemoryLocation.basic standing.db.tx.caller ∈ L := by
    rw [htx]
    exact hwithin.touched (.inl rfl)
  have hto : ∀ a, standing.db.tx.toAddress = some a → MemoryLocation.basic a ∈ L := by
    intro a ha
    rw [htx] at ha
    exact hwithin.touched (.inr (.inl ⟨a, ha, rfl⟩))
  have hmock : standing.db.mock standing.finished.env
      (standing.finished.env.hash (.basic standing.db.tx.caller)) =
        (some (some ⟨BitVec.allOnes 256, standing.db.tx.nonce.getD 1, keccakEmpty, none⟩) :
          Option (Option (AccountInfo Bytecode))) := by
    rw [(Vm.mock_of_lazy hinj hashed hcaller hcaller hto hlazy).2.2, if_pos rfl]
  rw [htx] at hmock
  have hanswer := hcached.mocked tx.caller _ h _ hmock
  injection hanswer with hanswer
  rw [Option.some.inj hanswer]

/-- A deposit pays nobody a reward, so what it writes itself stands in the memory. -/
lemma LazyDeposit.written (h : standing.LazyDeposit recipient nonce)
    (hchain : block.chain = .optimism) (hinj : Set.InjOn block.hashes.location L) {a : Address}
    (hmem : .basic a ∈ L) :
    MvMemory.written standing.writeSet (block.hashes.location (.basic a)) =
      MvMemory.written ((Vm.writeSet block.hashes.location block.env standing.db
        standing.result.state).filter fun w => w.1 = block.hashes.location (.basic a))
          (block.hashes.location (.basic a)) := by
  have hrewarded : block.chain.rewarded block.recipients block.env tx = [] := by
    rw [hchain]
    exact if_pos h.deposit
  rw [MvMemory.written_filter]
  exact written_eq hinj hmem (by simp [hrewarded])

/-- The accounts that take part in a deposit have a lazy entry. -/
lemma LazyDeposit.entry (h : standing.LazyDeposit recipient nonce)
    (hchain : block.chain = .optimism) (hwithin : standing.Within L) (hloads : standing.Loads)
    (hinj : Set.InjOn block.hashes.location L) (hhash : s.env.hash = block.hashes.location)
    {e : Address × RevmAccount Bytecode} (he : e ∈ standing.result.state)
    (htouched : e.2.isTouched = true) (halive : e.2.isSelfdestructed = false)
    (htakes : e.1 = tx.caller ∨ e.1 = recipient) :
    s.env.mvMemory.entry (block.hashes.location (.basic e.1)) txIdx =
      some (.data standing.txIncarnation
        (if e.1 = tx.caller then .lazySender (BitVec.allOnes 256 - e.2.info.balance)
        else .lazyRecipient tx.value)) := by
  have hmem : MemoryLocation.basic e.1 ∈ L := hwithin.state e he _ (by simp [Vm.locations])
  apply standing.entries
  rw [h.written hchain hinj hmem,
    filter_writeSet_of_lazy h.isLazy hwithin hloads hinj hhash he htouched halive]
  split_ifs with hsender hto
  · simp [MvMemory.written_cons]
  · simp [MvMemory.written_cons]
  · have hrecipient : tx.toAddress = some e.1 := by
      rw [htakes.resolve_left hsender]
      exact h.called
    exact absurd hrecipient hto

/-- The other accounts have none, though an estimate that the block began with may be left. -/
lemma LazyDeposit.entry_of_ne (h : standing.LazyDeposit recipient nonce)
    (hchain : block.chain = .optimism) (hwithin : standing.Within L) (hloads : standing.Loads)
    (hinj : Set.InjOn block.hashes.location L) (hhash : s.env.hash = block.hashes.location)
    {a : Address} (hmem : .basic a ∈ L) (hcaller : a ≠ tx.caller) (hrecipient : a ≠ recipient)
    {e : MemoryEntry MemoryValue}
    (he : s.env.mvMemory.entry (block.hashes.location (.basic a)) txIdx = some e) :
    e = .estimate := by
  have hfilter : (Vm.writeSet block.hashes.location block.env standing.db
      standing.result.state).filter (fun w => w.1 = block.hashes.location (.basic a)) = [] := by
    rw [Vm.filter_writeSet hinj hwithin.state hmem, List.flatMap_eq_nil_iff]
    intro e' he'
    obtain ⟨he', haddress⟩ := List.mem_filter.mp he'
    have haddress : e'.1 = a := by simpa using haddress
    have hother : tx.toAddress ≠ some e'.1 := by
      rw [h.called, haddress]
      intro heq
      exact hrecipient (Option.some.inj heq).symm
    have hsender : e'.1 ≠ tx.caller := by
      rw [haddress]
      exact hcaller
    rw [writeBasic_of_lazy h.isLazy hwithin hloads hinj hhash he', if_neg hsender, if_neg hother,
      ite_self]
  have hnone : MvMemory.written standing.writeSet (block.hashes.location (.basic a)) = none := by
    rw [h.written hchain hinj hmem, hfilter]
    rfl
  exact (standing.others _ e hnone he).1

/-- The entries of a deposit that succeeds. -/
lemma LazyDeposit.entries (h : standing.LazyDeposit recipient nonce)
    (hmints : standing.MintsFirst mint recipient succeeds) (hchain : block.chain = .optimism)
    (hwithin : standing.Within L) (hloads : standing.Loads)
    (hinj : Set.InjOn block.hashes.location L) (hhash : s.env.hash = block.hashes.location)
    (hsucceeds : succeeds) :
    tx.value ≤ BitVec.allOnes 256 + minted mint ∧
      s.env.mvMemory.entry (block.hashes.location (.basic tx.caller)) txIdx =
        some (.data standing.txIncarnation (.lazySender (seemingLoss mint tx.value))) ∧
      s.env.mvMemory.entry (block.hashes.location (.basic recipient)) txIdx =
        some (.data standing.txIncarnation (.lazyRecipient tx.value)) := by
  obtain ⟨info, hinfo, hcovered, hsender⟩ := hmints.loaded
  have hbalance := loaded_of_lazy h.isLazy hwithin hinj hhash hinfo
  rw [hbalance] at hcovered hsender
  obtain ⟨sender, hsenderState, hsenderTouched, hsenderAlive, hleft⟩ := hsender hsucceeds
  obtain ⟨receiver, hreceiverState, hreceiverTouched, hreceiverAlive⟩ := hmints.credited hsucceeds
  have hcaller := h.entry hchain hwithin hloads hinj hhash hsenderState hsenderTouched
    hsenderAlive (.inl rfl)
  have hrecipient := h.entry hchain hwithin hloads hinj hhash hreceiverState hreceiverTouched
    hreceiverAlive (.inr rfl)
  rw [if_pos rfl, hleft] at hcaller
  rw [if_neg h.ne.symm] at hrecipient
  exact ⟨hcovered.mp hsucceeds, hcaller, hrecipient⟩

end Standing

namespace CompletedRun

section Evaluated
variable {κ Bytecode Code : Type} [DecidableEq κ] (run : CompletedRun κ Code Bytecode)
  (toCode : Bytecode → Code) (lazyAddresses : List Address)

/-- The state changes with the entries of the first transactions evaluated. Bounded by the number
of transactions, this is the evaluation at the end of the block. -/
def evaluatedBelow (bound : ℕ) : Except PexeError (ℕ → LazyEvaluation.TxState Code) :=
  LazyEvaluation.evaluate run.hashes.location run.recordings.env.storage
    run.recordings.env.mvMemory run.env.isEip161Enabled run.txAt bound lazyAddresses
    (run.executionResults toCode)

lemma evaluatedBelow_length : run.evaluatedBelow toCode lazyAddresses run.txs.length =
    run.fullyEvaluatedResults toCode lazyAddresses := rfl

/-- The account that the evaluation has for an address before a transaction. -/
def accountBefore (address : Address) (j : ℕ) : Except PexeError AccountBasic :=
  LazyEvaluation.columnBelow run.hashes.location run.recordings.env.storage
    run.recordings.env.mvMemory run.txAt address j

/-- In the state changes of the deposit the caller has its mint and has paid the value, and the
recipient has received it. -/
structure Credits (j : ℕ) (tx : OptimismTxEnv) (mint : Option U128) (recipient : Address)
    (before received : AccountBasic) (results : ℕ → LazyEvaluation.TxState Code) : Prop where
  caller : ∃ account, LazyEvaluation.basicOf (results j tx.caller) = some account ∧
    account.balance.toNat + tx.value.toNat = before.balance.toNat + (mint.getD 0).toNat
  recipient : ∃ account, LazyEvaluation.basicOf (results j recipient) = some account ∧
    account.balance.toNat = received.balance.toNat + tx.value.toNat

/-- The transfer succeeds, the evaluation gets past the deposit and credits it there, and it is
still credited in what is returned, if no later transaction makes the evaluation fail. -/
structure CreditsMint (j : ℕ) (tx : OptimismTxEnv) (mint : Option U128) (recipient : Address)
    (succeeds : Prop) (before received : AccountBasic) : Prop where
  succeeds : succeeds
  accepted : ∃ results, run.evaluatedBelow toCode lazyAddresses (j + 1) = .ok results ∧
    Credits j tx mint recipient before received results
  returned : ∀ results, run.fullyEvaluatedResults toCode lazyAddresses = .ok results →
    Credits j tx mint recipient before received results

variable {run toCode lazyAddresses} {L : Set MemoryLocation} {j : ℕ} {hj : j < run.txs.length}
  {recipient : Address} {mint : Option U128} {succeeds : Prop} {before received : AccountBasic}

/-- An account is returned with what the evaluation has for it after its entry. -/
lemma accountBefore_of_evaluated {bound : ℕ} {results : ℕ → LazyEvaluation.TxState Code}
    (hsteady : LazyEvaluation.StorageSteady run.recordings.env.storage)
    {a : Address} (ha : a ∈ lazyAddresses) {e : MemoryEntry MemoryValue}
    (he : run.recordings.env.mvMemory.entry (run.hashes.location (.basic a)) j = some e)
    (hbound : j < bound) (h : run.evaluatedBelow toCode lazyAddresses bound = .ok results) :
    ∃ account, run.accountBefore a (j + 1) = .ok account ∧
      LazyEvaluation.basicOf (results j a) = some account :=
  LazyEvaluation.evaluate_at hsteady hbound he h (.inl ha)

lemma accountBefore_succ {a : Address} {e : MemoryEntry MemoryValue} {account : AccountBasic}
    (he : run.recordings.env.mvMemory.entry (run.hashes.location (.basic a)) j = some e)
    (hlazy : ∀ inc info, e ≠ .data inc (.basic info))
    (hbefore : run.accountBefore a j = .ok account) :
    run.accountBefore a (j + 1) = LazyEvaluation.evaluateEntry a run.txAt account (j, e) := by
  unfold accountBefore at hbefore ⊢
  rw [LazyEvaluation.columnBelow_succ he hlazy, hbefore]
  rfl

variable (hj) in
/-- A lazily executed deposit credits its mint only if there is none to credit, and if none of the
accounts that are evaluated has an estimate left of the deposit: the block begins with estimates
of it at the fee recipients, and it overwrites those of its caller and its recipient. -/
theorem creditsMint_iff (hdeposit : (run.standing j hj).LazyDeposit recipient before.nonce)
    (hmints : (run.standing j hj).MintsFirst mint recipient succeeds)
    (hchain : run.chain = .optimism) (hwithin : (run.standing j hj).Within L)
    (hloads : (run.standing j hj).Loads) (hinj : Set.InjOn run.hashes.location L)
    (hknown : ∀ a ∈ lazyAddresses, .basic a ∈ L)
    (hcaller : run.txs[j].caller ∈ lazyAddresses) (hrecipient : recipient ∈ lazyAddresses)
    (hsteady : LazyEvaluation.StorageSteady run.recordings.env.storage)
    (haccepted : ∀ a ∈ lazyAddresses, ∃ account, run.accountBefore a j = .ok account)
    (hbefore : run.accountBefore run.txs[j].caller j = .ok before)
    (hreceived : run.accountBefore recipient j = .ok received)
    (hcovers : run.txs[j].value.toNat ≤ before.balance.toNat + (mint.getD 0).toNat) :
    run.CreditsMint toCode lazyAddresses j run.txs[j] mint recipient succeeds before received ↔
      mint.getD 0 = 0 ∧ before.nonce ≠ BitVec.allOnes 64 ∧
        received.balance.toNat + run.txs[j].value.toNat < 2 ^ 256 ∧
        ∀ a ∈ lazyAddresses,
          run.recordings.env.mvMemory.entry (run.hashes.location (.basic a)) j ≠
            some .estimate := by
  have hfee : LazyEvaluation.maxFee (run.txAt j) = run.txs[j].value := by
    rw [txAt_eq hj]
    exact LazyEvaluation.maxFee_of_free hdeposit.gasPrice hdeposit.blobHashes
  have hentries : succeeds → _ :=
    hdeposit.entries hmints hchain hwithin hloads hinj run.hash
  constructor
  · intro hcredits
    obtain ⟨hvalue, hsender, hreceiver⟩ := hentries hcredits.succeeds
    obtain ⟨results, hresults, hcredited⟩ := hcredits.accepted
    have hcolumns := (LazyEvaluation.evaluate_ok_iff hsteady).mp ⟨results, hresults⟩
    obtain ⟨account, hstored, hbalance⟩ := hcredited.caller
    obtain ⟨account₁, hafter, hstored₁⟩ :=
      accountBefore_of_evaluated hsteady hcaller hsender (Nat.lt_succ_self j) hresults
    obtain rfl := Option.some.inj (hstored.symm.trans hstored₁)
    rw [accountBefore_succ hsender (by simp) hbefore] at hafter
    obtain ⟨hfunds, hnonce, rfl⟩ := (LazyEvaluation.evaluateEntry_lazySender _).mp hafter
    rw [hfee, BitVec.le_def] at hfunds
    rw [txAt_eq hj, LazyEvaluation.checkNonce_current hdeposit.nonce] at hnonce
    refine ⟨?_, hnonce, ?_, ?_⟩
    · by_contra hmint
      have hpos : (mint.getD 0).toNat ≠ 0 := fun h => hmint (BitVec.eq_of_toNat_eq h)
      simp only [saturatingSub_toNat, seemingLoss_toNat hvalue, if_neg hmint] at hbalance
      omega
    · obtain ⟨account', hstored', hgain⟩ := hcredited.recipient
      obtain ⟨account₂, hafter', hstored₂⟩ :=
        accountBefore_of_evaluated hsteady hrecipient hreceiver (Nat.lt_succ_self j) hresults
      obtain rfl := Option.some.inj (hstored'.symm.trans hstored₂)
      rw [accountBefore_succ hreceiver (by simp) hreceived] at hafter'
      obtain ⟨-, rfl⟩ := (LazyEvaluation.evaluateEntry_lazyRecipient _).mp hafter'
      simp only [saturatingAdd_toNat] at hgain
      omega
    · -- an estimate is no value that could be evaluated
      intro a ha hestimate
      obtain ⟨account₀, hbefore₀⟩ := haccepted a ha
      obtain ⟨account', hcolumn⟩ := hcolumns a ha
      have hstep := accountBefore_succ hestimate (by simp) hbefore₀
      rw [show run.accountBefore a (j + 1) = .ok account' from hcolumn] at hstep
      cases hstep
  · intro ⟨hmint, hnonce, hroom, hleft⟩
    have hvalue : run.txs[j].value ≤ BitVec.allOnes 256 + minted mint := by
      have hlt := run.txs[j].value.isLt
      rw [BitVec.le_def, allOnes_add_minted, if_pos hmint]
      omega
    have hsucceeds : succeeds := by
      obtain ⟨info, hinfo, hcovered, -⟩ := hmints.loaded
      rw [Standing.loaded_of_lazy hdeposit.isLazy hwithin hinj run.hash hinfo] at hcovered
      exact hcovered.mpr hvalue
    obtain ⟨-, hsender, hreceiver⟩ := hentries hsucceeds
    have hnone : (mint.getD 0).toNat = 0 := by
      rw [hmint]
      rfl
    have hloss : (seemingLoss mint run.txs[j].value).toNat = run.txs[j].value.toNat := by
      rw [seemingLoss_toNat hvalue, if_pos hmint]
    -- the accounts of caller and recipient after the deposit
    have hpaid : run.accountBefore run.txs[j].caller (j + 1) =
        .ok ⟨saturatingSub before.balance (seemingLoss mint run.txs[j].value),
          before.nonce + 1⟩ := by
      rw [accountBefore_succ hsender (by simp) hbefore]
      refine (LazyEvaluation.evaluateEntry_lazySender _).mpr ⟨?_, ?_, rfl⟩
      · rw [hfee, BitVec.le_def]
        omega
      · rw [txAt_eq hj]
        exact (LazyEvaluation.checkNonce_current hdeposit.nonce).mpr hnonce
    have hgained : run.accountBefore recipient (j + 1) =
        .ok { received with balance := saturatingAdd received.balance run.txs[j].value } := by
      rw [accountBefore_succ hreceiver (by simp) hreceived]
      refine (LazyEvaluation.evaluateEntry_lazyRecipient _).mpr ⟨?_, rfl⟩
      refine LazyEvaluation.checkNonce_of_ne ?_
      rw [txAt_eq hj]
      exact hdeposit.ne
    have hcredits : ∀ bound results, j < bound →
        run.evaluatedBelow toCode lazyAddresses bound = .ok results →
        Credits j run.txs[j] mint recipient before received results := by
      intro bound results hbound hresults
      constructor
      · obtain ⟨account, hafter, hstored⟩ :=
          accountBefore_of_evaluated hsteady hcaller hsender hbound hresults
        rw [hpaid] at hafter
        obtain rfl := Except.ok.inj hafter
        refine ⟨_, hstored, ?_⟩
        rw [saturatingSub_toNat, hloss]
        omega
      · obtain ⟨account, hafter, hstored⟩ :=
          accountBefore_of_evaluated hsteady hrecipient hreceiver hbound hresults
        rw [hgained] at hafter
        obtain rfl := Except.ok.inj hafter
        refine ⟨_, hstored, ?_⟩
        rw [saturatingAdd_toNat]
        omega
    have haccepts : ∃ results, run.evaluatedBelow toCode lazyAddresses (j + 1) = .ok results := by
      refine (LazyEvaluation.evaluate_ok_iff hsteady).mpr fun a ha => ?_
      by_cases hsame : a = run.txs[j].caller
      · rw [hsame]
        exact ⟨_, hpaid⟩
      by_cases hsame' : a = recipient
      · rw [hsame']
        exact ⟨_, hgained⟩
      · obtain ⟨account, hbefore₀⟩ := haccepted a ha
        refine ⟨account, Eq.trans (LazyEvaluation.columnBelow_succ_of_none ?_) hbefore₀⟩
        by_contra hsome
        obtain ⟨e, he⟩ := Option.ne_none_iff_exists'.mp hsome
        have hestimate := hdeposit.entry_of_ne hchain hwithin hloads hinj run.hash
          (hknown a ha) hsame hsame' he
        rw [hestimate] at he
        exact hleft a ha he
    obtain ⟨results, hresults⟩ := haccepts
    refine ⟨hsucceeds, ⟨results, hresults, hcredits _ _ (Nat.lt_succ_self j) hresults⟩, ?_⟩
    intro results hresults
    rw [← evaluatedBelow_length] at hresults
    exact hcredits _ _ hj hresults

end Evaluated

section Sample

/-- Addresses hash like their basic locations. -/
def bridgeHashes : Hashes MemoryLocation := ⟨id, .basic⟩

/-- Account 8, the recipient of the layer-1 fees, is minted to and sends 5. -/
def bridge (recipient : Address) : OptimismTxEnv where
  caller := 8
  gasLimit := 21000
  gasPrice := 0
  transactTo := .call recipient
  value := 5
  nonce := some 0
  gasPriorityFee := none
  blobHashes := []
  maxFeePerBlobGas := none
  optimism := ⟨some 0, some []⟩

/-- Account 9 is the recipient of the base fees. -/
def bridgeBlock (recipient : Address) : EvmBlock MemoryLocation :=
  ⟨.optimism, bridgeHashes, ⟨8, 9⟩, ⟨true, true, 7, 7⟩, [bridge recipient]⟩

def bridgeStart (balance : U256) (recipient : Address) : Recordings MemoryLocation Unit Unit where
  env :=
    { hash := id
      storage :=
        { basic := fun address => .ok (if address = 8 then some ⟨balance, 0⟩ else none)
          codeHash := fun _ => .ok none
          codeByHash := fun _ => .ok none
          storage := fun _ _ => .ok 0 }
      mvMemory := PexeChain.buildMvMemory bridgeHashes ⟨8, 9⟩ (bridgeBlock recipient).env .optimism
        [bridge recipient]
      newBytecodes := fun _ => none
      toBytecode := some }
  log _ := none

/-- The deposit is lazy, since its caller has an estimate in the memory. -/
def bridgeDb (recipient : Address) : VmDb MemoryLocation where
  txIdx := 0
  tx := (bridge recipient).toTxEnv
  fromHash := .basic 8
  toHash := some (.basic recipient)
  toCodeHash := none
  isLazy := true
  readSet := (∅ : ReadSet MemoryLocation).insert (.codeHash recipient) [.storage]
  readAccounts := ∅

def bridgeTrace (recipient : Address) : List (Read × Answer Unit) :=
  [(.codeHash recipient, .codeHash none),
    (.basic 8, .basic (some ⟨BitVec.allOnes 256, 0, keccakEmpty, none⟩)),
    (.basic recipient, .basic none)]

variable {balance : U256} {recipient : Address} {mint : Option U128}

lemma bridge_incarnation (h : recipient = 7 ∨ recipient = 9) :
    VmDb.Incarnation 0 (bridge recipient).toTxEnv (bridgeStart balance recipient)
      (bridgeDb recipient) (bridgeTrace recipient) := by
  have hnew : VmDb.new (bridgeStart balance recipient).env 0 (bridge recipient).toTxEnv =
      .ok (bridgeDb recipient) := by
    rcases h with rfl | rfl <;> rfl
  have hsenderRead : (bridgeDb recipient).read (bridgeStart balance recipient).env
      (bridgeStart balance recipient).env (.basic 8) =
        .ok (.basic (some ⟨BitVec.allOnes 256, 0, keccakEmpty, none⟩), bridgeDb recipient) := by
    rcases h with rfl | rfl <;> rfl
  have hrecipientRead : (bridgeDb recipient).read (bridgeStart balance recipient).env
      (bridgeStart balance recipient).env (.basic recipient) =
        .ok (.basic none, bridgeDb recipient) := by
    rcases h with rfl | rfl <;> rfl
  have hopened := VmDb.Incarnation.opened (.init ⟨⟨_, rfl⟩, rfl⟩) hnew
  have hsender := hopened.read .refl .refl hsenderRead
  exact hsender.read .refl .refl hrecipientRead

/-- What revm returns for the deposit with a mint. -/
def bridgeResult (recipient : Address) (mint : Option U128) : ResultAndState Unit :=
  ⟨21000,
    [(8, ⟨⟨BitVec.allOnes 256 + minted mint - 5, 1, keccakEmpty, none⟩, [], true, false, false⟩),
    (recipient, ⟨⟨5, 0, keccakEmpty, none⟩, [], true, false, false⟩)]⟩

def bridgeWrites (recipient : Address) (mint : Option U128) :
    WriteSet MemoryLocation MemoryValue :=
  [(.basic 8, .lazySender (seemingLoss mint 5)), (.basic recipient, .lazyRecipient 5)]

def bridgeEnd (balance : U256) (recipient : Address) (mint : Option U128) :
    Recordings MemoryLocation Unit Unit :=
  { (bridgeStart balance recipient).withMemory
      ((bridgeStart balance recipient).env.mvMemory.record ⟨0, 0⟩ (bridgeDb recipient).readSet
        (bridgeWrites recipient mint)).2 with
    log := Function.update (bridgeStart balance recipient).log ⟨0, 0⟩
      (some (bridgeWrites recipient mint)) }

lemma bridgeEnd_entry (l : MemoryLocation) (j : ℕ) :
    (bridgeEnd balance recipient mint).env.mvMemory.entry l j =
      if j = 0 then
        match MvMemory.written (bridgeWrites recipient mint) l with
        | some value => some (.data 0 value)
        | none => (bridgeStart balance recipient).env.mvMemory.entry l j
      else (bridgeStart balance recipient).env.mvMemory.entry l j := by
  show ((bridgeStart balance recipient).env.mvMemory.record ⟨0, 0⟩ (bridgeDb recipient).readSet
    (bridgeWrites recipient mint)).2.entry l j = _
  have hfresh : ((bridgeStart balance recipient).env.mvMemory.lastLocations 0).write = [] := rfl
  rw [MvMemory.record_entry]
  cases MvMemory.written (bridgeWrites recipient mint) l with
  | none => simp [hfresh]
  | some value => rfl

/-- The block begins with estimates of the deposit at both fee recipients. -/
lemma bridgeStart_entry {l : MemoryLocation} {j : ℕ} {e : MemoryEntry MemoryValue}
    (he : (bridgeStart balance recipient).env.mvMemory.entry l j = some e) :
    j = 0 ∧ e = .estimate ∧ l ∈ [.basic 8, .basic 9] := by
  have hestimate : e = .estimate := MvMemory.new_entry he
  rw [hestimate] at he
  obtain ⟨tx, htx, hl⟩ := (PexeChain.buildMvMemory_entry .optimism _).mp he
  obtain ⟨hlt, htx⟩ := List.getElem?_eq_some_iff.mp htx
  have hzero : j = 0 := by simpa using hlt
  subst hzero
  rw [← htx] at hl
  exact ⟨rfl, hestimate, hl⟩

def bridgeStanding (balance : U256) (recipient : Address) (mint : Option U128)
    (h : recipient = 7 ∨ recipient = 9) :
    Standing (bridgeBlock recipient) (bridgeEnd balance recipient mint) 0 (bridge recipient) where
  txIncarnation := 0
  finished := bridgeStart balance recipient
  db := bridgeDb recipient
  trace := bridgeTrace recipient
  calculateTxL1Cost := none
  result := bridgeResult recipient mint
  writeSet := bridgeWrites recipient mint
  flags := .empty
  incarnation := bridge_incarnation h
  later := .single (.record _ _ rfl)
  executes := by rcases h with rfl | rfl <;> rfl
  recorded := rfl
  valid := by rcases h with rfl | rfl <;> rfl
  entries := by
    intro l value hwritten
    rw [bridgeEnd_entry, if_pos rfl, hwritten]
  others := by
    intro l e hnone he
    rw [bridgeEnd_entry, if_pos rfl, hnone] at he
    exact (bridgeStart_entry he).2

def bridgeRun (balance : U256) (recipient : Address) (mint : Option U128)
    (h : recipient = 7 ∨ recipient = 9) :
    CompletedRun MemoryLocation Unit Unit :=
  { bridgeBlock recipient with
    recordings := bridgeEnd balance recipient mint
    hash := rfl
    standing := fun
      | 0, _ => bridgeStanding balance recipient mint h
      | _ + 1, h => absurd h (by simp [bridgeBlock])
    above := by
      intro j l hj
      replace hj : 1 ≤ j := hj
      by_contra hentry
      obtain ⟨e, he⟩ := Option.ne_none_iff_exists'.mp hentry
      rw [bridgeEnd_entry, if_neg (by omega)] at he
      have hzero := (bridgeStart_entry he).1
      omega }

lemma bridge_within (h : recipient = 7 ∨ recipient = 9) :
    (bridgeStanding balance recipient mint h).Within Set.univ :=
  ⟨fun _ _ => trivial, fun _ _ _ _ => trivial⟩

lemma bridge_loads (h : recipient = 7 ∨ recipient = 9) :
    (bridgeStanding balance recipient mint h).Loads where
  state := by
    have hread : ∀ e ∈ (bridgeResult recipient mint).state, ∃ answer,
        (Read.basic e.1, answer) ∈ bridgeTrace recipient := by
      simp [bridgeResult, bridgeTrace]
    exact hread
  storage := by
    have hread : ∀ address index answer,
        (Read.storage address index, answer) ∉ bridgeTrace recipient := by
      simp [bridgeTrace]
    intro address index answer hmem
    exact absurd hmem (hread address index answer)
  nodup := by
    show ([8, recipient] : List Address).Nodup
    rcases h with rfl | rfl <;> decide

lemma bridge_lazyDeposit (h : recipient = 7 ∨ recipient = 9) :
    (bridgeStanding balance recipient mint h).LazyDeposit recipient 0 where
  isLazy := rfl
  deposit := rfl
  gasPrice := rfl
  blobHashes := rfl
  nonce := rfl
  called := rfl
  ne := by
    show (8 : Address) ≠ recipient
    rcases h with rfl | rfl <;> decide

/-- The value is covered with and without a mint, if the mint is above it. -/
lemma bridge_mintsFirst (h : recipient = 7 ∨ recipient = 9)
    (hmint : 5 ≤ BitVec.allOnes 256 + minted mint) :
    (bridgeStanding balance recipient mint h).MintsFirst mint recipient True where
  loaded := ⟨_, List.mem_cons_of_mem _ List.mem_cons_self, iff_of_true trivial hmint,
    fun _ => ⟨_, List.mem_cons_self, rfl, rfl, rfl⟩⟩
  credited _ := ⟨_, List.mem_cons_of_mem _ List.mem_cons_self, rfl, rfl⟩

lemma bridge_steady (h : recipient = 7 ∨ recipient = 9) :
    LazyEvaluation.StorageSteady (bridgeRun balance recipient mint h).recordings.env.storage :=
  ⟨fun _ => ⟨none, rfl⟩, fun _ => ⟨none, rfl⟩⟩

/-- Without a mint a deposit between the two fee recipients is a transfer like others. -/
theorem creditsMint_unminted :
    (bridgeRun 100 9 none (.inr rfl)).CreditsMint (fun _ => ()) [7, 8, 9] 0 (bridge 9) none 9 True
      ⟨100, 0⟩ .default := by
  have hj : 0 < (bridgeRun 100 9 none (.inr rfl)).txs.length := Nat.one_pos
  have hdeposit : ((bridgeRun 100 9 none (.inr rfl)).standing 0 hj).LazyDeposit 9
      (⟨100, 0⟩ : AccountBasic).nonce := bridge_lazyDeposit (.inr rfl)
  have hmints : ((bridgeRun 100 9 none (.inr rfl)).standing 0 hj).MintsFirst none 9 True :=
    bridge_mintsFirst (.inr rfl) (by decide)
  have hcaller : (bridge 9).caller ∈ ([7, 8, 9] : List Address) := by decide
  have hbefore : (bridgeRun 100 9 none (.inr rfl)).accountBefore 8 0 = .ok ⟨100, 0⟩ := rfl
  have hreceived : (bridgeRun 100 9 none (.inr rfl)).accountBefore 9 0 = .ok .default := rfl
  have hcovers :
      (bridge 9).value.toNat ≤ (100 : U256).toNat + ((none : Option U128).getD 0).toNat := by
    decide
  refine (creditsMint_iff hj hdeposit hmints rfl (bridge_within (.inr rfl))
    (bridge_loads (.inr rfl)) Function.injective_id.injOn (fun _ _ => trivial) hcaller
    (by decide) (bridge_steady (.inr rfl))
    (fun _ _ => ⟨_, rfl⟩) hbefore hreceived hcovers).mpr ⟨rfl, by decide, ?_, ?_⟩
  · show (0 : U256).toNat + (bridge 9).value.toNat < 2 ^ 256
    decide
  · intro a _ hestimate
    replace hestimate : (bridgeEnd 100 9 none).env.mvMemory.entry (.basic a) 0 = some .estimate :=
      hestimate
    rw [bridgeEnd_entry, if_pos rfl] at hestimate
    cases hwritten : MvMemory.written (bridgeWrites 9 none) (.basic a) with
    | some value =>
      rw [hwritten] at hestimate
      cases hestimate
    | none =>
      rw [hwritten] at hestimate
      rcases List.mem_pair.mp (bridgeStart_entry hestimate).2.2 with heq | heq
      · rw [heq] at hwritten
        cases hwritten
      · rw [heq] at hwritten
        cases hwritten

/-- With a mint of 10 a caller that had 5 should have 10 left, and has nothing. And a deposit to
account 7, the beneficiary, leaves the estimate at account 9, which cannot be evaluated. -/
theorem not_creditsMint :
    ((bridgeStanding 5 9 (some 10) (.inr rfl)).LazyDeposit 9 0 ∧
      (bridgeStanding 5 9 (some 10) (.inr rfl)).MintsFirst (some 10) 9 True ∧
      ¬ (bridgeRun 5 9 (some 10) (.inr rfl)).CreditsMint (fun _ => ()) [7, 8, 9] 0 (bridge 9)
        (some 10) 9 True ⟨5, 0⟩ .default) ∧
    ((bridgeStanding 100 7 none (.inl rfl)).LazyDeposit 7 0 ∧
      (bridgeStanding 100 7 none (.inl rfl)).MintsFirst none 7 True ∧
      (bridgeRun 100 7 none (.inl rfl)).fullyEvaluatedResults (fun _ => ()) [7, 8, 9] =
        .error .unreachable) := by
  refine ⟨⟨bridge_lazyDeposit _, bridge_mintsFirst _ (by decide), fun hcredits => ?_⟩,
    bridge_lazyDeposit _, bridge_mintsFirst _ (by decide), ?_⟩
  · obtain ⟨results, hresults, hcredited⟩ := hcredits.accepted
    have hwritten :
        (bridgeRun 5 9 (some 10) (.inr rfl)).recordings.env.mvMemory.entry (.basic 8) 0 =
        some (.data 0 (.lazySender (seemingLoss (some 10) 5))) := by
      show (bridgeEnd 5 9 (some 10)).env.mvMemory.entry (.basic 8) 0 = _
      rw [bridgeEnd_entry]
      rfl
    have hlost : (bridgeRun 5 9 (some 10) (.inr rfl)).accountBefore 8 1 = .ok ⟨0, 1⟩ := by
      rw [accountBefore_succ hwritten (by simp) rfl]
      decide
    obtain ⟨account, hafter, hstored⟩ :=
      accountBefore_of_evaluated (bridge_steady _) (by decide) hwritten (Nat.lt_succ_self 0) hresults
    obtain rfl := Except.ok.inj (hlost.symm.trans hafter)
    obtain ⟨account', hstored', hbalance⟩ := hcredited.caller
    obtain rfl := Option.some.inj (hstored.symm.trans hstored')
    revert hbalance
    decide
  · rfl

end Sample

end CompletedRun

end Pevm
