import Pevm.Vm.Completed
import Pevm.Vm.WriteSet

/-!
# Blocks of transfers

In a block of lazily executed transfers the evaluation at the end gives the accounts of a ledger
that runs the transfers one by one, and gives up when the ledger does.
-/
namespace Pevm
open Saturating

namespace LazyEvaluation

/-- What the sender must have at hand, as a number that does not saturate. -/
def maxFeeNat (tx : TxEnv) : ℕ :=
  tx.gasLimit.toNat * tx.gasPrice.toNat + tx.value.toNat +
    match tx.maxFeePerBlobGas with
    | some blobFee => tx.getTotalBlobGas.toNat * blobFee.toNat
    | none => 0

lemma maxFee_toNat {tx : TxEnv} (h : maxFeeNat tx < 2 ^ 256) :
    (maxFee tx).toNat = maxFeeNat tx := by
  have hgas : (tx.gasLimit.setWidth 256).toNat = tx.gasLimit.toNat := by
    rw [BitVec.toNat_setWidth, Nat.mod_eq_of_lt]
    omega
  have hblob : (tx.getTotalBlobGas.setWidth 256).toNat = tx.getTotalBlobGas.toNat := by
    rw [BitVec.toNat_setWidth, Nat.mod_eq_of_lt]
    omega
  unfold maxFee maxFeeNat at *
  cases htx : tx.maxFeePerBlobGas with
  | none =>
    rw [htx] at h
    simp only [saturatingAdd_toNat, saturatingMul_toNat, hgas] at h ⊢
    omega
  | some blobFee =>
    rw [htx] at h
    simp only [saturatingAdd_toNat, saturatingMul_toNat, hgas, hblob] at h ⊢
    omega

end LazyEvaluation

namespace Standing
variable {κ Bytecode Code : Type} [DecidableEq κ] {block : EvmBlock κ}
  {s : Recordings κ Code Bytecode} {txIdx : ℕ} {tx : OptimismTxEnv}
  (standing : Standing block s txIdx tx)

/-- What revm returns for a transfer whose sender has more than enough: it takes the value and the
charge from the sender, and touches the recipient. The charge is covered by the maximum fee, and
the reward of the beneficiary is a part of it. -/
structure RawTransfer (recipient : Address) (charge : ℕ) : Prop where
  isLazy : standing.db.isLazy = true
  called : tx.toAddress = some recipient
  sender : ∃ account, (tx.caller, account) ∈ standing.result.state ∧ account.isTouched = true ∧
    account.isSelfdestructed = false ∧
    account.info.balance.toNat + charge + (if tx.caller = recipient then 0 else tx.value.toNat) =
      2 ^ 256 - 1
  credited : recipient ≠ tx.caller → ∃ account, (recipient, account) ∈ standing.result.state ∧
    account.isTouched = true ∧ account.isSelfdestructed = false
  covered : tx.value.toNat + charge ≤ LazyEvaluation.maxFeeNat tx.toTxEnv
  funded : LazyEvaluation.maxFeeNat tx.toTxEnv < 2 ^ 256
  earned : (Vm.rewardGasPrice block.env tx.toTxEnv).toNat * standing.result.gasUsed.toNat ≤ charge

/-- The transfer that the ledger runs for a transaction. -/
def transfer (recipient : Address) (charge : ℕ) : Transfer where
  caller := tx.caller
  recipient
  value := tx.value.toNat
  charge
  reward := (Vm.rewardGasPrice block.env tx.toTxEnv).toNat * standing.result.gasUsed.toNat
  maxFee := LazyEvaluation.maxFeeNat tx.toTxEnv
  nonce := tx.nonce

variable {standing} {L : Set MemoryLocation} {recipient : Address} {charge : ℕ}

lemma RawTransfer.sound (h : standing.RawTransfer recipient charge) :
    (standing.transfer recipient charge).Sound :=
  ⟨h.covered, h.earned⟩

lemma filter_of_mem {state : List (Address × RevmAccount Bytecode)}
    (hnodup : (state.map Prod.fst).Nodup) {e : Address × RevmAccount Bytecode} (he : e ∈ state) :
    state.filter (fun e' => e'.1 = e.1) = [e] := by
  induction state with
  | nil => simp at he
  | cons first state ih =>
    rw [List.map_cons, List.nodup_cons] at hnodup
    rcases List.mem_cons.mp he with rfl | he
    · rw [List.filter_cons_of_pos (by simp), List.filter_eq_nil_iff.mpr]
      intro e' he'
      rw [decide_eq_true_eq]
      intro heq
      exact hnodup.1 (List.mem_map.mpr ⟨e', he', heq⟩)
    · rw [List.filter_cons_of_neg, ih hnodup.2 he]
      rw [decide_eq_true_eq]
      intro heq
      exact hnodup.1 (List.mem_map.mpr ⟨e, he, heq.symm⟩)

/-- A lazily executed transaction writes what its sender loses and its recipient gains. -/
lemma writeBasic_of_lazy (hlazy : standing.db.isLazy = true) (hwithin : standing.Within L)
    (hloads : standing.Loads) (hinj : Set.InjOn block.hashes.location L)
    (hhash : s.env.hash = block.hashes.location) {e : Address × RevmAccount Bytecode}
    (he : e ∈ standing.result.state) :
    Vm.writeBasic block.hashes.location block.env standing.db e.1 e.2 =
      if e.1 = tx.caller then
        [(block.hashes.location (.basic e.1),
          .lazySender (BitVec.allOnes 256 - e.2.info.balance))]
      else if tx.toAddress = some e.1 then
        [(block.hashes.location (.basic e.1), .lazyRecipient tx.value)]
      else [] := by
  have hsame := Recordings.Steps.sameBlock standing.later
  have hhash' : block.hashes.location = standing.finished.env.hash := hhash.symm.trans hsame.hash
  rw [hhash'] at hinj ⊢
  obtain ⟨htraced, -, htx, -, -⟩ :=
    standing.incarnation.traced hwithin.touched hinj fun _ _ _ hx => hx
  obtain ⟨hashed, hcached⟩ := standing.incarnation.cached hwithin.touched hinj
  have hcaller : MemoryLocation.basic standing.db.tx.caller ∈ L := by
    rw [htx]
    exact hwithin.touched (.inl rfl)
  have hto : ∀ a, standing.db.tx.toAddress = some a → MemoryLocation.basic a ∈ L := by
    intro a ha
    rw [htx] at ha
    exact hwithin.touched (.inr (.inl ⟨a, ha, rfl⟩))
  have hmem : MemoryLocation.basic e.1 ∈ L :=
    hwithin.state e he _ (by simp [Vm.locations])
  rw [Vm.writeBasic_of_lazy hinj hashed hcached hmem hcaller hto htraced.stable
    (hloads.state e he) hlazy, htx]

/-- The one write to an account that a lazily executed transaction has touched. -/
lemma filter_writeSet_of_lazy (hlazy : standing.db.isLazy = true) (hwithin : standing.Within L)
    (hloads : standing.Loads) (hinj : Set.InjOn block.hashes.location L)
    (hhash : s.env.hash = block.hashes.location) {e : Address × RevmAccount Bytecode}
    (he : e ∈ standing.result.state) (htouched : e.2.isTouched = true)
    (halive : e.2.isSelfdestructed = false) :
    (Vm.writeSet block.hashes.location block.env standing.db standing.result.state).filter
        (fun w => w.1 = block.hashes.location (.basic e.1)) =
      if e.1 = tx.caller then
        [(block.hashes.location (.basic e.1),
          .lazySender (BitVec.allOnes 256 - e.2.info.balance))]
      else if tx.toAddress = some e.1 then
        [(block.hashes.location (.basic e.1), .lazyRecipient tx.value)]
      else [] := by
  have hmem : MemoryLocation.basic e.1 ∈ L :=
    hwithin.state e he _ (by simp [Vm.locations])
  rw [Vm.filter_writeSet hinj hwithin.state hmem, filter_of_mem hloads.nodup he,
    List.flatMap_singleton, if_pos ⟨htouched, halive⟩,
    writeBasic_of_lazy hlazy hwithin hloads hinj hhash he]

/-- The writes to an account before the reward. -/
theorem RawTransfer.writes (h : standing.RawTransfer recipient charge)
    (hwithin : standing.Within L) (hloads : standing.Loads)
    (hinj : Set.InjOn block.hashes.location L) (hhash : s.env.hash = block.hashes.location)
    {address : Address} (hmem : .basic address ∈ L) :
    (address = tx.caller → ∃ lost,
      (Vm.writeSet block.hashes.location block.env standing.db standing.result.state).filter
        (fun w => w.1 = block.hashes.location (.basic address)) =
          [(block.hashes.location (.basic address), .lazySender lost)] ∧
      lost.toNat = charge + if tx.caller = recipient then 0 else tx.value.toNat) ∧
    (address ≠ tx.caller →
      (Vm.writeSet block.hashes.location block.env standing.db standing.result.state).filter
        (fun w => w.1 = block.hashes.location (.basic address)) =
          if address = recipient then
            [(block.hashes.location (.basic address), .lazyRecipient tx.value)]
          else []) := by
  constructor
  · rintro rfl
    obtain ⟨account, hstate, htouched, halive, hbalance⟩ := h.sender
    refine ⟨BitVec.allOnes 256 - account.info.balance, ?_, ?_⟩
    · rw [filter_writeSet_of_lazy h.isLazy hwithin hloads hinj hhash hstate htouched halive,
        if_pos rfl]
    · have hle : account.info.balance ≤ BitVec.allOnes 256 := by
        rw [BitVec.le_def, BitVec.toNat_allOnes]
        omega
      rw [BitVec.toNat_sub_of_le hle, BitVec.toNat_allOnes]
      omega
  · intro hne
    split_ifs with hrecipient
    · subst hrecipient
      obtain ⟨account, hstate, htouched, halive⟩ := h.credited hne
      rw [filter_writeSet_of_lazy h.isLazy hwithin hloads hinj hhash hstate htouched halive,
        if_neg hne, if_pos h.called]
    · rw [Vm.filter_writeSet hinj hwithin.state hmem, List.flatMap_eq_nil_iff]
      intro e he
      obtain ⟨he, haddress⟩ := List.mem_filter.mp he
      have haddress : e.1 = address := by simpa using haddress
      have hother : tx.toAddress ≠ some e.1 := by
        rw [h.called, haddress]
        intro heq
        exact hrecipient (Option.some.inj heq).symm
      have hsender : e.1 ≠ tx.caller := by
        rw [haddress]
        exact hne
      rw [writeBasic_of_lazy h.isLazy hwithin hloads hinj hhash he, if_neg hsender,
        if_neg hother, ite_self]

variable (standing) in
/-- What the reward of the beneficiary makes of the writes. -/
lemma rewarded_writes (hchain : block.chain = .ethereum) :
    Vm.applyReward (block.hashes.location (.basic block.env.beneficiary))
      (saturatingMul (Vm.rewardGasPrice block.env tx.toTxEnv)
        (standing.result.gasUsed.setWidth 256))
      (Vm.writeSet block.hashes.location block.env standing.db standing.result.state) =
        .ok standing.writeSet := by
  obtain ⟨result, rewards, hresult, -, hrewards, hlist⟩ :=
    Vm.executeUnder_eq_ok block.hashes.location block.env standing.executes
  obtain rfl := Transacted.ok.inj hresult
  rw [hchain] at hrewards
  obtain rfl := Option.some.inj hrewards
  rw [Vm.applyRewardList, List.foldlM_cons] at hlist
  obtain ⟨mid, hmid, hrest⟩ := Fallible.bind_eq_ok.mp hlist
  cases hrest
  exact hmid

variable (standing) in
/-- The reward of the beneficiary, as the code works it out. -/
def rewardAmount : U256 :=
  saturatingMul (Vm.rewardGasPrice block.env tx.toTxEnv) (standing.result.gasUsed.setWidth 256)

lemma RawTransfer.rewardAmount_toNat (h : standing.RawTransfer recipient charge) :
    standing.rewardAmount.toNat = (standing.transfer recipient charge).reward := by
  have hcovered := h.covered
  have hfunded := h.funded
  have hearned := h.earned
  have hgas : (standing.result.gasUsed.setWidth 256).toNat = standing.result.gasUsed.toNat := by
    rw [BitVec.toNat_setWidth, Nat.mod_eq_of_lt]
    omega
  unfold rewardAmount
  rw [saturatingMul_toNat, hgas]
  show _ = (Vm.rewardGasPrice block.env tx.toTxEnv).toNat * standing.result.gasUsed.toNat
  omega

section Posted
variable (hchain : block.chain = .ethereum) (hwithin : standing.Within L)
  (hloads : standing.Loads) (hinj : Set.InjOn block.hashes.location L)
  (hhash : s.env.hash = block.hashes.location)
include hchain

/-- The beneficiary is written what the reward makes of its own writes. -/
lemma written_beneficiary {value : MemoryValue}
    (hvalue : Vm.applyReward (block.hashes.location (.basic block.env.beneficiary))
      standing.rewardAmount
      ((Vm.writeSet block.hashes.location block.env standing.db standing.result.state).filter
        fun w => w.1 = block.hashes.location (.basic block.env.beneficiary)) =
          .ok [(block.hashes.location (.basic block.env.beneficiary), value)]) :
    MvMemory.written standing.writeSet (block.hashes.location (.basic block.env.beneficiary)) =
      some value := by
  unfold rewardAmount at hvalue
  rw [Vm.applyReward_filter (standing.rewarded_writes hchain)] at hvalue
  rw [← MvMemory.written_filter, Except.ok.inj hvalue]
  simp [MvMemory.written_cons]

include hinj

/-- The reward leaves the writes of the other accounts alone. -/
lemma written_of_ne_beneficiary (hbeneficiary : .basic block.env.beneficiary ∈ L) {a : Address}
    (hmem : .basic a ∈ L) (hne : a ≠ block.env.beneficiary) :
    MvMemory.written standing.writeSet (block.hashes.location (.basic a)) =
      MvMemory.written ((Vm.writeSet block.hashes.location block.env standing.db
        standing.result.state).filter fun w => w.1 = block.hashes.location (.basic a))
          (block.hashes.location (.basic a)) := by
  rw [Vm.applyReward_written_of_ne (standing.rewarded_writes hchain), MvMemory.written_filter]
  intro heq
  exact hne (MemoryLocation.basic.inj (hinj hmem hbeneficiary heq))

include hwithin hloads hhash

/-- The sender is written what it loses, less what it receives itself. -/
lemma RawTransfer.written_sender (h : standing.RawTransfer recipient charge)
    (hbeneficiary : .basic block.env.beneficiary ∈ L) (hmem : .basic tx.caller ∈ L) :
    ∃ lost, MvMemory.written standing.writeSet (block.hashes.location (.basic tx.caller)) =
        some (.lazySender lost) ∧
      lost.toNat + (if tx.caller = recipient then tx.value.toNat else 0) +
          (if tx.caller = block.env.beneficiary then
            (standing.transfer recipient charge).reward else 0) =
        tx.value.toNat + charge := by
  obtain ⟨lost, hfilter, hlost⟩ := (h.writes hwithin hloads hinj hhash hmem).1 rfl
  by_cases hearner : tx.caller = block.env.beneficiary
  · have hcredit : (standing.transfer recipient charge).reward ≤ charge := h.earned
    rw [hearner] at hfilter
    refine ⟨saturatingSub lost standing.rewardAmount, ?_, ?_⟩
    · rw [hearner]
      apply written_beneficiary hchain
      rw [hfilter, Vm.applyReward, if_pos rfl]
    · rw [saturatingSub_toNat, hlost, h.rewardAmount_toNat, if_pos hearner]
      split_ifs
      · omega
      · omega
  · refine ⟨lost, ?_, ?_⟩
    · rw [written_of_ne_beneficiary hchain hinj hbeneficiary hmem hearner, hfilter]
      simp [MvMemory.written_cons]
    · rw [hlost, if_neg hearner]
      split_ifs
      · omega
      · omega

/-- The recipient is written the value and the beneficiary the reward, added up where they are one
account. -/
lemma RawTransfer.written_credited (h : standing.RawTransfer recipient charge)
    (hbeneficiary : .basic block.env.beneficiary ∈ L) {a : Address} (hmem : .basic a ∈ L)
    (hsender : a ≠ tx.caller) (hgain : a = recipient ∨ a = block.env.beneficiary) :
    ∃ addition, MvMemory.written standing.writeSet (block.hashes.location (.basic a)) =
        some (.lazyRecipient addition) ∧
      addition.toNat = (if a = recipient then tx.value.toNat else 0) +
        if a = block.env.beneficiary then (standing.transfer recipient charge).reward else 0 := by
  have hcovered := h.covered
  have hfunded := h.funded
  have hcredit : (standing.transfer recipient charge).reward ≤ charge := h.earned
  have hfilter := (h.writes hwithin hloads hinj hhash hmem).2 hsender
  by_cases hearner : a = block.env.beneficiary
  · subst hearner
    by_cases hrecipient : block.env.beneficiary = recipient
    · rw [if_pos hrecipient] at hfilter
      refine ⟨saturatingAdd tx.value standing.rewardAmount, ?_, ?_⟩
      · apply written_beneficiary hchain
        rw [hfilter, Vm.applyReward, if_pos rfl]
      · rw [saturatingAdd_toNat, h.rewardAmount_toNat, if_pos hrecipient, if_pos rfl]
        omega
    · rw [if_neg hrecipient] at hfilter
      refine ⟨standing.rewardAmount, ?_, ?_⟩
      · apply written_beneficiary hchain
        rw [hfilter, Vm.applyReward]
      · rw [h.rewardAmount_toNat, if_neg hrecipient, if_pos rfl]
        omega
  · have hrecipient : a = recipient := hgain.resolve_right hearner
    refine ⟨tx.value, ?_, ?_⟩
    · rw [written_of_ne_beneficiary hchain hinj hbeneficiary hmem hearner, hfilter,
        if_pos hrecipient]
      simp [MvMemory.written_cons]
    · rw [if_pos hrecipient, if_neg hearner]
      omega

/-- Nobody else is written. -/
lemma RawTransfer.written_others (h : standing.RawTransfer recipient charge)
    (hbeneficiary : .basic block.env.beneficiary ∈ L) {a : Address} (hmem : .basic a ∈ L)
    (hsender : a ≠ tx.caller) (hrecipient : a ≠ recipient) (hne : a ≠ block.env.beneficiary) :
    MvMemory.written standing.writeSet (block.hashes.location (.basic a)) = none := by
  have hfilter := (h.writes hwithin hloads hinj hhash hmem).2 hsender
  rw [if_neg hrecipient] at hfilter
  rw [written_of_ne_beneficiary hchain hinj hbeneficiary hmem hne, hfilter]
  rfl

/-- The row of the transfer in the memory is what the ledger posts. -/
theorem RawTransfer.posted (h : standing.RawTransfer recipient charge)
    {row : Address → Option (MemoryEntry MemoryValue)}
    (hrow : ∀ a, row a = none ∨ MemoryLocation.basic a ∈ L ∧
      row a = s.env.mvMemory.entry (block.hashes.location (.basic a)) txIdx)
    (hon : ∀ a, a = tx.caller ∨ a = recipient ∨ a = block.env.beneficiary →
      MemoryLocation.basic a ∈ L ∧
        row a = s.env.mvMemory.entry (block.hashes.location (.basic a)) txIdx) :
    LazyEvaluation.Posted block.env.beneficiary (standing.transfer recipient charge) tx.toTxEnv
      row := by
  have hbeneficiary : MemoryLocation.basic block.env.beneficiary ∈ L :=
    (hon _ (.inr (.inr rfl))).1
  constructor
  · rfl
  · rfl
  · exact LazyEvaluation.maxFee_toNat h.funded
  · obtain ⟨hmem, hentry⟩ := hon _ (.inl rfl)
    obtain ⟨lost, hwritten, hlost⟩ :=
      h.written_sender hchain hwithin hloads hinj hhash hbeneficiary hmem
    exact ⟨standing.txIncarnation, lost, hentry.trans (standing.entries _ _ hwritten), hlost⟩
  · intro a hsender hgain
    obtain ⟨hmem, hentry⟩ := hon a (.inr hgain)
    obtain ⟨addition, hwritten, haddition⟩ :=
      h.written_credited hchain hwithin hloads hinj hhash hbeneficiary hmem hsender hgain
    exact ⟨standing.txIncarnation, addition, hentry.trans (standing.entries _ _ hwritten),
      haddition⟩
  · intro a hsender hrecipient hne
    rcases hrow a with hnone | ⟨hmem, hentry⟩
    · exact hnone
    · have hwritten :=
        h.written_others hchain hwithin hloads hinj hhash hbeneficiary hmem hsender hrecipient hne
      rw [hentry]
      -- what was not written can only be the estimate that stood at the beneficiary
      by_contra hsome
      obtain ⟨e, he⟩ := Option.ne_none_iff_exists'.mp hsome
      obtain ⟨-, hexpected⟩ := standing.others _ e hwritten he
      rw [hchain] at hexpected
      exact hne (MemoryLocation.basic.inj
        (hinj hmem hbeneficiary (List.mem_singleton.mp hexpected)))

end Posted

end Standing

namespace CompletedRun
variable {κ Bytecode Code : Type} [DecidableEq κ] (run : CompletedRun κ Code Bytecode)
  (recipient : ℕ → Address) (charge : ℕ → ℕ)

/-- Every transaction of the block is a lazily executed transfer. The locations of the block do
not collide, and revm keeps to its habits. -/
structure TransfersOnly (L : Set MemoryLocation) : Prop where
  chain : run.chain = .ethereum
  inj : Set.InjOn run.hashes.location L
  within : ∀ j h, (run.standing j h).Within L
  loads : ∀ j h, (run.standing j h).Loads
  raw : ∀ j h, (run.standing j h).RawTransfer (recipient j) (charge j)

/-- The accounts that take part in the block are evaluated, and their locations are among those that
do not collide. -/
structure Evaluates (L : Set MemoryLocation) (lazyAddresses : List Address) : Prop where
  callers : ∀ j, j < run.txs.length → (run.txAt j).caller ∈ lazyAddresses
  recipients : ∀ j, j < run.txs.length → recipient j ∈ lazyAddresses
  beneficiary : run.env.beneficiary ∈ lazyAddresses
  known : ∀ a ∈ lazyAddresses, .basic a ∈ L

/-- The transfer of transaction `j`; beyond the block there is an empty one. -/
def transferAt (j : ℕ) : Transfer :=
  if h : j < run.txs.length then (run.standing j h).transfer (recipient j) (charge j)
  else ⟨0, 0, 0, 0, 0, 0, none⟩

/-- The ledger before the block, as the storage has it. -/
def startLedger : Ledger.State := fun a =>
  (LazyEvaluation.startAccount run.recordings.env.storage a).toLedger

/-- The ledger after the first transfers of the block, none once one is refused. -/
def ledgerAfter (j : ℕ) : Option Ledger.State :=
  Ledger.after run.env.beneficiary (run.transferAt recipient charge) run.startLedger j

variable {run recipient charge} {L : Set MemoryLocation} {lazyAddresses : List Address}

lemma transferAt_eq {j : ℕ} (h : j < run.txs.length) :
    run.transferAt recipient charge j = (run.standing j h).transfer (recipient j) (charge j) := by
  unfold transferAt
  rw [dif_pos h]

lemma txAt_eq {j : ℕ} (h : j < run.txs.length) : run.txAt j = run.txs[j].toTxEnv := by
  unfold EvmBlock.txAt
  rw [List.getElem?_eq_getElem h]

/-- The entries of the accounts that are evaluated, by account and transaction. -/
def columns (run : CompletedRun κ Code Bytecode) (lazyAddresses : List Address) :
    Address → ℕ → Option (MemoryEntry MemoryValue) := fun a j =>
  if a ∈ lazyAddresses then
    run.recordings.env.mvMemory.entry (run.hashes.location (.basic a)) j
  else none

lemma TransfersOnly.posted (h : run.TransfersOnly recipient charge L)
    (hlist : run.Evaluates recipient L lazyAddresses) :
    ∀ j < run.txs.length, LazyEvaluation.Posted run.env.beneficiary
      (run.transferAt recipient charge j) (run.txAt j) fun a => run.columns lazyAddresses a j := by
  intro j hj
  rw [transferAt_eq hj, txAt_eq hj]
  have hcaller := hlist.callers j hj
  rw [txAt_eq hj] at hcaller
  apply (h.raw j hj).posted h.chain (h.within j hj) (h.loads j hj) h.inj run.hash
  · intro a
    unfold columns
    split_ifs with hmem
    · exact .inr ⟨hlist.known a hmem, rfl⟩
    · exact .inl rfl
  · intro a ha
    have hmem : a ∈ lazyAddresses := by
      rcases ha with rfl | rfl | rfl
      · exact hcaller
      · exact hlist.recipients j hj
      · exact hlist.beneficiary
    refine ⟨hlist.known a hmem, ?_⟩
    unfold columns
    rw [if_pos hmem]

lemma TransfersOnly.sound (h : run.TransfersOnly recipient charge L) :
    ∀ j < run.txs.length, (run.transferAt recipient charge j).Sound := by
  intro j hj
  rw [transferAt_eq hj]
  exact (h.raw j hj).sound

/-- No account that is evaluated has an absolute value. -/
lemma TransfersOnly.allLazy (h : run.TransfersOnly recipient charge L)
    (hlist : run.Evaluates recipient L lazyAddresses) :
    ∀ a ∈ lazyAddresses, LazyEvaluation.AllLazy run.recordings.env.mvMemory
      (run.hashes.location (.basic a)) := by
  intro a ha j inc info hentry
  by_cases hj : j < run.txs.length
  · have hposted := h.posted hlist j hj
    have hcolumn : run.columns lazyAddresses a j = some (.data inc (.basic info)) := by
      unfold columns
      rw [if_pos ha, hentry]
    by_cases hsender : a = (run.transferAt recipient charge j).caller
    · obtain ⟨_, _, hrow, -⟩ := hposted.sender
      rw [← hsender, hcolumn] at hrow
      cases hrow
    · by_cases hgain : a = (run.transferAt recipient charge j).recipient ∨ a = run.env.beneficiary
      · obtain ⟨_, _, hrow, -⟩ := hposted.credited a hsender hgain
        rw [hcolumn] at hrow
        cases hrow
      · rw [not_or] at hgain
        have hrow := hposted.others a hsender hgain.1 hgain.2
        rw [hcolumn] at hrow
        cases hrow
  · rw [run.above j _ (by omega)] at hentry
    cases hentry

/-- The evaluation of a block of lazily executed transfers goes through exactly when the ledger
rejects none of them, and then gives sender, recipient and beneficiary of each the balance and the
nonce of the ledger right after it. revm does what its documentation says of a transfer, the
accounts that take part are among those to evaluate, what the evaluation reads of the storage is
there, and the supply is below `2 ^ 256`. -/
theorem fullyEvaluatedResults_ledger {toCode : Bytecode → Code}
    (h : run.TransfersOnly recipient charge L)
    (hlist : run.Evaluates recipient L lazyAddresses)
    (hsteady : LazyEvaluation.StorageSteady run.recordings.env.storage)
    (hfunded : Ledger.Funded run.startLedger) :
    ((∃ results, run.fullyEvaluatedResults toCode lazyAddresses = .ok results) ↔
      ∃ s', run.ledgerAfter recipient charge run.txs.length = some s') ∧
    ∀ results, run.fullyEvaluatedResults toCode lazyAddresses = .ok results →
      ∀ j < run.txs.length, ∃ s', run.ledgerAfter recipient charge (j + 1) = some s' ∧
        ∀ a, a = (run.txAt j).caller ∨ a = recipient j ∨ a = run.env.beneficiary →
          ∃ account, LazyEvaluation.basicOf (results j a) = some account ∧
            account.toLedger = s' a := by
  have hposted := h.posted hlist
  have hsound := h.sound
  have hcolumns : ∀ a ∈ lazyAddresses, run.columns lazyAddresses a =
      run.recordings.env.mvMemory.entry (run.hashes.location (.basic a)) := by
    intro a ha
    ext j
    unfold columns
    rw [if_pos ha]
  have hbelow : ∀ a ∈ lazyAddresses, ∀ bound, LazyEvaluation.columnBelow run.hashes.location
      run.recordings.env.storage run.recordings.env.mvMemory run.txAt a bound =
        LazyEvaluation.evaluateColumn a run.txAt (history (run.columns lazyAddresses a) bound)
          (LazyEvaluation.startAccount run.recordings.env.storage a) := by
    intro a ha bound
    rw [hcolumns a ha]
    exact LazyEvaluation.columnBelow_of_allLazy _ _ (h.allLazy hlist a ha) bound
  have hiff : (∃ results, run.fullyEvaluatedResults toCode lazyAddresses = .ok results) ↔
      ∃ s', run.ledgerAfter recipient charge run.txs.length = some s' := by
    unfold fullyEvaluatedResults
    rw [LazyEvaluation.evaluate_ok_iff hsteady]
    constructor
    · intro hall
      by_contra hnone
      push Not at hnone
      obtain ⟨k, hk, e, herror⟩ := LazyEvaluation.column_of_rejected hposted hsound hfunded
        (Option.eq_none_iff_forall_ne_some.mpr hnone)
      have hmem : (run.transferAt recipient charge k).caller ∈ lazyAddresses := by
        rw [← (hposted k hk).caller]
        exact hlist.callers k hk
      obtain ⟨account, hcolumn⟩ := hall _ hmem
      rw [← hbelow _ hmem, hcolumn] at herror
      cases herror
    · rintro ⟨s', hafter⟩ a ha
      obtain ⟨account, hcolumn, -⟩ :=
        LazyEvaluation.column_of_after hposted hsound hfunded hafter a
      rw [← hbelow a ha] at hcolumn
      exact ⟨account, hcolumn⟩
  refine ⟨hiff, fun results hresults j hj => ?_⟩
  obtain ⟨last, hlast⟩ := hiff.mp ⟨results, hresults⟩
  obtain ⟨s', hafter⟩ := Ledger.after_of_le (show j + 1 ≤ run.txs.length from hj) hlast
  refine ⟨s', hafter, fun a ha => ?_⟩
  have hmem : a ∈ lazyAddresses := by
    rcases ha with rfl | rfl | rfl
    · exact hlist.callers j hj
    · exact hlist.recipients j hj
    · exact hlist.beneficiary
  obtain ⟨account, hcolumn, hsame⟩ := LazyEvaluation.column_of_after
    (fun k hk => hposted k (by omega)) (fun k hk => hsound k (by omega)) hfunded hafter a
  rw [← hbelow a hmem] at hcolumn
  have hentry : ∃ e, run.recordings.env.mvMemory.entry (run.hashes.location (.basic a)) j =
      some e := by
    rw [← hcolumns a hmem]
    apply (hposted j hj).entry
    rw [← (hposted j hj).caller, transferAt_eq hj]
    exact ha
  obtain ⟨e, he⟩ := hentry
  obtain ⟨account', hcolumn', hstored⟩ :=
    LazyEvaluation.evaluate_at hsteady hj he hresults (.inl hmem)
  rw [hcolumn] at hcolumn'
  cases hcolumn'
  exact ⟨account, hstored, hsame⟩

section Sample

def giftHashes : Hashes MemoryLocation := ⟨id, .basic⟩

def giver : ℕ → Address
  | 0 => 1
  | _ => 7

def taker : ℕ → Address
  | 0 => 7
  | _ => 1

def given : ℕ → U256
  | 0 => 1000000
  | _ => 50

/-- Account 1 sends 1000000 to account 7, which sends 50 back. -/
def gift (j : ℕ) : OptimismTxEnv where
  caller := giver j
  gasLimit := 21000
  gasPrice := 17
  transactTo := .call (taker j)
  value := given j
  nonce := some 0
  gasPriorityFee := none
  blobHashes := []
  maxFeePerBlobGas := none
  optimism := ⟨none, none⟩

/-- Account 7 is the beneficiary of the block. -/
def giftBlock : EvmBlock MemoryLocation :=
  ⟨.ethereum, giftHashes, ⟨0, 0⟩, ⟨true, true, 7, 7⟩, [gift 0, gift 1]⟩

def giftStart : Recordings MemoryLocation Unit Unit where
  env :=
    { hash := id
      storage :=
        { basic := fun address => .ok (if address = 1 then some ⟨1000000000, 0⟩ else none)
          codeHash := fun _ => .ok none
          codeByHash := fun _ => .ok none
          storage := fun _ _ => .ok 0 }
      mvMemory := PexeChain.buildMvMemory giftHashes ⟨0, 0⟩ giftBlock.env .ethereum giftBlock.txs
      newBytecodes := fun _ => none
      toBytecode := some }
  log _ := none

/-- The transfers are lazy, since the beneficiary has estimates in the memory. -/
def giftDb (j : ℕ) : VmDb MemoryLocation where
  txIdx := j
  tx := (gift j).toTxEnv
  fromHash := .basic (giver j)
  toHash := some (.basic (taker j))
  toCodeHash := none
  isLazy := true
  readSet := (∅ : ReadSet MemoryLocation).insert (.codeHash (taker j)) [.storage]
  readAccounts := ∅

def giftTrace (j : ℕ) : List (Read × Answer Unit) :=
  [(.codeHash (taker j), .codeHash none),
    (.basic (giver j), .basic (some ⟨BitVec.allOnes 256, 0, keccakEmpty, none⟩)),
    (.basic (taker j), .basic none)]

lemma gift_incarnation : ∀ {j : ℕ}, j < 2 →
    VmDb.Incarnation j (gift j).toTxEnv giftStart (giftDb j) (giftTrace j)
  | 0, _ => by
    have hnew : VmDb.new giftStart.env 0 (gift 0).toTxEnv = .ok (giftDb 0) := rfl
    have hopened := VmDb.Incarnation.opened (.init ⟨⟨_, rfl⟩, rfl⟩) hnew
    have hsender := VmDb.Incarnation.read (r := .basic 1) hopened .refl .refl rfl
    exact VmDb.Incarnation.read (r := .basic 7) hsender .refl .refl rfl
  | 1, _ => by
    have hnew : VmDb.new giftStart.env 1 (gift 1).toTxEnv = .ok (giftDb 1) := rfl
    have hopened := VmDb.Incarnation.opened (.init ⟨⟨_, rfl⟩, rfl⟩) hnew
    have hsender := VmDb.Incarnation.read (r := .basic 7) hopened .refl .refl rfl
    exact VmDb.Incarnation.read (r := .basic 1) hsender .refl .refl rfl

def giftResult (j : ℕ) : ResultAndState Unit :=
  ⟨21000,
    [(giver j, ⟨⟨BitVec.allOnes 256 - 357000 - given j, 1, keccakEmpty, none⟩, [], true, false,
      false⟩),
    (taker j, ⟨⟨given j, 0, keccakEmpty, none⟩, [], true, false, false⟩)]⟩

/-- The beneficiary is rewarded with 210000 for each transfer. -/
def giftWrites : ℕ → WriteSet MemoryLocation MemoryValue
  | 0 => [(.basic 1, .lazySender 1357000), (.basic 7, .lazyRecipient 1210000)]
  | 1 => [(.basic 7, .lazySender 147050), (.basic 1, .lazyRecipient 50)]
  | _ => []

def giftMiddle : Recordings MemoryLocation Unit Unit :=
  { giftStart.withMemory
      (giftStart.env.mvMemory.record ⟨0, 0⟩ (giftDb 0).readSet (giftWrites 0)).2 with
    log := Function.update giftStart.log ⟨0, 0⟩ (some (giftWrites 0)) }

def giftEnd : Recordings MemoryLocation Unit Unit :=
  { giftMiddle.withMemory
      (giftMiddle.env.mvMemory.record ⟨1, 0⟩ (giftDb 1).readSet (giftWrites 1)).2 with
    log := Function.update giftMiddle.log ⟨1, 0⟩ (some (giftWrites 1)) }

lemma giftEnd_steps : giftStart.Steps giftEnd := by
  have hfirst : giftStart.Step giftMiddle := .record _ _ rfl
  have hsecond : giftMiddle.Step giftEnd := .record _ _ rfl
  exact .tail (.single hfirst) hsecond

lemma giftEnd_entry (l : MemoryLocation) (j : ℕ) :
    giftEnd.env.mvMemory.entry l j =
      match MvMemory.written (giftWrites j) l with
      | some value => some (.data 0 value)
      | none => giftStart.env.mvMemory.entry l j := by
  have hfirst : (giftStart.env.mvMemory.lastLocations 0).write = [] := rfl
  have hsecond : (giftMiddle.env.mvMemory.lastLocations 1).write = [] := rfl
  show (giftMiddle.env.mvMemory.record ⟨1, 0⟩ (giftDb 1).readSet (giftWrites 1)).2.entry l j = _
  rw [MvMemory.record_entry]
  have hmiddle : giftMiddle.env.mvMemory.entry l j = if j = 0 then
      match MvMemory.written (giftWrites 0) l with
      | some value => some (.data 0 value)
      | none => giftStart.env.mvMemory.entry l j
    else giftStart.env.mvMemory.entry l j := by
    show (giftStart.env.mvMemory.record ⟨0, 0⟩ (giftDb 0).readSet (giftWrites 0)).2.entry l j = _
    rw [MvMemory.record_entry]
    cases MvMemory.written (giftWrites 0) l with
    | none => simp [hfirst]
    | some value => rfl
  match j with
  | 0 => simpa using hmiddle
  | 1 =>
    rw [if_neg one_ne_zero] at hmiddle
    cases MvMemory.written (giftWrites 1) l with
    | none => simp [hsecond, hmiddle]
    | some value => rfl
  | j + 2 =>
    simp only [giftWrites, MvMemory.written_nil]
    rw [if_neg (by simp), hmiddle, if_neg (by simp)]

def giftStanding (j : ℕ) (hj : j < 2) : Standing giftBlock giftEnd j (gift j) where
  txIncarnation := 0
  finished := giftStart
  db := giftDb j
  trace := giftTrace j
  calculateTxL1Cost := none
  result := giftResult j
  writeSet := giftWrites j
  flags := .empty
  incarnation := gift_incarnation hj
  later := giftEnd_steps
  executes :=
    match j, hj with
    | 0, _ => rfl
    | 1, _ => rfl
  recorded :=
    match j, hj with
    | 0, _ => rfl
    | 1, _ => rfl
  valid :=
    match j, hj with
    | 0, _ => by decide
    | 1, _ => by decide
  entries := by
    intro l value hwritten
    rw [giftEnd_entry, hwritten]
  others := by
    intro l e hnone he
    rw [giftEnd_entry, hnone] at he
    obtain ⟨hestimate, -, hl⟩ := PexeChain.buildMvMemory_ethereum_entry he
    exact ⟨hestimate, List.mem_singleton.mpr hl⟩

def giftRun : CompletedRun MemoryLocation Unit Unit :=
  { giftBlock with
    recordings := giftEnd
    hash := rfl
    standing := fun
      | 0, _ => giftStanding 0 Nat.two_pos
      | 1, _ => giftStanding 1 Nat.one_lt_two
      | _ + 2, h => absurd h (by simp [giftBlock])
    above := by
      intro j l hj
      replace hj : 2 ≤ j := hj
      by_contra hentry
      obtain ⟨e, he⟩ := Option.ne_none_iff_exists'.mp hentry
      have hnone : MvMemory.written (giftWrites j) l = none := by
        match j, hj with
        | j + 2, _ => rfl
      rw [giftEnd_entry, hnone] at he
      have hlow : j < 2 := (PexeChain.buildMvMemory_ethereum_entry he).2.1
      omega }

lemma gift_loads (j : ℕ) (hj : j < 2) : (giftStanding j hj).Loads where
  state := by
    have hread : ∀ e ∈ (giftResult j).state,
        ∃ answer, (Read.basic e.1, answer) ∈ giftTrace j := by
      simp [giftResult, giftTrace]
    exact hread
  storage := by
    have hread : ∀ address index answer, (Read.storage address index, answer) ∉ giftTrace j := by
      simp [giftTrace]
    intro address index answer hmem
    exact absurd hmem (hread address index answer)
  nodup := by
    have hnodup : ((giftResult j).state.map Prod.fst).Nodup := by
      match j, hj with
      | 0, _ => decide
      | 1, _ => decide
    exact hnodup

lemma gift_rawTransfer (j : ℕ) (hj : j < 2) :
    (giftStanding j hj).RawTransfer (taker j) 357000 where
  isLazy := rfl
  called := rfl
  sender := by
    refine ⟨_, List.mem_cons_self, rfl, rfl, ?_⟩
    match j, hj with
    | 0, _ => decide
    | 1, _ => decide
  credited _ := ⟨_, List.mem_cons_of_mem _ List.mem_cons_self, rfl, rfl⟩
  covered := by
    match j, hj with
    | 0, _ => decide
    | 1, _ => decide
  funded := by
    match j, hj with
    | 0, _ => decide
    | 1, _ => decide
  earned := by
    have hgas : ∀ j < 2, (Vm.rewardGasPrice giftBlock.env (gift j).toTxEnv).toNat *
        (giftResult j).gasUsed.toNat ≤ 357000 := by decide
    exact hgas j hj

lemma gift_transfersOnly : giftRun.TransfersOnly taker (fun _ => 357000) Set.univ where
  chain := rfl
  inj := Function.injective_id.injOn
  within := fun _ _ => ⟨fun _ _ => trivial, fun _ _ _ _ => trivial⟩
  loads := fun
    | 0, _ => gift_loads 0 Nat.two_pos
    | 1, _ => gift_loads 1 Nat.one_lt_two
    | _ + 2, h => absurd h (by simp [giftRun, giftBlock])
  raw := fun
    | 0, _ => gift_rawTransfer 0 Nat.two_pos
    | 1, _ => gift_rawTransfer 1 Nat.one_lt_two
    | _ + 2, h => absurd h (by simp [giftRun, giftBlock])

lemma gift_evaluates : giftRun.Evaluates taker Set.univ [1, 7] where
  callers := fun
    | 0, _ => List.mem_cons_self
    | 1, _ => List.mem_cons_of_mem _ List.mem_cons_self
    | _ + 2, h => absurd h (by simp [giftRun, giftBlock])
  recipients := fun
    | 0, _ => List.mem_cons_of_mem _ List.mem_cons_self
    | _ + 1, _ => List.mem_cons_self
  beneficiary := List.mem_cons_of_mem _ List.mem_cons_self
  known _ _ := trivial

lemma gift_funded : Ledger.Funded giftRun.startLedger := by
  have hbalance : ∀ a, (giftRun.startLedger a).balance = if a = 1 then 1000000000 else 0 := by
    intro a
    show ((if a = 1 then some (⟨1000000000, 0⟩ : AccountBasic) else none).getD
      .default).balance.toNat = _
    split_ifs with h
    · rfl
    · rfl
  intro T
  simp only [hbalance]
  rw [Finset.sum_ite_eq']
  split_ifs
  · omega
  · omega

/-- The ledger accepts both transfers, the second of which is paid out of the first, and the
evaluation goes through. -/
theorem fullyEvaluatedResults_ledger_gift :
    (∃ s', giftRun.ledgerAfter taker (fun _ => 357000) 2 = some s') ∧
      ∃ results, giftRun.fullyEvaluatedResults (fun _ => ()) [1, 7] = .ok results := by
  have haccepts : ∃ s', giftRun.ledgerAfter taker (fun _ => 357000) 2 = some s' :=
    Option.isSome_iff_exists.mp (by decide +kernel)
  have hiff : (∃ results, giftRun.fullyEvaluatedResults (fun _ => ()) [1, 7] = .ok results) ↔
      ∃ s', giftRun.ledgerAfter taker (fun _ => 357000) 2 = some s' :=
    (fullyEvaluatedResults_ledger gift_transfersOnly gift_evaluates
      ⟨fun _ => ⟨none, rfl⟩, fun _ => ⟨none, rfl⟩⟩ gift_funded).1
  exact ⟨haccepts, hiff.mpr haccepts⟩

end Sample

end CompletedRun

end Pevm
