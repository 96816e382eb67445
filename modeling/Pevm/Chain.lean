import Pevm.Vm

/-!
# Chains

What Ethereum and Optimism make of a block: the writes that are expected before the first
execution, and the rewards that a transaction pays.
-/
namespace Pevm
open Saturating

/-- The fields of a transaction that only Optimism knows and that the code reads. -/
structure OptimismFields where
  sourceHash : Option B256
  envelopedTx : Option (List U8)
  deriving DecidableEq, Repr

/-- A transaction of either chain; on Ethereum the fields of Optimism are not looked at. -/
structure OptimismTxEnv extends TxEnv where
  optimism : OptimismFields
  deriving DecidableEq, Repr

/-- A deposit is known by its source hash, comes from the other chain and pays no fees. -/
def OptimismTxEnv.IsDeposit (tx : OptimismTxEnv) : Prop := tx.optimism.sourceHash.isSome = true

instance (tx : OptimismTxEnv) : Decidable tx.IsDeposit := inferInstanceAs (Decidable (_ = _))

/-- The accounts that revm pays the fees of Optimism to, `L1_FEE_RECIPIENT` and
`BASE_FEE_RECIPIENT`. -/
structure FeeRecipients where
  l1FeeRecipient : Address
  baseFeeRecipient : Address

/-- `hash_deterministic`, at a location and at a bare address. The two may agree, since the hash of
a `Basic` location is that of its address. -/
structure Hashes (κ : Type) where
  location : MemoryLocation → κ
  address : Address → κ

/-- Who is rewarded for a transaction, with the location hashes of the two vaults on Optimism. -/
inductive RewardPolicy (κ : Type)
  | ethereum
  | optimism (l1FeeRecipientLocationHash baseFeeVaultLocationHash : κ)

/-- The two chains that implement `PexeChain` in the source. -/
inductive PexeChain
  | ethereum
  | optimism
  deriving DecidableEq, Repr

namespace PexeChain
variable {κ : Type} (hashes : Hashes κ) (recipients : FeeRecipients) (env : ChainEnv)

/-- `get_reward_policy`: on Optimism the vaults are found by the hashes of their locations. -/
def getRewardPolicy : PexeChain → RewardPolicy κ
  | ethereum => .ethereum
  | optimism => .optimism (hashes.location (.basic recipients.l1FeeRecipient))
      (hashes.location (.basic recipients.baseFeeRecipient))

variable [DecidableEq κ]

/-- `entry(location).or_insert_with(Vec::new).push(index)`, on the list that stands for the map. -/
def pushIndex (l : κ) (index : ℕ) : List (κ × List ℕ) → List (κ × List ℕ)
  | [] => [(l, [index])]
  | (l', indices) :: locations =>
    if l' = l then (l', indices ++ [index]) :: locations
    else (l', indices) :: pushIndex l index locations

/-- One transaction in the loop of Optimism's `build_mv_memory`. The fee recipients of a deposit
are hashed as addresses, not as locations. -/
def pushEstimates (locations : List (κ × List ℕ)) (tx : OptimismTxEnv × ℕ) : List (κ × List ℕ) :=
  if tx.1.IsDeposit then
    pushIndex (hashes.address recipients.baseFeeRecipient) tx.2
      (pushIndex (hashes.address recipients.l1FeeRecipient) tx.2 locations)
  else pushIndex (hashes.location (.basic env.beneficiary)) tx.2 locations

/-- The locations that `build_mv_memory` expects writes at, each with the transactions that are
expected to write there. -/
def estimatedLocations (txs : List OptimismTxEnv) : PexeChain → List (κ × List ℕ)
  | ethereum => [(hashes.location (.basic env.beneficiary), List.range txs.length)]
  | optimism => txs.zipIdx.foldl (pushEstimates hashes recipients env) []

/-- `build_mv_memory`: the memory with the estimates of a chain. -/
def buildMvMemory (chain : PexeChain) (txs : List OptimismTxEnv) : MvMemory κ MemoryValue :=
  .new (estimatedLocations hashes recipients env txs chain)

/-- Where `build_mv_memory` expects a transaction to write. For a deposit these are bare addresses,
not locations. -/
def expected (tx : OptimismTxEnv) : PexeChain → List κ
  | ethereum => [hashes.location (.basic env.beneficiary)]
  | optimism =>
    if tx.IsDeposit then
      [hashes.address recipients.l1FeeRecipient, hashes.address recipients.baseFeeRecipient]
    else [hashes.location (.basic env.beneficiary)]

/-- Whom `apply_rewards` pays for a transaction; nobody for a deposit. -/
def rewarded (tx : OptimismTxEnv) : PexeChain → List Address
  | ethereum => [env.beneficiary]
  | optimism =>
    if tx.IsDeposit then []
    else [env.beneficiary, recipients.l1FeeRecipient, recipients.baseFeeRecipient]

section PushIndex
variable {l l' : κ} {index j : ℕ} {locations : List (κ × List ℕ)}

lemma mem_keys_pushIndex :
    l' ∈ (pushIndex l index locations).map Prod.fst ↔ l' = l ∨ l' ∈ locations.map Prod.fst := by
  induction locations with
  | nil => simp [pushIndex]
  | cons e locations ih =>
    rw [pushIndex]
    split_ifs with h
    · subst h
      simp
    · rw [List.map_cons, List.mem_cons, ih, List.map_cons, List.mem_cons]
      tauto

lemma nodup_pushIndex (h : (locations.map Prod.fst).Nodup) :
    ((pushIndex l index locations).map Prod.fst).Nodup := by
  induction locations with
  | nil => simp [pushIndex]
  | cons e locations ih =>
    rw [List.map_cons, List.nodup_cons] at h
    rw [pushIndex]
    split_ifs with heq
    · simpa using h
    · rw [List.map_cons, List.nodup_cons, mem_keys_pushIndex]
      refine ⟨?_, ih h.2⟩
      rintro (h' | h')
      · exact heq h'
      · exact h.1 h'

lemma mem_pushIndex :
    (∃ e ∈ pushIndex l index locations, e.1 = l' ∧ j ∈ e.2) ↔
      (l' = l ∧ j = index) ∨ ∃ e ∈ locations, e.1 = l' ∧ j ∈ e.2 := by
  induction locations with
  | nil =>
    simp only [pushIndex, List.mem_singleton, exists_eq_left, List.not_mem_nil, false_and,
      exists_false, or_false]
    exact and_congr_left' eq_comm
  | cons e locations ih =>
    rw [pushIndex]
    split_ifs with heq
    · simp only [List.exists_mem_cons_iff, List.mem_append, List.mem_singleton, heq]
      constructor
      · rintro (⟨rfl, hj | hj⟩ | h)
        · exact .inr (.inl ⟨rfl, hj⟩)
        · exact .inl ⟨rfl, hj⟩
        · exact .inr (.inr h)
      · rintro (⟨rfl, hj⟩ | ⟨rfl, hj⟩ | h)
        · exact .inl ⟨rfl, .inr hj⟩
        · exact .inl ⟨rfl, .inl hj⟩
        · exact .inr h
    · simp only [List.exists_mem_cons_iff, ih]
      tauto

end PushIndex

section Estimated
variable {hashes recipients env} {locations : List (κ × List ℕ)}

lemma nodup_pushEstimates (tx : OptimismTxEnv × ℕ) (h : (locations.map Prod.fst).Nodup) :
    ((pushEstimates hashes recipients env locations tx).map Prod.fst).Nodup := by
  unfold pushEstimates
  split_ifs
  · exact nodup_pushIndex (nodup_pushIndex h)
  · exact nodup_pushIndex h

lemma mem_pushEstimates {tx : OptimismTxEnv × ℕ} {l : κ} {j : ℕ} :
    (∃ e ∈ pushEstimates hashes recipients env locations tx, e.1 = l ∧ j ∈ e.2) ↔
      (l ∈ expected hashes recipients env tx.1 optimism ∧ j = tx.2) ∨
        ∃ e ∈ locations, e.1 = l ∧ j ∈ e.2 := by
  unfold pushEstimates expected
  split_ifs
  · rw [mem_pushIndex, mem_pushIndex]
    simp only [List.mem_cons, List.not_mem_nil, or_false]
    tauto
  · rw [mem_pushIndex, List.mem_singleton]

lemma foldl_pushEstimates (txs : List (OptimismTxEnv × ℕ))
    (h : (locations.map Prod.fst).Nodup) :
    ((txs.foldl (pushEstimates hashes recipients env) locations).map Prod.fst).Nodup ∧
      ∀ l j, (∃ e ∈ txs.foldl (pushEstimates hashes recipients env) locations,
          e.1 = l ∧ j ∈ e.2) ↔
        (∃ tx ∈ txs, l ∈ expected hashes recipients env tx.1 optimism ∧ j = tx.2) ∨
          ∃ e ∈ locations, e.1 = l ∧ j ∈ e.2 := by
  induction txs generalizing locations with
  | nil => simpa using h
  | cons tx txs ih =>
    obtain ⟨hnodup, hmem⟩ := ih (nodup_pushEstimates tx h)
    refine ⟨hnodup, fun l j => ?_⟩
    rw [List.foldl_cons, hmem, mem_pushEstimates, List.exists_mem_cons_iff, or_left_comm, or_assoc]

/-- The memory starts with an estimate wherever a transaction is expected to write. -/
theorem buildMvMemory_entry (chain : PexeChain) (txs : List OptimismTxEnv) {l : κ} {j : ℕ} :
    (buildMvMemory hashes recipients env chain txs).entry l j = some .estimate ↔
      ∃ tx, txs[j]? = some tx ∧ l ∈ expected hashes recipients env tx chain := by
  cases chain with
  | ethereum =>
    unfold buildMvMemory estimatedLocations
    rw [MvMemory.new_entry_estimate (by simp)]
    simp only [List.mem_singleton, exists_eq_left, List.mem_range, expected]
    constructor
    · rintro ⟨rfl, hj⟩
      exact ⟨txs[j], List.getElem?_eq_getElem hj, rfl⟩
    · rintro ⟨tx, htx, rfl⟩
      exact ⟨rfl, (List.getElem?_eq_some_iff.mp htx).1⟩
  | optimism =>
    have hkeys : (([] : List (κ × List ℕ)).map Prod.fst).Nodup := List.nodup_nil
    obtain ⟨hnodup, hmem⟩ := foldl_pushEstimates txs.zipIdx hkeys
    unfold buildMvMemory estimatedLocations
    rw [MvMemory.new_entry_estimate hnodup, hmem]
    simp only [List.not_mem_nil, false_and, exists_false, or_false, Prod.exists,
      List.mk_mem_zipIdx_iff_getElem?]
    constructor
    · rintro ⟨tx, k, htx, hl, rfl⟩
      exact ⟨tx, htx, hl⟩
    · rintro ⟨tx, htx, hl⟩
      exact ⟨tx, j, htx, hl, rfl⟩

/-- On Ethereum the memory starts with the estimates of the beneficiary. -/
lemma buildMvMemory_ethereum_entry {txs : List OptimismTxEnv} {l : κ} {j : ℕ}
    {e : MemoryEntry MemoryValue}
    (h : (buildMvMemory hashes recipients env .ethereum txs).entry l j = some e) :
    e = .estimate ∧ j < txs.length ∧ l = hashes.location (.basic env.beneficiary) := by
  have hestimate : e = .estimate := MvMemory.new_entry h
  rw [hestimate] at h
  obtain ⟨tx, htx, hl⟩ := (buildMvMemory_entry .ethereum txs).mp h
  exact ⟨hestimate, (List.getElem?_eq_some_iff.mp htx).1, List.mem_singleton.mp hl⟩

end Estimated

end PexeChain

namespace Vm
variable {κ Bytecode : Type} (hash : MemoryLocation → κ) (env : ChainEnv)

/-- The rewards of a transaction. There are none where the code panics: the bytes of the
transaction or the costs of its layer-1 data are missing. -/
def rewards (policy : RewardPolicy κ) (tx : OptimismTxEnv)
    (calculateTxL1Cost : Option (List U8 → U256)) (gasUsed : U256) : Option (List (κ × U256)) :=
  match policy with
  | .ethereum =>
    some [(hash (.basic env.beneficiary),
      saturatingMul (rewardGasPrice env tx.toTxEnv) gasUsed)]
  | .optimism l1FeeRecipientLocationHash baseFeeVaultLocationHash =>
    if tx.IsDeposit then some []
    else
      match tx.optimism.envelopedTx, calculateTxL1Cost with
      | some envelopedTx, some l1Cost =>
        some [(hash (.basic env.beneficiary),
            saturatingMul (rewardGasPrice env tx.toTxEnv) gasUsed),
          (l1FeeRecipientLocationHash, l1Cost envelopedTx),
          (baseFeeVaultLocationHash, saturatingMul env.basefee gasUsed)]
      | _, _ => none

/-- The rewards go to the basic locations of those rewarded. -/
lemma rewards_keys {hashes : Hashes κ} {recipients : FeeRecipients} {chain : PexeChain}
    {tx : OptimismTxEnv} {calculateTxL1Cost : Option (List U8 → U256)} {gasUsed : U256}
    {rs : List (κ × U256)}
    (h : rewards hashes.location env (chain.getRewardPolicy hashes recipients) tx calculateTxL1Cost
      gasUsed = some rs) :
    rs.map Prod.fst =
      (chain.rewarded recipients env tx).map fun address => hashes.location (.basic address) := by
  cases chain with
  | ethereum =>
    obtain rfl := Option.some.inj h
    rfl
  | optimism =>
    unfold rewards PexeChain.getRewardPolicy at h
    dsimp only at h
    unfold PexeChain.rewarded
    split_ifs at h ⊢
    · obtain rfl := Option.some.inj h
      rfl
    · split at h
      · obtain rfl := Option.some.inj h
        rfl
      · cases h

variable [DecidableEq κ]

/-- The loop in `apply_rewards`: one reward after the other, until one cannot be paid. -/
def applyRewardList (rewards : List (κ × U256)) (writeSet : WriteSet κ MemoryValue) :
    Except ReadError (WriteSet κ MemoryValue) :=
  rewards.foldlM (fun writeSet reward => applyReward reward.1 reward.2 writeSet) writeSet

/-- `Vm::execute` behind `transact`, under the rewards of a chain; none is a panic in
`apply_rewards`. -/
def executeUnder (policy : RewardPolicy κ) (db : VmDb κ) (tx : OptimismTxEnv)
    (calculateTxL1Cost : Option (List U8 → U256)) (transacted : Transacted Bytecode) :
    Option (Except VmExecutionError (ReadSet κ × WriteSet κ MemoryValue × FinishExecFlags)) :=
  match transacted with
  | .ok result =>
    (rewards hash env policy tx calculateTxL1Cost (result.gasUsed.setWidth 256)).map fun rewards =>
      match applyRewardList rewards (writeSet hash env db result.state) with
      | .ok writeSet =>
        .ok (db.readSet, writeSet,
          if 0 < db.txIdx ∧ ¬ db.isLazy then .needValidation else .empty)
      | .error error => .error (.ofReadError error)
  | transacted => some (execute hash env db transacted)

/-- What is recorded of an execution: its reads, and its writes with the rewards. -/
lemma executeUnder_eq_ok {policy : RewardPolicy κ} {db : VmDb κ} {tx : OptimismTxEnv}
    {calculateTxL1Cost : Option (List U8 → U256)} {transacted : Transacted Bytecode}
    {readSet : ReadSet κ} {ws : WriteSet κ MemoryValue} {flags : FinishExecFlags}
    (h : executeUnder hash env policy db tx calculateTxL1Cost transacted =
      some (.ok (readSet, ws, flags))) :
    ∃ result rs, transacted = .ok result ∧ readSet = db.readSet ∧
      rewards hash env policy tx calculateTxL1Cost (result.gasUsed.setWidth 256) = some rs ∧
      applyRewardList rs (writeSet hash env db result.state) = .ok ws := by
  cases transacted with
  | ok result =>
    obtain ⟨rs, hrewards, happly⟩ := Option.map_eq_some_iff.mp h
    cases hlist : applyRewardList rs (writeSet hash env db result.state) with
    | ok ws' =>
      simp only [hlist, Except.ok.injEq, Prod.mk.injEq] at happly
      obtain ⟨rfl, rfl, -⟩ := happly
      exact ⟨result, rs, rfl, rfl, hrewards, hlist⟩
    | error e => simp [hlist] at happly
  | database e => cases Option.some.inj h
  | lackOfFundForMaxFeeOrNonceTooHigh =>
    simp only [executeUnder, execute, Option.some.injEq] at h
    split_ifs at h
  | error => cases Option.some.inj h

section Written
variable {hash env} {writeSet writeSet' : WriteSet κ MemoryValue} {l : κ}

/-- A reward on top of a write to its recipient changes the value there. -/
lemma applyReward_cons_self {recipient : κ} {amount : U256} {value : MemoryValue}
    (h : applyReward recipient amount ((recipient, value) :: writeSet) = .ok writeSet') :
    ∃ value', writeSet' = (recipient, value') :: writeSet := by
  unfold applyReward at h
  rw [if_pos rfl] at h
  cases value with
  | basic basic => exact ⟨_, (Except.ok.inj h).symm⟩
  | lazySender subtraction => exact ⟨_, (Except.ok.inj h).symm⟩
  | lazyRecipient addition => exact ⟨_, (Except.ok.inj h).symm⟩
  | codeHash hash => cases h
  | storage value => cases h
  | selfDestructed => cases h

lemma applyReward_cons_of_ne {recipient : κ} {amount : U256} {w : κ × MemoryValue}
    (hne : w.1 ≠ recipient)
    (h : applyReward recipient amount (w :: writeSet) = .ok writeSet') :
    ∃ rest, applyReward recipient amount writeSet = .ok rest ∧ writeSet' = w :: rest := by
  unfold applyReward at h
  rw [if_neg hne] at h
  obtain ⟨rest, hrest, hret⟩ := Fallible.bind_eq_ok.mp h
  exact ⟨rest, hrest, (Except.ok.inj hret).symm⟩

/-- A reward writes to its recipient. -/
lemma applyReward_written {recipient : κ} {amount : U256}
    (h : applyReward recipient amount writeSet = .ok writeSet') :
    MvMemory.written writeSet' l ≠ none ↔ l = recipient ∨ MvMemory.written writeSet l ≠ none := by
  induction writeSet generalizing writeSet' with
  | nil =>
    obtain rfl := Except.ok.inj h
    rw [MvMemory.written_cons_ne_none]
    simp [eq_comm]
  | cons w writeSet ih =>
    obtain ⟨l₀, value⟩ := w
    by_cases heq : l₀ = recipient
    · subst heq
      obtain ⟨value', rfl⟩ := applyReward_cons_self h
      have hl : l = l₀ ↔ l₀ = l := eq_comm
      rw [MvMemory.written_cons_ne_none, MvMemory.written_cons_ne_none, hl]
      tauto
    · obtain ⟨rest, hrest, rfl⟩ := applyReward_cons_of_ne heq h
      rw [MvMemory.written_cons_ne_none, MvMemory.written_cons_ne_none, ih hrest, or_assoc]

/-- A reward leaves the other locations alone. -/
lemma applyReward_written_of_ne {recipient : κ} {amount : U256}
    (h : applyReward recipient amount writeSet = .ok writeSet') (hne : l ≠ recipient) :
    MvMemory.written writeSet' l = MvMemory.written writeSet l := by
  induction writeSet generalizing writeSet' with
  | nil =>
    obtain rfl := Except.ok.inj h
    simp [MvMemory.written_cons, Ne.symm hne]
  | cons w writeSet ih =>
    obtain ⟨l₀, value⟩ := w
    by_cases heq : l₀ = recipient
    · subst heq
      obtain ⟨value', rfl⟩ := applyReward_cons_self h
      rw [MvMemory.written_cons, MvMemory.written_cons, if_neg (Ne.symm hne),
        if_neg (Ne.symm hne)]
    · obtain ⟨rest, hrest, rfl⟩ := applyReward_cons_of_ne heq h
      rw [MvMemory.written_cons, MvMemory.written_cons, ih hrest]

/-- A reward looks at the writes to its recipient only. -/
lemma applyReward_filter {recipient : κ} {amount : U256}
    (h : applyReward recipient amount writeSet = .ok writeSet') :
    applyReward recipient amount (writeSet.filter fun w => w.1 = recipient) =
      .ok (writeSet'.filter fun w => w.1 = recipient) := by
  induction writeSet generalizing writeSet' with
  | nil =>
    obtain rfl := Except.ok.inj h
    simp [applyReward]
  | cons w writeSet ih =>
    obtain ⟨l₀, value⟩ := w
    by_cases heq : l₀ = recipient
    · subst heq
      have hfilter : ∀ (value : MemoryValue) (rest : WriteSet κ MemoryValue),
          ((l₀, value) :: rest).filter (fun w => w.1 = l₀) =
            (l₀, value) :: rest.filter fun w => w.1 = l₀ :=
        fun _ _ => List.filter_cons_of_pos (by simp)
      rw [hfilter]
      unfold applyReward at h ⊢
      rw [if_pos rfl] at h ⊢
      cases value with
      | basic basic =>
        obtain rfl := Except.ok.inj h
        rw [hfilter]
      | lazySender subtraction =>
        obtain rfl := Except.ok.inj h
        rw [hfilter]
      | lazyRecipient addition =>
        obtain rfl := Except.ok.inj h
        rw [hfilter]
      | codeHash hash => cases h
      | storage value => cases h
      | selfDestructed => cases h
    · obtain ⟨rest, hrest, rfl⟩ := applyReward_cons_of_ne heq h
      rw [List.filter_cons_of_neg (by simpa using heq),
        List.filter_cons_of_neg (by simpa using heq)]
      exact ih hrest

lemma applyRewardList_written_of_not_mem {rewards : List (κ × U256)}
    (h : applyRewardList rewards writeSet = .ok writeSet') (hne : l ∉ rewards.map Prod.fst) :
    MvMemory.written writeSet' l = MvMemory.written writeSet l := by
  induction rewards generalizing writeSet with
  | nil =>
    obtain rfl := Except.ok.inj h
    rfl
  | cons reward rewards ih =>
    rw [applyRewardList, List.foldlM_cons] at h
    obtain ⟨mid, hmid, hrest⟩ := Fallible.bind_eq_ok.mp h
    rw [List.map_cons, List.mem_cons, not_or] at hne
    rw [ih hrest hne.2, applyReward_written_of_ne hmid hne.1]

lemma applyRewardList_written {rewards : List (κ × U256)}
    (h : applyRewardList rewards writeSet = .ok writeSet') :
    MvMemory.written writeSet' l ≠ none ↔
      l ∈ rewards.map Prod.fst ∨ MvMemory.written writeSet l ≠ none := by
  induction rewards generalizing writeSet with
  | nil =>
    obtain rfl := Except.ok.inj h
    simp
  | cons reward rewards ih =>
    rw [applyRewardList, List.foldlM_cons] at h
    obtain ⟨mid, hmid, hrest⟩ := Fallible.bind_eq_ok.mp h
    rw [ih hrest, applyReward_written hmid, List.map_cons, List.mem_cons]
    tauto

end Written

end Vm

end Pevm
