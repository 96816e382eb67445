import Pevm.Chain

/-!
# Rewards add up

A write of a balance is replayed as what it makes of the balance before the transaction. A reward
raises what the write of its recipient is replayed to by its amount, so the rewards together raise
it by what is due to the recipient, whoever else the recipient is.
-/
namespace Pevm.Vm
open Saturating

/-- What a write to a basic location makes of the balance that is there before. -/
def replayed (before : ℤ) : Option MemoryValue → Option ℤ
  | none => some before
  | some (.basic basic) => some basic.balance.toNat
  | some (.lazyRecipient addition) => some (before + addition.toNat)
  | some (.lazySender subtraction) => some (before - subtraction.toNat)
  | some _ => none

/-- The amount can be added to what the write set has here without leaving the range, as the claim
on sums asks. -/
def HasRoom (amount : ℕ) : Option MemoryValue → Prop
  | none => amount < 2 ^ 256
  | some (.basic basic) => basic.balance.toNat + amount < 2 ^ 256
  | some (.lazyRecipient addition) => addition.toNat + amount < 2 ^ 256
  | some (.lazySender subtraction) => amount ≤ subtraction.toNat
  | some _ => True

section Due
variable {κ : Type} (hash : MemoryLocation → κ) (env : ChainEnv)

/-- What the beneficiary gets for a unit of gas, in natural numbers and independently of the code.
-/
def priceDue (tx : TxEnv) : ℕ :=
  let price := match tx.gasPriorityFee with
    | some priorityFee => min tx.gasPrice.toNat (priorityFee.toNat + env.basefee.toNat)
    | none => tx.gasPrice.toNat
  if env.isEip1559Enabled then price - env.basefee.toNat else price

/-- What the data of a transaction costs on layer 1. Where its bytes or the state of layer 1 are
missing nobody can tell, and nothing is put down. -/
def l1CostDue (tx : OptimismTxEnv) (calculateTxL1Cost : Option (List U8 → U256)) : ℕ :=
  match tx.optimism.envelopedTx, calculateTxL1Cost with
  | some envelopedTx, some l1Cost => (l1Cost envelopedTx).toNat
  | _, _ => 0

/-- The amounts that a transaction owes and to whom, worked out in natural numbers: nothing
saturates and nothing wraps. -/
def amountsDue (policy : RewardPolicy κ) (tx : OptimismTxEnv)
    (calculateTxL1Cost : Option (List U8 → U256)) (gasUsed : U256) : List (κ × ℕ) :=
  match policy with
  | .ethereum => [(hash (.basic env.beneficiary), priceDue env tx.toTxEnv * gasUsed.toNat)]
  | .optimism l1FeeRecipientLocationHash baseFeeVaultLocationHash =>
    if tx.IsDeposit then []
    else
      [(hash (.basic env.beneficiary), priceDue env tx.toTxEnv * gasUsed.toNat),
        (l1FeeRecipientLocationHash, l1CostDue tx calculateTxL1Cost),
        (baseFeeVaultLocationHash, env.basefee.toNat * gasUsed.toNat)]

/-- Ethereum's rewards need nothing but the gas, and a deposit pays none. Any other transaction of
Optimism must have its bytes, and revm the state of layer 1. -/
def RewardsKnown (policy : RewardPolicy κ) (tx : OptimismTxEnv)
    (calculateTxL1Cost : Option (List U8 → U256)) : Prop :=
  match policy with
  | .ethereum => True
  | .optimism _ _ =>
    tx.IsDeposit ∨ (tx.optimism.envelopedTx ≠ none ∧ calculateTxL1Cost.isSome = true)

/-- A reward of the code is an amount due, cut off at the largest word. -/
def Pays (reward : κ × U256) (due : κ × ℕ) : Prop :=
  reward.1 = due.1 ∧ reward.2.toNat = min due.2 (2 ^ 256 - 1)

lemma rewardGasPrice_toNat (tx : TxEnv) : (rewardGasPrice env tx).toNat = priceDue env tx := by
  have hprice := tx.gasPrice.isLt
  unfold rewardGasPrice priceDue
  cases tx.gasPriorityFee with
  | none =>
    dsimp only
    split_ifs
    · exact saturatingSub_toNat ..
    · rfl
  | some priorityFee =>
    have hsum := saturatingAdd_toNat priorityFee env.basefee
    have hmin : (if saturatingAdd priorityFee env.basefee < tx.gasPrice then
        saturatingAdd priorityFee env.basefee else tx.gasPrice).toNat =
          min tx.gasPrice.toNat (priorityFee.toNat + env.basefee.toNat) := by
      split_ifs with hlt <;> rw [BitVec.lt_def] at hlt <;> omega
    dsimp only
    by_cases henabled : env.isEip1559Enabled = true
    · rw [if_pos henabled, if_pos henabled, saturatingSub_toNat, hmin]
    · rw [if_neg henabled, if_neg henabled, hmin]

lemma pays_beneficiary (tx : OptimismTxEnv) (gasUsed : U256) :
    Pays (hash (.basic env.beneficiary), saturatingMul (rewardGasPrice env tx.toTxEnv) gasUsed)
      (hash (.basic env.beneficiary), priceDue env tx.toTxEnv * gasUsed.toNat) :=
  ⟨rfl, by rw [saturatingMul_toNat, rewardGasPrice_toNat]⟩

/-- There is one reward for each amount due. -/
lemma rewards_pay {policy : RewardPolicy κ} {tx : OptimismTxEnv}
    {calculateTxL1Cost : Option (List U8 → U256)} {gasUsed : U256} {rs : List (κ × U256)}
    (h : rewards hash env policy tx calculateTxL1Cost gasUsed = some rs) :
    List.Forall₂ Pays rs (amountsDue hash env policy tx calculateTxL1Cost gasUsed) := by
  have hbeneficiary := pays_beneficiary hash env tx gasUsed
  cases policy with
  | ethereum =>
    obtain rfl := Option.some.inj h
    exact .cons hbeneficiary .nil
  | optimism l1 vault =>
    unfold rewards at h
    unfold amountsDue l1CostDue
    dsimp only at h ⊢
    split_ifs at h ⊢
    · obtain rfl := Option.some.inj h
      exact .nil
    · cases henveloped : tx.optimism.envelopedTx with
      | none => simp [henveloped] at h
      | some envelopedTx =>
        cases calculateTxL1Cost with
        | none => simp [henveloped] at h
        | some l1Cost =>
          simp only [henveloped] at h
          obtain rfl := Option.some.inj h
          have hl1Cost := (l1Cost envelopedTx).isLt
          refine .cons hbeneficiary (.cons ⟨rfl, ?_⟩ (.cons ⟨rfl, ?_⟩ .nil))
          · dsimp only
            omega
          · exact saturatingMul_toNat ..

/-- Where the rewards are not known the code panics. -/
lemma rewards_ne_none_iff (policy : RewardPolicy κ) (tx : OptimismTxEnv)
    (calculateTxL1Cost : Option (List U8 → U256)) (gasUsed : U256) :
    rewards hash env policy tx calculateTxL1Cost gasUsed ≠ none ↔
      RewardsKnown policy tx calculateTxL1Cost := by
  unfold rewards RewardsKnown
  cases policy with
  | ethereum => simp
  | optimism l1 vault =>
    dsimp only
    split_ifs with hdeposit
    · simp [hdeposit]
    · cases tx.optimism.envelopedTx <;> cases calculateTxL1Cost <;> simp [hdeposit]

end Due

section Credit

/-- What a reward makes of the write of its recipient, if it can be added to it. -/
def credited (amount : U256) : Option MemoryValue → Option MemoryValue
  | none => some (.lazyRecipient amount)
  | some (.basic basic) =>
    some (.basic { basic with balance := saturatingAdd basic.balance amount })
  | some (.lazyRecipient addition) => some (.lazyRecipient (saturatingAdd addition amount))
  | some (.lazySender subtraction) => some (.lazySender (saturatingSub subtraction amount))
  | some _ => none

/-- A write is credited if it is replayed as a balance. -/
lemma credited_eq_none_iff (amount : U256) (value : Option MemoryValue) (before : ℤ) :
    credited amount value = none ↔ replayed before value = none := by
  rcases value with _ | value
  · simp [credited, replayed]
  · cases value <;> simp [credited, replayed]

/-- A reward that has room raises what the write is replayed to, and leaves room for the rest. -/
lemma replayed_credited {amount : U256} {due rest : ℕ} {value value' : Option MemoryValue}
    (hcredited : credited amount value = value') (hsome : value' ≠ none)
    (hamount : amount.toNat = min due (2 ^ 256 - 1)) (hroom : HasRoom (due + rest) value) :
    HasRoom rest value' ∧ ∀ before balance, replayed before value = some balance →
      replayed before value' = some (balance + due) := by
  subst hcredited
  rcases value with _ | value
  · simp only [HasRoom] at hroom
    have hexact : amount.toNat = due := by omega
    refine ⟨?_, fun before balance hbalance => ?_⟩
    · simp only [credited, HasRoom]
      omega
    · simp only [replayed, Option.some.injEq] at hbalance
      simp only [credited, replayed, hexact, hbalance]
  · cases value with
    | basic basic =>
      simp only [HasRoom] at hroom
      have hsum := saturatingAdd_toNat basic.balance amount
      refine ⟨?_, fun before balance hbalance => ?_⟩
      · simp only [credited, HasRoom]
        omega
      · simp only [replayed, Option.some.injEq] at hbalance
        simp only [credited, replayed, Option.some.injEq]
        omega
    | lazyRecipient addition =>
      simp only [HasRoom] at hroom
      have hsum := saturatingAdd_toNat addition amount
      refine ⟨?_, fun before balance hbalance => ?_⟩
      · simp only [credited, HasRoom]
        omega
      · simp only [replayed, Option.some.injEq] at hbalance
        simp only [credited, replayed, Option.some.injEq]
        omega
    | lazySender subtraction =>
      simp only [HasRoom] at hroom
      have hbound := subtraction.isLt
      have hdifference := saturatingSub_toNat subtraction amount
      refine ⟨?_, fun before balance hbalance => ?_⟩
      · simp only [credited, HasRoom]
        omega
      · simp only [replayed, Option.some.injEq] at hbalance
        simp only [credited, replayed, Option.some.injEq]
        omega
    | codeHash | storage | selfDestructed => exact absurd rfl hsome

variable {κ : Type} [DecidableEq κ]

/-- In a write set with one entry for each location a reward credits that of its recipient. -/
lemma applyReward_credits (recipient : κ) (amount : U256)
    {writeSet : WriteSet κ MemoryValue} (hnodup : (writeSet.map Prod.fst).Nodup) :
    (credited amount (MvMemory.written writeSet recipient) = none ∧
        applyReward recipient amount writeSet = .error .invalidMemoryValueType) ∨
      ∃ writeSet', applyReward recipient amount writeSet = .ok writeSet' ∧
        (writeSet'.map Prod.fst).Nodup ∧ MvMemory.written writeSet' recipient ≠ none ∧
        MvMemory.written writeSet' recipient =
          credited amount (MvMemory.written writeSet recipient) := by
  induction writeSet with
  | nil => exact .inr ⟨_, rfl, by simp, by simp [MvMemory.written_cons],
      by simp [MvMemory.written_cons, credited]⟩
  | cons w writeSet ih =>
    obtain ⟨l, value⟩ := w
    rw [List.map_cons, List.nodup_cons] at hnodup
    obtain ⟨hfresh, hnodup⟩ := hnodup
    have hunwritten : MvMemory.written writeSet l = none :=
      MvMemory.written_eq_none.mpr fun w hw heq => hfresh (List.mem_map.mpr ⟨w, hw, heq⟩)
    unfold applyReward
    by_cases heq : l = recipient
    · subst heq
      have hfirst : ∀ value : MemoryValue,
          MvMemory.written ((l, value) :: writeSet) l = some value := by
        intro value
        rw [MvMemory.written_cons, hunwritten, if_pos rfl, Option.none_or]
      rw [hfirst, if_pos rfl]
      cases value with
      | basic | lazyRecipient | lazySender =>
        refine .inr ⟨_, rfl, List.nodup_cons.mpr ⟨hfresh, hnodup⟩, ?_, hfirst _⟩
        rw [hfirst]
        simp
      | codeHash | storage | selfDestructed => exact .inl ⟨rfl, rfl⟩
    · rw [MvMemory.written_cons, if_neg heq, Option.or_none, if_neg heq]
      obtain ⟨hnone, herror⟩ | ⟨writeSet', hok, hnodup', hwritten⟩ := ih hnodup
      · exact .inl ⟨hnone, by rw [herror]; rfl⟩
      · refine .inr ⟨(l, value) :: writeSet', by rw [hok]; rfl, ?_, ?_⟩
        · refine List.nodup_cons.mpr ⟨fun hmem => ?_, hnodup'⟩
          obtain ⟨w, hw, hl⟩ := List.mem_map.mp hmem
          obtain h | h := (applyReward_written hok).mp (MvMemory.written_ne_none.mpr ⟨w, hw, hl⟩)
          · exact heq h
          · exact h hunwritten
        · rw [MvMemory.written_cons, if_neg heq, Option.or_none]
          exact hwritten

/-- What is due to a location, all in all. One location may be owed several amounts. -/
def amountDue (dues : List (κ × ℕ)) (l : κ) : ℕ := ((dues.filter (·.1 = l)).map Prod.snd).sum

lemma amountDue_cons (due : κ × ℕ) (dues : List (κ × ℕ)) (l : κ) :
    amountDue (due :: dues) l = (if due.1 = l then due.2 else 0) + amountDue dues l := by
  unfold amountDue
  split_ifs with heq
  · rw [List.filter_cons_of_pos (by simpa using heq), List.map_cons, List.sum_cons]
  · rw [List.filter_cons_of_neg (by simpa using heq), Nat.zero_add]

lemma amountDue_eq_zero {dues : List (κ × ℕ)} {l : κ} (h : l ∉ dues.map Prod.fst) :
    amountDue dues l = 0 := by
  have hfilter : dues.filter (·.1 = l) = [] := by
    refine List.filter_eq_nil_iff.mpr fun due hdue => ?_
    have hne : due.1 ≠ l := fun heq => h (List.mem_map.mpr ⟨due, hdue, heq⟩)
    simpa using hne
  rw [amountDue, hfilter]
  rfl

/-- The writes of the recipients are replayed to what is due on top of what they were, and the
other writes are as they were. -/
structure AddsUp (dues : List (κ × ℕ)) (writeSet writeSet' : WriteSet κ MemoryValue) : Prop where
  nodup : (writeSet'.map Prod.fst).Nodup
  recipients : ∀ l ∈ dues.map Prod.fst, ∀ before, ∃ balance,
    replayed before (MvMemory.written writeSet l) = some balance ∧
      replayed before (MvMemory.written writeSet' l) = some (balance + amountDue dues l)
  others : ∀ l ∉ dues.map Prod.fst, MvMemory.written writeSet' l = MvMemory.written writeSet l

/-- One more reward is paid before the others. -/
lemma AddsUp.cons {l : κ} {due : ℕ} {dues : List (κ × ℕ)}
    {writeSet mid writeSet' : WriteSet κ MemoryValue} (h : AddsUp dues mid writeSet')
    (hothers : ∀ l' ≠ l, MvMemory.written mid l' = MvMemory.written writeSet l')
    (hraised : ∀ before, ∃ balance, replayed before (MvMemory.written writeSet l) = some balance ∧
      replayed before (MvMemory.written mid l) = some (balance + due)) :
    AddsUp ((l, due) :: dues) writeSet writeSet' := by
  refine ⟨h.nodup, ?_, ?_⟩
  · intro l' hmem before
    by_cases hl : l' = l
    · subst hl
      obtain ⟨balance, hbefore, hafter⟩ := hraised before
      refine ⟨balance, hbefore, ?_⟩
      rw [amountDue_cons, if_pos rfl]
      by_cases hagain : l' ∈ dues.map Prod.fst
      · obtain ⟨balance', hmidBalance, hfinal⟩ := h.recipients l' hagain before
        obtain rfl := Option.some.inj (hafter.symm.trans hmidBalance)
        rw [hfinal, Nat.cast_add, add_assoc]
      · rw [h.others l' hagain, hafter, amountDue_eq_zero hagain, Nat.add_zero]
    · have hrest : l' ∈ dues.map Prod.fst := (List.mem_cons.mp hmem).resolve_left hl
      obtain ⟨balance, hbefore, hafter⟩ := h.recipients l' hrest before
      rw [hothers l' hl] at hbefore
      refine ⟨balance, hbefore, ?_⟩
      rw [hafter, amountDue_cons, if_neg (Ne.symm hl), Nat.zero_add]
  · intro l' hmem
    rw [List.map_cons, List.mem_cons, not_or] at hmem
    rw [h.others l' hmem.2, hothers l' hmem.1]

/-- The rewards are paid, or a recipient's write is not one of a balance. -/
lemma applyRewardList_addsUp {rs : List (κ × U256)} {dues : List (κ × ℕ)}
    {writeSet : WriteSet κ MemoryValue} (hpays : List.Forall₂ Pays rs dues)
    (hnodup : (writeSet.map Prod.fst).Nodup)
    (hroom : ∀ l, HasRoom (amountDue dues l) (MvMemory.written writeSet l)) :
    (∃ l ∈ dues.map Prod.fst, (∀ before, replayed before (MvMemory.written writeSet l) = none) ∧
        applyRewardList rs writeSet = .error .invalidMemoryValueType) ∨
      ∃ writeSet', applyRewardList rs writeSet = .ok writeSet' ∧ AddsUp dues writeSet writeSet' := by
  induction hpays generalizing writeSet with
  | nil => exact .inr ⟨writeSet, rfl, hnodup, by simp, by simp⟩
  | @cons r due rs dues hpay _ ih =>
    obtain ⟨l, due⟩ := due
    obtain ⟨rfl, hamount⟩ := hpay
    rw [applyRewardList, List.foldlM_cons]
    obtain ⟨hnone, herror⟩ | ⟨mid, hmid, hnodupMid, hsome, hcredited⟩ :=
      applyReward_credits r.1 r.2 hnodup
    · refine .inl ⟨r.1, List.mem_cons_self, ?_, by rw [herror]; rfl⟩
      intro before
      exact (credited_eq_none_iff r.2 _ before).mp hnone
    · have hself := hroom r.1
      rw [amountDue_cons, if_pos rfl] at hself
      obtain ⟨hroomSelf, hadded⟩ := replayed_credited hcredited.symm hsome hamount hself
      have hothers : ∀ l, l ≠ r.1 → MvMemory.written mid l = MvMemory.written writeSet l :=
        fun l hne => applyReward_written_of_ne hmid hne
      have hroomMid : ∀ l, HasRoom (amountDue dues l) (MvMemory.written mid l) := by
        intro l
        by_cases hl : l = r.1
        · rw [hl]
          exact hroomSelf
        · have hroomOther := hroom l
          rw [amountDue_cons, if_neg (Ne.symm hl), Nat.zero_add] at hroomOther
          rw [hothers l hl]
          exact hroomOther
      have hraised : ∀ before, ∃ balance,
          replayed before (MvMemory.written writeSet r.1) = some balance ∧
            replayed before (MvMemory.written mid r.1) = some (balance + due) := by
        intro before
        have hbalance : replayed before (MvMemory.written writeSet r.1) ≠ none := by
          rw [Ne, ← credited_eq_none_iff r.2, ← hcredited]
          exact hsome
        obtain ⟨balance, hbefore⟩ := Option.ne_none_iff_exists'.mp hbalance
        exact ⟨balance, hbefore, hadded before balance hbefore⟩
      rw [hmid]
      obtain ⟨l, hmem, hnone, herror⟩ | ⟨writeSet', hok, haddsUp⟩ := ih hnodupMid hroomMid
      · refine .inl ⟨l, List.mem_cons_of_mem _ hmem, fun before => ?_, herror⟩
        by_cases hl : l = r.1
        · obtain ⟨balance, -, hafter⟩ := hraised before
          rw [← hl, hnone before] at hafter
          cases hafter
        · rw [← hothers l hl]
          exact hnone before
      · exact .inr ⟨writeSet', hok, haddsUp.cons hothers hraised⟩

lemma hasRoom_zero (value : Option MemoryValue) : HasRoom 0 value := by
  rcases value with _ | value
  · simp [HasRoom]
  · cases value with
    | basic basic => simpa [HasRoom] using basic.balance.isLt
    | lazyRecipient addition => simpa [HasRoom] using addition.isLt
    | codeHash | storage | lazySender | selfDestructed => simp [HasRoom]

/-- What the write set has at a location is a balance or a change to one, or nothing. -/
def IsBalance : Option MemoryValue → Prop
  | none | some (.basic _) | some (.lazyRecipient _) | some (.lazySender _) => True
  | some _ => False

lemma isBalance_iff (value : Option MemoryValue) (before : ℤ) :
    IsBalance value ↔ replayed before value ≠ none := by
  rcases value with _ | value
  · simp [IsBalance, replayed]
  · cases value <;> simp [IsBalance, replayed]

variable (hash : MemoryLocation → κ) (env : ChainEnv)

/-- `Vm::apply_rewards`; none is a panic, for missing enveloped bytes or a missing `l1_block_info`.
-/
def applyRewardsUnder (policy : RewardPolicy κ) (tx : OptimismTxEnv)
    (calculateTxL1Cost : Option (List U8 → U256)) (gasUsed : U256)
    (writeSet : WriteSet κ MemoryValue) :
    Option (Except ReadError (WriteSet κ MemoryValue)) :=
  (rewards hash env policy tx calculateTxL1Cost gasUsed).map fun rs => applyRewardList rs writeSet

/-- The rewards are paid without a panic or an error, and all balances rise by what is due to them,
and no others. -/
def RewardsAddUp (policy : RewardPolicy κ) (tx : OptimismTxEnv)
    (calculateTxL1Cost : Option (List U8 → U256)) (gasUsed : U256)
    (writeSet : WriteSet κ MemoryValue) : Prop :=
  ∃ writeSet', applyRewardsUnder hash env policy tx calculateTxL1Cost gasUsed writeSet =
      some (.ok writeSet') ∧
    AddsUp (amountsDue hash env policy tx calculateTxL1Cost gasUsed) writeSet writeSet'

variable {hash env}

/-- Rewards are added to balances exactly as they are due, wherever they can be worked out and there
is nothing but balances to add them to. The write set is that of an execution, with one entry for a
location, and no sum leaves the range. -/
theorem rewardsAddUp_iff {policy : RewardPolicy κ} {tx : OptimismTxEnv}
    {calculateTxL1Cost : Option (List U8 → U256)} {gasUsed : U256}
    {writeSet : WriteSet κ MemoryValue} (hnodup : (writeSet.map Prod.fst).Nodup)
    (hroom : ∀ l ∈ (amountsDue hash env policy tx calculateTxL1Cost gasUsed).map Prod.fst,
      HasRoom (amountDue (amountsDue hash env policy tx calculateTxL1Cost gasUsed) l)
        (MvMemory.written writeSet l)) :
    RewardsAddUp hash env policy tx calculateTxL1Cost gasUsed writeSet ↔
      RewardsKnown policy tx calculateTxL1Cost ∧
        ∀ l ∈ (amountsDue hash env policy tx calculateTxL1Cost gasUsed).map Prod.fst,
          IsBalance (MvMemory.written writeSet l) := by
  constructor
  · rintro ⟨writeSet', hpaid, haddsUp⟩
    obtain ⟨rs, hrewards, -⟩ := Option.map_eq_some_iff.mp hpaid
    refine ⟨?_, fun l hl => ?_⟩
    · rw [← rewards_ne_none_iff hash env policy tx calculateTxL1Cost gasUsed, hrewards]
      simp
    · obtain ⟨balance, hbefore, -⟩ := haddsUp.recipients l hl 0
      rw [isBalance_iff _ 0, hbefore]
      simp
  · rintro ⟨hknown, hbalances⟩
    rw [← rewards_ne_none_iff hash env policy tx calculateTxL1Cost gasUsed] at hknown
    obtain ⟨rs, hrewards⟩ := Option.ne_none_iff_exists'.mp hknown
    have hroomAll : ∀ l, HasRoom
        (amountDue (amountsDue hash env policy tx calculateTxL1Cost gasUsed) l)
        (MvMemory.written writeSet l) := by
      intro l
      by_cases hl : l ∈ (amountsDue hash env policy tx calculateTxL1Cost gasUsed).map Prod.fst
      · exact hroom l hl
      · rw [amountDue_eq_zero hl]
        exact hasRoom_zero _
    unfold RewardsAddUp applyRewardsUnder
    rw [hrewards]
    obtain ⟨l, hl, hnone, -⟩ | ⟨writeSet', hpaid, haddsUp⟩ :=
      applyRewardList_addsUp (rewards_pay hash env hrewards) hnodup hroomAll
    · exact absurd (hnone 0) ((isBalance_iff _ 0).mp (hbalances l hl))
    · exact ⟨writeSet', by rw [Option.map_some, hpaid], haddsUp⟩

/-- The sender of a transfer is the beneficiary of its block. -/
theorem rewardsAddUp_ownBlock :
    RewardsAddUp id ⟨true, true, 3, 1⟩ .ethereum
      ⟨⟨1, 21000, 30, .call 2, 10, none, some 5, [], none⟩, ⟨none, none⟩⟩ none 10
      [(.basic 1, .lazySender 500), (.basic 2, .lazyRecipient 10)] := by
  refine (rewardsAddUp_iff (by decide) fun l hl => ?_).mpr ⟨trivial, fun l hl => ?_⟩
  · obtain rfl := List.mem_singleton.mp hl
    show 50 ≤ 500
    omega
  · obtain rfl := List.mem_singleton.mp hl
    trivial

/-- For the same transfer on Optimism, without its bytes, the code panics. -/
theorem not_rewardsAddUp_withoutBytes :
    (([(.basic 1, .lazySender 500), (.basic 2, .lazyRecipient 10)] :
        WriteSet MemoryLocation MemoryValue).map Prod.fst).Nodup ∧
      ¬ RewardsAddUp id ⟨true, true, 3, 1⟩ (.optimism (.basic 8) (.basic 9))
        ⟨⟨1, 21000, 30, .call 2, 10, none, some 5, [], none⟩, ⟨none, none⟩⟩ none 10
        [(.basic 1, .lazySender 500), (.basic 2, .lazyRecipient 10)] := by
  refine ⟨by decide, ?_⟩
  rintro ⟨writeSet', hpaid, -⟩
  cases hpaid

end Credit

end Pevm.Vm
