import Pevm.Lib.Fallible
import Pevm.Snapshot

/-!
# What is kept of the answers

A query leaves the caches in agreement with the provider and takes nothing out of them. Its answer
is cached then, or fetched without being kept, or that of an account that is not there.
-/
namespace Pevm.Snapshot
open Fallible

/-- Failing requests fail again. -/
lemma fetch_eq_ok {α : Type} {request : Except String α} {lives : ℕ} {value : α} :
    fetch request lives = .ok value ↔ request = .ok value := by
  induction lives with
  | zero => cases request <;> simp [fetch]
  | succ lives ih =>
    cases request with
    | ok v => simp [fetch]
    | error message => simpa [fetch] using ih

/-- What the provider says about an account, in its three answers. -/
structure Fetched (provider : Provider) (address : Address) (nonce : U64) (balance : U256)
    (code : List U8) : Prop where
  nonce : provider.getTransactionCount address = .ok nonce
  balance : provider.getBalance address = .ok balance
  code : provider.getCodeAt address = .ok code

lemma Fetched.unique {provider : Provider} {address : Address} {nonce nonce' : U64}
    {balance balance' : U256} {code code' : List U8}
    (h : Fetched provider address nonce balance code)
    (h' : Fetched provider address nonce' balance' code') :
    nonce = nonce' ∧ balance = balance' ∧ code = code' :=
  ⟨Except.ok.inj (h.nonce.symm.trans h'.nonce), Except.ok.inj (h.balance.symm.trans h'.balance),
    Except.ok.inj (h.code.symm.trans h'.code)⟩

section Kept
variable (provider : Provider) (precompiles : List Address) (address : Address)

/-- The provider knows of nothing at the address, which is no precompile. Such an account is not
cached. -/
def IsNew : Prop := address ∉ precompiles ∧ Fetched provider address 0 0 []

/-- The account is a precompile, or the provider knows of something there, so it is cached once it
is asked for. -/
def IsKept : Prop := ∃ nonce balance code, Fetched provider address nonce balance code ∧
  ¬ (address ∉ precompiles ∧ balance = 0 ∧ nonce = 0 ∧ code = [])

variable {provider precompiles address}

lemma IsKept.not_isNew (h : IsKept provider precompiles address) :
    ¬ IsNew provider precompiles address := by
  intro hnew
  obtain ⟨nonce, balance, code, hfetched, hkept⟩ := h
  obtain ⟨rfl, rfl, rfl⟩ := hfetched.unique hnew.2
  exact hkept ⟨hnew.1, rfl, rfl, rfl⟩

end Kept

namespace RpcStorage
variable {Bytecode Code : Type} {start rpc rpc' rpc'' : RpcStorage Bytecode Code}
  {address : Address} {log : List (Query × Answer Code)}

/-- What the caches say is what the provider says, and cached accounts come with their code. -/
structure Sound (rpc : RpcStorage Bytecode Code) : Prop where
  account : ∀ address account, rpc.cacheAccounts.lookup address = some account →
    IsKept rpc.provider rpc.precompiles address
  code : ∀ address account codeHash, rpc.cacheAccounts.lookup address = some account →
    account.codeHash = some codeHash → rpc.cacheBytecodes.lookup codeHash ≠ none
  slot : ∀ address account index value, rpc.cacheAccounts.lookup address = some account →
    account.storage.lookup index = some value →
      rpc.provider.getStorageAt address index = .ok value
  bytecode : ∀ codeHash code, rpc.cacheBytecodes.lookup codeHash = some code →
    ∃ address raw, rpc.provider.getCodeAt address = .ok raw ∧
      rpc.api.hashSlow (rpc.api.newRaw raw) = codeHash ∧ rpc.api.into (rpc.api.newRaw raw) = code

/-- What is cached stays, and only slots are added to an account. -/
structure Grows (rpc rpc' : RpcStorage Bytecode Code) : Prop where
  provider : rpc'.provider = rpc.provider
  precompiles : rpc'.precompiles = rpc.precompiles
  api : rpc'.api = rpc.api
  account : ∀ address account, rpc.cacheAccounts.lookup address = some account →
    ∃ account', rpc'.cacheAccounts.lookup address = some account' ∧
      account'.balance = account.balance ∧ account'.nonce = account.nonce ∧
      account'.codeHash = account.codeHash ∧
      ∀ index, account.storage.lookup index ≠ none → account'.storage.lookup index ≠ none
  bytecode : ∀ codeHash, rpc.cacheBytecodes.lookup codeHash ≠ none →
    rpc'.cacheBytecodes.lookup codeHash ≠ none
  blockHash : ∀ number blockHash, rpc.cacheBlockHashes.lookup number = some blockHash →
    rpc'.cacheBlockHashes.lookup number = some blockHash

lemma Grows.refl (rpc : RpcStorage Bytecode Code) : Grows rpc rpc where
  provider := rfl
  precompiles := rfl
  api := rfl
  account _ account h := ⟨account, h, rfl, rfl, rfl, fun _ h => h⟩
  bytecode _ h := h
  blockHash _ _ h := h

lemma Grows.trans (h : Grows rpc rpc') (h' : Grows rpc' rpc'') : Grows rpc rpc'' where
  provider := h'.provider.trans h.provider
  precompiles := h'.precompiles.trans h.precompiles
  api := h'.api.trans h.api
  account address account hlookup := by
    obtain ⟨account', hlookup', hbalance, hnonce, hcodeHash, hslots⟩ :=
      h.account address account hlookup
    obtain ⟨account'', hlookup'', hbalance', hnonce', hcodeHash', hslots'⟩ :=
      h'.account address account' hlookup'
    exact ⟨account'', hlookup'', hbalance'.trans hbalance, hnonce'.trans hnonce,
      hcodeHash'.trans hcodeHash, fun index hslot => hslots' index (hslots index hslot)⟩
  bytecode codeHash hlookup := h'.bytecode codeHash (h.bytecode codeHash hlookup)
  blockHash number blockHash hlookup :=
    h'.blockHash number blockHash (h.blockHash number blockHash hlookup)

/-- The slot of an account is cached, with any value. -/
def HasSlot (rpc : RpcStorage Bytecode Code) (address : Address) (index : U256) : Prop :=
  ∃ account, rpc.cacheAccounts.lookup address = some account ∧ account.storage.lookup index ≠ none

lemma Grows.hasSlot (h : Grows rpc rpc') {index : U256} (hslot : HasSlot rpc address index) :
    HasSlot rpc' address index := by
  obtain ⟨account, hlookup, hindex⟩ := hslot
  obtain ⟨account', hlookup', -, -, -, hslots⟩ := h.account address account hlookup
  exact ⟨account', hlookup', hslots index hindex⟩

section KeepAccount
variable {nonce : U64} {balance : U256} {code : List U8}

lemma keepCode_cases (rpc : RpcStorage Bytecode Code) (code : List U8) :
    rpc.keepCode code = (none, rpc.cacheBytecodes) ∨
      rpc.keepCode code = (some (rpc.api.hashSlow (rpc.api.newRaw code)),
        rpc.cacheBytecodes.insert (rpc.api.hashSlow (rpc.api.newRaw code))
          (rpc.api.into (rpc.api.newRaw code))) := by
  unfold keepCode
  dsimp only
  split_ifs
  · exact .inl rfl
  · exact .inr rfl

lemma keepCode_grows {codeHash : B256} (h : rpc.cacheBytecodes.lookup codeHash ≠ none) :
    (rpc.keepCode code).2.lookup codeHash ≠ none := by
  rcases rpc.keepCode_cases code with heq | heq
  · rw [heq]
    exact h
  · rw [heq]
    by_cases hsame : codeHash = rpc.api.hashSlow (rpc.api.newRaw code)
    · rw [hsame, AList.lookup_insert]
      simp
    · rw [AList.lookup_insert_ne hsame]
      exact h

lemma keepAccount_lookup_ne {other : Address} (h : other ≠ address) :
    (rpc.keepAccount address nonce balance code).cacheAccounts.lookup other =
      rpc.cacheAccounts.lookup other :=
  AList.lookup_insert_ne h

lemma keepAccount_lookup :
    (rpc.keepAccount address nonce balance code).cacheAccounts.lookup address =
      some ⟨balance, nonce, (rpc.keepCode code).1, none, ∅⟩ :=
  AList.lookup_insert _

lemma keepAccount_grows (hfresh : rpc.cacheAccounts.lookup address = none) :
    Grows rpc (rpc.keepAccount address nonce balance code) where
  provider := rfl
  precompiles := rfl
  api := rfl
  account other account hlookup := by
    have hne : other ≠ address := by
      intro heq
      rw [heq, hfresh] at hlookup
      cases hlookup
    exact ⟨account, (keepAccount_lookup_ne hne).trans hlookup, rfl, rfl, rfl, fun _ h => h⟩
  bytecode _ h := keepCode_grows h
  blockHash _ _ h := h

lemma keepAccount_sound (hsound : rpc.Sound)
    (hfetched : Fetched rpc.provider address nonce balance code)
    (hkept : ¬ (address ∉ rpc.precompiles ∧ balance = 0 ∧ nonce = 0 ∧ code = [])) :
    (rpc.keepAccount address nonce balance code).Sound where
  account other account hlookup := by
    by_cases heq : other = address
    · rw [heq]
      exact ⟨nonce, balance, code, hfetched, hkept⟩
    · rw [keepAccount_lookup_ne heq] at hlookup
      exact hsound.account other account hlookup
  code other account codeHash hlookup hcodeHash := by
    by_cases heq : other = address
    · subst heq
      rw [keepAccount_lookup] at hlookup
      obtain rfl := Option.some.inj hlookup
      show (rpc.keepCode code).2.lookup codeHash ≠ none
      rcases rpc.keepCode_cases code with heq | heq
      · rw [heq] at hcodeHash
        cases hcodeHash
      · rw [heq] at hcodeHash ⊢
        obtain rfl := Option.some.inj hcodeHash
        rw [AList.lookup_insert]
        simp
    · rw [keepAccount_lookup_ne heq] at hlookup
      exact keepCode_grows (hsound.code other account codeHash hlookup hcodeHash)
  slot other account index value hlookup hslot := by
    by_cases heq : other = address
    · subst heq
      rw [keepAccount_lookup] at hlookup
      obtain rfl := Option.some.inj hlookup
      cases hslot
    · rw [keepAccount_lookup_ne heq] at hlookup
      exact hsound.slot other account index value hlookup hslot
  bytecode codeHash code' hlookup := by
    replace hlookup : (rpc.keepCode code).2.lookup codeHash = some code' := hlookup
    rcases rpc.keepCode_cases code with heq | heq
    · rw [heq] at hlookup
      exact hsound.bytecode codeHash code' hlookup
    · rw [heq] at hlookup
      by_cases hsame : codeHash = rpc.api.hashSlow (rpc.api.newRaw code)
      · subst hsame
        rw [AList.lookup_insert] at hlookup
        exact ⟨address, code, hfetched.code, rfl, Option.some.inj hlookup⟩
      · rw [AList.lookup_insert_ne hsame] at hlookup
        exact hsound.bytecode codeHash code' hlookup

/-- An account is kept without slots. -/
lemma keepAccount_hasSlot {other : Address} {index : U256}
    (h : HasSlot (rpc.keepAccount address nonce balance code) other index) :
    HasSlot rpc other index := by
  obtain ⟨account, hlookup, hslot⟩ := h
  by_cases heq : other = address
  · subst heq
    rw [keepAccount_lookup] at hlookup
    obtain rfl := Option.some.inj hlookup
    exact absurd rfl hslot
  · rw [keepAccount_lookup_ne heq] at hlookup
    exact ⟨account, hlookup, hslot⟩

end KeepAccount

lemma not_any_precompiles :
    (!rpc.precompiles.any (· = address)) = true ↔ address ∉ rpc.precompiles := by
  rw [Bool.not_eq_true', ← Bool.not_eq_true, not_iff_not]
  simp

/-- What a call to `basic` leaves behind, and what it answers. -/
theorem basic_spec (hsound : rpc.Sound) {answer : Option AccountBasic}
    (h : rpc.basic address = .ok (answer, rpc')) :
    rpc'.Sound ∧ Grows rpc rpc' ∧
      (∀ other index, HasSlot rpc' other index → HasSlot rpc other index) ∧
      ((∃ account, rpc'.cacheAccounts.lookup address = some account ∧
          answer = some ⟨account.balance, account.nonce⟩) ∨
        (IsNew rpc.provider rpc.precompiles address ∧ answer = none)) := by
  unfold basic at h
  cases hlookup : rpc.cacheAccounts.lookup address with
  | some account =>
    rw [hlookup] at h
    obtain ⟨rfl, rfl⟩ := Prod.mk.inj (Except.ok.inj h)
    exact ⟨hsound, .refl _, fun _ _ h => h, .inl ⟨account, hlookup, rfl⟩⟩
  | none =>
    rw [hlookup] at h
    obtain ⟨nonce, hnonce, h⟩ := bind_eq_ok.mp h
    obtain ⟨balance, hbalance, h⟩ := bind_eq_ok.mp h
    obtain ⟨code, hcode, h⟩ := bind_eq_ok.mp h
    have hfetched : Fetched rpc.provider address nonce balance code :=
      ⟨fetch_eq_ok.mp hnonce, fetch_eq_ok.mp hbalance, fetch_eq_ok.mp hcode⟩
    split_ifs at h with hnew <;> rw [not_any_precompiles] at hnew
    · obtain ⟨rfl, rfl⟩ := Prod.mk.inj (Except.ok.inj h)
      obtain ⟨hprecompile, rfl, rfl, rfl⟩ := hnew
      exact ⟨hsound, .refl _, fun _ _ h => h, .inr ⟨⟨hprecompile, hfetched⟩, rfl⟩⟩
    · obtain ⟨rfl, rfl⟩ := Prod.mk.inj (Except.ok.inj h)
      exact ⟨keepAccount_sound hsound hfetched hnew, keepAccount_grows hlookup,
        fun _ _ => keepAccount_hasSlot, .inl ⟨_, keepAccount_lookup, rfl⟩⟩

section KeepSlot
variable {index value : U256} {account : EvmAccount Code}

lemma keepSlot_lookup (hlookup : rpc.cacheAccounts.lookup address = some account)
    (other : Address) : (rpc.keepSlot address index value).cacheAccounts.lookup other =
      if other = address then
        some { account with storage := account.storage.insert index value }
      else rpc.cacheAccounts.lookup other := by
  unfold keepSlot
  rw [hlookup]
  dsimp only
  split_ifs with heq
  · rw [heq]
    exact AList.lookup_insert _
  · exact AList.lookup_insert_ne heq

lemma keepSlot_eq (h : rpc.cacheAccounts.lookup address = none) :
    rpc.keepSlot address index value = rpc := by
  unfold keepSlot
  rw [h]

/-- Nothing but the accounts is changed. -/
lemma keepSlot_frame (rpc : RpcStorage Bytecode Code) (address : Address) (index value : U256) :
    rpc.keepSlot address index value =
      { rpc with cacheAccounts := (rpc.keepSlot address index value).cacheAccounts } := by
  unfold keepSlot
  split <;> rfl

lemma keepSlot_grows : Grows rpc (rpc.keepSlot address index value) := by
  cases hlookup : rpc.cacheAccounts.lookup address with
  | none =>
    rw [keepSlot_eq hlookup]
    exact .refl rpc
  | some account =>
    rw [keepSlot_frame]
    refine ⟨rfl, rfl, rfl, ?_, fun _ h => h, fun _ _ h => h⟩
    intro other account' hother
    rw [keepSlot_lookup hlookup]
    split_ifs with heq
    · rw [heq, hlookup] at hother
      obtain rfl := Option.some.inj hother
      refine ⟨_, rfl, rfl, rfl, rfl, fun index' hslot => ?_⟩
      by_cases hindex : index' = index
      · rw [hindex, AList.lookup_insert]
        simp
      · rw [AList.lookup_insert_ne hindex]
        exact hslot
    · exact ⟨account', hother, rfl, rfl, rfl, fun _ h => h⟩

lemma keepSlot_sound (hsound : rpc.Sound)
    (hvalue : rpc.provider.getStorageAt address index = .ok value) :
    (rpc.keepSlot address index value).Sound := by
  cases hlookup : rpc.cacheAccounts.lookup address with
  | none =>
    rw [keepSlot_eq hlookup]
    exact hsound
  | some account =>
    rw [keepSlot_frame]
    constructor
    · intro other account' hother
      rw [keepSlot_lookup hlookup] at hother
      split_ifs at hother with heq
      · rw [heq]
        exact hsound.account address account hlookup
      · exact hsound.account other account' hother
    · intro other account' codeHash hother hcodeHash
      rw [keepSlot_lookup hlookup] at hother
      split_ifs at hother with heq
      · obtain rfl := Option.some.inj hother
        exact hsound.code address account codeHash hlookup hcodeHash
      · exact hsound.code other account' codeHash hother hcodeHash
    · intro other account' index' value' hother hslot
      rw [keepSlot_lookup hlookup] at hother
      split_ifs at hother with heq
      · obtain rfl := Option.some.inj hother
        rw [heq]
        by_cases hindex : index' = index
        · subst hindex
          rw [AList.lookup_insert] at hslot
          rw [← Option.some.inj hslot]
          exact hvalue
        · rw [AList.lookup_insert_ne hindex] at hslot
          exact hsound.slot address account index' value' hlookup hslot
      · exact hsound.slot other account' index' value' hother hslot
    · exact hsound.bytecode

lemma keepSlot_hasSlot {other : Address} {index' : U256}
    (h : HasSlot (rpc.keepSlot address index value) other index') :
    HasSlot rpc other index' ∨ (other = address ∧ index' = index) := by
  cases hlookup : rpc.cacheAccounts.lookup address with
  | none =>
    rw [keepSlot_eq hlookup] at h
    exact .inl h
  | some account =>
    obtain ⟨account', hother, hslot⟩ := h
    rw [keepSlot_lookup hlookup] at hother
    split_ifs at hother with heq
    · by_cases hindex : index' = index
      · exact .inr ⟨heq, hindex⟩
      · obtain rfl := Option.some.inj hother
        rw [AList.lookup_insert_ne hindex] at hslot
        exact .inl ⟨account, heq ▸ hlookup, hslot⟩
    · exact .inl ⟨account', hother, hslot⟩

/-- The slot of an account that is kept is kept with it. -/
lemma hasSlot_keepSlot (hlookup : rpc.cacheAccounts.lookup address = some account) :
    HasSlot (rpc.keepSlot address index value) address index := by
  refine ⟨_, (keepSlot_lookup hlookup address).trans (if_pos rfl), ?_⟩
  rw [AList.lookup_insert]
  simp

end KeepSlot

/-- What a call to `storage` leaves behind, and what it answers. -/
theorem storage_spec (hsound : rpc.Sound) {index value : U256}
    (h : rpc.storage address index = .ok (value, rpc')) :
    rpc'.Sound ∧ Grows rpc rpc' ∧
      (∀ other index', HasSlot rpc' other index' →
        HasSlot rpc other index' ∨ (other = address ∧ index' = index)) ∧
      rpc.provider.getStorageAt address index = .ok value ∧
      (HasSlot rpc' address index ∨ IsNew rpc.provider rpc.precompiles address) := by
  unfold storage at h
  cases hslot : (rpc.cacheAccounts.lookup address).bind (·.storage.lookup index) with
  | some value' =>
    rw [hslot] at h
    obtain ⟨rfl, rfl⟩ := Prod.mk.inj (Except.ok.inj h)
    obtain ⟨account, hlookup, hindex⟩ := Option.bind_eq_some_iff.mp hslot
    refine ⟨hsound, .refl _, fun _ _ h => .inl h, ?_, .inl ⟨account, hlookup, by rw [hindex]; simp⟩⟩
    exact hsound.slot address account index value' hlookup hindex
  | none =>
    rw [hslot] at h
    obtain ⟨value', hvalue, h⟩ := bind_eq_ok.mp h
    obtain ⟨⟨answer, mid⟩, hbasic, h⟩ := bind_eq_ok.mp h
    obtain ⟨rfl, rfl⟩ := Prod.mk.inj (Except.ok.inj h)
    have hfetched := fetch_eq_ok.mp hvalue
    obtain ⟨hsoundMid, hgrows, hslots, hkept⟩ := basic_spec hsound hbasic
    have hfetchedMid : mid.provider.getStorageAt address index = .ok value' := by
      rw [hgrows.provider]
      exact hfetched
    refine ⟨keepSlot_sound hsoundMid hfetchedMid, hgrows.trans keepSlot_grows, ?_, hfetched, ?_⟩
    · intro other index' h
      exact (keepSlot_hasSlot h).imp_left (hslots other index')
    · rcases hkept with ⟨account, hlookup, -⟩ | ⟨hnew, -⟩
      · exact .inl (hasSlot_keepSlot hlookup)
      · exact .inr hnew

/-- What a call to `block_hash` leaves behind, and what it answers. -/
theorem blockHash_spec (hsound : rpc.Sound) {number : U64} {blockHash : B256}
    (h : rpc.blockHash number = .ok (blockHash, rpc')) :
    rpc'.Sound ∧ Grows rpc rpc' ∧ rpc'.cacheAccounts = rpc.cacheAccounts ∧
      rpc'.cacheBlockHashes.lookup number = some blockHash := by
  unfold RpcStorage.blockHash at h
  cases hlookup : rpc.cacheBlockHashes.lookup number with
  | some blockHash' =>
    rw [hlookup] at h
    obtain ⟨rfl, rfl⟩ := Prod.mk.inj (Except.ok.inj h)
    exact ⟨hsound, .refl _, rfl, hlookup⟩
  | none =>
    rw [hlookup] at h
    obtain ⟨block, -, h⟩ := bind_eq_ok.mp h
    cases block with
    | none => cases h
    | some blockHash' =>
      obtain ⟨rfl, rfl⟩ := Prod.mk.inj (Except.ok.inj h)
      refine ⟨⟨hsound.account, hsound.code, hsound.slot, hsound.bytecode⟩, ?_, rfl,
        AList.lookup_insert _⟩
      refine { Grows.refl rpc with blockHash := fun other blockHash hother => ?_ }
      have hne : other ≠ number := by
        intro heq
        rw [heq, hlookup] at hother
        cases hother
      exact (AList.lookup_insert_ne hne).trans hother

/-- Where an answer comes from, and what is cached of it afterwards. -/
def Answered (rpc : RpcStorage Bytecode Code) : Query → Answer Code → Prop
  | .basic address, answer =>
      (∃ account, rpc.cacheAccounts.lookup address = some account ∧
          answer = .basic (some ⟨account.balance, account.nonce⟩)) ∨
        (IsNew rpc.provider rpc.precompiles address ∧ answer = .basic none)
  | .codeHash address, answer =>
      (∃ account, rpc.cacheAccounts.lookup address = some account ∧
          answer = .codeHash account.codeHash) ∨
        (IsNew rpc.provider rpc.precompiles address ∧ answer = .codeHash none)
  | .codeByHash codeHash, answer => rpc.cacheBytecodes.lookup codeHash ≠ none ∧
      ∃ address raw, rpc.provider.getCodeAt address = .ok raw ∧
        rpc.api.hashSlow (rpc.api.newRaw raw) = codeHash ∧
        answer = .code (some (rpc.api.into (rpc.api.newRaw raw)))
  | .hasStorage address, answer => ∃ root, rpc.provider.getProof address = .ok root ∧
      answer = .hasStorage (decide (root ≠ emptyRootHash))
  | .storage address index, answer => ∃ value,
      rpc.provider.getStorageAt address index = .ok value ∧ answer = .storage value ∧
        (HasSlot rpc address index ∨ IsNew rpc.provider rpc.precompiles address)
  | .blockHash number, answer => ∃ blockHash,
      rpc.cacheBlockHashes.lookup number = some blockHash ∧ answer = .blockHash blockHash

lemma Answered.mono (hgrows : Grows rpc rpc') {query : Query} {answer : Answer Code}
    (h : Answered rpc query answer) : Answered rpc' query answer := by
  cases query with
  | basic address =>
    rcases h with ⟨account, hlookup, rfl⟩ | ⟨hnew, rfl⟩
    · obtain ⟨account', hlookup', hbalance, hnonce, -⟩ := hgrows.account _ _ hlookup
      exact .inl ⟨account', hlookup', by rw [hbalance, hnonce]⟩
    · exact .inr ⟨by rw [hgrows.provider, hgrows.precompiles]; exact hnew, rfl⟩
  | codeHash address =>
    rcases h with ⟨account, hlookup, rfl⟩ | ⟨hnew, rfl⟩
    · obtain ⟨account', hlookup', -, -, hcodeHash, -⟩ := hgrows.account _ _ hlookup
      exact .inl ⟨account', hlookup', by rw [hcodeHash]⟩
    · exact .inr ⟨by rw [hgrows.provider, hgrows.precompiles]; exact hnew, rfl⟩
  | codeByHash codeHash =>
    obtain ⟨hlookup, hcode⟩ := h
    unfold Answered
    rw [hgrows.provider, hgrows.api]
    exact ⟨hgrows.bytecode codeHash hlookup, hcode⟩
  | hasStorage address =>
    unfold Answered
    rw [hgrows.provider]
    exact h
  | storage address index =>
    obtain ⟨value, hvalue, hanswer, hslot⟩ := h
    unfold Answered
    rw [hgrows.provider, hgrows.precompiles]
    exact ⟨value, hvalue, hanswer, hslot.imp_left hgrows.hasSlot⟩
  | blockHash number =>
    obtain ⟨blockHash, hlookup, hanswer⟩ := h
    exact ⟨blockHash, hgrows.blockHash _ _ hlookup, hanswer⟩

/-- One query. Code is only asked for where it has been cached. -/
theorem answer_spec (hsound : rpc.Sound) {query : Query} {answer : Answer Code}
    (hknown : ∀ codeHash, query = .codeByHash codeHash →
      rpc.cacheBytecodes.lookup codeHash ≠ none)
    (h : rpc.answer query = .ok (answer, rpc')) :
    rpc'.Sound ∧ Grows rpc rpc' ∧
      (∀ other index, HasSlot rpc' other index →
        HasSlot rpc other index ∨ query = .storage other index) ∧
      Answered rpc' query answer := by
  cases query with
  | basic address =>
    obtain ⟨⟨account, mid⟩, hbasic, heq⟩ := map_eq_ok.mp h
    obtain ⟨rfl, rfl⟩ := Prod.mk.inj heq
    obtain ⟨hsound', hgrows, hslots, hkept⟩ := basic_spec hsound hbasic
    refine ⟨hsound', hgrows, fun other index h => .inl (hslots other index h), ?_⟩
    unfold Answered
    rw [hgrows.provider, hgrows.precompiles]
    rcases hkept with ⟨account, hlookup, rfl⟩ | ⟨hnew, rfl⟩
    · exact .inl ⟨account, hlookup, rfl⟩
    · exact .inr ⟨hnew, rfl⟩
  | codeHash address =>
    obtain ⟨⟨codeHash, mid⟩, hcodeHash, heq⟩ := map_eq_ok.mp h
    obtain ⟨⟨account, last⟩, hbasic, hlast⟩ := bind_eq_ok.mp hcodeHash
    obtain ⟨rfl, rfl⟩ := Prod.mk.inj (Except.ok.inj hlast)
    obtain ⟨rfl, rfl⟩ := Prod.mk.inj heq
    obtain ⟨hsound', hgrows, hslots, hkept⟩ := basic_spec hsound hbasic
    refine ⟨hsound', hgrows, fun other index h => .inl (hslots other index h), ?_⟩
    unfold Answered
    rw [hgrows.provider, hgrows.precompiles]
    cases hlookup : last.cacheAccounts.lookup address with
    | some account => exact .inl ⟨account, hlookup, rfl⟩
    | none =>
      rcases hkept with ⟨account, hsome, -⟩ | ⟨hnew, -⟩
      · rw [hlookup] at hsome
        cases hsome
      · exact .inr ⟨hnew, rfl⟩
  | codeByHash codeHash =>
    obtain ⟨rfl, rfl⟩ := Prod.mk.inj (Except.ok.inj h)
    have hcached := hknown codeHash rfl
    obtain ⟨code, hlookup⟩ := Option.ne_none_iff_exists'.mp hcached
    obtain ⟨address, raw, hraw, hhash, rfl⟩ := hsound.bytecode codeHash code hlookup
    exact ⟨hsound, .refl _, fun _ _ h => .inl h, hcached, address, raw, hraw, hhash,
      congrArg Answer.code hlookup⟩
  | hasStorage address =>
    obtain ⟨stored, hstored, heq⟩ := map_eq_ok.mp h
    obtain ⟨rfl, rfl⟩ := Prod.mk.inj heq
    obtain ⟨root, hroot, hdecide⟩ := bind_eq_ok.mp hstored
    obtain rfl := Except.ok.inj hdecide
    exact ⟨hsound, .refl _, fun _ _ h => .inl h, root, fetch_eq_ok.mp hroot, rfl⟩
  | storage address index =>
    obtain ⟨⟨value, mid⟩, hstorage, heq⟩ := map_eq_ok.mp h
    obtain ⟨rfl, rfl⟩ := Prod.mk.inj heq
    obtain ⟨hsound', hgrows, hslots, hvalue, hkept⟩ := storage_spec hsound hstorage
    refine ⟨hsound', hgrows, fun other index' h => (hslots other index' h).imp_right ?_, ?_⟩
    · rintro ⟨rfl, rfl⟩
      rfl
    · unfold Answered
      rw [hgrows.provider, hgrows.precompiles]
      exact ⟨value, hvalue, rfl, hkept⟩
  | blockHash number =>
    obtain ⟨⟨blockHash, mid⟩, hblockHash, heq⟩ := map_eq_ok.mp h
    obtain ⟨rfl, rfl⟩ := Prod.mk.inj heq
    obtain ⟨hsound', hgrows, haccounts, hlookup⟩ := blockHash_spec hsound hblockHash
    refine ⟨hsound', hgrows, fun other index h => .inl ?_, blockHash, hlookup, rfl⟩
    unfold HasSlot at h
    rw [haccounts] at h
    exact h

end RpcStorage

end Pevm.Snapshot
