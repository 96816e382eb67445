import Pevm.LazyEvaluation
import Pevm.Vm
import Pevm.VmDb.Cache

/-!
# What the write set keeps

Later transactions see an account as the write set laid over what was read of it; revm commits
the account itself. The two are compared before the rewards.
-/
namespace Pevm
open Saturating

section Commit
variable {Bytecode : Type}

/-- Balance and nonce of an account that revm commits. -/
def RevmAccount.toBasic (account : RevmAccount Bytecode) : AccountBasic :=
  ⟨account.info.balance, account.info.nonce⟩

/-- The slot that a commit leaves. A created account starts without slots. -/
def RevmAccount.committedSlot (account : RevmAccount Bytecode) (before : U256 → U256)
    (index : U256) : U256 :=
  match account.storage.lookup index with
  | some slot => slot.presentValue
  | none => if account.isCreated then 0 else before index

/-- Balance, nonce and code hash in the answer to a read, with those of an empty account where there
is none. -/
def AccountInfo.toRead : Option (AccountInfo Bytecode) → AccountBasic × B256
  | some info => (⟨info.balance, info.nonce⟩, info.codeHash)
  | none => (.default, keccakEmpty)

/-- The account that a transaction has read; one it has not is taken for missing. -/
def readValue (trace : List (Read × Answer Bytecode)) (address : Address) : AccountBasic × B256 :=
  match trace.lookup (.basic address) with
  | some (.basic info) => AccountInfo.toRead info
  | _ => (.default, keccakEmpty)

end Commit

namespace Vm
variable {κ Code Bytecode : Type} [DecidableEq κ] (hash : MemoryLocation → κ)
  (writeSet : WriteSet κ MemoryValue)

/-- What a later reader finds of balance and nonce: the write on top of what was read. Lazy values
are changes. -/
def overlayBasic (address : Address) (read : AccountBasic) : AccountBasic :=
  match MvMemory.written writeSet (hash (.basic address)) with
  | some value => LazyEvaluation.applyValue read value
  | none => read

def overlayCodeHash (address : Address) (read : B256) : B256 :=
  match MvMemory.written writeSet (hash (.codeHash address)) with
  | some (.codeHash codeHash) => codeHash
  | _ => read

def overlayStorage (address : Address) (index read : U256) : U256 :=
  match MvMemory.written writeSet (hash (.storage address index)) with
  | some (.storage value) => value
  | _ => read

/-- Laid over what was read, the write set gives the account that revm commits. -/
structure Kept (L : Set MemoryLocation) (before : Address → U256 → U256)
    (trace : List (Read × Answer Bytecode)) (e : Address × RevmAccount Bytecode) : Prop where
  basic : overlayBasic hash writeSet e.1 (readValue trace e.1).1 = e.2.toBasic
  codeHash : overlayCodeHash hash writeSet e.1 (readValue trace e.1).2 = e.2.info.codeHash
  storage : ∀ index, .storage e.1 index ∈ L →
    overlayStorage hash writeSet e.1 index (before e.1 index) =
      e.2.committedSlot (before e.1) index

/-- Nothing of the accounts that were touched and not destroyed is lost: the write set over what was
read gives what revm has committed. -/
def LosesNothing (L : Set MemoryLocation) (before : Address → U256 → U256)
    (trace : List (Read × Answer Bytecode)) (state : List (Address × RevmAccount Bytecode)) :
    Prop :=
  ∀ e ∈ state, e.2.isTouched = true → e.2.isSelfdestructed = false →
    Kept hash writeSet L before trace e

/-- What revm keeps to: it loads the accounts that it returns and the slots of those that it does
not create, and returns each of them once. -/
structure Returned (before : Address → U256 → U256) (trace : List (Read × Answer Bytecode))
    (state : List (Address × RevmAccount Bytecode)) : Prop where
  nodup : (state.map Prod.fst).Nodup
  loaded : ∀ e ∈ state, ∃ answer, (Read.basic e.1, answer) ∈ trace
  slots : ∀ e ∈ state, (e.2.storage.map Prod.fst).Nodup
  created : ∀ e ∈ state, e.2.isCreated = true → ∀ s ∈ e.2.storage, s.2.originalValue = 0
  read : ∀ e ∈ state, e.2.isCreated = false → ∀ s ∈ e.2.storage,
    (Read.storage e.1 s.1, Answer.storage s.2.originalValue) ∈ trace
  before : ∀ address index value, (Read.storage address index, Answer.storage value) ∈ trace →
    before address index = value

/-- Where the write set can tell what revm has done to the account. Each field is one way to lose
something. -/
structure Covered (chain : ChainEnv) (db : VmDb κ) (L : Set MemoryLocation)
    (before : Address → U256 → U256) (trace : List (Read × Answer Bytecode))
    (e : Address × RevmAccount Bytecode) : Prop where
  /-- A code hash that was read is still there. -/
  codeHash : ∀ account codeHash,
    db.readAccounts.lookup (hash (.basic e.1)) = some (account, some codeHash) →
      e.2.info.codeHash = codeHash
  cleared : db.isLazy = false → chain.isEip161Enabled = true → e.2.IsEmpty →
    (readValue trace e.1).1 = .default
  sender : db.isLazy = true → e.1 = db.tx.caller → e.2.info.nonce = db.tx.nonce.getD 1 + 1
  recipient : db.isLazy = true → e.1 ≠ db.tx.caller → db.tx.toAddress = some e.1 →
    e.2.toBasic = ⟨db.tx.value, 0⟩
  others : db.isLazy = true → e.1 ≠ db.tx.caller → db.tx.toAddress ≠ some e.1 →
    (readValue trace e.1).1 = e.2.toBasic
  /-- Where an account is created there were no slots but those that it changes. -/
  created : e.2.isCreated = true → ∀ index, .storage e.1 index ∈ L →
    (∀ s ∈ e.2.changedStorageSlots, s.1 ≠ index) → before e.1 index = 0

section Read
variable {env : VmEnv κ Code Bytecode} {db : VmDb κ} {L : Set MemoryLocation}
  {trace : List (Read × Answer Bytecode)} {address : Address}

lemma readValue_of_mem
    (hstable : ∀ r answer answer', (r, answer) ∈ trace → (r, answer') ∈ trace → answer = answer')
    {info : Option (AccountInfo Bytecode)} (h : (Read.basic address, Answer.basic info) ∈ trace) :
    readValue trace address = AccountInfo.toRead info := by
  unfold readValue
  cases hlookup : trace.lookup (.basic address) with
  | none =>
    have hnot := List.lookup_eq_none_iff.mp hlookup _ h
    simp at hnot
  | some answer =>
    obtain ⟨first, rest, rfl, -⟩ := List.lookup_eq_some_iff.mp hlookup
    have hsame := hstable _ _ answer h (by simp)
    subst hsame
    rfl

/-- In place of an account the mock was read. -/
lemma readValue_mocked (hcached : VmDb.Cached env L db trace)
    (hstable : ∀ r answer answer', (r, answer) ∈ trace → (r, answer') ∈ trace → answer = answer')
    (hloaded : ∃ answer, (Read.basic address, answer) ∈ trace)
    {info : Option (AccountInfo Bytecode)}
    (hmock : db.mock env (env.hash (.basic address)) = some info) :
    readValue trace address = AccountInfo.toRead info ∧
      (.basic address ∈ L → db.readAccounts.lookup (env.hash (.basic address)) = none) := by
  obtain ⟨answer, hread⟩ := hloaded
  obtain rfl := hcached.mocked address answer hread info hmock
  refine ⟨readValue_of_mem hstable hread, fun hmem => ?_⟩
  by_contra hkept
  obtain ⟨⟨account, codeHash⟩, hlookup⟩ := Option.ne_none_iff_exists'.mp hkept
  have hnone := (hcached.answered address hmem account codeHash hlookup).1
  rw [hmock] at hnone
  cases hnone

/-- An account that is kept was read. -/
lemma readValue_kept (hcached : VmDb.Cached env L db trace) (hmem : .basic address ∈ L)
    (hstable : ∀ r answer answer', (r, answer) ∈ trace → (r, answer') ∈ trace → answer = answer')
    {account : AccountBasic} {codeHash : Option B256}
    (hkept : db.readAccounts.lookup (env.hash (.basic address)) = some (account, codeHash)) :
    readValue trace address = (account, codeHash.getD keccakEmpty) := by
  obtain ⟨-, code, hread⟩ := hcached.answered address hmem account codeHash hkept
  rw [readValue_of_mem hstable hread]
  rfl

/-- An account that is neither mocked nor kept was missing. -/
lemma readValue_missing (hcached : VmDb.Cached env L db trace)
    (hmock : db.mock env (env.hash (.basic address)) =
      (none : Option (Option (AccountInfo Bytecode))))
    (hkept : db.readAccounts.lookup (env.hash (.basic address)) = none) :
    readValue trace address = (.default, keccakEmpty) := by
  unfold readValue
  cases hlookup : trace.lookup (.basic address) with
  | none => rfl
  | some answer =>
    obtain ⟨first, rest, rfl, -⟩ := List.lookup_eq_some_iff.mp hlookup
    cases answer with
    | basic info =>
      cases info with
      | none => rfl
      | some info => exact absurd hkept (hcached.kept address info (by simp) hmock)
    | storage => rfl
    | codeHash => rfl

end Read

section Written
variable {hash} {chain : ChainEnv} {db : VmDb κ} {L : Set MemoryLocation}
  {e : Address × RevmAccount Bytecode}

/-- Nothing is written to a location by writes to others. -/
lemma written_of_others {writeSet : WriteSet κ MemoryValue} {location : MemoryLocation}
    (hinj : Set.InjOn hash L) (hmem : location ∈ L)
    (h : ∀ w ∈ writeSet, ∃ location' ∈ L, location' ≠ location ∧ w.1 = hash location') :
    MvMemory.written writeSet (hash location) = none := by
  apply MvMemory.written_eq_none.mpr
  intro w hw heq
  obtain ⟨location', hmem', hne, hlocation⟩ := h w hw
  exact hne (hinj hmem' hmem (hlocation.symm.trans heq))

/-- Every location of a touched account is written by one part of its writes. -/
theorem written_touched (hinj : Set.InjOn hash L) (hL : ∀ location ∈ locations e, location ∈ L)
    (htouched : e.2.isTouched = true) (hkept : e.2.isSelfdestructed = false) :
    MvMemory.written (writeAccount hash chain db e.1 e.2) (hash (.basic e.1)) =
        MvMemory.written (writeBasic hash chain db e.1 e.2) (hash (.basic e.1)) ∧
      MvMemory.written (writeAccount hash chain db e.1 e.2) (hash (.codeHash e.1)) =
        MvMemory.written (writeCodeHash hash db e.1 e.2) (hash (.codeHash e.1)) ∧
      ∀ index, .storage e.1 index ∈ L →
        MvMemory.written (writeAccount hash chain db e.1 e.2) (hash (.storage e.1 index)) =
          MvMemory.written (writeStorage hash e.1 e.2) (hash (.storage e.1 index)) := by
  have hmemBasic : MemoryLocation.basic e.1 ∈ L := hL _ (by simp [locations])
  have hmemCode : MemoryLocation.codeHash e.1 ∈ L := hL _ (by simp [locations])
  have hbasic : ∀ location ∈ L, location ≠ .basic e.1 →
      MvMemory.written (writeBasic hash chain db e.1 e.2) (hash location) = none := by
    intro location hmem hne
    exact written_of_others hinj hmem fun w hw => ⟨_, hmemBasic, hne.symm, writeBasic_location hw⟩
  have hcode : ∀ location ∈ L, location ≠ .codeHash e.1 →
      MvMemory.written (writeCodeHash hash db e.1 e.2) (hash location) = none := by
    intro location hmem hne
    exact written_of_others hinj hmem fun w hw => ⟨_, hmemCode, hne.symm, writeCodeHash_location hw⟩
  have hstorage : ∀ location ∈ L, (∀ index, location ≠ .storage e.1 index) →
      MvMemory.written (writeStorage hash e.1 e.2) (hash location) = none := by
    intro location hmem hne
    apply written_of_others hinj hmem
    intro w hw
    obtain ⟨s, hs, rfl⟩ := writeStorage_location hw
    exact ⟨_, hL _ (storage_mem_locations hs), (hne _).symm, rfl⟩
  have hparts : ∀ location, MvMemory.written (writeAccount hash chain db e.1 e.2) (hash location) =
      (MvMemory.written (writeStorage hash e.1 e.2) (hash location)).or
        ((MvMemory.written (writeCodeHash hash db e.1 e.2) (hash location)).or
          (MvMemory.written (writeBasic hash chain db e.1 e.2) (hash location))) := by
    intro location
    unfold writeAccount
    rw [if_neg (by simp [hkept]), if_pos htouched, MvMemory.written_append, MvMemory.written_append]
  refine ⟨?_, ?_, fun index hmem => ?_⟩
  · rw [hparts, hstorage _ hmemBasic (by simp), hcode _ hmemBasic (by simp), Option.none_or,
      Option.none_or]
  · rw [hparts, hstorage _ hmemCode (by simp), hbasic _ hmemCode (by simp), Option.none_or,
      Option.or_none]
  · rw [hparts, hcode _ hmem (by simp), hbasic _ hmem (by simp), Option.none_or, Option.or_none]

/-- The writes to the account itself are those of `writeBasic`. -/
lemma filter_writeAccount (hinj : Set.InjOn hash L) (hL : ∀ location ∈ locations e, location ∈ L) :
    (writeAccount hash chain db e.1 e.2).filter (fun w => w.1 = hash (.basic e.1)) =
      if e.2.isTouched = true ∧ e.2.isSelfdestructed = false then writeBasic hash chain db e.1 e.2
      else [] := by
  have hmemBasic : MemoryLocation.basic e.1 ∈ L := hL _ (by simp [locations])
  have hmemCode : MemoryLocation.codeHash e.1 ∈ L := hL _ (by simp [locations])
  have hself : (writeBasic hash chain db e.1 e.2).filter (fun w => w.1 = hash (.basic e.1)) =
      writeBasic hash chain db e.1 e.2 := by
    apply List.filter_eq_self.mpr
    intro w hw
    simpa using writeBasic_location hw
  have hne : hash (.codeHash e.1) ≠ hash (.basic e.1) := by
    intro heq
    cases hinj hmemCode hmemBasic heq
  have hcode : (writeCodeHash hash db e.1 e.2).filter (fun w => w.1 = hash (.basic e.1)) = [] := by
    apply List.filter_eq_nil_iff.mpr
    intro w hw
    rw [writeCodeHash_location hw]
    simpa using hne
  have hstorage : (writeStorage hash e.1 e.2).filter (fun w => w.1 = hash (.basic e.1)) = [] := by
    apply List.filter_eq_nil_iff.mpr
    intro w hw
    obtain ⟨s, hs, rfl⟩ := writeStorage_location hw
    rw [decide_eq_true_eq]
    intro heq
    cases hinj (hL _ (storage_mem_locations hs)) hmemBasic heq
  unfold writeAccount
  cases hdestroyed : e.2.isSelfdestructed with
  | true => simp [hne]
  | false =>
    cases htouched : e.2.isTouched with
    | true => simp [hself, hcode, hstorage]
    | false => simp [hstorage]

/-- The writes to an account are its own. -/
lemma filter_writeSet {state : List (Address × RevmAccount Bytecode)} (hinj : Set.InjOn hash L)
    (hstate : ∀ e ∈ state, ∀ location ∈ locations e, location ∈ L) {address : Address}
    (hmem : .basic address ∈ L) :
    (Vm.writeSet hash chain db state).filter (fun w => w.1 = hash (.basic address)) =
      (state.filter fun e => e.1 = address).flatMap fun e =>
        if e.2.isTouched = true ∧ e.2.isSelfdestructed = false then
          writeBasic hash chain db e.1 e.2
        else [] := by
  induction state with
  | nil => rfl
  | cons e state ih =>
    have hrest := ih fun e he => hstate e (List.mem_cons_of_mem _ he)
    have hfirst := hstate e List.mem_cons_self
    show (writeAccount hash chain db e.1 e.2 ++ Vm.writeSet hash chain db state).filter _ = _
    rw [List.filter_append, hrest]
    by_cases heq : e.1 = address
    · subst heq
      rw [filter_writeAccount hinj hfirst, List.filter_cons_of_pos (by simp), List.flatMap_cons]
    · have hnone : (writeAccount hash chain db e.1 e.2).filter
          (fun w => w.1 = hash (.basic address)) = [] := by
        apply List.filter_eq_nil_iff.mpr
        intro w hw
        obtain ⟨location, hlocation, hw⟩ := writeAccount_location hw
        rw [hw, decide_eq_true_eq]
        intro hsame
        have haddress := address_of_mem_locations hlocation
        rw [hinj (hfirst _ hlocation) hmem hsame] at haddress
        exact heq haddress.symm
      rw [hnone, List.filter_cons_of_neg (by simpa using heq), List.nil_append]

lemma lookup_of_mem {slots : List (U256 × EvmStorageSlot)} (hslots : (slots.map Prod.fst).Nodup)
    {s : U256 × EvmStorageSlot} (h : s ∈ slots) : slots.lookup s.1 = some s.2 := by
  obtain ⟨first, rest, rfl⟩ := List.append_of_mem h
  apply List.lookup_eq_some_iff.mpr
  refine ⟨first, rest, rfl, fun p hp => ?_⟩
  rw [List.map_append, List.map_cons, List.nodup_middle, List.nodup_cons] at hslots
  rw [bne_iff_ne]
  intro heq
  exact hslots.1 (List.mem_append_left _ (List.mem_map.mpr ⟨p, hp, heq.symm⟩))

/-- A changed slot is written with its present value. -/
lemma written_storage (hinj : Set.InjOn hash L) (hL : ∀ location ∈ locations e, location ∈ L)
    (hslots : (e.2.storage.map Prod.fst).Nodup) {s : U256 × EvmStorageSlot}
    (h : s ∈ e.2.changedStorageSlots) :
    MvMemory.written (writeStorage hash e.1 e.2) (hash (.storage e.1 s.1)) =
      some (.storage s.2.presentValue) := by
  have hwritten : MvMemory.written (writeStorage hash e.1 e.2) (hash (.storage e.1 s.1)) ≠ none :=
    MvMemory.written_ne_none.mpr ⟨_, List.mem_map.mpr ⟨s, h, rfl⟩, rfl⟩
  obtain ⟨value, hvalue⟩ := Option.ne_none_iff_exists'.mp hwritten
  obtain ⟨s', hs', heq⟩ := writeStorage_location (MvMemory.mem_of_written hvalue)
  have hlocation := hinj (hL _ (storage_mem_locations h)) (hL _ (storage_mem_locations hs'))
    (Prod.mk.inj heq).1
  have hfirst := lookup_of_mem hslots (List.mem_filter.mp h).1
  have hsecond := lookup_of_mem hslots (List.mem_filter.mp hs').1
  rw [(MemoryLocation.storage.inj hlocation).2, hsecond] at hfirst
  rw [hvalue, (Prod.mk.inj heq).2, Option.some.inj hfirst]

end Written

lemma overlayBasic_singleton (address : Address) (read : AccountBasic) (value : MemoryValue) :
    overlayBasic hash [(hash (.basic address), value)] address read =
      LazyEvaluation.applyValue read value := by
  simp [overlayBasic, MvMemory.written_cons]

section Parts
variable {env : VmEnv κ Code Bytecode} {chain : ChainEnv} {db : VmDb κ} {L : Set MemoryLocation}
  {trace : List (Read × Answer Bytecode)} {e : Address × RevmAccount Bytecode}

/-- Where the execution is not lazy, balance and nonce are kept unless the account is cleared. -/
lemma overlayBasic_of_not_lazy (hcached : VmDb.Cached env L db trace) (hmem : .basic e.1 ∈ L)
    (hstable : ∀ r answer answer', (r, answer) ∈ trace → (r, answer') ∈ trace → answer = answer')
    (hlazy : db.isLazy = false) :
    overlayBasic env.hash (writeBasic env.hash chain db e.1 e.2) e.1 (readValue trace e.1).1 =
        e.2.toBasic ↔
      (chain.isEip161Enabled = true → e.2.IsEmpty → (readValue trace e.1).1 = .default) := by
  have hwrite : writeBasic env.hash chain db e.1 e.2 =
      if (IsNewCode env.hash db e.1 e.2 ∨ IsChanged env.hash db e.1 e.2) ∧
          (¬ chain.isEip161Enabled ∨ ¬ e.2.IsEmpty) then
        [(env.hash (.basic e.1), .basic e.2.toBasic)]
      else [] := by
    unfold writeBasic
    dsimp only
    rw [if_neg (by simp [hlazy] : ¬ db.isLazy = true), ite_and]
    rfl
  by_cases hcleared : chain.isEip161Enabled = true ∧ e.2.IsEmpty
  · have hdefault : e.2.toBasic = .default := by
      unfold RevmAccount.toBasic AccountBasic.default
      rw [hcleared.2.2.1, hcleared.2.2.2]
    rw [hwrite, if_neg (by simp [hcleared]), hdefault]
    exact ⟨fun h _ _ => h, fun h => h hcleared.1 hcleared.2⟩
  · refine iff_of_true ?_ fun heip hempty => absurd ⟨heip, hempty⟩ hcleared
    have hregistered : ¬ chain.isEip161Enabled = true ∨ ¬ e.2.IsEmpty := by
      by_contra hnot
      push Not at hnot
      exact hcleared hnot
    by_cases hnew : IsNewCode env.hash db e.1 e.2 ∨ IsChanged env.hash db e.1 e.2
    · rw [hwrite, if_pos ⟨hnew, hregistered⟩]
      rw [overlayBasic_singleton]
      rfl
    · -- an account read with the very balance and nonce
      have hsame : ¬ IsChanged env.hash db e.1 e.2 := fun h => hnew (.inr h)
      unfold IsChanged at hsame
      push Not at hsame
      obtain ⟨⟨account, codeHash⟩, hlookup, hnonce, hbalance⟩ := hsame
      rw [hwrite, if_neg fun h => hnew h.1, readValue_kept hcached hmem hstable hlookup]
      show account = e.2.toBasic
      unfold RevmAccount.toBasic
      rw [← hnonce, ← hbalance]

/-- A lazy execution answers for its sender and its recipient itself. -/
lemma mock_of_lazy (hinj : Set.InjOn env.hash L) (hashed : VmDb.Hashed env db)
    {address : Address} (hmem : .basic address ∈ L) (hcaller : .basic db.tx.caller ∈ L)
    (hto : ∀ address, db.tx.toAddress = some address → .basic address ∈ L)
    (hlazy : db.isLazy = true) :
    (env.hash (.basic address) = db.fromHash ↔ address = db.tx.caller) ∧
      (some (env.hash (.basic address)) = db.toHash ↔ db.tx.toAddress = some address) ∧
      db.mock env (env.hash (.basic address)) =
        if address = db.tx.caller then
          some (some ⟨BitVec.allOnes 256, db.tx.nonce.getD 1, keccakEmpty, none⟩)
        else if db.tx.toAddress = some address then some none
        else (none : Option (Option (AccountInfo Bytecode))) := by
  have hfrom : env.hash (.basic address) = db.fromHash ↔ address = db.tx.caller := by
    rw [hashed.fromHash]
    constructor
    · intro heq
      exact MemoryLocation.basic.inj (hinj hmem hcaller heq)
    · intro heq
      rw [heq]
  have hrecipient : some (env.hash (.basic address)) = db.toHash ↔
      db.tx.toAddress = some address := by
    rw [hashed.toHash]
    constructor
    · intro heq
      obtain ⟨address', haddress, hsame⟩ := Option.map_eq_some_iff.mp heq.symm
      rw [haddress, MemoryLocation.basic.inj (hinj (hto address' haddress) hmem hsame)]
    · intro heq
      rw [heq]
      rfl
  refine ⟨hfrom, hrecipient, ?_⟩
  unfold VmDb.mock
  simp only [hlazy, true_and, hfrom, hrecipient]

/-- A lazy execution writes what its sender loses and its recipient gains. -/
theorem writeBasic_of_lazy (hinj : Set.InjOn env.hash L) (hashed : VmDb.Hashed env db)
    (hcached : VmDb.Cached env L db trace) (hmem : .basic e.1 ∈ L)
    (hcaller : .basic db.tx.caller ∈ L)
    (hto : ∀ address, db.tx.toAddress = some address → .basic address ∈ L)
    (hstable : ∀ r answer answer', (r, answer) ∈ trace → (r, answer') ∈ trace → answer = answer')
    (hloaded : ∃ answer, (Read.basic e.1, answer) ∈ trace) (hlazy : db.isLazy = true) :
    writeBasic env.hash chain db e.1 e.2 =
      if e.1 = db.tx.caller then
        [(env.hash (.basic e.1), .lazySender (BitVec.allOnes 256 - e.2.info.balance))]
      else if db.tx.toAddress = some e.1 then
        [(env.hash (.basic e.1), .lazyRecipient db.tx.value)]
      else [] := by
  obtain ⟨hfrom, hrecipient, hmock⟩ :=
    mock_of_lazy hinj hashed hmem hcaller hto hlazy
  have hwritten : ∀ info, db.mock env (env.hash (.basic e.1)) = some info →
      IsNewCode env.hash db e.1 e.2 ∨ IsChanged env.hash db e.1 e.2 := by
    intro info hinfo
    right
    intro read hread
    rw [(readValue_mocked hcached hstable hloaded hinfo).2 hmem] at hread
    cases hread
  unfold writeBasic
  dsimp only
  rw [if_pos hlazy]
  simp only [hfrom, hrecipient]
  by_cases hsender : e.1 = db.tx.caller
  · rw [if_pos hsender] at hmock ⊢
    rw [if_pos (hwritten _ hmock)]
  · rw [if_neg hsender] at hmock ⊢
    by_cases hreceiver : db.tx.toAddress = some e.1
    · rw [if_pos hreceiver] at hmock ⊢
      rw [if_pos (hwritten _ hmock)]
    · rw [if_neg hreceiver, ite_self]

lemma overlayBasic_of_lazy (hinj : Set.InjOn env.hash L) (hashed : VmDb.Hashed env db)
    (hcached : VmDb.Cached env L db trace) (hmem : .basic e.1 ∈ L)
    (hcaller : .basic db.tx.caller ∈ L)
    (hto : ∀ address, db.tx.toAddress = some address → .basic address ∈ L)
    (hstable : ∀ r answer answer', (r, answer) ∈ trace → (r, answer') ∈ trace → answer = answer')
    (hloaded : ∃ answer, (Read.basic e.1, answer) ∈ trace) (hlazy : db.isLazy = true) :
    overlayBasic env.hash (writeBasic env.hash chain db e.1 e.2) e.1 (readValue trace e.1).1 =
        e.2.toBasic ↔
      if e.1 = db.tx.caller then e.2.info.nonce = db.tx.nonce.getD 1 + 1
      else if db.tx.toAddress = some e.1 then e.2.toBasic = ⟨db.tx.value, 0⟩
      else (readValue trace e.1).1 = e.2.toBasic := by
  obtain ⟨-, -, hmock⟩ := mock_of_lazy hinj hashed hmem hcaller hto hlazy
  rw [writeBasic_of_lazy hinj hashed hcached hmem hcaller hto hstable hloaded hlazy]
  by_cases hsender : e.1 = db.tx.caller
  · rw [if_pos hsender] at hmock
    rw [if_pos hsender, if_pos hsender, (readValue_mocked hcached hstable hloaded hmock).1]
    have hlaid : overlayBasic env.hash [(env.hash (.basic e.1),
        .lazySender (BitVec.allOnes 256 - e.2.info.balance))] e.1
          ⟨BitVec.allOnes 256, db.tx.nonce.getD 1⟩ =
        ⟨e.2.info.balance, db.tx.nonce.getD 1 + 1⟩ := by
      rw [overlayBasic_singleton, LazyEvaluation.applyValue, saturatingSub_allOnes_sub]
    show overlayBasic _ _ _ ⟨_, _⟩ = _ ↔ _
    rw [hlaid, RevmAccount.toBasic, AccountBasic.mk.injEq]
    exact ⟨fun h => h.2.symm, fun h => ⟨rfl, h.symm⟩⟩
  · rw [if_neg hsender, if_neg hsender]
    rw [if_neg hsender] at hmock
    by_cases hreceiver : db.tx.toAddress = some e.1
    · rw [if_pos hreceiver] at hmock
      rw [if_pos hreceiver, if_pos hreceiver, (readValue_mocked hcached hstable hloaded hmock).1]
      have hlaid : overlayBasic env.hash [(env.hash (.basic e.1), .lazyRecipient db.tx.value)] e.1
          .default = ⟨db.tx.value, 0⟩ := by
        rw [overlayBasic_singleton, LazyEvaluation.applyValue]
        show (⟨saturatingAdd 0 _, _⟩ : AccountBasic) = _
        rw [saturatingAdd_zero_left]
        rfl
      show overlayBasic _ _ _ .default = _ ↔ _
      rw [hlaid]
      exact eq_comm
    · rw [if_neg hreceiver, if_neg hreceiver]
      rfl

/-- The mocks have no code. -/
lemma mock_codeHash {l : κ} {info : Option (AccountInfo Bytecode)} (h : db.mock env l = some info) :
    (AccountInfo.toRead info).2 = keccakEmpty := by
  unfold VmDb.mock at h
  split_ifs at h
  · cases h
    rfl
  · cases h
    rfl

/-- A code hash is written where none was read. -/
lemma overlayCodeHash_iff (hcached : VmDb.Cached env L db trace) (hmem : .basic e.1 ∈ L)
    (hstable : ∀ r answer answer', (r, answer) ∈ trace → (r, answer') ∈ trace → answer = answer')
    (hloaded : ∃ answer, (Read.basic e.1, answer) ∈ trace) :
    overlayCodeHash env.hash (writeCodeHash env.hash db e.1 e.2) e.1 (readValue trace e.1).2 =
        e.2.info.codeHash ↔
      ∀ account codeHash,
        db.readAccounts.lookup (env.hash (.basic e.1)) = some (account, some codeHash) →
          e.2.info.codeHash = codeHash := by
  by_cases hread : ∃ account codeHash,
      db.readAccounts.lookup (env.hash (.basic e.1)) = some (account, some codeHash)
  · obtain ⟨account, codeHash, hlookup⟩ := hread
    have hnew : ¬ IsNewCode env.hash db e.1 e.2 := by
      rintro ⟨-, hnone⟩
      cases hnone _ hlookup
    rw [writeCodeHash, if_neg hnew, readValue_kept hcached hmem hstable hlookup]
    show codeHash = e.2.info.codeHash ↔ _
    rw [hlookup]
    constructor
    · rintro rfl account' codeHash' heq
      cases heq
      rfl
    · intro h
      exact (h account codeHash rfl).symm
  · refine iff_of_true ?_ fun account codeHash hlookup => absurd ⟨account, codeHash, hlookup⟩ hread
    have hnone : ∀ read, db.readAccounts.lookup (env.hash (.basic e.1)) = some read →
        read.2 = none := by
      intro read hlookup
      by_contra hsome
      obtain ⟨codeHash, hcode⟩ := Option.ne_none_iff_exists'.mp hsome
      exact hread ⟨read.1, codeHash, by rw [hlookup, ← hcode]⟩
    have hempty : (readValue trace e.1).2 = keccakEmpty := by
      cases hlookup : db.readAccounts.lookup (env.hash (.basic e.1)) with
      | some read =>
        obtain ⟨account, codeHash⟩ := read
        obtain rfl : codeHash = none := hnone _ hlookup
        rw [readValue_kept hcached hmem hstable hlookup]
        rfl
      | none =>
        cases hmock : (db.mock env (env.hash (.basic e.1)) :
            Option (Option (AccountInfo Bytecode))) with
        | none => rw [readValue_missing hcached hmock hlookup]
        | some info =>
          rw [(readValue_mocked hcached hstable hloaded hmock).1]
          exact mock_codeHash hmock
    by_cases hcode : e.2.hasCode
    · rw [writeCodeHash, if_pos ⟨hcode, hnone⟩]
      simp [overlayCodeHash, MvMemory.written_cons]
    · rw [writeCodeHash, if_neg fun h => hcode h.1, hempty]
      unfold RevmAccount.hasCode at hcode
      exact (not_ne_iff.mp hcode).symm

/-- A slot is lost where an account is created over it. -/
lemma overlayStorage_iff (hinj : Set.InjOn env.hash L)
    (hL : ∀ location ∈ locations e, location ∈ L) {before : U256 → U256}
    (hslots : (e.2.storage.map Prod.fst).Nodup)
    (hcreated : e.2.isCreated = true → ∀ s ∈ e.2.storage, s.2.originalValue = 0)
    (hread : e.2.isCreated = false → ∀ s ∈ e.2.storage, before s.1 = s.2.originalValue)
    {index : U256} (hmem : .storage e.1 index ∈ L) :
    overlayStorage env.hash (writeStorage env.hash e.1 e.2) e.1 index (before index) =
        e.2.committedSlot before index ↔
      (e.2.isCreated = true → (∀ s ∈ e.2.changedStorageSlots, s.1 ≠ index) →
        before index = 0) := by
  by_cases hchanged : ∃ s ∈ e.2.changedStorageSlots, s.1 = index
  · obtain ⟨s, hs, rfl⟩ := hchanged
    refine iff_of_true ?_ fun _ hnone => absurd rfl (hnone s hs)
    unfold overlayStorage RevmAccount.committedSlot
    rw [written_storage hinj hL hslots hs, lookup_of_mem hslots (List.mem_filter.mp hs).1]
  · push Not at hchanged
    have hnone : MvMemory.written (writeStorage env.hash e.1 e.2)
        (env.hash (.storage e.1 index)) = none := by
      apply written_of_others hinj hmem
      intro w hw
      obtain ⟨s, hs, rfl⟩ := writeStorage_location hw
      refine ⟨_, hL _ (storage_mem_locations hs), fun heq => ?_, rfl⟩
      exact hchanged s hs (MemoryLocation.storage.inj heq).2
    have hlaid : overlayStorage env.hash (writeStorage env.hash e.1 e.2) e.1 index
        (before index) = before index := by
      unfold overlayStorage
      rw [hnone]
    -- a slot that is returned unchanged has the value that it began with
    have hcommitted : e.2.committedSlot before index =
        if e.2.isCreated = true then 0 else before index := by
      unfold RevmAccount.committedSlot
      cases hlookup : e.2.storage.lookup index with
      | none => rfl
      | some slot =>
        obtain ⟨first, rest, hsplit, -⟩ := List.lookup_eq_some_iff.mp hlookup
        have hs : (index, slot) ∈ e.2.storage := by
          rw [hsplit]
          simp
        have hsame : slot.originalValue = slot.presentValue := by
          by_contra hne
          exact hchanged (index, slot) (List.mem_filter.mpr ⟨hs, by simpa using hne⟩) rfl
        show slot.presentValue = _
        rw [← hsame]
        split_ifs with hnew
        · exact hcreated hnew _ hs
        · exact (hread (by simpa using hnew) _ hs).symm
    rw [hlaid, hcommitted]
    split_ifs with hnew
    · exact ⟨fun h _ _ => h, fun h => h hnew hchanged⟩
    · exact iff_of_true rfl fun h => absurd h hnew

end Parts

section Runs
variable {txIdx : ℕ} {tx : TxEnv} {s : Recordings κ Code Bytecode} {chain : ChainEnv} {db : VmDb κ}
  {L : Set MemoryLocation} {trace : List (Read × Answer Bytecode)} {before : Address → U256 → U256}
  {state : List (Address × RevmAccount Bytecode)}

/-- What is laid over an account comes from its own writes. -/
lemma kept_writeSet_iff (hinj : Set.InjOn s.env.hash L) (hnodup : (state.map Prod.fst).Nodup)
    (hstate : ∀ e ∈ state, ∀ location ∈ locations e, location ∈ L)
    {e : Address × RevmAccount Bytecode} (he : e ∈ state) (htouched : e.2.isTouched = true)
    (halive : e.2.isSelfdestructed = false) :
    Kept s.env.hash (Vm.writeSet s.env.hash chain db state) L before trace e ↔
      overlayBasic s.env.hash (writeBasic s.env.hash chain db e.1 e.2) e.1
        (readValue trace e.1).1 = e.2.toBasic ∧
      overlayCodeHash s.env.hash (writeCodeHash s.env.hash db e.1 e.2) e.1
        (readValue trace e.1).2 = e.2.info.codeHash ∧
      ∀ index, .storage e.1 index ∈ L →
        overlayStorage s.env.hash (writeStorage s.env.hash e.1 e.2) e.1 index
          (before e.1 index) = e.2.committedSlot (before e.1) index := by
  have hmem : MemoryLocation.basic e.1 ∈ L := hstate e he _ (by simp [locations])
  have hmemCode : MemoryLocation.codeHash e.1 ∈ L := hstate e he _ (by simp [locations])
  have hwritten : ∀ location ∈ L, location.address = e.1 →
      MvMemory.written (Vm.writeSet s.env.hash chain db state) (s.env.hash location) =
        MvMemory.written (writeAccount s.env.hash chain db e.1 e.2) (s.env.hash location) :=
    fun location hlocation => written_writeSet hinj hstate hlocation hnodup he
  obtain ⟨hbasic, hcode, hstorage⟩ := written_touched hinj (hstate e he) htouched halive
  have hlaidBasic : overlayBasic s.env.hash (Vm.writeSet s.env.hash chain db state) e.1
      (readValue trace e.1).1 = overlayBasic s.env.hash (writeBasic s.env.hash chain db e.1 e.2)
        e.1 (readValue trace e.1).1 := by
    unfold overlayBasic
    rw [hwritten _ hmem rfl, hbasic]
  have hlaidCode : overlayCodeHash s.env.hash (Vm.writeSet s.env.hash chain db state) e.1
      (readValue trace e.1).2 = overlayCodeHash s.env.hash (writeCodeHash s.env.hash db e.1 e.2)
        e.1 (readValue trace e.1).2 := by
    unfold overlayCodeHash
    rw [hwritten _ hmemCode rfl, hcode]
  have hlaidStorage : ∀ index, .storage e.1 index ∈ L →
      overlayStorage s.env.hash (Vm.writeSet s.env.hash chain db state) e.1 index
        (before e.1 index) = overlayStorage s.env.hash (writeStorage s.env.hash e.1 e.2) e.1 index
          (before e.1 index) := by
    intro index hindex
    unfold overlayStorage
    rw [hwritten _ hindex rfl, hstorage index hindex]
  rw [← hlaidBasic, ← hlaidCode]
  constructor
  · rintro ⟨hkept, hkeptCode, hkeptStorage⟩
    refine ⟨hkept, hkeptCode, fun index hindex => ?_⟩
    rw [← hlaidStorage index hindex]
    exact hkeptStorage index hindex
  · rintro ⟨hkept, hkeptCode, hkeptStorage⟩
    refine ⟨hkept, hkeptCode, fun index hindex => ?_⟩
    rw [hlaidStorage index hindex]
    exact hkeptStorage index hindex

/-- The conditions on the balance and the nonce, one for each way to execute. -/
lemma overlayBasic_iff (h : VmDb.Incarnation txIdx tx s db trace) (hL : VmDb.touched tx trace ⊆ L)
    (hinj : Set.InjOn s.env.hash L) {e : Address × RevmAccount Bytecode}
    (hmem : .basic e.1 ∈ L) (hloaded : ∃ answer, (Read.basic e.1, answer) ∈ trace) :
    overlayBasic s.env.hash (writeBasic s.env.hash chain db e.1 e.2) e.1
        (readValue trace e.1).1 = e.2.toBasic ↔
      if db.isLazy = true then
        if e.1 = db.tx.caller then e.2.info.nonce = db.tx.nonce.getD 1 + 1
        else if db.tx.toAddress = some e.1 then e.2.toBasic = ⟨db.tx.value, 0⟩
        else (readValue trace e.1).1 = e.2.toBasic
      else chain.isEip161Enabled = true → e.2.IsEmpty → (readValue trace e.1).1 = .default := by
  obtain ⟨htraced, -, htx, -, -⟩ := h.traced hL hinj fun _ _ _ hx => hx
  obtain ⟨hashed, hcached⟩ := h.cached hL hinj
  have hcaller : MemoryLocation.basic db.tx.caller ∈ L := hL (.inl (by rw [htx]))
  have hto : ∀ address, db.tx.toAddress = some address → MemoryLocation.basic address ∈ L := by
    intro address haddress
    rw [htx] at haddress
    exact hL (.inr (.inl ⟨address, haddress, rfl⟩))
  by_cases hlazy : db.isLazy = true
  · rw [if_pos hlazy]
    exact overlayBasic_of_lazy hinj hashed hcached hmem hcaller hto htraced.stable hloaded hlazy
  · rw [if_neg hlazy]
    exact overlayBasic_of_not_lazy hcached hmem htraced.stable (by simpa using hlazy)

/-- One account. -/
lemma kept_iff (h : VmDb.Incarnation txIdx tx s db trace) (hreturned : Returned before trace state)
    (hL : VmDb.touched tx trace ⊆ L) (hinj : Set.InjOn s.env.hash L)
    (hstate : ∀ e ∈ state, ∀ location ∈ locations e, location ∈ L)
    {e : Address × RevmAccount Bytecode} (he : e ∈ state) (htouched : e.2.isTouched = true)
    (halive : e.2.isSelfdestructed = false) :
    Kept s.env.hash (Vm.writeSet s.env.hash chain db state) L before trace e ↔
      Covered s.env.hash chain db L before trace e := by
  obtain ⟨htraced, -, -, -, -⟩ := h.traced hL hinj fun _ _ _ hx => hx
  have hloaded := hreturned.loaded e he
  have hmem : MemoryLocation.basic e.1 ∈ L := hstate e he _ (by simp [locations])
  have hslot : ∀ index, .storage e.1 index ∈ L →
      (overlayStorage s.env.hash (writeStorage s.env.hash e.1 e.2) e.1 index (before e.1 index) =
          e.2.committedSlot (before e.1) index ↔
        (e.2.isCreated = true → (∀ s ∈ e.2.changedStorageSlots, s.1 ≠ index) →
          before e.1 index = 0)) := by
    intro index hindex
    apply overlayStorage_iff hinj (hstate e he) (hreturned.slots e he) (hreturned.created e he)
    · intro hold slot hslot
      exact hreturned.before _ _ _ (hreturned.read e he hold slot hslot)
    · exact hindex
  rw [kept_writeSet_iff hinj hreturned.nodup hstate he htouched halive,
    overlayBasic_iff h hL hinj hmem hloaded,
    overlayCodeHash_iff (h.cached hL hinj).2 hmem htraced.stable hloaded]
  constructor
  · rintro ⟨hkept, hkeptCode, hkeptStorage⟩
    constructor
    · exact hkeptCode
    · intro hlazy
      simpa only [hlazy, Bool.false_eq_true, if_false] using hkept
    · intro hlazy hsender
      simpa only [if_pos hlazy, if_pos hsender] using hkept
    · intro hlazy hsender hreceiver
      simpa only [if_pos hlazy, if_neg hsender, if_pos hreceiver] using hkept
    · intro hlazy hsender hreceiver
      simpa only [if_pos hlazy, if_neg hsender, if_neg hreceiver] using hkept
    · intro hcreated index hindex hchanged
      exact (hslot index hindex).mp (hkeptStorage index hindex) hcreated hchanged
  · intro hcovered
    refine ⟨?_, hcovered.codeHash, fun index hindex => ?_⟩
    · split_ifs with hlazy hsender hreceiver
      · exact hcovered.sender hlazy hsender
      · exact hcovered.recipient hlazy hsender hreceiver
      · exact hcovered.others hlazy hsender hreceiver
      · exact hcovered.cleared (by simpa using hlazy)
    · rw [hslot index hindex]
      exact fun hcreated hchanged => hcovered.created hcreated index hindex hchanged

/-- The write set loses nothing exactly where it covers what revm has done: it does not write a code
hash in place of one that was read. revm loads what it returns, and the locations of the incarnation
have different hashes. -/
theorem losesNothing_iff (h : VmDb.Incarnation txIdx tx s db trace)
    (hreturned : Returned before trace state) (hL : VmDb.touched tx trace ⊆ L)
    (hinj : Set.InjOn s.env.hash L)
    (hstate : ∀ e ∈ state, ∀ location ∈ locations e, location ∈ L) :
    LosesNothing s.env.hash (Vm.writeSet s.env.hash chain db state) L before trace state ↔
      ∀ e ∈ state, e.2.isTouched = true → e.2.isSelfdestructed = false →
        Covered s.env.hash chain db L before trace e := by
  constructor
  · intro hkept e he htouched halive
    exact (kept_iff h hreturned hL hinj hstate he htouched halive).mp (hkept e he htouched halive)
  · intro hcovered e he htouched halive
    exact (kept_iff h hreturned hL hinj hstate he htouched halive).mpr
      (hcovered e he htouched halive)

end Runs

section Sample

/-- A block before which account 5 has delegated to the code with hash 0xd1. -/
def delegationBlock : Recordings MemoryLocation Unit Unit where
  env :=
    { hash := id
      storage :=
        { basic := fun address => .ok (
            if address = 1 then some ⟨1000000000, 0⟩
            else if address = 5 then some ⟨0, 1⟩
            else none)
          codeHash := fun address => .ok (if address = 5 then some 0xd1 else none)
          codeByHash := fun _ => .ok (some ())
          storage := fun _ _ => .ok 0 }
      mvMemory := MvMemory.new []
      newBytecodes := fun _ => none
      toBytecode := some }
  log _ := none

/-- Account 1 calls account 5, with an authorization of account 5. -/
def delegation : TxEnv where
  caller := 1
  gasLimit := 100000
  gasPrice := 0
  transactTo := .call 5
  value := 0
  nonce := some 0
  gasPriorityFee := none
  blobHashes := []
  maxFeePerBlobGas := none

def delegationOpened : VmDb MemoryLocation where
  txIdx := 0
  tx := delegation
  fromHash := .basic 1
  toHash := some (.basic 5)
  toCodeHash := some 0xd1
  isLazy := false
  readSet := (∅ : ReadSet MemoryLocation).insert (.codeHash 5) [.storage]
  readAccounts := ∅

def delegationDb : VmDb MemoryLocation :=
  let sender := ((delegationOpened.withOrigins (.basic 1) [.storage]).withOrigins (.codeHash 1)
    [.storage]).cacheAccount (.basic 1) ⟨1000000000, 0⟩ none
  (sender.withOrigins (.basic 5) [.storage]).cacheAccount (.basic 5) ⟨0, 1⟩ (some 0xd1)

def delegationTrace : List (Read × Answer Unit) :=
  [(.codeHash 5, .codeHash (some 0xd1)),
    (.basic 1, .basic (some ⟨1000000000, 0, keccakEmpty, none⟩)),
    (.basic 5, .basic (some ⟨0, 1, 0xd1, some ()⟩))]

lemma delegation_incarnation :
    VmDb.Incarnation 0 delegation delegationBlock delegationDb delegationTrace := by
  have hnew : VmDb.new delegationBlock.env 0 delegation = .ok delegationOpened := rfl
  have hopened := VmDb.Incarnation.opened (.init ⟨⟨[], rfl⟩, rfl⟩) hnew
  have hsender := VmDb.Incarnation.read (r := .basic 1) hopened .refl .refl rfl
  exact VmDb.Incarnation.read (r := .basic 5) hsender .refl .refl rfl

/-- What revm returns where account 5 is delegated to the code with this hash. -/
def delegated (codeHash : B256) : List (Address × RevmAccount Unit) :=
  [(1, ⟨⟨1000000000, 1, keccakEmpty, none⟩, [], true, false, false⟩),
    (5, ⟨⟨0, 2, codeHash, some ()⟩, [], true, false, false⟩)]

lemma delegated_returned (codeHash : B256) :
    Returned (fun _ _ => 0) delegationTrace (delegated codeHash) where
  nodup := by simp [delegated]
  loaded := by simp [delegated, delegationTrace]
  slots := by simp [delegated]
  created := by simp [delegated]
  read := by simp [delegated]
  before := by simp [delegationTrace]

/-- Delegated anew, account 5 keeps its old code for all later transactions. -/
theorem losesNothing_delegated_anew :
    VmDb.Incarnation 0 delegation delegationBlock delegationDb delegationTrace ∧
      Returned (fun _ _ => 0) delegationTrace (delegated 0xd2) ∧
      ¬ LosesNothing delegationBlock.env.hash
        (Vm.writeSet delegationBlock.env.hash ⟨true, true, 7, 9⟩ delegationDb (delegated 0xd2))
        Set.univ (fun _ _ => 0) delegationTrace (delegated 0xd2) := by
  refine ⟨delegation_incarnation, delegated_returned 0xd2, fun h => ?_⟩
  have hkept := h _ (List.mem_cons_of_mem _ List.mem_cons_self) rfl rfl
  exact absurd hkept.codeHash (by decide)

/-- Delegated to the same code again, it loses nothing. -/
theorem losesNothing_iff_delegated :
    LosesNothing delegationBlock.env.hash
      (Vm.writeSet delegationBlock.env.hash ⟨true, true, 7, 9⟩ delegationDb (delegated 0xd1))
      Set.univ (fun _ _ => 0) delegationTrace (delegated 0xd1) := by
  apply (losesNothing_iff delegation_incarnation (delegated_returned 0xd1) (Set.subset_univ _)
    Function.injective_id.injOn fun _ _ _ _ => trivial).mpr
  have hlazy : delegationDb.isLazy ≠ true := by decide
  have hsender : delegationDb.readAccounts.lookup (.basic 1) =
      some (⟨1000000000, 0⟩, none) := rfl
  have hauthority : delegationDb.readAccounts.lookup (.basic 5) = some (⟨0, 1⟩, some 0xd1) := rfl
  intro e he _ _
  rcases List.mem_pair.mp he with rfl | rfl
  · constructor
    · intro account codeHash hlookup
      cases hsender.symm.trans hlookup
    · intro _ _ hempty
      exact absurd hempty.2.2 (by decide)
    · exact fun h => absurd h hlazy
    · exact fun h => absurd h hlazy
    · exact fun h => absurd h hlazy
    · simp
  · constructor
    · intro account codeHash hlookup
      cases hauthority.symm.trans hlookup
      rfl
    · intro _ _ hempty
      exact absurd hempty.2.2 (by decide)
    · exact fun h => absurd h hlazy
    · exact fun h => absurd h hlazy
    · exact fun h => absurd h hlazy
    · simp

end Sample

end Vm

end Pevm
