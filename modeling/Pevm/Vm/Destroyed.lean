import Pevm.Vm.Completed

/-!
# Destroyed accounts

A destruction is recorded with the code hash only. A read of the account comes upon it and
sends the block to the sequential execution; the rewards and the end of the block do not read
the code hash.
-/
namespace Pevm
open VersionMap

variable {κ Code Bytecode : Type}

namespace VmDb
variable {env : VmEnv κ Code Bytecode} {db db' : VmDb κ} {address : Address}

/-- Entries of lower transactions that a walk gets past are data. -/
lemma walkDown_skip {m : ℕ → Option (MemoryEntry MemoryValue)} {low bound : ℕ}
    {newOrigins : List ReadOrigin} {u : LazyUpdates}
    {met : Option AccountBasic × LazyUpdates × List ReadOrigin} (hlow : low ≤ bound)
    (hskip : ∀ k, low ≤ k → k < bound → ∀ e, m k = some e → e = .estimate)
    (h : walkDown [] m bound newOrigins u = .ok met) :
    walkDown [] m low newOrigins u = .ok met := by
  induction bound with
  | zero =>
    obtain rfl : low = 0 := by omega
    exact h
  | succ idx ih =>
    by_cases heq : low = idx + 1
    · rwa [heq]
    · have hidx := hskip idx (by omega) (by omega)
      cases hm : m idx with
      | none =>
        rw [walkDown, hm] at h
        exact ih (by omega) (fun k hk hlt => hskip k hk (by omega)) h
      | some e =>
        obtain rfl := hidx e hm
        rw [walkDown, hm] at h
        cases h

lemma foundNow_skip {low txIdx : ℕ} {found : Option AccountBasic × LazyUpdates} (hlow : low ≤ txIdx)
    (hskip : ∀ k, low ≤ k → k < txIdx → ∀ e,
      env.mvMemory.entry (env.hash (.basic address)) k = some e → e = .estimate)
    (h : foundNow env txIdx address = .ok found) : foundNow env low address = .ok found := by
  unfold foundNow at h ⊢
  obtain ⟨met, hwalk, hsettle⟩ := Fallible.bind_eq_ok.mp h
  rw [walkDown_skip hlow hskip hwalk]
  exact hsettle

/-- What a walk comes to does not depend on what was read before. -/
lemma walkDown_forget {readOrigins : List ReadOrigin}
    {m : ℕ → Option (MemoryEntry MemoryValue)} {bound : ℕ} {newOrigins : List ReadOrigin}
    {u : LazyUpdates} {met : Option AccountBasic × LazyUpdates × List ReadOrigin}
    (h : walkDown readOrigins m bound newOrigins u = .ok met) :
    walkDown [] m bound newOrigins u = .ok met := by
  induction bound generalizing newOrigins u with
  | zero => exact h
  | succ idx ih =>
    cases hm : m idx with
    | none =>
      rw [walkDown, hm] at h ⊢
      exact ih h
    | some e =>
      cases e with
      | estimate =>
        rw [walkDown, hm] at h
        cases h
      | data inc x =>
        rw [walkDown_data hm] at h ⊢
        rw [if_neg (by simp)]
        split_ifs at h
        unfold meet at h ⊢
        cases x with
        | basic info => exact h
        | lazyRecipient addition => exact ih h
        | lazySender subtraction => exact ih h
        | codeHash | storage | selfDestructed => cases h

variable [DecidableEq κ]

/-- An account found is the one that the lower transactions leave. -/
lemma foundNow_of_findAccount {account : Option AccountBasic} {u : LazyUpdates}
    {newOrigins : List ReadOrigin}
    (h : db.findAccount env address (env.hash (.basic address)) = .ok (account, u, newOrigins)) :
    foundNow env db.txIdx address = .ok (account, u) := by
  unfold VmDb.findAccount at h
  rw [VmDb.readEntries_eq] at h
  obtain ⟨⟨met, u', origins⟩, hwalk, hrest⟩ := Fallible.bind_eq_ok.mp h
  unfold foundNow
  rw [walkDown_forget hwalk, Fallible.ok_bind]
  cases met with
  | some account' =>
    cases hrest
    rfl
  | none =>
    dsimp only at hrest
    rw [fallBack_eq_bind] at hrest
    obtain ⟨⟨account', origins'⟩, hback, heq⟩ := Fallible.bind_eq_ok.mp hrest
    obtain ⟨origins'', -, hback⟩ := Fallible.bind_eq_ok.mp hback
    obtain ⟨account'', hsettle, hpair⟩ := Fallible.bind_eq_ok.mp hback
    cases hpair
    cases heq
    simp [hsettle]

/-- The code hash of a destroyed account cannot be read. -/
lemma getCodeHash_selfDestructed {txIdx idx inc : ℕ} (hidx : db.txIdx = txIdx)
    (h : env.mvMemory.closestEntry (env.hash (.codeHash address)) txIdx =
      some (idx, .data inc .selfDestructed)) :
    db.getCodeHash env address = .error .selfDestructedAccount := by
  unfold VmDb.getCodeHash
  dsimp only
  rw [hidx, h]

/-- Nor can the account, while it is found. -/
lemma basic_selfDestructed {txIdx idx inc : ℕ} {answer : Answer Bytecode}
    (hashed : Hashed env db) (hidx : db.txIdx = txIdx)
    (h : env.mvMemory.closestEntry (env.hash (.codeHash address)) txIdx =
      some (idx, .data inc .selfDestructed))
    (hmock : db.mock env (env.hash (.basic address)) = none)
    (hrecipient : some (env.hash (.basic address)) ≠ db.toHash)
    (hfound : ∀ u, foundNow env txIdx address ≠ .ok (none, u)) :
    db.read env env (.basic address) ≠ .ok (answer, db') := by
  intro hread
  obtain ⟨answered, hbasic, -⟩ := Fallible.bind_eq_ok.mp hread
  unfold basicAcross at hbasic
  dsimp only at hbasic
  rw [hashed.hashBasic_eq, hmock] at hbasic
  obtain ⟨⟨account, u, newOrigins⟩, hfind, hfinish⟩ := Fallible.bind_eq_ok.mp hbasic
  have hnow := foundNow_of_findAccount hfind
  rw [hidx] at hnow
  cases account with
  | none => exact hfound u hnow
  | some account =>
    obtain ⟨-, codeHash, code, db₁, hcode, -⟩ := evaluateAccount_eq_ok.mp hfinish
    have hsame : SameTx db (db.register (env.hash (.basic address)) newOrigins) :=
      (register_same _ _).1
    unfold accountCodeHash at hcode
    rw [if_neg (by rwa [hsame.toHash]),
      getCodeHash_selfDestructed (hsame.txIdx.trans hidx) h] at hcode
    cases hcode

end VmDb

namespace CompletedRun
variable [DecidableEq κ] (run : CompletedRun κ Code Bytecode)

/-- The locations of the block do not collide, and revm loads what it changes. These are the
assumptions on what is not in the repository. -/
structure Regular (L : Set MemoryLocation) : Prop where
  inj : Set.InjOn run.hashes.location L
  within : ∀ j h, (run.standing j h).Within L
  loads : ∀ j h, (run.standing j h).Loads
  rewarded : ∀ j (h : j < run.txs.length),
    ∀ address ∈ run.chain.rewarded run.recipients run.env run.txs[j], .basic address ∈ L
  expected : ∀ j (h : j < run.txs.length),
    ∀ l ∈ run.chain.expected run.hashes run.recipients run.env run.txs[j],
      ∀ address, l ≠ run.hashes.location (.codeHash address)

/-- A transaction destroys an account that it has found, so the account was there before. -/
structure Destroys (i : ℕ) (h : i < run.txs.length) (address : Address) : Prop where
  state : ∃ account, (address, account) ∈ (run.standing i h).result.state ∧
    account.isSelfdestructed = true
  existed : ∃ account u, VmDb.foundNow run.recordings.env i address = .ok (some account, u)

/-- From transaction `i` on the account is rewarded by none, and no lazy transfer after it is
sent by the account. -/
structure LeftAlone (i : ℕ) (address : Address) : Prop where
  rewards : ∀ j (h : j < run.txs.length), i ≤ j →
    address ∉ run.chain.rewarded run.recipients run.env run.txs[j]
  transfers : ∀ j h, i < j → (run.standing j h).db.isLazy = true →
    run.txs[j].caller ≠ address

section Unread
variable {run} {L : Set MemoryLocation} {i j k : ℕ} {address : Address}

lemma Destroys.mem {hi : i < run.txs.length} (h : run.Destroys i hi address)
    (hregular : run.Regular L) :
    MemoryLocation.basic address ∈ L ∧ MemoryLocation.codeHash address ∈ L := by
  obtain ⟨account, hstate, -⟩ := h.state
  have hlocations := (hregular.within i hi).state _ hstate
  exact ⟨hlocations _ (by simp [Vm.locations]), hlocations _ (by simp [Vm.locations])⟩

/-- A transaction that has not read the account writes nothing to it. -/
lemma written_of_unread (hregular : run.Regular L) (hk : k < run.txs.length)
    {location : MemoryLocation} (hmem : location ∈ L)
    (hreward : location.address ∉ run.chain.rewarded run.recipients run.env run.txs[k])
    (hunread : ∀ p ∈ (run.standing k hk).trace, p.1.address ≠ location.address) :
    MvMemory.written (run.standing k hk).writeSet (run.hashes.location location) = none := by
  rw [Standing.written_eq hregular.inj hmem]
  · apply Vm.written_writeSet_eq_none hregular.inj (hregular.within k hk).state hmem
    intro e he heq
    obtain ⟨answer, hread⟩ := (hregular.loads k hk).state e he
    exact hunread _ hread heq.symm
  · intro rewarded hrewarded
    refine ⟨hregular.rewarded k hk rewarded hrewarded, ?_⟩
    rintro rfl
    exact hreward hrewarded

/-- The destruction is written with the code hash and nowhere else. -/
lemma Destroys.written {hi : i < run.txs.length} (h : run.Destroys i hi address)
    (hregular : run.Regular L)
    (hreward : address ∉ run.chain.rewarded run.recipients run.env run.txs[i]) :
    MvMemory.written (run.standing i hi).writeSet (run.hashes.location (.codeHash address)) =
        some .selfDestructed ∧
      MvMemory.written (run.standing i hi).writeSet (run.hashes.location (.basic address)) =
        none := by
  obtain ⟨hbasic, hcode⟩ := h.mem hregular
  obtain ⟨account, hstate, hdestroyed⟩ := h.state
  have hwrite : Vm.writeAccount run.hashes.location run.env (run.standing i hi).db address account =
      [(run.hashes.location (.codeHash address), .selfDestructed)] := by
    unfold Vm.writeAccount
    rw [if_pos hdestroyed]
  have hne : run.hashes.location (.codeHash address) ≠ run.hashes.location (.basic address) := by
    intro heq
    cases hregular.inj hcode hbasic heq
  have hwritten : ∀ location ∈ L, location.address = address →
      MvMemory.written (run.standing i hi).writeSet (run.hashes.location location) =
        MvMemory.written [(run.hashes.location (.codeHash address), .selfDestructed)]
          (run.hashes.location location) := by
    intro location hmem haddress
    rw [Standing.written_eq hregular.inj hmem, Vm.written_writeSet hregular.inj
      (hregular.within i hi).state hmem (hregular.loads i hi).nodup hstate haddress, hwrite]
    intro rewarded hrewarded
    refine ⟨hregular.rewarded i hi rewarded hrewarded, ?_⟩
    rintro rfl
    exact hreward (haddress ▸ hrewarded)
  constructor
  · rw [hwritten _ hcode rfl]
    simp [MvMemory.written_cons]
  · rw [hwritten _ hbasic rfl]
    simp [MvMemory.written_cons, hne]

/-- Where no lower transaction has read the account since, its code hash still says that it was
destroyed, and only estimates lie on top of what it was before. -/
lemma Destroys.below {hi : i < run.txs.length} (h : run.Destroys i hi address)
    (hregular : run.Regular L) (halone : run.LeftAlone i address) (hij : i < j)
    (hj : j ≤ run.txs.length)
    (hunread : ∀ k (hk : k < run.txs.length), i < k → k < j →
      ∀ p ∈ (run.standing k hk).trace, p.1.address ≠ address) :
    (∃ inc, run.recordings.env.mvMemory.closestEntry (run.hashes.location (.codeHash address)) j =
        some (i, .data inc .selfDestructed)) ∧
      ∀ k, i ≤ k → k < j → ∀ e,
        run.recordings.env.mvMemory.entry (run.hashes.location (.basic address)) k = some e →
          e = .estimate := by
  obtain ⟨hbasic, hcode⟩ := h.mem hregular
  obtain ⟨hdestroyed, huntouched⟩ := h.written hregular (halone.rewards i hi le_rfl)
  constructor
  · refine ⟨(run.standing i hi).txIncarnation, ?_⟩
    apply (MvMemory.closestEntry_eq_some _).mpr
    refine ⟨hij, (run.standing i hi).entries _ _ hdestroyed, fun k hik hkj => ?_⟩
    have hk : k < run.txs.length := by omega
    have hnone := written_of_unread hregular hk hcode (halone.rewards k hk (by omega))
      (hunread k hk hik hkj)
    by_contra hentry
    obtain ⟨e, he⟩ := Option.ne_none_iff_exists'.mp hentry
    obtain ⟨-, hexpected⟩ := (run.standing k hk).others _ e hnone he
    exact hregular.expected k hk _ hexpected address rfl
  · intro k hik hkj e he
    have hk : k < run.txs.length := by omega
    have hnone : MvMemory.written (run.standing k hk).writeSet
        (run.hashes.location (.basic address)) = none := by
      rcases hik.eq_or_lt with rfl | hik
      · exact huntouched
      · exact written_of_unread hregular hk hbasic (halone.rewards k hk (by omega))
          (hunread k hk hik hkj)
    exact ((run.standing k hk).others _ e hnone he).1

/-- No transaction after the destruction has read the account: the read would have sent the
block to the sequential execution. -/
theorem Destroys.unread {hi : i < run.txs.length} (h : run.Destroys i hi address)
    (hregular : run.Regular L) (halone : run.LeftAlone i address) (hj : j < run.txs.length)
    (hij : i < j) : ∀ p ∈ (run.standing j hj).trace, p.1.address ≠ address := by
  induction j using Nat.strong_induction_on with
  | _ j ih =>
    obtain ⟨⟨inc, hclosest⟩, hestimates⟩ := h.below hregular halone hij hj.le
      fun k hk hik hkj => ih k hkj hk hik
    have hinj : Set.InjOn run.recordings.env.hash L := by
      rw [run.hash]
      exact hregular.inj
    rw [← run.hash] at hclosest hestimates
    have hcode : ∀ answer, (Read.codeHash address, answer) ∉ (run.standing j hj).trace := by
      intro answer hp
      obtain ⟨db₀, db₁, -, -, hidx, -, hread⟩ := Standing.read_again (hregular.within j hj) hinj hp
      rw [VmDb.read, VmDb.getCodeHash_selfDestructed hidx hclosest] at hread
      cases hread
    have hbasic : ∀ answer, (Read.basic address, answer) ∉ (run.standing j hj).trace := by
      intro answer hp
      obtain ⟨db₀, db₁, hashed, hsame, hidx, htx, hread⟩ :=
        Standing.read_again (hregular.within j hj) hinj hp
      have htouched := (hregular.within j hj).touched
      have hmem : MemoryLocation.basic address ∈ L := (h.mem hregular).1
      have hrecipient : some (run.recordings.env.hash (.basic address)) ≠ db₀.toHash := by
        intro hto
        rw [hashed.toHash, htx] at hto
        obtain ⟨recipient, hcall, heq⟩ := Option.map_eq_some_iff.mp hto.symm
        obtain rfl := MemoryLocation.basic.inj
          (hinj (htouched (.inr (.inl ⟨recipient, hcall, rfl⟩))) hmem heq)
        obtain ⟨answer, hopened⟩ := Standing.recipient_read (hregular.within j hj) hinj hcall
        exact hcode answer hopened
      have hmock : db₀.mock run.recordings.env (run.recordings.env.hash (.basic address)) =
          (none : Option (Option (AccountInfo Bytecode))) := by
        unfold VmDb.mock
        rw [if_neg, if_neg fun h => hrecipient h.2]
        rintro ⟨hlazy, hfrom⟩
        rw [hashed.fromHash, htx] at hfrom
        have hcaller := MemoryLocation.basic.inj (hinj hmem (htouched (.inl rfl)) hfrom)
        exact halone.transfers j hj hij (hsame.isLazy.trans hlazy) hcaller.symm
      refine VmDb.basic_selfDestructed hashed hidx hclosest hmock hrecipient
        (fun u hfound => ?_) hread
      obtain ⟨account, u', hexisted⟩ := h.existed
      rw [VmDb.foundNow_skip hij.le hestimates hfound] at hexisted
      cases hexisted
    rintro ⟨r, answer⟩ hp haddress
    cases r with
    | basic address' =>
      obtain rfl : address' = address := haddress
      exact hbasic answer hp
    | storage address' index =>
      obtain rfl : address' = address := haddress
      obtain ⟨answer', hp'⟩ := (hregular.loads j hj).storage _ _ _ hp
      exact hbasic answer' hp'
    | codeHash address' =>
      obtain rfl : address' = address := haddress
      exact hcode answer hp

end Unread

section Results
variable {toCode : Bytecode → Code} {i : ℕ} {address : Address}

/-- A result that keeps an account comes of a state in which it is not destroyed. -/
lemma mem_of_fromRevm {isEip161Enabled : Bool} {state : List (Address × RevmAccount Bytecode)}
    {kept : EvmAccount Code} (h : fromRevm toCode isEip161Enabled state address = some (some kept)) :
    ∃ account, (address, account) ∈ state ∧ account.isSelfdestructed = false := by
  obtain ⟨account, hlookup, hkept⟩ := Option.bind_eq_some_iff.mp h
  obtain ⟨before, behind, rfl, -⟩ := List.lookup_eq_some_iff.mp hlookup
  refine ⟨account, by simp, ?_⟩
  by_contra hdestroyed
  rw [Bool.not_eq_false] at hdestroyed
  simp [hdestroyed] at hkept

/-- After its destruction nobody uses the account, and no result gives it a state. -/
structure NeverAlive (i : ℕ) (address : Address) (results : ℕ → LazyEvaluation.TxState Code) :
    Prop where
  unread : ∀ j h, i < j → ∀ p ∈ (run.standing j h).trace, p.1.address ≠ address
  unwritten : ∀ j, i ≤ j → ∀ inc value,
    run.recordings.env.mvMemory.entry (run.hashes.location (.basic address)) j ≠
      some (.data inc value)
  gone : ∀ j, i ≤ j → ∀ account, results j address ≠ some (some account)

variable {run} {L : Set MemoryLocation}

/-- A destroyed account is never seen alive in a run that completes, as long as it is not rewarded
and sends no lazy transfer. The locations of the block have different hashes, and revm loads an
account before it changes it. A run that panics does not complete. -/
theorem destroyed_neverAlive {hi : i < run.txs.length} (h : run.Destroys i hi address)
    (hregular : run.Regular L) (halone : run.LeftAlone i address) {lazyAddresses : List Address}
    {results : ℕ → LazyEvaluation.TxState Code}
    (hresults : run.fullyEvaluatedResults toCode lazyAddresses = .ok results) :
    run.NeverAlive i address results := by
  have hunread : ∀ j hj, i < j → ∀ p ∈ (run.standing j hj).trace, p.1.address ≠ address :=
    fun j hj hij => h.unread hregular halone hj hij
  have hestimates : ∀ j, i ≤ j → ∀ e,
      run.recordings.env.mvMemory.entry (run.hashes.location (.basic address)) j = some e →
        e = .estimate := by
    intro j hij e he
    by_cases hj : j < run.txs.length
    · have hbelow := h.below hregular halone (j := j + 1) (by omega) (by omega)
        fun k hk hik _ => hunread k hk hik
      exact hbelow.2 j hij (by omega) e he
    · rw [run.above j _ (by omega)] at he
      cases he
  refine ⟨hunread, fun j hij inc value hentry => ?_, fun j hij account hkept => ?_⟩
  · cases hestimates j hij _ hentry
  · rw [LazyEvaluation.evaluate_frame hresults (hestimates j hij)] at hkept
    unfold executionResults at hkept
    split_ifs at hkept with hj
    · obtain ⟨kept, hmem, halive⟩ := mem_of_fromRevm hkept
      rcases hij.eq_or_lt with rfl | hij
      · obtain ⟨destroyed, hstate, hdestroyed⟩ := h.state
        have hsame := List.inj_on_of_nodup_map (hregular.loads _ hj).nodup hstate hmem rfl
        cases hsame
        rw [hdestroyed] at halive
        cases halive
      · obtain ⟨answer, hread⟩ := (hregular.loads j hj).state _ hmem
        exact hunread j hj hij _ hread rfl

end Results

section Sample

def reapHashes : Hashes MemoryLocation := ⟨id, .basic⟩

/-- Account 1 calls the contract at account 9, which destroys itself in its favour. -/
def reap : OptimismTxEnv where
  caller := 1
  gasLimit := 100000
  gasPrice := 17
  transactTo := .call 9
  value := 0
  nonce := some 0
  gasPriorityFee := none
  blobHashes := []
  maxFeePerBlobGas := none
  optimism := ⟨none, none⟩

/-- Account 5 sends 3 to account 4. -/
def bystander : OptimismTxEnv where
  caller := 5
  gasLimit := 21000
  gasPrice := 17
  transactTo := .call 4
  value := 3
  nonce := some 0
  gasPriorityFee := none
  blobHashes := []
  maxFeePerBlobGas := none
  optimism := ⟨none, none⟩

/-- The contract may be the beneficiary of the block. -/
def reapEnv (earns : Bool) : ChainEnv := ⟨true, true, 7, if earns then 9 else 7⟩

/-- Where the contract earns nothing, another transaction follows. -/
def reapBlock (earns : Bool) : EvmBlock MemoryLocation :=
  ⟨.ethereum, reapHashes, ⟨0, 0⟩, reapEnv earns, reap :: if earns then [] else [bystander]⟩

/-- Before the block the contract has a balance of 1000. -/
def reapStart (earns : Bool) : Recordings MemoryLocation Unit Unit where
  env :=
    { hash := id
      storage :=
        { basic := fun address => .ok (
            if address = 1 ∨ address = 5 then some ⟨1000000000, 0⟩
            else if address = 9 then some ⟨1000, 1⟩
            else none)
          codeHash := fun address => .ok (if address = 9 then some 0xc0de else none)
          codeByHash := fun _ => .ok (some ())
          storage := fun _ _ => .ok 0 }
      mvMemory := PexeChain.buildMvMemory reapHashes ⟨0, 0⟩ (reapEnv earns) .ethereum
        (reapBlock earns).txs
      newBytecodes := fun _ => none
      toBytecode := some }
  log _ := none

/-- The call has read sender and contract. -/
def reapDb : VmDb MemoryLocation :=
  let start : VmDb MemoryLocation :=
    { txIdx := 0
      tx := reap.toTxEnv
      fromHash := .basic 1
      toHash := some (.basic 9)
      toCodeHash := some 0xc0de
      isLazy := false
      readSet := ∅
      readAccounts := ∅ }
  let sender := (((start.withOrigins (.codeHash 9) [.storage]).withOrigins (.basic 1)
    [.storage]).withOrigins (.codeHash 1) [.storage]).cacheAccount (.basic 1) ⟨1000000000, 0⟩ none
  (sender.withOrigins (.basic 9) [.storage]).cacheAccount (.basic 9) ⟨1000, 1⟩ (some 0xc0de)

def reapTrace : List (Read × Answer Unit) :=
  [(.codeHash 9, .codeHash (some 0xc0de)),
    (.basic 1, .basic (some ⟨1000000000, 0, keccakEmpty, none⟩)),
    (.basic 9, .basic (some ⟨1000, 1, 0xc0de, some ()⟩))]

lemma reap_incarnation (earns : Bool) :
    VmDb.Incarnation 0 reap.toTxEnv (reapStart earns) reapDb reapTrace := by
  have hnew : VmDb.new (reapStart earns).env 0 reap.toTxEnv = .ok
      { reapDb with readSet := (∅ : ReadSet MemoryLocation).insert (.codeHash 9) [.storage]
                    readAccounts := ∅ } := by
    cases earns with
    | false => rfl
    | true => rfl
  have hopened := VmDb.Incarnation.opened (.init ⟨⟨_, rfl⟩, rfl⟩) hnew
  cases earns with
  | false =>
    have hsender := VmDb.Incarnation.read (r := .basic 1) hopened .refl .refl rfl
    exact VmDb.Incarnation.read (r := .basic 9) hsender .refl .refl rfl
  | true =>
    have hsender := VmDb.Incarnation.read (r := .basic 1) hopened .refl .refl rfl
    exact VmDb.Incarnation.read (r := .basic 9) hsender .refl .refl rfl

def reapResult : ResultAndState Unit :=
  ⟨50000, [(1, ⟨⟨999151000, 1, keccakEmpty, none⟩, [], true, false, false⟩),
    (9, ⟨⟨0, 1, 0xc0de, some ()⟩, [], true, true, false⟩)]⟩

def reapWrites (earns : Bool) : WriteSet MemoryLocation MemoryValue :=
  [(.basic 1, .basic ⟨999151000, 1⟩), (.codeHash 9, .selfDestructed),
    (.basic (reapEnv earns).beneficiary, .lazyRecipient 500000)]

/-- The call has recorded what it read and wrote. -/
def reapMiddle (earns : Bool) : Recordings MemoryLocation Unit Unit :=
  { (reapStart earns).withMemory ((reapStart earns).env.mvMemory.record ⟨0, 0⟩ reapDb.readSet
      (reapWrites earns)).2 with
    log := Function.update (reapStart earns).log ⟨0, 0⟩ (some (reapWrites earns)) }

/-- The transfer has read sender and recipient. -/
def bystanderDb : VmDb MemoryLocation :=
  let start : VmDb MemoryLocation :=
    { txIdx := 1
      tx := bystander.toTxEnv
      fromHash := .basic 5
      toHash := some (.basic 4)
      toCodeHash := none
      isLazy := false
      readSet := ∅
      readAccounts := ∅ }
  let sender := (((start.withOrigins (.codeHash 4) [.storage]).withOrigins (.basic 5)
    [.storage]).withOrigins (.codeHash 5) [.storage]).cacheAccount (.basic 5) ⟨1000000000, 0⟩ none
  sender.withOrigins (.basic 4) [.storage]

def bystanderTrace : List (Read × Answer Unit) :=
  [(.codeHash 4, .codeHash none),
    (.basic 5, .basic (some ⟨1000000000, 0, keccakEmpty, none⟩)),
    (.basic 4, .basic none)]

lemma reap_step (earns : Bool) : (reapStart earns).Step (reapMiddle earns) := .record _ _ rfl

/-- It is executed once the call has been recorded. -/
lemma bystander_incarnation :
    VmDb.Incarnation 1 bystander.toTxEnv (reapMiddle false) bystanderDb bystanderTrace := by
  have hnew : VmDb.new (reapMiddle false).env 1 bystander.toTxEnv = .ok
      { bystanderDb with readSet := (∅ : ReadSet MemoryLocation).insert (.codeHash 4) [.storage]
                         readAccounts := ∅ } := rfl
  have hreach : (Recordings.system MemoryLocation Unit Unit).Reachable (reapMiddle false) :=
    .step (.init ⟨⟨_, rfl⟩, rfl⟩) (reap_step false)
  have hopened := VmDb.Incarnation.opened hreach hnew
  have hsender := VmDb.Incarnation.read (r := .basic 5) hopened .refl .refl rfl
  exact VmDb.Incarnation.read (r := .basic 4) hsender .refl .refl rfl

def bystanderResult : ResultAndState Unit :=
  ⟨21000, [(5, ⟨⟨999642997, 1, keccakEmpty, none⟩, [], true, false, false⟩),
    (4, ⟨⟨3, 0, keccakEmpty, none⟩, [], true, false, false⟩)]⟩

def bystanderWrites : WriteSet MemoryLocation MemoryValue :=
  [(.basic 5, .basic ⟨999642997, 1⟩), (.basic 4, .basic ⟨3, 0⟩), (.basic 7, .lazyRecipient 210000)]

def reapEnd : Bool → Recordings MemoryLocation Unit Unit
  | true => reapMiddle true
  | false =>
    { (reapMiddle false).withMemory ((reapMiddle false).env.mvMemory.record ⟨1, 0⟩
        bystanderDb.readSet bystanderWrites).2 with
      log := Function.update (reapMiddle false).log ⟨1, 0⟩ (some bystanderWrites) }

lemma reap_later : ∀ earns, (reapMiddle earns).Steps (reapEnd earns)
  | true => .refl
  | false => .single (.record _ _ rfl)

lemma reapStart_entry {earns : Bool} {l : MemoryLocation} {j : ℕ}
    {e : MemoryEntry MemoryValue} (h : (reapStart earns).env.mvMemory.entry l j = some e) :
    e = .estimate ∧ j < (reapBlock earns).txs.length ∧ l = .basic (reapEnv earns).beneficiary :=
  PexeChain.buildMvMemory_ethereum_entry h

lemma reapMiddle_entry (earns : Bool) (l : MemoryLocation) (j : ℕ) :
    (reapMiddle earns).env.mvMemory.entry l j =
      if j = 0 then
        match MvMemory.written (reapWrites earns) l with
        | some value => some (.data 0 value)
        | none => (reapStart earns).env.mvMemory.entry l j
      else (reapStart earns).env.mvMemory.entry l j := by
  show ((reapStart earns).env.mvMemory.record ⟨0, 0⟩ reapDb.readSet (reapWrites earns)).2.entry l j
    = _
  have hfresh : ((reapStart earns).env.mvMemory.lastLocations 0).write = [] := rfl
  rw [MvMemory.record_entry]
  cases MvMemory.written (reapWrites earns) l with
  | none => simp [hfresh]
  | some value => rfl

lemma reapEnd_entry (l : MemoryLocation) (j : ℕ) :
    (reapEnd false).env.mvMemory.entry l j =
      if j = 1 then
        match MvMemory.written bystanderWrites l with
        | some value => some (.data 0 value)
        | none => (reapMiddle false).env.mvMemory.entry l j
      else (reapMiddle false).env.mvMemory.entry l j := by
  show ((reapMiddle false).env.mvMemory.record ⟨1, 0⟩ bystanderDb.readSet bystanderWrites).2.entry
    l j = _
  have hfresh : ((reapMiddle false).env.mvMemory.lastLocations 1).write = [] := rfl
  rw [MvMemory.record_entry]
  cases MvMemory.written bystanderWrites l with
  | none => simp [hfresh]
  | some value => rfl

/-- The transfer writes entries of its own only. -/
lemma reapEnd_entry_zero (earns : Bool) (l : MemoryLocation) :
    (reapEnd earns).env.mvMemory.entry l 0 =
      match MvMemory.written (reapWrites earns) l with
      | some value => some (.data 0 value)
      | none => (reapStart earns).env.mvMemory.entry l 0 := by
  have hmiddle := reapMiddle_entry earns l 0
  rw [if_pos rfl] at hmiddle
  cases earns with
  | true => exact hmiddle
  | false => rw [reapEnd_entry, if_neg (by decide), hmiddle]

def reapStanding (earns : Bool) : Standing (reapBlock earns) (reapEnd earns) 0 reap where
  txIncarnation := 0
  finished := reapStart earns
  db := reapDb
  trace := reapTrace
  calculateTxL1Cost := none
  result := reapResult
  writeSet := reapWrites earns
  flags := .empty
  incarnation := reap_incarnation earns
  later := .head (reap_step earns) (reap_later earns)
  executes := by
    cases earns with
    | false => rfl
    | true => rfl
  recorded := by
    cases earns with
    | false => rfl
    | true => rfl
  valid := by
    cases earns with
    | false => decide
    | true => decide
  entries := by
    intro l value hwritten
    rw [reapEnd_entry_zero, hwritten]
  others := by
    intro l e hnone he
    rw [reapEnd_entry_zero, hnone] at he
    obtain ⟨hestimate, -, hl⟩ := reapStart_entry he
    exact ⟨hestimate, List.mem_singleton.mpr hl⟩

def bystanderStanding : Standing (reapBlock false) (reapEnd false) 1 bystander where
  txIncarnation := 0
  finished := reapMiddle false
  db := bystanderDb
  trace := bystanderTrace
  calculateTxL1Cost := none
  result := bystanderResult
  writeSet := bystanderWrites
  flags := .empty
  incarnation := bystander_incarnation
  later := reap_later false
  executes := rfl
  recorded := rfl
  valid := by decide
  entries := by
    intro l value hwritten
    rw [reapEnd_entry, if_pos rfl, hwritten]
  others := by
    intro l e hnone he
    rw [reapEnd_entry, if_pos rfl, hnone, reapMiddle_entry, if_neg one_ne_zero] at he
    obtain ⟨hestimate, -, hl⟩ := reapStart_entry he
    exact ⟨hestimate, List.mem_singleton.mpr hl⟩

/-- Above the block there are no entries. -/
lemma reapMiddle_above {earns : Bool} {l : MemoryLocation} {j : ℕ}
    (hj : (reapBlock earns).txs.length ≤ j) : (reapMiddle earns).env.mvMemory.entry l j = none := by
  by_contra hentry
  obtain ⟨e, he⟩ := Option.ne_none_iff_exists'.mp hentry
  have hpos : 0 < (reapBlock earns).txs.length := Nat.succ_pos _
  rw [reapMiddle_entry, if_neg (by omega)] at he
  have hlow := (reapStart_entry he).2.1
  omega

def reapRun : Bool → CompletedRun MemoryLocation Unit Unit
  | true =>
    { reapBlock true with
      recordings := reapEnd true
      hash := rfl
      standing := fun
        | 0, _ => reapStanding true
        | _ + 1, h => absurd h (by simp [reapBlock])
      above := fun _ _ hj => reapMiddle_above hj }
  | false =>
    { reapBlock false with
      recordings := reapEnd false
      hash := rfl
      standing := fun
        | 0, _ => reapStanding false
        | 1, _ => bystanderStanding
        | _ + 2, h => absurd h (by simp [reapBlock])
      above := by
        intro j l hj
        replace hj : 2 ≤ j := hj
        rw [reapEnd_entry, if_neg (by omega), reapMiddle_above hj] }

lemma reap_length : ∀ earns, 0 < (reapRun earns).txs.length
  | true => Nat.one_pos
  | false => Nat.two_pos

/-- The account has been found with its balance, and the call destroys it. -/
lemma reap_destroys (earns : Bool) : (reapRun earns).Destroys 0 (reap_length earns) 9 := by
  cases earns with
  | true | false =>
    exact ⟨⟨⟨⟨0, 1, 0xc0de, some ()⟩, [], true, true, false⟩,
      List.mem_cons_of_mem _ List.mem_cons_self, rfl⟩, ⟨⟨1000, 1⟩, .none, rfl⟩⟩

lemma reap_loads (earns : Bool) : (reapStanding earns).Loads where
  state := by
    have hread : ∀ e ∈ reapResult.state, ∃ answer, (Read.basic e.1, answer) ∈ reapTrace := by
      simp [reapResult, reapTrace]
    exact hread
  storage := by
    have hread : ∀ address index answer, (Read.storage address index, answer) ∉ reapTrace := by
      simp [reapTrace]
    intro address index answer hmem
    exact absurd hmem (hread address index answer)
  nodup := by
    have hnodup : (reapResult.state.map Prod.fst).Nodup := by decide
    exact hnodup

lemma bystander_loads : bystanderStanding.Loads where
  state := by
    have hread : ∀ e ∈ bystanderResult.state,
        ∃ answer, (Read.basic e.1, answer) ∈ bystanderTrace := by
      simp [bystanderResult, bystanderTrace]
    exact hread
  storage := by
    have hread : ∀ address index answer,
        (Read.storage address index, answer) ∉ bystanderTrace := by
      simp [bystanderTrace]
    intro address index answer hmem
    exact absurd hmem (hread address index answer)
  nodup := by
    have hnodup : (bystanderResult.state.map Prod.fst).Nodup := by decide
    exact hnodup

lemma reap_regular : (reapRun false).Regular Set.univ where
  inj := Function.injective_id.injOn
  within := fun _ _ => ⟨fun _ _ => trivial, fun _ _ _ _ => trivial⟩
  loads := fun
    | 0, _ => reap_loads false
    | 1, _ => bystander_loads
    | _ + 2, h => absurd h (by simp [reapRun, reapBlock])
  rewarded := fun _ _ _ _ => trivial
  expected := by
    intro j _ l hl address heq
    have hbasic : l = .basic (reapEnv false).beneficiary := List.mem_singleton.mp hl
    rw [hbasic] at heq
    cases heq

/-- Paid for its own destruction, the contract is given its old balance back. -/
theorem destroyed_alive_reap : (reapRun true).Destroys 0 (reap_length true) 9 ∧
    ∃ results account,
      (reapRun true).fullyEvaluatedResults (fun _ => ()) [9] = .ok results ∧
      results 0 9 = some (some account) ∧ account.balance = 501000 := by
  refine ⟨reap_destroys true, _, ⟨501000, 1, some 0xc0de, some (), fun _ => none⟩, rfl, ?_, rfl⟩
  rfl

/-- Where account 7 is the beneficiary, the contract is gone, also after the transfer that
follows. -/
theorem destroyed_neverAlive_reap : ∃ results,
    (reapRun false).fullyEvaluatedResults (fun _ => ()) [7] = .ok results ∧
      (reapRun false).NeverAlive 0 9 results := by
  have halone : (reapRun false).LeftAlone 0 9 := by
    constructor
    · intro j _ _ hrewarded
      have hbeneficiary : (9 : Address) = (reapEnv false).beneficiary :=
        List.mem_singleton.mp hrewarded
      exact absurd hbeneficiary (by decide)
    · intro j h hj
      match j, h with
      | 0, _ => cases hj
      | 1, _ =>
        have hcaller : bystander.caller ≠ 9 := by decide
        exact fun _ => hcaller
      | _ + 2, h => exact absurd h (by simp [reapRun, reapBlock])
  obtain ⟨results, hresults⟩ : ∃ results,
      (reapRun false).fullyEvaluatedResults (fun _ => ()) [7] = .ok results := ⟨_, rfl⟩
  exact ⟨results, hresults,
    destroyed_neverAlive (reap_destroys false) reap_regular halone hresults⟩

end Sample

end CompletedRun

end Pevm
