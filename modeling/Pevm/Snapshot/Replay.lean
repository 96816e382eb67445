import Pevm.Snapshot.Caches

/-!
# What a snapshot replays

The caches agree with the provider and only grow, so what they answer at the end is what was
answered before. Whether an account has storage is not cached, nor are the slots of an account
that is not kept: there the storage in memory can only infer an answer.
-/
namespace Pevm.Snapshot

namespace RpcStorage
variable {Bytecode Code : Type} {start rpc : RpcStorage Bytecode Code}
  {address : Address} {log : List (Query × Answer Code)}

/-- Code is only asked for by a hash that the storage has answered before, as the executor does. -/
def AsksKnownCode (log : List (Query × Answer Code)) : Prop :=
  ∀ before codeHash answer after, log = before ++ (.codeByHash codeHash, answer) :: after →
    ∃ address, (.codeHash address, .codeHash (some codeHash)) ∈ before

lemma AsksKnownCode.init {entry : Query × Answer Code} (h : AsksKnownCode (log ++ [entry])) :
    AsksKnownCode log := by
  intro before codeHash answer after hlog
  exact h before codeHash answer (after ++ [entry]) (by rw [hlog]; simp)

lemma AsksKnownCode.last {codeHash : B256} {answer : Answer Code}
    (h : AsksKnownCode (log ++ [(.codeByHash codeHash, answer)])) :
    ∃ address, (.codeHash address, .codeHash (some codeHash)) ∈ log :=
  h log codeHash answer [] rfl

/-- The code that a hash was answered for is cached. -/
lemma Answered.code_cached (hsound : rpc.Sound) {codeHash : B256}
    (h : Answered rpc (.codeHash address) (.codeHash (some codeHash))) :
    rpc.cacheBytecodes.lookup codeHash ≠ none := by
  rcases h with ⟨account, hlookup, heq⟩ | ⟨-, heq⟩
  · exact hsound.code address account codeHash hlookup (Answer.codeHash.inj heq).symm
  · cases heq

/-- What one storage leaves behind after all that it was asked: its caches cover every answer that
it gave. -/
structure Keeps (start : RpcStorage Bytecode Code) (log : List (Query × Answer Code))
    (rpc : RpcStorage Bytecode Code) : Prop where
  sound : rpc.Sound
  grows : Grows start rpc
  slots : ∀ address index, HasSlot rpc address index →
    .storage address index ∈ log.map Prod.fst
  answered : ∀ entry ∈ log, Answered rpc entry.1 entry.2

theorem Serves.keeps (hserves : Serves start log rpc) (hsound : start.Sound)
    (hempty : ∀ address index, ¬ HasSlot start address index) (hknown : AsksKnownCode log) :
    Keeps start log rpc := by
  induction hserves with
  | nil => exact ⟨hsound, .refl _, fun a i h => absurd h (hempty a i), fun _ h => by cases h⟩
  | @snoc mid rpc log query answer _ hanswer ih =>
    have hkeeps := ih hknown.init
    have hcached : ∀ codeHash, query = .codeByHash codeHash →
        mid.cacheBytecodes.lookup codeHash ≠ none := by
      rintro codeHash rfl
      obtain ⟨address, hmem⟩ := hknown.last
      exact (hkeeps.answered _ hmem).code_cached hkeeps.sound
    obtain ⟨hsound', hgrows, hslots, hlast⟩ := answer_spec hkeeps.sound hcached hanswer
    refine ⟨hsound', hkeeps.grows.trans hgrows, ?_, ?_⟩
    · intro address index hslot
      rw [List.map_append, List.mem_append]
      rcases hslots address index hslot with hslot | rfl
      · exact .inl (hkeeps.slots address index hslot)
      · exact .inr (List.mem_singleton_self _)
    · intro entry hentry
      rcases List.mem_append.mp hentry with hentry | hentry
      · exact (hkeeps.answered entry hentry).mono hgrows
      · rw [List.mem_singleton.mp hentry]
        exact hlast

lemma new_sound (provider : Provider) (precompiles : List Address)
    (api : BytecodeApi Bytecode Code) : (new provider precompiles api).Sound where
  account _ _ h := by cases h
  code _ _ _ h := by cases h
  slot _ _ _ _ h := by cases h
  bytecode _ _ h := by cases h

lemma new_hasSlot (provider : Provider) (precompiles : List Address)
    (api : BytecodeApi Bytecode Code) (address : Address) (index : U256) :
    ¬ HasSlot (new provider precompiles api) address index := by
  rintro ⟨account, hlookup, -⟩
  cases hlookup

end RpcStorage

/-- No two codes that the provider answers share their hash. -/
def NoCollision {Bytecode Code : Type} (provider : Provider) (api : BytecodeApi Bytecode Code) :
    Prop :=
  ∀ address raw address' raw', provider.getCodeAt address = .ok raw →
    provider.getCodeAt address' = .ok raw' →
      api.hashSlow (api.newRaw raw) = api.hashSlow (api.newRaw raw') → raw = raw'

/-- Where the storage in memory infers the answer, it does so rightly: of the storage of an
account, from whether it is kept and one of its slots was asked for, and of the slots of an account
that is not kept, that they are zero. -/
def Inferred (provider : Provider) (precompiles : List Address) (queries : List Query) :
    Query → Prop
  | .hasStorage address =>
      (∃ root, provider.getProof address = .ok root ∧ root ≠ emptyRootHash) ↔
        IsKept provider precompiles address ∧ ∃ index, .storage address index ∈ queries
  | .storage address index =>
      IsKept provider precompiles address ∨ provider.getStorageAt address index = .ok 0
  | _ => True

namespace RpcStorage
variable {Bytecode Code : Type} {start rpc : RpcStorage Bytecode Code}
  {address : Address} {log : List (Query × Answer Code)}

lemma Sound.not_isNew (hsound : rpc.Sound) {account : EvmAccount Code}
    (hlookup : rpc.cacheAccounts.lookup address = some account) :
    ¬ IsNew rpc.provider rpc.precompiles address :=
  (hsound.account address account hlookup).not_isNew

lemma Sound.lookup_of_isNew (hsound : rpc.Sound)
    (hnew : IsNew rpc.provider rpc.precompiles address) :
    rpc.cacheAccounts.lookup address = none := by
  cases hlookup : rpc.cacheAccounts.lookup address with
  | none => rfl
  | some account => exact absurd hnew (hsound.not_isNew hlookup)

/-- A map has entries where something can be looked up in it. -/
lemma entries_ne_nil_iff {slots : AList fun _ : U256 => U256} :
    slots.entries ≠ [] ↔ ∃ index, slots.lookup index ≠ none := by
  constructor
  · intro h
    obtain ⟨entry, hentry⟩ := List.exists_mem_of_ne_nil slots.entries h
    refine ⟨entry.1, Option.isSome_iff_ne_none.mp ?_⟩
    exact AList.lookup_isSome.mpr (List.mem_map_of_mem hentry)
  · rintro ⟨index, hindex⟩ h
    have hmem : index ∈ slots := AList.lookup_isSome.mp (Option.isSome_iff_ne_none.mpr hindex)
    rw [AList.mem_keys, AList.keys, h] at hmem
    cases hmem

lemma hasStorage_intoSnapshot :
    rpc.intoSnapshot.hasStorage address = true ↔ ∃ index, HasSlot rpc address index := by
  show (rpc.cacheAccounts.lookup address).any (fun account =>
    !account.storage.entries.isEmpty) = true ↔ _
  unfold HasSlot
  cases rpc.cacheAccounts.lookup address with
  | none => simp
  | some account => simp [← entries_ne_nil_iff]

lemma storage_intoSnapshot_of_hasSlot (hsound : rpc.Sound) {index value : U256}
    (hvalue : rpc.provider.getStorageAt address index = .ok value)
    (hslot : HasSlot rpc address index) : rpc.intoSnapshot.storage address index = value := by
  obtain ⟨account, hlookup, hindex⟩ := hslot
  obtain ⟨cached, hcached⟩ := Option.ne_none_iff_exists'.mp hindex
  have hsame := hsound.slot address account index cached hlookup hcached
  show ((rpc.cacheAccounts.lookup address).bind (·.storage.lookup index)).getD 0 = value
  rw [hlookup, Option.bind_some, hcached]
  exact Except.ok.inj (hsame.symm.trans hvalue)

lemma storage_intoSnapshot_of_isNew (hsound : rpc.Sound) {index : U256}
    (hnew : IsNew rpc.provider rpc.precompiles address) :
    rpc.intoSnapshot.storage address index = 0 := by
  show ((rpc.cacheAccounts.lookup address).bind (·.storage.lookup index)).getD 0 = 0
  rw [hsound.lookup_of_isNew hnew]
  rfl

/-- The slots that are cached are those that were asked for, where the account is kept. -/
lemma Keeps.exists_hasSlot_iff (hkeeps : Keeps start log rpc) :
    (∃ index, HasSlot rpc address index) ↔ IsKept start.provider start.precompiles address ∧
      ∃ index, .storage address index ∈ log.map Prod.fst := by
  rw [← hkeeps.grows.provider, ← hkeeps.grows.precompiles]
  constructor
  · rintro ⟨index, hslot⟩
    obtain ⟨account, hlookup, -⟩ := id hslot
    exact ⟨hkeeps.sound.account address account hlookup, index,
      hkeeps.slots address index hslot⟩
  · rintro ⟨hkept, index, hasked⟩
    obtain ⟨entry, hentry, heq⟩ := List.mem_map.mp hasked
    have hanswered := hkeeps.answered entry hentry
    rw [heq] at hanswered
    obtain ⟨value, -, -, hslot | hnew⟩ := hanswered
    · exact ⟨index, hslot⟩
    · exact absurd hnew hkept.not_isNew

section Replayed
variable {answer : Answer Code} (hashNumber : U64 → B256)

lemma Keeps.replays_codeByHash (hkeeps : Keeps start log rpc)
    (hcollision : NoCollision start.provider start.api) {codeHash : B256}
    (hanswered : Answered rpc (.codeByHash codeHash) answer) :
    rpc.intoSnapshot.answer hashNumber (.codeByHash codeHash) = answer := by
  obtain ⟨hcached, address, raw, hraw, hhash, rfl⟩ := hanswered
  obtain ⟨code, hlookup⟩ := Option.ne_none_iff_exists'.mp hcached
  obtain ⟨address', raw', hraw', hhash', rfl⟩ := hkeeps.sound.bytecode codeHash code hlookup
  rw [hkeeps.grows.provider] at hraw hraw'
  rw [hkeeps.grows.api] at hhash hhash' hlookup ⊢
  obtain rfl := hcollision address raw address' raw' hraw hraw' (hhash.trans hhash'.symm)
  exact congrArg Answer.code hlookup

lemma Keeps.replays_hasStorage_iff (hkeeps : Keeps start log rpc)
    (hanswered : Answered rpc (.hasStorage address) answer) :
    rpc.intoSnapshot.answer hashNumber (.hasStorage address) = answer ↔
      Inferred start.provider start.precompiles (log.map Prod.fst) (.hasStorage address) := by
  obtain ⟨root, hroot, rfl⟩ := hanswered
  rw [hkeeps.grows.provider] at hroot
  show Answer.hasStorage (rpc.intoSnapshot.hasStorage address) = _ ↔
    ((∃ root, start.provider.getProof address = .ok root ∧ root ≠ emptyRootHash) ↔
      IsKept start.provider start.precompiles address ∧ _)
  have hproof : (∃ root, start.provider.getProof address = .ok root ∧ root ≠ emptyRootHash) ↔
      root ≠ emptyRootHash := by
    constructor
    · rintro ⟨root', hroot', hne⟩
      rwa [Except.ok.inj (hroot.symm.trans hroot')]
    · exact fun hne => ⟨root, hroot, hne⟩
  rw [hproof, ← hkeeps.exists_hasSlot_iff, ← hasStorage_intoSnapshot, Answer.hasStorage.injEq,
    Bool.eq_iff_iff, decide_eq_true_iff]
  exact Iff.comm

lemma Keeps.replays_storage_iff (hkeeps : Keeps start log rpc) {index : U256}
    (hanswered : Answered rpc (.storage address index) answer) :
    rpc.intoSnapshot.answer hashNumber (.storage address index) = answer ↔
      Inferred start.provider start.precompiles (log.map Prod.fst) (.storage address index) := by
  obtain ⟨value, hvalue, rfl, hslot⟩ := hanswered
  show Answer.storage (rpc.intoSnapshot.storage address index) = _ ↔
    (IsKept start.provider start.precompiles address ∨
      start.provider.getStorageAt address index = .ok 0)
  rw [← hkeeps.grows.provider, ← hkeeps.grows.precompiles, Answer.storage.injEq]
  rcases hslot with hslot | hnew
  · obtain ⟨account, hlookup, -⟩ := id hslot
    exact iff_of_true (storage_intoSnapshot_of_hasSlot hkeeps.sound hvalue hslot)
      (.inl (hkeeps.sound.account address account hlookup))
  · rw [storage_intoSnapshot_of_isNew hkeeps.sound hnew, hvalue, Except.ok.injEq, eq_comm]
    exact (or_iff_right fun hkept => hkept.not_isNew hnew).symm

/-- One query is replayed exactly where its answer is cached or inferred rightly. -/
theorem Keeps.replays_iff (hkeeps : Keeps start log rpc)
    (hcollision : NoCollision start.provider start.api) {query : Query}
    (hentry : (query, answer) ∈ log) : rpc.intoSnapshot.answer hashNumber query = answer ↔
      Inferred start.provider start.precompiles (log.map Prod.fst) query := by
  have hanswered := hkeeps.answered _ hentry
  cases query with
  | basic address =>
    refine iff_of_true ?_ trivial
    show Answer.basic ((rpc.cacheAccounts.lookup address).map _) = answer
    rcases hanswered with ⟨account, hlookup, rfl⟩ | ⟨hnew, rfl⟩
    · rw [hlookup]
      rfl
    · rw [hkeeps.sound.lookup_of_isNew hnew]
      rfl
  | codeHash address =>
    refine iff_of_true ?_ trivial
    show Answer.codeHash ((rpc.cacheAccounts.lookup address).bind _) = answer
    rcases hanswered with ⟨account, hlookup, rfl⟩ | ⟨hnew, rfl⟩
    · rw [hlookup]
      rfl
    · rw [hkeeps.sound.lookup_of_isNew hnew]
      rfl
  | codeByHash codeHash =>
    exact iff_of_true (hkeeps.replays_codeByHash hashNumber hcollision hanswered) trivial
  | hasStorage address => exact hkeeps.replays_hasStorage_iff hashNumber hanswered
  | storage address index => exact hkeeps.replays_storage_iff hashNumber hanswered
  | blockHash number =>
    refine iff_of_true ?_ trivial
    obtain ⟨blockHash, hlookup, rfl⟩ := hanswered
    show Answer.blockHash ((rpc.cacheBlockHashes.lookup number).getD _) = _
    rw [hlookup]
    rfl

end Replayed

/-- The queries that an RPC storage has answered are replayed by the storage in memory, in any
order, exactly where every answer that the latter infers is the one that was given. Code was asked
for by hashes that were answered before, and no two codes of the provider share a hash. -/
theorem serves_replays_iff {provider : Provider} {precompiles : List Address}
    {api : BytecodeApi Bytecode Code} (hashNumber : U64 → B256)
    (hserves : Serves (new provider precompiles api) log rpc) (hknown : AsksKnownCode log)
    (hcollision : NoCollision provider api) :
    (∀ again : List (Query × Answer Code), again.Perm log →
      again.map (fun entry => rpc.intoSnapshot.answer hashNumber entry.1) =
        again.map Prod.snd) ↔
      ∀ query ∈ log.map Prod.fst, Inferred provider precompiles (log.map Prod.fst) query := by
  have hkeeps := hserves.keeps (new_sound provider precompiles api)
    (new_hasSlot provider precompiles api) hknown
  have hentry : ∀ entry ∈ log, rpc.intoSnapshot.answer hashNumber entry.1 = entry.2 ↔
      Inferred provider precompiles (log.map Prod.fst) entry.1 := by
    intro entry hentry
    exact hkeeps.replays_iff hashNumber hcollision hentry
  constructor
  · intro h query hquery
    obtain ⟨entry, hmem, rfl⟩ := List.mem_map.mp hquery
    exact (hentry entry hmem).mp (List.map_inj_left.mp (h log (.refl log)) entry hmem)
  · intro h again hperm
    refine List.map_congr_left fun entry hmem => ?_
    have hlog := hperm.mem_iff.mp hmem
    exact (hentry entry hlog).mpr (h entry.1 (List.mem_map_of_mem hlog))

/-- A contract at 7 with one byte of code and a one in its first slot; nothing else is there. -/
def contractProvider : Provider where
  getTransactionCount address := .ok (if address = 7 then 1 else 0)
  getBalance _ := .ok 0
  getCodeAt address := .ok (if address = 7 then [0] else [])
  getStorageAt address index := .ok (if address = 7 ∧ index = 0 then 1 else 0)
  getProof address := .ok (if address = 7 then
    0x821e2556a290c86405f8160a2d662042a431ba456b9db265c79bb837c04be5f0 else emptyRootHash)
  getBlockByNumber _ := .ok none

/-- The hash of the one byte of code. -/
def stopHash : B256 := 0xbc36789e7a1e281436464229828f817d6612f7b477d66591ff96a9e064bcc98a

/-- Bytes as they are, with the hashes of the empty code and of that of the contract. -/
def rawApi : BytecodeApi (List U8) (List U8) where
  newRaw code := code
  isEmpty code := code.isEmpty
  hashSlow code := if code = [] then keccakEmpty else stopHash
  into code := code

lemma noCollision_contractProvider : NoCollision contractProvider rawApi := by
  intro address raw address' raw' hraw hraw' hhash
  obtain rfl := Except.ok.inj hraw
  obtain rfl := Except.ok.inj hraw'
  replace hhash :
      (if (if address = 7 then [(0 : U8)] else []) = [] then keccakEmpty else stopHash) =
        if (if address' = 7 then [(0 : U8)] else []) = [] then keccakEmpty else stopHash := hhash
  by_cases h : address = 7
  · by_cases h' : address' = 7
    · rw [if_pos h, if_pos h']
    · rw [if_pos h, if_neg h'] at hhash
      exact absurd hhash (by decide)
  · by_cases h' : address' = 7
    · rw [if_neg h, if_pos h'] at hhash
      exact absurd hhash (by decide)
    · rw [if_neg h, if_neg h']

/-- The slot of the contract is asked for, and one of an account that is not there. -/
def contractLog : List (Query × Answer (List U8)) :=
  [(.codeHash 7, .codeHash (some stopHash)), (.codeByHash stopHash, .code (some [0])),
    (.storage 7 0, .storage 1), (.hasStorage 7, .hasStorage true), (.storage 8 0, .storage 0)]

lemma serves_contractLog : ∃ rpc, Serves (new contractProvider [1] rawApi) contractLog rpc := by
  have hcodeHash := Serves.snoc Serves.nil
    (show (new contractProvider [1] rawApi).answer (.codeHash 7) =
      .ok (.codeHash (some stopHash), _) from rfl)
  have hcode := hcodeHash.snoc
    (show RpcStorage.answer _ (.codeByHash stopHash) = .ok (.code (some [0]), _) from rfl)
  have hslot := hcode.snoc
    (show RpcStorage.answer _ (.storage 7 0) = .ok (.storage 1, _) from rfl)
  have hproof := hslot.snoc
    (show RpcStorage.answer _ (.hasStorage 7) = .ok (.hasStorage true, _) from rfl)
  exact ⟨_, hproof.snoc
    (show RpcStorage.answer _ (.storage 8 0) = .ok (.storage 0, _) from rfl)⟩

lemma asksKnownCode_contractLog : AsksKnownCode contractLog := by
  intro before codeHash answer after hlog
  have hmem : (.codeByHash codeHash, answer) ∈ contractLog := by
    rw [hlog]
    simp
  obtain ⟨rfl, -⟩ : codeHash = stopHash ∧ answer = .code (some [0]) := by
    simpa [contractLog] using hmem
  cases before with
  | nil => cases (List.cons.inj hlog).1
  | cons entry before =>
    obtain rfl := (List.cons.inj hlog).1
    exact ⟨7, List.mem_cons_self⟩

theorem serves_replays_iff_contractLog : ∃ rpc : RpcStorage (List U8) (List U8),
    Serves (new contractProvider [1] rawApi) contractLog rpc ∧
      ∀ again : List (Query × Answer (List U8)), again.Perm contractLog →
        again.map (fun entry => rpc.intoSnapshot.answer (fun _ => 0) entry.1) =
          again.map Prod.snd := by
  obtain ⟨rpc, hserves⟩ := serves_contractLog
  refine ⟨rpc, hserves, (serves_replays_iff _ hserves asksKnownCode_contractLog
    noCollision_contractProvider).mpr ?_⟩
  have hkept : IsKept contractProvider [1] 7 := ⟨1, 0, [0], ⟨rfl, rfl, rfl⟩, by decide⟩
  have hroot : ∃ root, contractProvider.getProof 7 = .ok root ∧ root ≠ emptyRootHash :=
    ⟨_, rfl, by decide⟩
  have hasked : ∃ index, .storage 7 index ∈ contractLog.map Prod.fst := ⟨0, by decide⟩
  show ∀ query ∈ [Query.codeHash 7, .codeByHash stopHash, .storage 7 0, .hasStorage 7,
    .storage 8 0], _
  simp only [List.forall_mem_cons, List.not_mem_nil, false_imp_iff, implies_true, and_true]
  exact ⟨trivial, trivial, .inl hkept, iff_of_true hroot ⟨hkept, hasked⟩, .inr rfl⟩

/-- The contract is asked for, and none of its slots. -/
def bareLog : List (Query × Answer (List U8)) :=
  [(.basic 7, .basic (some ⟨0, 1⟩)), (.hasStorage 7, .hasStorage true)]

/-- The snapshot says of the contract that it has no storage. -/
theorem not_replays_bareLog : ∃ rpc : RpcStorage (List U8) (List U8),
    Serves (new contractProvider [1] rawApi) bareLog rpc ∧ AsksKnownCode bareLog ∧
      NoCollision contractProvider rawApi ∧
      ¬ ∀ again : List (Query × Answer (List U8)), again.Perm bareLog →
        again.map (fun entry => rpc.intoSnapshot.answer (fun _ => 0) entry.1) =
          again.map Prod.snd := by
  have hbasic := Serves.snoc Serves.nil
    (show (new contractProvider [1] rawApi).answer (.basic 7) = .ok (.basic (some ⟨0, 1⟩), _)
      from rfl)
  have hproof := hbasic.snoc
    (show RpcStorage.answer _ (.hasStorage 7) = .ok (.hasStorage true, _) from rfl)
  refine ⟨_, hproof, ?_, noCollision_contractProvider, fun hreplays => ?_⟩
  · intro before codeHash answer after hlog
    have hmem : (.codeByHash codeHash, answer) ∈ bareLog := by
      rw [hlog]
      simp
    simp [bareLog] at hmem
  · have hanswers := hreplays bareLog (.refl bareLog)
    exact absurd (Answer.hasStorage.inj (List.map_inj_left.mp hanswers (_, _)
      (List.mem_cons_of_mem _ List.mem_cons_self))) (by decide)

end RpcStorage

end Pevm.Snapshot
