import Pevm.VmDb.Validation

/-!
# The accounts that an execution has read

The accounts that are kept to be compared with the result are those that were answered, and the
answers of a lazy execution to its sender and its recipient are not among them.
-/
namespace Pevm.VmDb

variable {κ Code Bytecode : Type}

section Mock
variable {env env' : VmEnv κ Code Bytecode} {db db' : VmDb κ}

/-- What is answered in place of an account depends on the transaction only. -/
lemma SameTx.mock_eq [DecidableEq κ] (h : SameTx db db') (l : κ) :
    db'.mock env l = db.mock env' l := by
  unfold mock
  rw [h.isLazy, h.fromHash, h.toHash, h.tx]

end Mock

variable [DecidableEq κ]

section Step
variable {env env' : VmEnv κ Code Bytecode} {db db' : VmDb κ} {r : Read} {answer : Answer Bytecode}

lemma accountCodeHash_eq_ok {address : Address} {l : κ} {codeHash : Option B256}
    (h : db.accountCodeHash env address l = .ok (codeHash, db')) :
    SameTx db db' ∧ db'.readAccounts = db.readAccounts := by
  unfold accountCodeHash at h
  split_ifs at h
  · cases h
    exact ⟨.refl db, rfl⟩
  · exact getCodeHash_eq_ok h

/-- A read of an account gives the mock, or finds none, or keeps what it gives. -/
lemma basicAcross_eq_ok {address : Address} {info : Option (AccountInfo Bytecode)}
    (h : db.basicAcross env env' address = .ok (info, db')) :
    SameTx db db' ∧
      ((db.mock env (db.hashBasic env address) = some info ∧
          db'.readAccounts = db.readAccounts) ∨
        (db.mock env (db.hashBasic env address) =
            (none : Option (Option (AccountInfo Bytecode))) ∧
          ((info = none ∧ db'.readAccounts = db.readAccounts) ∨
            ∃ account codeHash code,
              info = some ⟨account.balance, account.nonce, codeHash.getD keccakEmpty, code⟩ ∧
              db'.readAccounts =
                db.readAccounts.insert (db.hashBasic env address) (account, codeHash)))) := by
  unfold basicAcross at h
  dsimp only at h
  cases hmock : db.mock env (db.hashBasic env address) with
  | some mocked =>
    rw [hmock] at h
    cases h
    exact ⟨.refl db, .inl ⟨rfl, rfl⟩⟩
  | none =>
    rw [hmock] at h
    obtain ⟨⟨account, u, newOrigins⟩, -, hfinish⟩ := Fallible.bind_eq_ok.mp h
    have hregister : SameTx db (db.register (db.hashBasic env address) newOrigins) ∧
        (db.register (db.hashBasic env address) newOrigins).readAccounts = db.readAccounts :=
      register_same _ _
    obtain ⟨hsame, haccounts⟩ := hregister
    cases account with
    | none =>
      cases hfinish
      exact ⟨hsame, .inr ⟨rfl, .inl ⟨rfl, haccounts⟩⟩⟩
    | some account =>
      obtain ⟨-, codeHash, code, db₁, hhash, -, hinfo, rfl⟩ := evaluateAccount_eq_ok.mp hfinish
      obtain ⟨hsame', haccounts'⟩ := accountCodeHash_eq_ok hhash
      refine ⟨(hsame.trans hsame').trans ⟨rfl, rfl, rfl, rfl, rfl, rfl⟩, .inr ⟨rfl, .inr ?_⟩⟩
      refine ⟨accountWith account u, codeHash, code, hinfo, ?_⟩
      show db₁.readAccounts.insert _ _ = _
      rw [haccounts', haccounts]

lemma storage_eq_ok {address : Address} {index value : U256}
    (h : db.storage env address index = .ok (value, db')) :
    SameTx db db' ∧ db'.readAccounts = db.readAccounts := by
  unfold VmDb.storage at h
  dsimp only at h
  split at h
  · obtain ⟨db₁, hpush, heq⟩ := Fallible.bind_eq_ok.mp h
    cases heq
    exact push_eq_ok hpush
  · cases h
  · cases h
  · obtain ⟨db₁, hpush, heq⟩ := Fallible.bind_eq_ok.mp h
    obtain ⟨_, -, heq⟩ := Fallible.bind_eq_ok.mp heq
    cases heq
    exact push_eq_ok hpush

end Step

/-- The accounts that are kept for the write set are those that were answered, but for the mocks. -/
structure Cached (env : VmEnv κ Code Bytecode) (L : Set MemoryLocation) (db : VmDb κ)
    (trace : List (Read × Answer Bytecode)) : Prop where
  answered : ∀ address, .basic address ∈ L → ∀ account codeHash,
    db.readAccounts.lookup (env.hash (.basic address)) = some (account, codeHash) →
      db.mock env (env.hash (.basic address)) = (none : Option (Option (AccountInfo Bytecode))) ∧
        ∃ code, (Read.basic address, Answer.basic (some
          ⟨account.balance, account.nonce, codeHash.getD keccakEmpty, code⟩)) ∈ trace
  kept : ∀ address info, (Read.basic address, Answer.basic (some info)) ∈ trace →
    db.mock env (env.hash (.basic address)) = (none : Option (Option (AccountInfo Bytecode))) →
      db.readAccounts.lookup (env.hash (.basic address)) ≠ none
  mocked : ∀ address answer, (Read.basic address, answer) ∈ trace → ∀ info,
    db.mock env (env.hash (.basic address)) = some info → answer = .basic info

section Cached
variable {env env' : VmEnv κ Code Bytecode} {db db' : VmDb κ} {r : Read} {answer : Answer Bytecode}
  {L : Set MemoryLocation} {trace : List (Read × Answer Bytecode)}

/-- A read that keeps no account. -/
lemma Cached.extend (h : Cached env L db trace) (hsame : SameTx db db')
    (haccounts : db'.readAccounts = db.readAccounts)
    (hanswer : ∀ address, r = .basic address →
      db.mock env (env.hash (.basic address)) = (none : Option (Option (AccountInfo Bytecode))) →
        answer = .basic none)
    (hmock : ∀ address, r = .basic address → ∀ info,
      db.mock env (env.hash (.basic address)) = some info → answer = .basic info) :
    Cached env L db' (trace ++ [(r, answer)]) := by
  constructor
  · intro address hmem account codeHash hlookup
    rw [haccounts] at hlookup
    obtain ⟨hnone, code, hread⟩ := h.answered address hmem account codeHash hlookup
    rw [hsame.mock_eq]
    exact ⟨hnone, code, List.mem_append_left _ hread⟩
  · intro address info hread hnone
    rw [hsame.mock_eq] at hnone
    rw [haccounts]
    rcases List.mem_append.mp hread with hread | hread
    · exact h.kept address info hread hnone
    · cases List.mem_singleton.mp hread
      cases hanswer address rfl hnone
  · intro address answer' hread info hsome
    rw [hsame.mock_eq] at hsome
    rcases List.mem_append.mp hread with hread | hread
    · exact h.mocked address answer' hread info hsome
    · cases List.mem_singleton.mp hread
      exact hmock address rfl info hsome

/-- One more read. -/
theorem Cached.read (h : Cached env L db trace) (hinj : Set.InjOn env.hash L)
    (hashed : Hashed env db) (hlocations : ∀ location ∈ r.locations, location ∈ L)
    (hread : db.read env env' r = .ok (answer, db')) :
    SameTx db db' ∧ Cached env L db' (trace ++ [(r, answer)]) := by
  cases r with
  | basic address =>
    obtain ⟨⟨info, db₁⟩, hbasic, heq⟩ := Fallible.bind_eq_ok.mp hread
    cases heq
    obtain ⟨hsame, hcase⟩ := basicAcross_eq_ok hbasic
    rw [hashed.hashBasic_eq] at hcase
    refine ⟨hsame, ?_⟩
    rcases hcase with ⟨hmock, haccounts⟩ | ⟨hmock, ⟨rfl, haccounts⟩ | hkept⟩
    · apply h.extend hsame haccounts
      · intro address' heq hnone
        cases heq
        rw [hmock] at hnone
        cases hnone
      · intro address' heq info' hsome
        cases heq
        rw [hmock] at hsome
        cases hsome
        rfl
    · apply h.extend hsame haccounts
      · intro _ _ _
        rfl
      · intro address' heq info' hsome
        cases heq
        rw [hmock] at hsome
        cases hsome
    · obtain ⟨account, codeHash, code, rfl, haccounts⟩ := hkept
      have hmem : MemoryLocation.basic address ∈ L := hlocations _ (by simp [Read.locations])
      constructor
      · intro address' hmem' account' codeHash' hlookup
        rw [hsame.mock_eq]
        rw [haccounts] at hlookup
        by_cases heq : address' = address
        · subst heq
          rw [AList.lookup_insert] at hlookup
          cases hlookup
          exact ⟨hmock, code, by simp⟩
        · have hne : env.hash (.basic address') ≠ env.hash (.basic address) := by
            intro hhash
            cases hinj hmem' hmem hhash
            exact heq rfl
          rw [AList.lookup_insert_ne hne] at hlookup
          obtain ⟨hnone, code', hread'⟩ := h.answered address' hmem' account' codeHash' hlookup
          exact ⟨hnone, code', List.mem_append_left _ hread'⟩
      · intro address' info' hread' hnone
        rw [hsame.mock_eq] at hnone
        rw [haccounts]
        by_cases heq : env.hash (.basic address') = env.hash (.basic address)
        · rw [heq, AList.lookup_insert]
          simp
        · rw [AList.lookup_insert_ne heq]
          rcases List.mem_append.mp hread' with hread' | hread'
          · exact h.kept address' info' hread' hnone
          · cases List.mem_singleton.mp hread'
            exact absurd rfl heq
      · intro address' answer' hread' info' hsome
        rw [hsame.mock_eq] at hsome
        rcases List.mem_append.mp hread' with hread' | hread'
        · exact h.mocked address' answer' hread' info' hsome
        · cases List.mem_singleton.mp hread'
          rw [hmock] at hsome
          cases hsome
  | storage address index =>
    obtain ⟨⟨value, db₁⟩, hstorage, heq⟩ := Fallible.bind_eq_ok.mp hread
    cases heq
    obtain ⟨hsame, haccounts⟩ := storage_eq_ok hstorage
    exact ⟨hsame, h.extend hsame haccounts (by simp) (by simp)⟩
  | codeHash address =>
    obtain ⟨⟨codeHash, db₁⟩, hhash, heq⟩ := Fallible.bind_eq_ok.mp hread
    cases heq
    obtain ⟨hsame, haccounts⟩ := getCodeHash_eq_ok hhash
    exact ⟨hsame, h.extend hsame haccounts (by simp) (by simp)⟩

/-- Without collisions the same answers stand for the same accounts at another moment. -/
lemma Cached.mono (h : Cached env L db trace) (hhash : env'.hash = env.hash) :
    Cached env' L db trace := by
  constructor
  · intro address hmem account codeHash hlookup
    rw [hhash] at hlookup ⊢
    exact h.answered address hmem account codeHash hlookup
  · intro address info hread hnone
    rw [hhash] at hnone ⊢
    exact h.kept address info hread hnone
  · intro address answer hread info hsome
    rw [hhash] at hsome
    exact h.mocked address answer hread info hsome

end Cached

section Runs
variable {txIdx : ℕ} {tx : TxEnv} {s : Recordings κ Code Bytecode} {db : VmDb κ}
  {trace : List (Read × Answer Bytecode)} {L : Set MemoryLocation}

/-- A new database has kept no account. -/
lemma newAcross_cached {env envFrom envTo : VmEnv κ Code Bytecode}
    (h : VmDb.newAcross env envFrom envTo txIdx tx = .ok db) :
    Cached env L db (db.opening : List (Read × Answer Bytecode)) := by
  have haccounts : db.readAccounts = ∅ := by
    unfold VmDb.newAcross at h
    dsimp only at h
    split at h
    · cases h
      rfl
    · obtain ⟨⟨codeHash, db₁⟩, hhash, heq⟩ := Fallible.bind_eq_ok.mp h
      cases heq
      exact (getCodeHash_eq_ok hhash).2
  have hopening : ∀ address answer, (Read.basic address, answer) ∉
      (db.opening : List (Read × Answer Bytecode)) := by
    intro address answer hread
    unfold opening at hread
    split at hread
    · simp at hread
    · simp at hread
  constructor
  · intro address _ account codeHash hlookup
    rw [haccounts] at hlookup
    simp at hlookup
  · intro address info hread
    exact absurd hread (hopening _ _)
  · intro address answer hread
    exact absurd hread (hopening _ _)

/-- In every run the accounts kept are those that were answered. -/
theorem Incarnation.cached (h : Incarnation txIdx tx s db trace) (hL : touched tx trace ⊆ L)
    (hinj : Set.InjOn s.env.hash L) : Hashed s.env db ∧ Cached s.env L db trace := by
  induction h with
  | @new s s₁ s₂ db hreach hsteps₁ hsteps₂ hnew =>
    have hhash : s₂.env.hash = s.env.hash :=
      (Recordings.Steps.sameBlock (hsteps₁.trans hsteps₂)).hash
    have hashed := (newAcross_eq_ok (Recordings.reachable_agrees hreach) hnew).2.2.1
    refine ⟨⟨?_, ?_⟩, (newAcross_cached hnew).mono hhash⟩
    · rw [hhash, hashed.fromHash]
    · rw [hhash, hashed.toHash]
  | @step s s' db trace _ hstep ih =>
    have hsame := Recordings.Step.sameBlock hstep
    rw [hsame.hash] at hinj
    obtain ⟨hashed, hcached⟩ := ih hL hinj
    refine ⟨⟨?_, ?_⟩, hcached.mono hsame.hash⟩
    · rw [hsame.hash, hashed.fromHash]
    · rw [hsame.hash, hashed.toHash]
  | @read s s₁ s₂ db db' trace r answer _ hsteps₁ hsteps₂ hread ih =>
    have hhash : s₂.env.hash = s.env.hash :=
      (Recordings.Steps.sameBlock (hsteps₁.trans hsteps₂)).hash
    rw [hhash] at hinj
    have hearlier : touched tx trace ⊆ L := by
      rintro location (hcaller | hto | ⟨p, hp, hlocation⟩)
      · exact hL (.inl hcaller)
      · exact hL (.inr (.inl hto))
      · exact hL (.inr (.inr ⟨p, List.mem_append_left _ hp, hlocation⟩))
    have hlocations : ∀ location ∈ r.locations, location ∈ L := by
      intro location hlocation
      exact hL (.inr (.inr ⟨(r, answer), by simp, hlocation⟩))
    obtain ⟨hashed, hcached⟩ := ih hearlier hinj
    obtain ⟨hsame, hcached'⟩ := hcached.read hinj hashed hlocations hread
    have hashed' := hashed.of_sameTx hsame
    refine ⟨⟨?_, ?_⟩, hcached'.mono hhash⟩
    · rw [hhash, hashed'.fromHash]
    · rw [hhash, hashed'.toHash]

end Runs

end Pevm.VmDb
