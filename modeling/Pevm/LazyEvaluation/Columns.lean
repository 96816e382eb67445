import Pevm.LazyEvaluation
import Pevm.Ledger

/-!
# Columns and rows

The evaluation runs down the history of one account after the other, the ledger runs all
accounts transfer by transfer. Each account changes on its own, so the two meet the same values
and the same failed checks.
-/
namespace Pevm
open Saturating

/-- The account as a ledger has it, with the balance as a number. -/
def AccountBasic.toLedger (account : AccountBasic) : Ledger.Account :=
  ⟨account.balance.toNat, account.nonce⟩

namespace LazyEvaluation
variable {Code : Type}

/-- The values that one address goes through, one entry after the other, without storing them. -/
def evaluateColumn (address : Address) (txs : ℕ → TxEnv) :
    List (ℕ × MemoryEntry MemoryValue) → AccountBasic → Except PexeError AccountBasic
  | [], account => .ok account
  | entry :: entries, account =>
    evaluateEntry address txs account entry >>= evaluateColumn address txs entries

/-- Balance and nonce in the state changes of a transaction. A cleared account has neither. -/
def basicOf (stored : Option (Option (EvmAccount Code))) : Option AccountBasic :=
  stored.map fun account =>
    match account with
    | some account => ⟨account.balance, account.nonce⟩
    | none => .default

section Column
variable {address : Address} {txs : ℕ → TxEnv}
  {entries entries' : List (ℕ × MemoryEntry MemoryValue)}
  {account account' : AccountBasic}

lemma evaluateColumn_append : evaluateColumn address txs (entries ++ entries') account =
    evaluateColumn address txs entries account >>= evaluateColumn address txs entries' := by
  induction entries generalizing account with
  | nil => rfl
  | cons entry entries ih =>
    rw [List.cons_append, evaluateColumn, evaluateColumn]
    cases evaluateEntry address txs account entry with
    | error e => rfl
    | ok account₁ => exact ih

lemma evaluateColumn_singleton (entry : ℕ × MemoryEntry MemoryValue) :
    evaluateColumn address txs [entry] account = evaluateEntry address txs account entry := by
  rw [evaluateColumn]
  cases evaluateEntry address txs account entry with
  | error e => rfl
  | ok account₁ => rfl

/-- The evaluation of an address goes through when its values do. -/
lemma evaluateEntries_ok_iff {eip161 : Bool} {codeHash : Option B256} {code : Option Code}
    {states : ℕ → TxState Code} :
    (∃ states', evaluateEntries eip161 address txs codeHash code entries account states =
        .ok states') ↔
      ∃ account', evaluateColumn address txs entries account = .ok account' := by
  induction entries generalizing account states with
  | nil => exact iff_of_true ⟨states, rfl⟩ ⟨account, rfl⟩
  | cons entry entries ih =>
    rw [evaluateEntries, evaluateColumn]
    cases evaluateEntry address txs account entry with
    | error e => exact iff_of_false (by rintro ⟨_, ⟨⟩⟩) (by rintro ⟨_, ⟨⟩⟩)
    | ok account₁ => exact ih

lemma storeAccount_basic {eip161 : Bool} {codeHash : Option B256} {code : Option Code}
    {old : Option (EvmAccount Code)} :
    basicOf (some (storeAccount eip161 codeHash code account old)) = some account := by
  unfold storeAccount
  split_ifs with hcleared
  · obtain ⟨-, -, hnonce, hbalance⟩ := hcleared
    show some AccountBasic.default = some account
    rw [AccountBasic.default, ← hnonce, ← hbalance]
  · cases old with
    | none => rfl
    | some old => rfl

end Column

section History
variable {m : ℕ → Option (MemoryEntry MemoryValue)} {j bound : ℕ}

/-- The entries of a history above an index. -/
lemma history_split (h : j ≤ bound) : ∃ rest, history m bound = history m j ++ rest ∧
    ∀ e ∈ rest, j ≤ e.1 := by
  induction bound with
  | zero =>
    obtain rfl : j = 0 := by omega
    exact ⟨[], rfl, by simp⟩
  | succ bound ih =>
    by_cases heq : j = bound + 1
    · exact ⟨[], by simp [heq], by simp⟩
    · obtain ⟨rest, hrest, habove⟩ := ih (by omega)
      refine ⟨rest ++ ((m bound).map fun e => (bound, e)).toList, ?_, ?_⟩
      · rw [history, hrest, List.append_assoc]
      · intro e he
        rcases List.mem_append.mp he with he | he
        · exact habove e he
        · rw [Option.mem_toList, Option.map_eq_some_iff] at he
          obtain ⟨e', -, rfl⟩ := he
          show j ≤ bound
          omega

lemma history_none (h : ∀ j, m j = none) : history m bound = [] := by
  induction bound with
  | zero => rfl
  | succ bound ih => simp [history, ih, h]

end History

section Entry
variable {address : Address} {txs : ℕ → TxEnv} {j inc : ℕ} {account account' : AccountBasic}

/-- Nobody but the caller is asked for a nonce. -/
lemma checkNonce_of_ne {tx : TxEnv} (h : tx.caller ≠ address) :
    checkNonce address j tx account = .ok () :=
  if_neg h

/-- A debit passes if the sender has the maximum fee at hand and the nonce is right. -/
lemma evaluateEntry_lazySender (subtraction : U256) :
    evaluateEntry address txs account (j, .data inc (.lazySender subtraction)) = .ok account' ↔
      maxFee (txs j) ≤ account.balance ∧
        checkNonce address j (txs j)
          ⟨saturatingSub account.balance subtraction, account.nonce + 1⟩ = .ok () ∧
        account' = ⟨saturatingSub account.balance subtraction, account.nonce + 1⟩ := by
  unfold evaluateEntry
  dsimp only
  split_ifs with hfee
  · exact iff_of_false (by simp) fun h => absurd h.1 (BitVec.not_le.mpr hfee)
  · have hcovered := BitVec.not_lt.mp hfee
    simp only [Fallible.ok_bind, hcovered, true_and]
    cases checkNonce address j (txs j)
        ⟨saturatingSub account.balance subtraction, account.nonce + 1⟩ with
    | ok _ => exact ⟨fun h => ⟨rfl, (Except.ok.inj h).symm⟩, fun h => by rw [h.2]; rfl⟩
    | error e => exact iff_of_false (by simp) fun h => by simp at h

lemma evaluateEntry_lazyRecipient (addition : U256) :
    evaluateEntry address txs account (j, .data inc (.lazyRecipient addition)) = .ok account' ↔
      checkNonce address j (txs j)
          { account with balance := saturatingAdd account.balance addition } = .ok () ∧
        account' = { account with balance := saturatingAdd account.balance addition } := by
  unfold evaluateEntry
  dsimp only
  simp only [Fallible.ok_bind]
  cases checkNonce address j (txs j)
      { account with balance := saturatingAdd account.balance addition } with
  | ok _ => exact ⟨fun h => ⟨rfl, (Except.ok.inj h).symm⟩, fun h => by rw [h.2]; rfl⟩
  | error e => exact iff_of_false (by simp) fun h => by simp at h

end Entry

/-- What a transfer leaves in the memory: the loss of its sender, the gains of its recipient and of
the beneficiary, and nothing elsewhere. -/
structure Posted (beneficiary : Address) (t : Transfer) (tx : TxEnv)
    (row : Address → Option (MemoryEntry MemoryValue)) : Prop where
  caller : tx.caller = t.caller
  nonce : tx.nonce = t.nonce
  maxFee : (maxFee tx).toNat = t.maxFee
  sender : ∃ txIncarnation subtraction,
    row t.caller = some (.data txIncarnation (.lazySender subtraction)) ∧
      subtraction.toNat + (if t.caller = t.recipient then t.value else 0) +
        (if t.caller = beneficiary then t.reward else 0) = t.value + t.charge
  credited : ∀ a, a ≠ t.caller → a = t.recipient ∨ a = beneficiary → ∃ txIncarnation addition,
    row a = some (.data txIncarnation (.lazyRecipient addition)) ∧
      addition.toNat = (if a = t.recipient then t.value else 0) +
        if a = beneficiary then t.reward else 0
  others : ∀ a, a ≠ t.caller → a ≠ t.recipient → a ≠ beneficiary → row a = none

/-- Everyone who takes part has an entry. -/
lemma Posted.entry {beneficiary : Address} {t : Transfer} {tx : TxEnv}
    {row : Address → Option (MemoryEntry MemoryValue)} (h : Posted beneficiary t tx row)
    {a : Address} (ha : a = t.caller ∨ a = t.recipient ∨ a = beneficiary) :
    ∃ e, row a = some e := by
  by_cases hsender : a = t.caller
  · obtain ⟨_, _, hrow, -⟩ := h.sender
    exact ⟨_, hsender ▸ hrow⟩
  · obtain ⟨_, _, hrow, -⟩ := h.credited a hsender (ha.resolve_left hsender)
    exact ⟨_, hrow⟩

section Step
variable {beneficiary : Address} {t : Transfer} {txs : ℕ → TxEnv} {j : ℕ}
  {row : Address → Option (MemoryEntry MemoryValue)} {s s' : Ledger.State} {account : AccountBasic}
  {a : Address}

lemma checkNonce_iff {tx : TxEnv} (hcaller : tx.caller = t.caller) (hnonce : tx.nonce = t.nonce)
    {sender : Ledger.Account} (hsame : account.nonce = sender.nonce + 1) :
    checkNonce t.caller j tx account = .ok () ↔ ¬ Ledger.NonceRefused t sender := by
  unfold checkNonce Ledger.NonceRefused
  rw [if_pos hcaller, hnonce, hsame]
  cases t.nonce with
  | none => simp
  | some nonce =>
    dsimp only
    have hback : sender.nonce + 1 - 1 = sender.nonce := by simp
    rw [hback]
    split_ifs with hzero hne
    · exact iff_of_false (by simp) fun h => h ⟨nonce, rfl, .inl hzero⟩
    · exact iff_of_false (by simp) fun h => h ⟨nonce, rfl, .inr hne⟩
    · refine iff_of_true rfl ?_
      rintro ⟨nonce', heq, hrefused | hrefused⟩
      · exact hzero hrefused
      · cases heq
        exact hne hrefused

/-- A transfer that the ledger accepts passes the checks of the evaluation, and every account of
its row comes to what the ledger says. -/
theorem evaluate_row (hposted : Posted beneficiary t (txs j) row) (hsound : t.Sound)
    (h : Ledger.step beneficiary t s = some s') (hfunded : Ledger.Funded s')
    (haccount : account.toLedger = s a) :
    ∃ account', evaluateColumn a txs ((row a).map fun e => (j, e)).toList account = .ok account' ∧
      account'.toLedger = s' a := by
  obtain ⟨hnonce, hfee, -⟩ := Ledger.step_eq_some.mp h
  have hafter := Ledger.step_apply h a
  have hbefore : account.balance.toNat = (s a).balance := congrArg Ledger.Account.balance haccount
  have hbeforeNonce : account.nonce = (s a).nonce := congrArg Ledger.Account.nonce haccount
  by_cases hsender : a = t.caller
  · subst hsender
    obtain ⟨inc, subtraction, hrow, hsubtraction⟩ := hposted.sender
    have hcovered := hsound.covered
    have hfunds : maxFee (txs j) ≤ account.balance := by
      rw [BitVec.le_def, hposted.maxFee]
      omega
    have hcheck : checkNonce t.caller j (txs j)
        ⟨saturatingSub account.balance subtraction, account.nonce + 1⟩ = .ok () :=
      (checkNonce_iff hposted.caller hposted.nonce (by rw [hbeforeNonce])).mpr hnonce
    refine ⟨⟨saturatingSub account.balance subtraction, account.nonce + 1⟩, ?_, ?_⟩
    · rw [hrow]
      show evaluateColumn _ _ [_] _ = _
      rw [evaluateColumn_singleton]
      exact (evaluateEntry_lazySender subtraction).mpr ⟨hfunds, hcheck, rfl⟩
    · rw [hafter, AccountBasic.toLedger, saturatingSub_toNat, hbeforeNonce, Ledger.Account.mk.injEq]
      simp only [if_true, and_true]
      omega
  · by_cases hgain : a = t.recipient ∨ a = beneficiary
    · obtain ⟨inc, addition, hrow, haddition⟩ := hposted.credited a hsender hgain
      have hsum := hfunded.balance_lt a
      rw [hafter] at hsum
      simp only [if_neg hsender] at hsum hafter
      have hcheck : checkNonce a j (txs j)
          { account with balance := saturatingAdd account.balance addition } = .ok () := by
        refine checkNonce_of_ne ?_
        rw [hposted.caller]
        exact Ne.symm hsender
      refine ⟨{ account with balance := saturatingAdd account.balance addition }, ?_, ?_⟩
      · rw [hrow]
        show evaluateColumn _ _ [_] _ = _
        rw [evaluateColumn_singleton]
        exact (evaluateEntry_lazyRecipient addition).mpr ⟨hcheck, rfl⟩
      · rw [hafter, AccountBasic.toLedger, saturatingAdd_toNat, hbeforeNonce,
          Ledger.Account.mk.injEq]
        simp only [BitVec.ofNat_eq_ofNat, BitVec.add_zero, and_true]
        omega
    · rw [not_or] at hgain
      rw [hposted.others a hsender hgain.1 hgain.2]
      refine ⟨account, rfl, ?_⟩
      rw [haccount, hafter]
      simp [hsender, hgain.1, hgain.2]

/-- A transfer that the ledger rejects fails a check of its sender. -/
theorem evaluate_rejected (hposted : Posted beneficiary t (txs j) row)
    (h : Ledger.step beneficiary t s = none) (haccount : account.toLedger = s t.caller) :
    ∃ e, evaluateColumn t.caller txs ((row t.caller).map fun e => (j, e)).toList account =
      .error e := by
  obtain ⟨inc, subtraction, hrow, -⟩ := hposted.sender
  have hbefore : account.balance.toNat = (s t.caller).balance :=
    congrArg Ledger.Account.balance haccount
  have hbeforeNonce : account.nonce = (s t.caller).nonce := congrArg Ledger.Account.nonce haccount
  rw [hrow]
  show ∃ e, evaluateColumn _ _ [_] _ = _
  rw [evaluateColumn_singleton]
  cases hresult : evaluateEntry t.caller txs account (j, .data inc (.lazySender subtraction)) with
  | error e => exact ⟨e, rfl⟩
  | ok account' =>
    obtain ⟨hfee, hcheck, -⟩ := (evaluateEntry_lazySender subtraction).mp hresult
    have hfunds : t.maxFee ≤ (s t.caller).balance := by
      rw [BitVec.le_def, hposted.maxFee] at hfee
      omega
    have haccepted : ¬ Ledger.NonceRefused t (s t.caller) :=
      (checkNonce_iff hposted.caller hposted.nonce (by rw [hbeforeNonce])).mp hcheck
    rcases Ledger.step_eq_none.mp h with hrefused | hlow
    · exact absurd hrefused haccepted
    · omega

end Step

section Run
variable {beneficiary : Address} {transfers : ℕ → Transfer} {txs : ℕ → TxEnv}
  {m : Address → ℕ → Option (MemoryEntry MemoryValue)} {start : Address → AccountBasic} {n : ℕ}

/-- As far as the ledger goes, every column comes to its values. -/
theorem column_of_after
    (hposted : ∀ j < n, Posted beneficiary (transfers j) (txs j) fun a => m a j)
    (hsound : ∀ j < n, (transfers j).Sound)
    (hfunded : Ledger.Funded fun a => (start a).toLedger) {s' : Ledger.State}
    (h : Ledger.after beneficiary transfers (fun a => (start a).toLedger) n = some s')
    (a : Address) :
    ∃ account', evaluateColumn a txs (history (m a) n) (start a) = .ok account' ∧
      account'.toLedger = s' a := by
  induction n generalizing s' with
  | zero =>
    obtain rfl := Option.some.inj h
    exact ⟨start a, rfl, rfl⟩
  | succ n ih =>
    have hfunded' := Ledger.after_funded hsound hfunded h
    obtain ⟨s₁, hbefore, hstep⟩ := Option.bind_eq_some_iff.mp h
    obtain ⟨account₁, hcolumn, hsame⟩ := ih (fun j hj => hposted j (by omega))
      (fun j hj => hsound j (by omega)) hbefore
    obtain ⟨account', hrow, hsame'⟩ :=
      evaluate_row (hposted n (by omega)) (hsound n (by omega)) hstep hfunded' hsame
    refine ⟨account', ?_, hsame'⟩
    rw [history, evaluateColumn_append, hcolumn]
    exact hrow

/-- Where the ledger stops, the column of the sender fails. -/
theorem column_of_rejected
    (hposted : ∀ j < n, Posted beneficiary (transfers j) (txs j) fun a => m a j)
    (hsound : ∀ j < n, (transfers j).Sound)
    (hfunded : Ledger.Funded fun a => (start a).toLedger)
    (h : Ledger.after beneficiary transfers (fun a => (start a).toLedger) n = none) :
    ∃ k < n, ∃ e, evaluateColumn (transfers k).caller txs (history (m (transfers k).caller) n)
      (start (transfers k).caller) = .error e := by
  induction n with
  | zero => cases h
  | succ n ih =>
    have hposted' := fun j (hj : j < n) => hposted j (by omega)
    have hsound' := fun j (hj : j < n) => hsound j (by omega)
    cases hbefore : Ledger.after beneficiary transfers (fun a => (start a).toLedger) n with
    | none =>
      obtain ⟨k, hk, e, hcolumn⟩ := ih hposted' hsound' hbefore
      refine ⟨k, by omega, e, ?_⟩
      rw [history, evaluateColumn_append, hcolumn]
      rfl
    | some s₁ =>
      have hstep : Ledger.step beneficiary (transfers n) s₁ = none := by
        rw [Ledger.after, hbefore] at h
        exact h
      obtain ⟨account₁, hcolumn, hsame⟩ :=
        column_of_after hposted' hsound' hfunded hbefore (transfers n).caller
      obtain ⟨e, hrow⟩ := evaluate_rejected (hposted n (by omega)) hstep hsame
      refine ⟨n, by omega, e, ?_⟩
      rw [history, evaluateColumn_append, hcolumn]
      exact hrow

end Run

section Frame
variable {κ : Type} {eip161 : Bool} {txs : ℕ → TxEnv} {codeHash : Option B256} {code : Option Code}
  {address address' : Address} {states states' : ℕ → TxState Code} {j : ℕ}

/-- The evaluation of an address changes that address only, where it has data entries, and gives
up at an estimate. -/
lemma evaluateEntries_frame {entries : List (ℕ × MemoryEntry MemoryValue)} {account : AccountBasic}
    (h : evaluateEntries eip161 address txs codeHash code entries account states = .ok states')
    (hj : address' = address → ∀ e ∈ entries, e.1 = j → e.2 = .estimate) :
    states' j address' = states j address' := by
  induction entries generalizing account states with
  | nil =>
    cases h
    rfl
  | cons entry entries ih =>
    rw [evaluateEntries] at h
    obtain ⟨account', hentry, hrest⟩ := Fallible.bind_eq_ok.mp h
    rw [ih hrest fun ha e he => hj ha e (List.mem_cons_of_mem _ he)]
    by_cases hidx : entry.1 = j
    · subst hidx
      by_cases ha : address' = address
      · have hestimate := hj ha entry List.mem_cons_self rfl
        unfold evaluateEntry at hentry
        rw [hestimate] at hentry
        cases hentry
      · simp [ha]
    · rw [Function.update_of_ne (Ne.symm hidx)]

lemma evaluateAddress_frame {hash : MemoryLocation → κ} {storage : Storage Code}
    {mvMemory : MvMemory κ MemoryValue} {blockSize : ℕ}
    (h : evaluateAddress hash storage mvMemory eip161 txs blockSize address states = .ok states')
    (hj : address' = address →
      ∀ e, mvMemory.entry (hash (.basic address')) j = some e → e = .estimate) :
    states' j address' = states j address' := by
  unfold evaluateAddress at h
  cases hdata : mvMemory.data (hash (.basic address)) with
  | none =>
    rw [hdata] at h
    cases h
    rfl
  | some m =>
    rw [hdata] at h
    obtain ⟨codeHash, -, h⟩ := Fallible.bind_eq_ok.mp h
    have hentries : address' = address → ∀ e ∈ history m blockSize, e.1 = j →
        e.2 = .estimate := by
      rintro rfl e he rfl
      apply hj rfl
      rw [MvMemory.entry_of_data _ hdata]
      exact (mem_history.mp he).2
    cases codeHash with
    | none => exact evaluateEntries_frame h hentries
    | some codeHash =>
      obtain ⟨code, -, h⟩ := Fallible.bind_eq_ok.mp h
      exact evaluateEntries_frame h hentries

lemma evaluate_frame {hash : MemoryLocation → κ} {storage : Storage Code}
    {mvMemory : MvMemory κ MemoryValue} {blockSize : ℕ} {addresses : List Address}
    (h : evaluate hash storage mvMemory eip161 txs blockSize addresses states = .ok states')
    (hj : ∀ e, mvMemory.entry (hash (.basic address')) j = some e → e = .estimate) :
    states' j address' = states j address' := by
  induction addresses generalizing states with
  | nil =>
    cases h
    rfl
  | cons address addresses ih =>
    rw [evaluate] at h
    obtain ⟨mid, hfirst, hrest⟩ := Fallible.bind_eq_ok.mp h
    rw [ih hrest, evaluateAddress_frame hfirst fun _ => hj]

end Frame

section Addresses
variable {κ : Type} {hash : MemoryLocation → κ} {storage : Storage Code}
  {mvMemory : MvMemory κ MemoryValue} {eip161 : Bool} {txs : ℕ → TxEnv} {blockSize : ℕ}
  {address : Address} {addresses : List Address} {states states' : ℕ → TxState Code}

/-- The account that an address has before the block. -/
def startAccount (storage : Storage Code) (address : Address) : AccountBasic :=
  (storedAccount storage address).getD .default

/-- What the evaluation reads of the storage is there: no read of a code hash or of code fails. -/
structure StorageSteady (storage : Storage Code) : Prop where
  codeHash : ∀ address, ∃ codeHash, storage.codeHash address = .ok codeHash
  codeByHash : ∀ codeHash, ∃ code, storage.codeByHash codeHash = .ok code

/-- No entry of the location is an absolute value, so every one of them builds on what is below. -/
def AllLazy (mvMemory : MvMemory κ MemoryValue) (l : κ) : Prop :=
  ∀ j txIncarnation info, mvMemory.entry l j ≠ some (.data txIncarnation (.basic info))

variable (storage blockSize) in
lemma initialAccount_of_allLazy (hlazy : AllLazy mvMemory (hash (.basic address))) :
    initialAccount (storedAccount storage address)
      (history (mvMemory.entry (hash (.basic address))) blockSize) =
        startAccount storage address := by
  unfold initialAccount
  split
  · rename_i j inc info rest hfirst
    have hmem : (j, MemoryEntry.data inc (.basic info)) ∈
        history (mvMemory.entry (hash (.basic address))) blockSize := by
      rw [hfirst]
      exact List.mem_cons_self
    exact absurd (mem_history.mp hmem).2 (hlazy j inc info)
  · rfl

/-- The account that an address comes to by the entries below a bound, or the error that it ends
with. -/
def columnBelow (hash : MemoryLocation → κ) (storage : Storage Code)
    (mvMemory : MvMemory κ MemoryValue) (txs : ℕ → TxEnv) (address : Address) (bound : ℕ) :
    Except PexeError AccountBasic :=
  let entries := history (mvMemory.entry (hash (.basic address))) bound
  evaluateColumn address txs entries (initialAccount (storedAccount storage address) entries)

/-- The first entry decides alone. -/
lemma initialAccount_append {account : Option AccountBasic}
    {entries rest : List (ℕ × MemoryEntry MemoryValue)} (h : entries ≠ []) :
    initialAccount account (entries ++ rest) = initialAccount account entries := by
  obtain ⟨⟨j, e⟩, entries, rfl⟩ := List.exists_cons_of_ne_nil h
  cases e with
  | estimate => rfl
  | data inc value => cases value <;> rfl

variable (storage txs) in
lemma columnBelow_of_allLazy (hlazy : AllLazy mvMemory (hash (.basic address))) (bound : ℕ) :
    columnBelow hash storage mvMemory txs address bound =
      evaluateColumn address txs (history (mvMemory.entry (hash (.basic address))) bound)
        (startAccount storage address) := by
  unfold columnBelow
  dsimp only
  rw [initialAccount_of_allLazy storage bound hlazy]

/-- A lazy entry takes the column one step further. -/
lemma columnBelow_succ {j : ℕ} {e : MemoryEntry MemoryValue}
    (hentry : mvMemory.entry (hash (.basic address)) j = some e)
    (hlazy : ∀ inc info, e ≠ .data inc (.basic info)) :
    columnBelow hash storage mvMemory txs address (j + 1) =
      columnBelow hash storage mvMemory txs address j >>= fun account =>
        evaluateEntry address txs account (j, e) := by
  have hlast : history (mvMemory.entry (hash (.basic address))) (j + 1) =
      history (mvMemory.entry (hash (.basic address))) j ++ [(j, e)] := by
    rw [history, hentry]
    rfl
  have hstart : initialAccount (storedAccount storage address)
      (history (mvMemory.entry (hash (.basic address))) (j + 1)) =
        initialAccount (storedAccount storage address)
          (history (mvMemory.entry (hash (.basic address))) j) := by
    rw [hlast]
    by_cases hnil : history (mvMemory.entry (hash (.basic address))) j = []
    · rw [hnil, List.nil_append]
      unfold initialAccount
      split
      · rename_i hfirst
        exact absurd (Prod.mk.inj (List.cons.inj hfirst).1).2 (hlazy _ _)
      · rfl
    · exact initialAccount_append hnil
  unfold columnBelow
  dsimp only
  rw [hstart, hlast, evaluateColumn_append]
  congr 1
  funext account
  exact evaluateColumn_singleton (j, e)

lemma columnBelow_succ_of_none {j : ℕ}
    (hentry : mvMemory.entry (hash (.basic address)) j = none) :
    columnBelow hash storage mvMemory txs address (j + 1) =
      columnBelow hash storage mvMemory txs address j := by
  have hlast : history (mvMemory.entry (hash (.basic address))) (j + 1) =
      history (mvMemory.entry (hash (.basic address))) j := by
    rw [history, hentry]
    exact List.append_nil _
  unfold columnBelow
  dsimp only
  rw [hlast]

variable (eip161 txs blockSize states) in
/-- The evaluation of an address is that of its column. -/
lemma evaluateAddress_eq (hsteady : StorageSteady storage) :
    ∃ codeHash code,
      evaluateAddress hash storage mvMemory eip161 txs blockSize address states =
        evaluateEntries eip161 address txs codeHash code
          (history (mvMemory.entry (hash (.basic address))) blockSize)
          (initialAccount (storedAccount storage address)
            (history (mvMemory.entry (hash (.basic address))) blockSize)) states := by
  obtain ⟨codeHash, hcodeHash⟩ := hsteady.codeHash address
  unfold evaluateAddress
  cases hdata : mvMemory.data (hash (.basic address)) with
  | none =>
    refine ⟨none, none, ?_⟩
    rw [history_none fun j => by simp [MvMemory.entry, hdata]]
    rfl
  | some m =>
    have hm : mvMemory.entry (hash (.basic address)) = m := by
      funext j
      exact MvMemory.entry_of_data _ hdata j
    rw [hm]
    simp only [hcodeHash, orStorageError, Fallible.ok_bind]
    cases codeHash with
    | none => exact ⟨none, none, rfl⟩
    | some codeHash =>
      obtain ⟨code, hcode⟩ := hsteady.codeByHash codeHash
      refine ⟨some codeHash, code, ?_⟩
      simp only [hcode, Fallible.ok_bind]

variable (eip161 txs blockSize states) in
lemma evaluateAddress_ok_iff (hsteady : StorageSteady storage) :
    (∃ states', evaluateAddress hash storage mvMemory eip161 txs blockSize address states =
        .ok states') ↔
      ∃ account', columnBelow hash storage mvMemory txs address blockSize = .ok account' := by
  obtain ⟨codeHash, code, heq⟩ := evaluateAddress_eq eip161 txs blockSize states hsteady
  rw [heq]
  exact evaluateEntries_ok_iff

/-- The evaluation of a block goes through when every column does. -/
theorem evaluate_ok_iff (hsteady : StorageSteady storage) :
    (∃ states', evaluate hash storage mvMemory eip161 txs blockSize addresses states =
        .ok states') ↔
      ∀ address ∈ addresses, ∃ account',
        columnBelow hash storage mvMemory txs address blockSize = .ok account' := by
  induction addresses generalizing states with
  | nil => exact iff_of_true ⟨states, rfl⟩ (by simp)
  | cons address addresses ih =>
    have hfirst : (∃ states', evaluateAddress hash storage mvMemory eip161 txs blockSize address
        states = .ok states') ↔ _ := evaluateAddress_ok_iff eip161 txs blockSize states hsteady
    rw [List.forall_mem_cons, ← hfirst]
    constructor
    · rintro ⟨states', hstates⟩
      obtain ⟨mid, hmid, hlast⟩ := Fallible.bind_eq_ok.mp hstates
      exact ⟨⟨mid, hmid⟩, ih.mp ⟨states', hlast⟩⟩
    · rintro ⟨⟨mid, hmid⟩, hcolumns⟩
      obtain ⟨states', hlast⟩ := (@ih mid).mpr hcolumns
      exact ⟨states', Fallible.bind_eq_ok.mpr ⟨mid, hmid, hlast⟩⟩

/-- After the evaluation of a history an entry has the values of its column. -/
lemma evaluateEntries_at {before rest : List (ℕ × MemoryEntry MemoryValue)} {j : ℕ}
    {e : MemoryEntry MemoryValue} {codeHash : Option B256} {code : Option Code}
    {account : AccountBasic}
    (h : evaluateEntries eip161 address txs codeHash code (before ++ (j, e) :: rest) account
      states = .ok states') (hrest : ∀ e ∈ rest, e.1 ≠ j) :
    ∃ account', evaluateColumn address txs (before ++ [(j, e)]) account = .ok account' ∧
      basicOf (states' j address) = some account' := by
  induction before generalizing account states with
  | nil =>
    rw [List.nil_append, evaluateEntries] at h
    obtain ⟨account', hentry, hlast⟩ := Fallible.bind_eq_ok.mp h
    refine ⟨account', ?_, ?_⟩
    · rw [List.nil_append, evaluateColumn_singleton, hentry]
    · rw [evaluateEntries_frame hlast fun _ e he heq => absurd heq (hrest e he)]
      simp only [Function.update_self]
      exact storeAccount_basic
  | cons entry before ih =>
    rw [List.cons_append, evaluateEntries] at h
    obtain ⟨account₁, hentry, hlast⟩ := Fallible.bind_eq_ok.mp h
    obtain ⟨account', hcolumn, hstored⟩ := ih hlast
    refine ⟨account', ?_, hstored⟩
    rw [List.cons_append, evaluateColumn, hentry]
    exact hcolumn

/-- After the evaluation of a block every entry of an address on the list has the values of its
column. -/
theorem evaluate_at (hsteady : StorageSteady storage) {j : ℕ} {e : MemoryEntry MemoryValue}
    (hj : j < blockSize) (hentry : mvMemory.entry (hash (.basic address)) j = some e)
    (h : evaluate hash storage mvMemory eip161 txs blockSize addresses states = .ok states')
    (hon : address ∈ addresses ∨ ∃ account',
      columnBelow hash storage mvMemory txs address (j + 1) = .ok account' ∧
        basicOf (states j address) = some account') :
    ∃ account', columnBelow hash storage mvMemory txs address (j + 1) = .ok account' ∧
      basicOf (states' j address) = some account' := by
  induction addresses generalizing states with
  | nil =>
    cases h
    rcases hon with hmem | hdone
    · simp at hmem
    · exact hdone
  | cons first addresses ih =>
    obtain ⟨mid, hfirst, hlast⟩ := Fallible.bind_eq_ok.mp h
    apply ih hlast
    by_cases hsame : address = first
    · subst hsame
      right
      obtain ⟨codeHash, code, heq⟩ := evaluateAddress_eq eip161 txs blockSize states hsteady
      rw [heq] at hfirst
      obtain ⟨rest, hsplit, habove⟩ :=
        history_split (m := mvMemory.entry (hash (.basic address))) (show j + 1 ≤ blockSize from hj)
      have hlastEntry : history (mvMemory.entry (hash (.basic address))) (j + 1) =
          history (mvMemory.entry (hash (.basic address))) j ++ [(j, e)] := by
        rw [history, hentry]
        rfl
      -- both start with the same entry
      have hstart : initialAccount (storedAccount storage address)
          (history (mvMemory.entry (hash (.basic address))) (j + 1) ++ rest) =
            initialAccount (storedAccount storage address)
              (history (mvMemory.entry (hash (.basic address))) (j + 1)) := by
        apply initialAccount_append
        rw [hlastEntry]
        simp
      rw [hsplit, hstart, hlastEntry, List.append_assoc] at hfirst
      unfold columnBelow
      dsimp only
      rw [hlastEntry]
      apply evaluateEntries_at hfirst
      intro e' he' heq'
      have hindex := habove e' he'
      omega
    · rcases hon with hmem | hdone
      · exact .inl (List.mem_of_ne_of_mem hsame hmem)
      · right
        rw [evaluateAddress_frame hfirst fun heq => absurd heq hsame]
        exact hdone

end Addresses

end LazyEvaluation

end Pevm
