import Pevm.Chain

/-!
# The estimates a block starts with

An estimate stands for a write of an incarnation to come. `record` forgets the estimates of
the last incarnation, which it has listed, and those it overwrites; the ones a block starts
with are on no list.
-/
namespace Pevm

namespace MvMemory
variable {κ ν : Type}

/-- A call that changes the memory: an execution is recorded, or an aborted one leaves estimates. -/
inductive Call (κ ν : Type)
  | record (version : TxVersion) (readSet : ReadSet κ) (writeSet : WriteSet κ ν)
  | convertWritesToEstimates (txIdx : ℕ)

namespace Call

def txIdx : Call κ ν → ℕ
  | record version _ _ => version.txIdx
  | convertWritesToEstimates txIdx => txIdx

def IsRecord : Call κ ν → Prop
  | record _ _ _ => True
  | convertWritesToEstimates _ => False

def apply [DecidableEq κ] (mem : MvMemory κ ν) : Call κ ν → MvMemory κ ν
  | record version readSet writeSet => (mem.record version readSet writeSet).2
  | convertWritesToEstimates txIdx => mem.convertWritesToEstimates txIdx

end Call

/-- The call `c` comes right after the calls `done` in a run. -/
def Follows (calls done : List (Call κ ν)) (c : Call κ ν) : Prop :=
  ∃ rest, calls = done ++ c :: rest

/-- The first `record` of a transaction in a run. -/
def FirstRecord (calls : List (Call κ ν)) (version : TxVersion) (writeSet : WriteSet κ ν) : Prop :=
  ∃ done readSet, Follows calls done (.record version readSet writeSet) ∧
    ∀ c ∈ done, c.IsRecord → c.txIdx ≠ version.txIdx

section FirstRecord
variable {calls : List (Call κ ν)} {version : TxVersion} {writeSet : WriteSet κ ν}

lemma FirstRecord.mem (h : FirstRecord calls version writeSet) :
    ∃ readSet, Call.record version readSet writeSet ∈ calls := by
  obtain ⟨done, readSet, ⟨rest, rfl⟩, -⟩ := h
  exact ⟨readSet, by simp⟩

lemma FirstRecord.append (h : FirstRecord calls version writeSet) (calls' : List (Call κ ν)) :
    FirstRecord (calls ++ calls') version writeSet := by
  obtain ⟨done, readSet, ⟨rest, rfl⟩, hdone⟩ := h
  exact ⟨done, readSet, ⟨rest ++ calls', by simp⟩, hdone⟩

/-- Every transaction that has recorded at all has a first time. -/
lemma exists_firstRecord {readSet : ReadSet κ} (h : .record version readSet writeSet ∈ calls) :
    ∃ version' writeSet', version'.txIdx = version.txIdx ∧
      FirstRecord calls version' writeSet' := by
  classical
  obtain ⟨c, hc⟩ : ∃ c, calls.find? (fun c => decide (c.IsRecord ∧ c.txIdx = version.txIdx)) =
      some c := by
    apply Option.isSome_iff_exists.mp
    apply List.find?_isSome.mpr
    exact ⟨_, h, by simp [Call.IsRecord, Call.txIdx]⟩
  obtain ⟨hrecord, done, rest, rfl, hdone⟩ := List.find?_eq_some_iff_append.mp hc
  obtain ⟨hrecord, hidx⟩ := of_decide_eq_true hrecord
  cases c with
  | convertWritesToEstimates i => exact absurd hrecord id
  | record version' readSet' writeSet' =>
    refine ⟨version', writeSet', hidx, done, readSet', ⟨rest, rfl⟩, ?_⟩
    intro d hd hdrecord heq
    have hnot := hdone d hd
    simp only [hdrecord, heq.trans hidx, and_self, decide_true, Bool.not_true,
      Bool.false_eq_true] at hnot

end FirstRecord

variable [DecidableEq κ] (mem : MvMemory κ ν)

/-- The memory after all the calls of a run, one after the other. -/
def after (calls : List (Call κ ν)) : MvMemory κ ν := calls.foldl Call.apply mem

/-- The run began with an estimate here, and no execution of its transaction has written here since.
-/
def Untouched (calls : List (Call κ ν)) (l : κ) (j : ℕ) : Prop :=
  mem.entry l j = some .estimate ∧ ∀ version readSet writeSet,
    Call.record version readSet writeSet ∈ calls → version.txIdx = j → written writeSet l = none

/-- Right after `record` its transaction has no estimate left, at no moment of the run. -/
def RecordClears (calls : List (Call κ ν)) : Prop :=
  ∀ done version readSet writeSet, Follows calls done (.record version readSet writeSet) →
    ∀ l, (mem.after (done ++ [.record version readSet writeSet])).entry l version.txIdx ≠
      some .estimate

section Steps
variable {mem} {calls : List (Call κ ν)} {l : κ} {j : ℕ}

@[simp] lemma after_nil : mem.after [] = mem := rfl

lemma after_concat (c : Call κ ν) : mem.after (calls ++ [c]) = c.apply (mem.after calls) := by
  simp [after]

lemma after_append (calls' : List (Call κ ν)) :
    mem.after (calls ++ calls') = (mem.after calls).after calls' := by
  simp [after]

/-- A call leaves the entries of other transactions alone. -/
lemma apply_entry_of_ne {c : Call κ ν} (h : c.txIdx ≠ j) :
    (c.apply mem).entry l j = mem.entry l j := by
  cases c with
  | record version readSet writeSet => exact record_entry_of_ne _ (Ne.symm h) _ _ _
  | convertWritesToEstimates i =>
    rw [Call.apply, convert_entry, if_neg]
    rintro ⟨rfl, -⟩
    exact h rfl

lemma apply_lastLocations_of_ne {c : Call κ ν} (h : c.txIdx ≠ j) :
    (c.apply mem).lastLocations j = mem.lastLocations j := by
  cases c with
  | record version readSet writeSet => exact record_lastLocations_of_ne _ _ _ _ (Ne.symm h)
  | convertWritesToEstimates i => rfl

/-- `record` makes no estimate. -/
lemma record_estimate {version : TxVersion} {readSet : ReadSet κ} {writeSet : WriteSet κ ν} :
    (mem.record version readSet writeSet).2.entry l version.txIdx = some .estimate ↔
      mem.entry l version.txIdx = some .estimate ∧ written writeSet l = none ∧
        l ∉ (mem.lastLocations version.txIdx).write := by
  rw [record_entry, if_pos rfl]
  cases written writeSet l with
  | some value => simp
  | none =>
    by_cases hl : l ∈ (mem.lastLocations version.txIdx).write
    · simp [hl]
    · simp [hl]

lemma untouched_concat (c : Call κ ν) :
    mem.Untouched (calls ++ [c]) l j ↔
      mem.Untouched calls l j ∧ ∀ version readSet writeSet,
        c = .record version readSet writeSet → version.txIdx = j → written writeSet l = none := by
  unfold Untouched
  simp only [List.mem_append, List.mem_singleton]
  constructor
  · rintro ⟨h, hall⟩
    exact ⟨⟨h, fun v r w hm => hall v r w (.inl hm)⟩, fun v r w hc => hall v r w (.inr hc.symm)⟩
  · rintro ⟨⟨h, hall⟩, hc⟩
    exact ⟨h, fun v r w hm => hm.elim (hall v r w) fun heq => hc v r w heq.symm⟩

/-- The estimates in a run: those it began with and has not touched, and some at locations that
are on the list of their transaction. -/
theorem after_estimates (hfresh : ∀ j, (mem.lastLocations j).write = []) (l : κ) (j : ℕ) :
    (mem.Untouched calls l j → (mem.after calls).entry l j = some .estimate ∧
        l ∉ ((mem.after calls).lastLocations j).write) ∧
      ((mem.after calls).entry l j = some .estimate →
        mem.Untouched calls l j ∨ l ∈ ((mem.after calls).lastLocations j).write) := by
  induction calls using List.reverseRecOn with
  | nil => simp [Untouched, hfresh]
  | append_singleton calls c ih =>
    obtain ⟨hleft, hestimate⟩ := ih
    rw [after_concat, untouched_concat]
    by_cases hj : c.txIdx = j
    · subst hj
      cases c with
      | record version readSet writeSet =>
        simp only [Call.apply, Call.txIdx] at hleft hestimate ⊢
        rw [record_estimate, record_write]
        constructor
        · rintro ⟨huntouched, hwritten⟩
          have hnone := hwritten version readSet writeSet rfl rfl
          obtain ⟨he, hl⟩ := hleft huntouched
          exact ⟨⟨he, hnone, hl⟩, by simp [hnone]⟩
        · rintro ⟨he, hnone, hl⟩
          have huntouched := (hestimate he).resolve_right hl
          refine .inl ⟨huntouched, ?_⟩
          intro v r w heq _
          obtain ⟨-, -, rfl⟩ := Call.record.inj heq
          exact hnone
      | convertWritesToEstimates i =>
        simp only [Call.apply, Call.txIdx, convert_lastLocations] at hleft hestimate ⊢
        rw [convert_entry]
        constructor
        · rintro ⟨huntouched, -⟩
          obtain ⟨he, hl⟩ := hleft huntouched
          exact ⟨by rw [if_neg fun h => hl h.2.1, he], hl⟩
        · intro he
          split_ifs at he with h
          · exact .inr h.2.1
          · exact (hestimate he).imp_left fun h => ⟨h, by simp⟩
    · rw [apply_entry_of_ne hj, apply_lastLocations_of_ne hj]
      refine ⟨fun h => hleft h.1, fun he => (hestimate he).imp_left fun h => ⟨h, ?_⟩⟩
      rintro v r w rfl hv
      exact absurd hv hj

/-- After `record` a transaction has the estimates that no incarnation has overwritten yet. -/
theorem after_record_estimate (hfresh : ∀ j, (mem.lastLocations j).write = [])
    {version : TxVersion} {readSet : ReadSet κ} {writeSet : WriteSet κ ν} :
    (mem.after (calls ++ [.record version readSet writeSet])).entry l version.txIdx =
        some .estimate ↔
      mem.Untouched (calls ++ [.record version readSet writeSet]) l version.txIdx := by
  constructor
  · intro h
    refine ((after_estimates hfresh l version.txIdx).2 h).resolve_right ?_
    rw [after_concat] at h ⊢
    intro hl
    exact (record_write _ _ _ _ _).mp hl (record_estimate.mp h).2.1
  · exact fun h => ((after_estimates hfresh l version.txIdx).1 h).1

/-- `record` clears all estimates in a run exactly when every transaction begins by writing
wherever it was expected to. -/
theorem recordClears_iff (hfresh : ∀ j, (mem.lastLocations j).write = []) :
    mem.RecordClears calls ↔ ∀ version writeSet, FirstRecord calls version writeSet →
      ∀ l, mem.entry l version.txIdx = some .estimate → written writeSet l ≠ none := by
  constructor
  · rintro h version writeSet ⟨done, readSet, hfollows, hdone⟩ l hl hnone
    apply h done version readSet writeSet hfollows l
    refine (after_record_estimate hfresh).mpr ⟨hl, ?_⟩
    intro v r w hmem hv
    rcases List.mem_append.mp hmem with hmem | hmem
    · exact absurd hv (hdone _ hmem True.intro)
    · obtain ⟨-, -, rfl⟩ := Call.record.inj (List.mem_singleton.mp hmem)
      exact hnone
  · rintro h done version readSet writeSet ⟨rest, rfl⟩ l he
    obtain ⟨hl, hnone⟩ := (after_record_estimate hfresh).mp he
    have hlast : .record version readSet writeSet ∈
        done ++ [Call.record version readSet writeSet] := by simp
    obtain ⟨v, w, hv, hfirst⟩ := exists_firstRecord hlast
    obtain ⟨r, hmem⟩ := hfirst.mem
    have hall := hfirst.append rest
    rw [← List.append_cons] at hall
    exact h v w hall l (hv ▸ hl) (hnone v r w hmem hv)

/-- Once `record` clears all estimates, only a later abort brings some back. -/
theorem after_ne_estimate (h : mem.RecordClears calls) {done rest : List (Call κ ν)}
    {version : TxVersion} {readSet : ReadSet κ} {writeSet : WriteSet κ ν}
    (hcalls : calls = done ++ .record version readSet writeSet :: rest)
    (hrest : Call.convertWritesToEstimates version.txIdx ∉ rest) (l : κ) :
    (mem.after calls).entry l version.txIdx ≠ some .estimate := by
  have hstart := h done version readSet writeSet ⟨rest, hcalls⟩ l
  rw [hcalls, List.append_cons, after_append]
  generalize mem.after (done ++ [.record version readSet writeSet]) = mem' at hstart ⊢
  clear hcalls
  induction rest using List.reverseRecOn with
  | nil => exact hstart
  | append_singleton rest c ih =>
    rw [List.mem_append, not_or, List.mem_singleton] at hrest
    have hbefore := ih hrest.1
    rw [after_concat]
    by_cases hc : c.txIdx = version.txIdx
    · cases c with
      | record v r w =>
        rw [Call.apply]
        rw [Call.txIdx] at hc
        rw [← hc] at hbefore ⊢
        exact fun he => hbefore (record_estimate.mp he).1
      | convertWritesToEstimates i =>
        rw [Call.txIdx] at hc
        exact absurd (by rw [hc]) hrest.2
    · rwa [apply_entry_of_ne hc]

/-- The entries of a transaction stay while no call is about it. -/
lemma after_entry_of_ne (h : ∀ c ∈ calls, c.txIdx ≠ j) :
    (mem.after calls).entry l j = mem.entry l j := by
  induction calls using List.reverseRecOn with
  | nil => rfl
  | append_singleton calls c ih =>
    rw [after_concat, apply_entry_of_ne (h c (by simp)), ih fun c hc => h c (by simp [hc])]

end Steps

end MvMemory

namespace PexeChain
variable {κ : Type} [DecidableEq κ] (Bytecode : Type) (hashes : Hashes κ)
  (recipients : FeeRecipients) (env : ChainEnv) (chain : PexeChain) (txs : List OptimismTxEnv)

/-- A call that the parallel executor can make: `record` with what an execution of the
transaction gave. -/
def Makes : MvMemory.Call κ MemoryValue → Prop
  | .record version readSet writeSet => ∃ tx db calculateTxL1Cost flags,
      ∃ transacted : Transacted Bytecode, txs[version.txIdx]? = some tx ∧ db.tx = tx.toTxEnv ∧
        db.txIdx = version.txIdx ∧
        Vm.executeUnder hashes.location env (chain.getRewardPolicy hashes recipients) db tx
          calculateTxL1Cost transacted = some (.ok (readSet, writeSet, flags))
  | .convertWritesToEstimates txIdx => txIdx < txs.length

/-- Every transaction has been recorded, and was not aborted after its last record. -/
def Finished (calls : List (MvMemory.Call κ MemoryValue)) : Prop :=
  ∀ j < txs.length, ∃ done version readSet writeSet rest,
    calls = done ++ .record version readSet writeSet :: rest ∧ version.txIdx = j ∧
      MvMemory.Call.convertWritesToEstimates j ∉ rest

/-- No estimate outlives the next incarnation of its transaction, and none is left when all are
finished. -/
def NoneOutlives (calls : List (MvMemory.Call κ MemoryValue)) : Prop :=
  let mem := buildMvMemory hashes recipients env chain txs
  mem.RecordClears calls ∧
    (Finished txs calls → ∀ l j, (mem.after calls).entry l j ≠ some .estimate)

/-- The deposits of Optimism start by writing to both fee recipients, under their bare hashes. -/
def DepositsWriteToRecipients (calls : List (MvMemory.Call κ MemoryValue)) : Prop :=
  chain = optimism → ∀ version writeSet, MvMemory.FirstRecord calls version writeSet →
    ∀ tx, txs[version.txIdx]? = some tx → tx.IsDeposit →
      MvMemory.written writeSet (hashes.address recipients.l1FeeRecipient) ≠ none ∧
        MvMemory.written writeSet (hashes.address recipients.baseFeeRecipient) ≠ none

section Makes
variable {Bytecode hashes recipients env chain txs} {calls : List (MvMemory.Call κ MemoryValue)}

lemma txIdx_lt_of_makes {c : MvMemory.Call κ MemoryValue}
    (h : Makes Bytecode hashes recipients env chain txs c) : c.txIdx < txs.length := by
  cases c with
  | record version readSet writeSet =>
    obtain ⟨tx, _, _, _, _, htx, -⟩ := h
    exact (List.getElem?_eq_some_iff.mp htx).1
  | convertWritesToEstimates i => exact h

/-- Whoever is rewarded is written to. -/
lemma written_rewarded {db : VmDb κ} {tx : OptimismTxEnv} {address : Address}
    {calculateTxL1Cost : Option (List U8 → U256)} {transacted : Transacted Bytecode}
    {readSet : ReadSet κ} {writeSet : WriteSet κ MemoryValue} {flags : FinishExecFlags}
    (h : Vm.executeUnder hashes.location env (chain.getRewardPolicy hashes recipients) db tx
      calculateTxL1Cost transacted = some (.ok (readSet, writeSet, flags)))
    (hmem : address ∈ chain.rewarded recipients env tx) :
    MvMemory.written writeSet (hashes.location (.basic address)) ≠ none := by
  obtain ⟨result, rewards, -, -, hrewards, hlist⟩ := Vm.executeUnder_eq_ok hashes.location env h
  apply (Vm.applyRewardList_written hlist).mpr
  left
  rw [Vm.rewards_keys env hrewards]
  exact List.mem_map_of_mem hmem

/-- What a first incarnation is expected to write it does write, unless it is a deposit. -/
lemma firstWrites_iff (h : ∀ c ∈ calls, Makes Bytecode hashes recipients env chain txs c) :
    (∀ version writeSet, MvMemory.FirstRecord calls version writeSet → ∀ l,
        (buildMvMemory hashes recipients env chain txs).entry l version.txIdx = some .estimate →
        MvMemory.written writeSet l ≠ none) ↔
      DepositsWriteToRecipients hashes recipients chain txs calls := by
  simp only [buildMvMemory_entry]
  constructor
  · rintro hwrites rfl version writeSet hfirst tx htx hdeposit
    constructor
    · exact hwrites version writeSet hfirst _ ⟨tx, htx, by simp [expected, hdeposit]⟩
    · exact hwrites version writeSet hfirst _ ⟨tx, htx, by simp [expected, hdeposit]⟩
  · rintro hwrites version writeSet hfirst l ⟨tx, htx, hl⟩
    obtain ⟨done, readSet, ⟨rest, rfl⟩, hdone⟩ := id hfirst
    obtain ⟨tx', db, cost, flags, transacted, htx', -, -, hexecute⟩ :=
      h (.record version readSet writeSet) (by simp)
    obtain rfl := Option.some.inj (htx.symm.trans htx')
    cases chain with
    | ethereum =>
      obtain rfl := List.mem_singleton.mp hl
      exact written_rewarded hexecute (by simp [rewarded])
    | optimism =>
      rw [expected] at hl
      split_ifs at hl with hdeposit
      · obtain ⟨hl1, hbase⟩ := hwrites rfl version writeSet hfirst tx htx hdeposit
        rcases List.mem_pair.mp hl with rfl | rfl
        · exact hl1
        · exact hbase
      · obtain rfl := List.mem_singleton.mp hl
        exact written_rewarded hexecute (by simp [rewarded, hdeposit])

/-- No estimate outlives the next incarnation exactly when the deposits of Optimism, which pay no
fees, write to the fee recipients of their own accord. The memory starts as `build_mv_memory` leaves
it, and the calls are any sequence of records and conversions that the executor can make. -/
theorem noneOutlives_iff (h : ∀ c ∈ calls, Makes Bytecode hashes recipients env chain txs c) :
    NoneOutlives hashes recipients env chain txs calls ↔
      DepositsWriteToRecipients hashes recipients chain txs calls := by
  rw [← firstWrites_iff h]
  have hfresh : ∀ j, ((buildMvMemory hashes recipients env chain txs).lastLocations j).write =
      [] := fun _ => rfl
  rw [← MvMemory.recordClears_iff hfresh]
  refine ⟨And.left, fun hclears => ⟨hclears, fun hfinished l j => ?_⟩⟩
  by_cases hj : j < txs.length
  · obtain ⟨done, version, readSet, writeSet, rest, hcalls, rfl, hrest⟩ := hfinished j hj
    exact MvMemory.after_ne_estimate hclears hcalls hrest l
  · have hother : ∀ c ∈ calls, c.txIdx ≠ j := by
      rintro c hc rfl
      exact hj (txIdx_lt_of_makes (h c hc))
    rw [MvMemory.after_entry_of_ne hother, Ne, buildMvMemory_entry]
    rintro ⟨tx, htx, -⟩
    exact hj (List.getElem?_eq_some_iff.mp htx).1

end Makes

section Sample

/-- Addresses hash like their basic locations. -/
def depositHashes : Hashes MemoryLocation := ⟨id, .basic⟩

def depositRecipients : FeeRecipients := ⟨0x1a, 0x19⟩

def depositEnv : ChainEnv := ⟨true, true, 7, 0x11⟩

/-- A deposit by account 1 to account 2. -/
def deposit : OptimismTxEnv where
  caller := 1
  gasLimit := 100000
  gasPrice := 0
  transactTo := .call 2
  value := 0
  nonce := none
  gasPriorityFee := none
  blobHashes := []
  maxFeePerBlobGas := none
  optimism := ⟨some 9, some []⟩

def depositDb : VmDb MemoryLocation where
  txIdx := 0
  tx := deposit.toTxEnv
  fromHash := .basic 1
  toHash := some (.basic 2)
  toCodeHash := none
  isLazy := false
  readSet := ∅
  readAccounts := ∅

/-- The deposit raises the nonce of its sender. -/
def depositResult : ResultAndState Unit :=
  ⟨50000, [(1, ⟨⟨0, 1, keccakEmpty, none⟩, [], true, false, true⟩)]⟩

def depositRecord : MvMemory.Call MemoryLocation MemoryValue :=
  .record ⟨0, 0⟩ ∅ [(.basic 1, .basic ⟨0, 1⟩)]

lemma depositRecord_makes : Makes Unit depositHashes depositRecipients depositEnv .optimism
    [deposit] depositRecord :=
  ⟨deposit, depositDb, none, .empty, .ok depositResult, rfl, rfl, rfl, rfl⟩

/-- The deposit has recorded; an account that it was expected to pay still waits for it. -/
theorem deposit_estimate_outlives :
    (∀ c ∈ [depositRecord],
      Makes Unit depositHashes depositRecipients depositEnv .optimism [deposit] c) ∧
    ¬ NoneOutlives depositHashes depositRecipients depositEnv .optimism [deposit]
      [depositRecord] := by
  constructor
  · intro c hc
    rw [List.mem_singleton.mp hc]
    exact depositRecord_makes
  · rintro ⟨hclears, -⟩
    have hfollows : MvMemory.Follows [depositRecord] [] depositRecord := ⟨[], rfl⟩
    exact hclears [] _ _ _ hfollows (.basic 0x1a) (by decide)

theorem noneOutlives_iff_deposit :
    NoneOutlives depositHashes depositRecipients depositEnv .optimism [deposit] [depositRecord] ↔
      DepositsWriteToRecipients depositHashes depositRecipients .optimism [deposit]
        [depositRecord] :=
  noneOutlives_iff (by
    intro c hc
    rw [List.mem_singleton.mp hc]
    exact depositRecord_makes)

end Sample

end PexeChain

end Pevm
