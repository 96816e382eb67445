import Mathlib.Algebra.BigOperators.Group.Finset.Basic
import Pevm.LazyEvaluation
import Pevm.VmDb

/-!
# A lazy read against the forward replay

The read walks the entries of an account down to an absolute value and keeps the difference
to the final balance by sign and magnitude; the replay walks them up. Both are measured
against the balance as an integer.
-/
namespace Pevm
open Saturating LazyEvaluation

section Replay

/-- The account after the entries below a bound, applied in index order. -/
def accountAt (start : AccountBasic) (m : ℕ → Option (MemoryEntry MemoryValue)) :
    ℕ → AccountBasic
  | 0 => start
  | idx + 1 =>
    match m idx with
    | some e => applyEntry (accountAt start m idx) e
    | none => accountAt start m idx

lemma foldl_history (start : AccountBasic) (m : ℕ → Option (MemoryEntry MemoryValue))
    (bound : ℕ) :
    (history m bound).foldl (fun account e => applyEntry account e.2) start =
      accountAt start m bound := by
  induction bound with
  | zero => rfl
  | succ bound ih =>
    rw [history, List.foldl_append, ih, accountAt]
    cases m bound <;> rfl

/-- The balance as an integer, which may leave the range of the words on its way. -/
def exactBalance (start : AccountBasic) (m : ℕ → Option (MemoryEntry MemoryValue)) : ℕ → ℤ
  | 0 => start.balance.toNat
  | idx + 1 =>
    match m idx with
    | some (.data _ (.basic info)) => info.balance.toNat
    | some (.data _ (.lazyRecipient addition)) => exactBalance start m idx + addition.toNat
    | some (.data _ (.lazySender subtraction)) => exactBalance start m idx - subtraction.toNat
    | _ => exactBalance start m idx

/-- An entry of an account that can be read: an absolute value or a change. -/
def OnAccount : MemoryEntry MemoryValue → Prop
  | .data _ (.basic _) | .data _ (.lazyRecipient _) | .data _ (.lazySender _) => True
  | _ => False

variable {start : AccountBasic} {m : ℕ → Option (MemoryEntry MemoryValue)} {bound : ℕ}

/-- The replay saturates nowhere while the balance stays in the range. -/
lemma accountAt_balance
    (hrange : ∀ k ≤ bound, 0 ≤ exactBalance start m k ∧ exactBalance start m k < 2 ^ 256) {k : ℕ}
    (hk : k ≤ bound) : ((accountAt start m k).balance.toNat : ℤ) = exactBalance start m k := by
  induction k with
  | zero => rfl
  | succ k ih =>
    have hbelow := ih (by omega)
    have hnext := hrange (k + 1) hk
    rw [accountAt, exactBalance] at *
    cases hm : m k with
    | none => simpa [hm] using hbelow
    | some e =>
      rw [hm] at hnext
      cases e with
      | estimate => exact hbelow
      | data inc value =>
        cases value with
        | basic info => rfl
        | lazyRecipient addition =>
          simp only [applyEntry, applyValue, saturatingAdd_toNat] at hnext ⊢
          omega
        | lazySender subtraction =>
          simp only [applyEntry, applyValue, saturatingSub_toNat] at hnext ⊢
          omega
        | codeHash hash => exact hbelow
        | storage value => exact hbelow
        | selfDestructed => exact hbelow

end Replay

namespace LazyUpdates

/-- The balance that the updates add, with its sign. -/
def toInt (u : LazyUpdates) : ℤ :=
  if u.positiveAddition then u.balanceAddition.toNat else -u.balanceAddition.toNat

/-- The updates lead from one account to another, in exact integers. -/
structure Spans (u : LazyUpdates) (base final : AccountBasic) : Prop where
  balance : base.balance.toNat + u.toInt = final.balance.toNat
  nonce : base.nonce + u.nonceAddition = final.nonce

lemma Spans.refl (account : AccountBasic) : none.Spans account account where
  balance := by simp [none, toInt]
  nonce := by simp [none]

variable {u : LazyUpdates} {base final : AccountBasic}

/-- A recipient's entry walked down: the account below had less. -/
lemma Spans.addRecipient {addition : U256}
    (h : u.Spans (applyValue base (.lazyRecipient addition)) final)
    (hrange : base.balance.toNat + addition.toNat < 2 ^ 256) :
    (u.addRecipient addition).Spans base final where
  balance := by
    have hbalance := h.balance
    have hfinal := final.balance.isLt
    simp only [applyValue, saturatingAdd_toNat] at hbalance
    cases hpos : u.positiveAddition with
    | true =>
      simp only [toInt, hpos, if_true] at hbalance
      simp only [LazyUpdates.addRecipient, toInt, hpos, if_true, saturatingAdd_toNat]
      omega
    | false =>
      simp only [toInt, hpos, Bool.false_eq_true, if_false] at hbalance
      simp only [LazyUpdates.addRecipient, toInt, hpos, Bool.false_eq_true, if_false,
        absDiff_toNat, decide_eq_true_eq, BitVec.le_def]
      split_ifs <;> omega
  nonce := by
    have hadd : (u.addRecipient addition).nonceAddition = u.nonceAddition := by
      unfold LazyUpdates.addRecipient
      split <;> rfl
    rw [hadd]
    exact h.nonce

/-- A sender's entry walked down: the account below had more, and a lower nonce. -/
lemma Spans.addSender {subtraction : U256}
    (h : u.Spans (applyValue base (.lazySender subtraction)) final)
    (hrange : subtraction.toNat ≤ base.balance.toNat) :
    (u.addSender subtraction).Spans base final where
  balance := by
    have hbalance := h.balance
    have hbase := base.balance.isLt
    simp only [applyValue, saturatingSub_toNat] at hbalance
    cases hpos : u.positiveAddition with
    | true =>
      simp only [toInt, hpos, if_true] at hbalance
      simp only [LazyUpdates.addSender, toInt, hpos, if_true, absDiff_toNat, decide_eq_true_eq,
        BitVec.le_def]
      split_ifs <;> omega
    | false =>
      simp only [toInt, hpos, Bool.false_eq_true, if_false] at hbalance
      simp only [LazyUpdates.addSender, toInt, hpos, Bool.false_eq_true, if_false,
        saturatingAdd_toNat]
      omega
  nonce := by
    have hadd : (u.addSender subtraction).nonceAddition = u.nonceAddition + 1 := by
      unfold LazyUpdates.addSender
      split <;> rfl
    have hcomm : base.nonce + (u.nonceAddition + 1) = base.nonce + 1 + u.nonceAddition := by ring
    rw [hadd, hcomm]
    exact h.nonce

/-- The account that a read makes of the updates. -/
lemma Spans.apply_eq (h : u.Spans base final) :
    (⟨if u.positiveAddition then saturatingAdd base.balance u.balanceAddition
      else saturatingSub base.balance u.balanceAddition, base.nonce + u.nonceAddition⟩ :
        AccountBasic) = final := by
  obtain ⟨balance, nonce⟩ := final
  have hbalance := h.balance
  have hlt := balance.isLt
  have hnonce : base.nonce + u.nonceAddition = nonce := h.nonce
  have heq : (if u.positiveAddition then saturatingAdd base.balance u.balanceAddition
      else saturatingSub base.balance u.balanceAddition) = balance := by
    apply BitVec.eq_of_toNat_eq
    dsimp only at hbalance
    cases hpos : u.positiveAddition with
    | true =>
      simp only [toInt, hpos, if_true] at hbalance
      rw [if_pos rfl, saturatingAdd_toNat]
      omega
    | false =>
      simp only [toInt, hpos, Bool.false_eq_true, if_false] at hbalance
      rw [if_neg (by simp), saturatingSub_toNat]
      omega
  rw [heq, hnonce]

/-- Updates on top of nothing leave a balance unless they cancel out. -/
lemma Spans.balanceAddition_pos (h : u.Spans .default final) :
    0 < u.balanceAddition ↔ final.balance ≠ 0 := by
  have hbalance : (0 : ℤ) + u.toInt = final.balance.toNat := h.balance
  have hzero : final.balance = 0 ↔ final.balance.toNat = 0 := BitVec.toNat_inj.symm
  have hpos : 0 < u.balanceAddition ↔ 0 < u.balanceAddition.toNat := BitVec.lt_def
  rw [hpos, ne_eq, hzero]
  unfold toInt at hbalance
  split_ifs at hbalance <;> omega

end LazyUpdates

section Walk
variable {start : AccountBasic} {m : ℕ → Option (MemoryEntry MemoryValue)} {bound : ℕ}

/-- The origins of an account read below a bound, down to the first absolute value or the storage.
-/
def originsBelow (m : ℕ → Option (MemoryEntry MemoryValue)) : ℕ → List ReadOrigin
  | 0 => [.storage]
  | idx + 1 =>
    match m idx with
    | some (.data txIncarnation (.basic _)) => [.mvMemory ⟨idx, txIncarnation⟩]
    | some (.data txIncarnation _) => .mvMemory ⟨idx, txIncarnation⟩ :: originsBelow m idx
    | _ => originsBelow m idx

def IsBasic : MemoryEntry MemoryValue → Prop
  | .data _ (.basic _) => True
  | _ => False

/-- What the walk down from `final` comes to: an absolute value on the way, or the account at the
bottom. -/
inductive Walked (m : ℕ → Option (MemoryEntry MemoryValue)) (start final : AccountBasic)
    (bound : ℕ) (origins : List ReadOrigin) :
    Option AccountBasic × LazyUpdates × List ReadOrigin → Prop
  | basic {base : AccountBasic} {u : LazyUpdates} : u.Spans base final →
      (∃ k < bound, ∃ e, m k = some e ∧ IsBasic e) →
      Walked m start final bound origins (some base, u, origins)
  | bottom {u : LazyUpdates} {newOrigins : List ReadOrigin} : u.Spans start final →
      (∀ k < bound, ∀ e, m k = some e → ¬ IsBasic e) → newOrigins ++ [.storage] = origins →
      Walked m start final bound origins (none, u, newOrigins)

lemma Walked.skip {final : AccountBasic} {idx : ℕ} {origins : List ReadOrigin}
    {r : Option AccountBasic × LazyUpdates × List ReadOrigin}
    (h : Walked m start final idx origins r) (hidx : ∀ e, m idx = some e → ¬ IsBasic e) :
    Walked m start final (idx + 1) origins r := by
  cases h with
  | basic hspans hex =>
    obtain ⟨k, hk, hbasic⟩ := hex
    exact .basic hspans ⟨k, by omega, hbasic⟩
  | bottom hspans hno horigins =>
    refine .bottom hspans (fun k hk => ?_) horigins
    by_cases hki : k = idx
    · subst hki
      exact hidx
    · exact hno k (by omega)

/-- The walk goes through when the origins met before, if any, are those it meets. -/
theorem walkDown_spec {final : AccountBasic}
    (haccount : ∀ k < bound, ∀ e, m k = some e → OnAccount e)
    (hrange : ∀ k ≤ bound, 0 ≤ exactBalance start m k ∧ exactBalance start m k < 2 ^ 256)
    {readOrigins newOrigins : List ReadOrigin} {u : LazyUpdates}
    (horigins : readOrigins = [] ∨ readOrigins = newOrigins ++ originsBelow m bound)
    (hspans : u.Spans (accountAt start m bound) final) :
    ∃ r, VmDb.walkDown readOrigins m bound newOrigins u = .ok r ∧
      Walked m start final bound (newOrigins ++ originsBelow m bound) r := by
  induction bound generalizing newOrigins u with
  | zero => exact ⟨_, rfl, .bottom hspans (fun k hk => absurd hk (by omega)) rfl⟩
  | succ idx ih =>
    have haccount' : ∀ k < idx, ∀ e, m k = some e → OnAccount e :=
      fun k hk => haccount k (by omega)
    have hrange' : ∀ k ≤ idx, 0 ≤ exactBalance start m k ∧ exactBalance start m k < 2 ^ 256 :=
      fun k hk => hrange k (by omega)
    have hbalance := accountAt_balance hrange' (le_refl idx)
    have hnext := hrange (idx + 1) (le_refl _)
    rw [exactBalance] at hnext
    rw [accountAt] at hspans
    rw [VmDb.walkDown]
    rw [originsBelow] at horigins ⊢
    cases hm : m idx with
    | none =>
      rw [hm] at hspans horigins
      obtain ⟨r, hr, hwalked⟩ := ih haccount' hrange' horigins hspans
      exact ⟨r, hr, hwalked.skip (by simp [hm])⟩
    | some e =>
      have honAccount := haccount idx (by omega) e hm
      cases e with
      | estimate => exact absurd honAccount (by simp [OnAccount])
      | data inc value =>
        rw [hm] at hspans horigins hnext
        have hfits : ∀ tail : List ReadOrigin,
            readOrigins = [] ∨ readOrigins = newOrigins ++ .mvMemory ⟨idx, inc⟩ :: tail →
            ¬ (readOrigins ≠ [] ∧ readOrigins.length = newOrigins.length) ∧
            ¬ (readOrigins ≠ [] ∧
              readOrigins[newOrigins.length]? ≠ some (.mvMemory ⟨idx, inc⟩)) := by
          intro tail htail
          rcases htail with rfl | rfl <;> simp
        cases value with
        | basic info =>
          obtain ⟨hlength, horigin⟩ := hfits [] horigins
          simp only [hlength, horigin, if_false]
          exact ⟨_, rfl, .basic hspans ⟨idx, by omega, _, hm, trivial⟩⟩
        | lazyRecipient addition =>
          obtain ⟨hlength, horigin⟩ := hfits _ horigins
          simp only [hlength, horigin, if_false]
          have hbase : (accountAt start m idx).balance.toNat + addition.toNat < 2 ^ 256 := by
            dsimp only at hnext
            omega
          have hprefix : readOrigins = [] ∨ readOrigins =
              (newOrigins ++ [.mvMemory ⟨idx, inc⟩]) ++ originsBelow m idx := by
            simpa using horigins
          obtain ⟨r, hr, hwalked⟩ := ih haccount' hrange' hprefix (hspans.addRecipient hbase)
          refine ⟨r, hr, ?_⟩
          simpa using hwalked.skip (by simp [hm, IsBasic])
        | lazySender subtraction =>
          obtain ⟨hlength, horigin⟩ := hfits _ horigins
          simp only [hlength, horigin, if_false]
          have hbase : subtraction.toNat ≤ (accountAt start m idx).balance.toNat := by
            dsimp only at hnext
            omega
          have hprefix : readOrigins = [] ∨ readOrigins =
              (newOrigins ++ [.mvMemory ⟨idx, inc⟩]) ++ originsBelow m idx := by
            simpa using horigins
          obtain ⟨r, hr, hwalked⟩ := ih haccount' hrange' hprefix (hspans.addSender hbase)
          refine ⟨r, hr, ?_⟩
          simpa using hwalked.skip (by simp [hm, IsBasic])
        | codeHash hash => exact absurd honAccount (by simp [OnAccount])
        | storage value => exact absurd honAccount (by simp [OnAccount])
        | selfDestructed => exact absurd honAccount (by simp [OnAccount])

end Walk

section Totals
variable {start : AccountBasic} {m : ℕ → Option (MemoryEntry MemoryValue)} {bound : ℕ}

/-- What an entry adds to the balance, if it is an addition. -/
def credit : Option (MemoryEntry MemoryValue) → ℕ
  | some (.data _ (.lazyRecipient addition)) => addition.toNat
  | _ => 0

/-- What an entry takes from the balance, if it is a subtraction. -/
def debit : Option (MemoryEntry MemoryValue) → ℕ
  | some (.data _ (.lazySender subtraction)) => subtraction.toNat
  | _ => 0

/-- The entry is a lazy subtraction, which raises the nonce. -/
def IsLazySender (e : Option (MemoryEntry MemoryValue)) : Prop :=
  ∃ inc subtraction, e = some (.data inc (.lazySender subtraction))

/-- By how much an entry raises the nonce without setting it. -/
def senderCount : Option (MemoryEntry MemoryValue) → ℕ
  | some (.data _ (.lazySender _)) => 1
  | _ => 0

lemma senderCount_pos {e : Option (MemoryEntry MemoryValue)} :
    0 < senderCount e ↔ IsLazySender e := by
  unfold senderCount IsLazySender
  split <;> simp_all

/-- Without an absolute value the balance is the start with all credits and debits. -/
lemma exactBalance_eq (start : AccountBasic)
    (hno : ∀ k < bound, ∀ e, m k = some e → ¬ IsBasic e) :
    exactBalance start m bound = start.balance.toNat + ∑ k ∈ Finset.range bound, credit (m k) -
      ∑ k ∈ Finset.range bound, debit (m k) := by
  induction bound with
  | zero => simp [exactBalance]
  | succ idx ih =>
    have hbelow := ih fun k hk => hno k (by omega)
    have hidx := hno idx (by omega)
    rw [exactBalance, Finset.sum_range_succ, Finset.sum_range_succ]
    generalize ∑ k ∈ Finset.range idx, credit (m k) = credits at *
    generalize ∑ k ∈ Finset.range idx, debit (m k) = debits at *
    cases hm : m idx with
    | none =>
      simp only [credit, debit]
      omega
    | some e =>
      have hbasic := hidx e hm
      cases e with
      | estimate =>
        simp only [credit, debit]
        omega
      | data inc value =>
        cases value with
        | basic info => exact absurd trivial hbasic
        | lazyRecipient | lazySender | codeHash | storage | selfDestructed =>
          simp only [credit, debit]
          omega

/-- And the nonce is the start's with one step for each lazy sender. -/
lemma accountAt_nonce (start : AccountBasic)
    (hno : ∀ k < bound, ∀ e, m k = some e → ¬ IsBasic e) :
    (accountAt start m bound).nonce =
      start.nonce + BitVec.ofNat 64 (∑ k ∈ Finset.range bound, senderCount (m k)) := by
  induction bound with
  | zero => simp [accountAt]
  | succ idx ih =>
    have hbelow := ih fun k hk => hno k (by omega)
    have hidx := hno idx (by omega)
    rw [accountAt, Finset.sum_range_succ]
    cases hm : m idx with
    | none => simpa [senderCount] using hbelow
    | some e =>
      have hbasic := hidx e hm
      cases e with
      | estimate => simpa [senderCount, applyEntry] using hbelow
      | data inc value =>
        cases value with
        | basic info => exact absurd trivial hbasic
        | lazySender subtraction =>
          simp only [applyEntry, applyValue, senderCount, hbelow, BitVec.ofNat_add]
          rw [BitVec.add_assoc]
          rfl
        | lazyRecipient | codeHash | storage | selfDestructed =>
          simpa [senderCount, applyEntry, applyValue] using hbelow

lemma senderCount_sum_le (m : ℕ → Option (MemoryEntry MemoryValue)) (bound : ℕ) :
    ∑ k ∈ Finset.range bound, senderCount (m k) ≤ bound := by
  induction bound with
  | zero => simp
  | succ idx ih =>
    rw [Finset.sum_range_succ]
    have hone : senderCount (m idx) ≤ 1 := by
      unfold senderCount
      split <;> omega
    omega

lemma senderCount_sum_pos :
    0 < ∑ k ∈ Finset.range bound, senderCount (m k) ↔ ∃ k < bound, IsLazySender (m k) := by
  rw [Finset.sum_pos_iff]
  simp [senderCount_pos]

lemma initialAccount_history (hno : ∀ k < bound, ∀ e, m k = some e → ¬ IsBasic e)
    (answer : Option AccountBasic) :
    initialAccount answer (history m bound) = answer.getD .default := by
  cases hentries : history m bound with
  | nil => rfl
  | cons e entries =>
    obtain ⟨hlt, hm⟩ := mem_history.mp (hentries ▸ List.mem_cons_self : e ∈ history m bound)
    have hbasic := hno e.1 hlt e.2 hm
    obtain ⟨idx, e⟩ := e
    cases e with
    | estimate => rfl
    | data inc value =>
      cases value with
      | basic info => exact absurd trivial hbasic
      | lazyRecipient | lazySender | codeHash | storage | selfDestructed => rfl

end Totals

namespace VmDb
variable {κ Code Bytecode : Type}

section Setting
variable [DecidableEq κ]

/-- The entries of an account, by transaction. -/
def entries (db : VmDb κ) (env : VmEnv κ Code Bytecode) (address : Address) :
    ℕ → Option (MemoryEntry MemoryValue) :=
  env.mvMemory.entry (db.hashBasic env address)

/-- What the end-of-block evaluation computes from the entries below the reader. -/
def evaluated (db : VmDb κ) (env : VmEnv κ Code Bytecode) (address : Address)
    (answer : Option AccountBasic) : AccountBasic :=
  replay answer (history (db.entries env address) db.txIdx)

/-- A read of an account on the path that is not lazy, with no nonce to check, of a history
whose balance stays in the range. An earlier read of the account has met the same entries, and
the account's code can be read. -/
structure ReadsHistory (db : VmDb κ) (env : VmEnv κ Code Bytecode) (address : Address)
    (answer : Option AccountBasic) : Prop where
  notLazy : db.isLazy = false
  noNonceCheck : db.hashBasic env address ≠ db.fromHash ∨ db.tx.nonce = none
  positive : 0 < db.txIdx
  isUsize : db.txIdx < 2 ^ 64
  answered : env.storage.basic address = .ok answer
  onAccount : ∀ k < db.txIdx, ∀ e, db.entries env address k = some e → OnAccount e
  inRange : ∀ k ≤ db.txIdx,
    0 ≤ exactBalance (initialAccount answer (history (db.entries env address) db.txIdx))
      (db.entries env address) k ∧
    exactBalance (initialAccount answer (history (db.entries env address) db.txIdx))
      (db.entries env address) k < 2 ^ 256
  origins : db.readOrigins (db.hashBasic env address) = [] ∨
    db.readOrigins (db.hashBasic env address) = originsBelow (db.entries env address) db.txIdx
  codeRead : ∃ code, (db.register (db.hashBasic env address)
    (originsBelow (db.entries env address) db.txIdx)).readCode env address
      (db.hashBasic env address) = .ok code

/-- The read gives what the end-of-block evaluation computes, unless that is the account that
does not exist. -/
def ReadAgrees (db : VmDb κ) (env : VmEnv κ Code Bytecode) (address : Address)
    (answer : Option AccountBasic) : Prop :=
  (db.evaluated env address answer).balance ≠ 0 ∨ (db.evaluated env address answer).nonce ≠ 0 →
    ∃ info db', db.basic env address = .ok (some info, db') ∧
      info.balance = (db.evaluated env address answer).balance ∧
      info.nonce = (db.evaluated env address answer).nonce

/-- An account that the storage does not know has spent all that it received in this block. -/
def SpentAll (db : VmDb κ) (env : VmEnv κ Code Bytecode) (address : Address)
    (answer : Option AccountBasic) : Prop :=
  answer = none ∧ (∀ k < db.txIdx, ∀ e, db.entries env address k = some e → ¬ IsBasic e) ∧
    (∃ k < db.txIdx, IsLazySender (db.entries env address k)) ∧
    ∑ k ∈ Finset.range db.txIdx, credit (db.entries env address k) =
      ∑ k ∈ Finset.range db.txIdx, debit (db.entries env address k)

end Setting

section Walks
variable {env : VmEnv κ Code Bytecode} {address : Address} {answer : Option AccountBasic}

/-- A read that reaches the storage. -/
lemma fallBack_eq {readOrigins newOrigins origins : List ReadOrigin} {u : LazyUpdates}
    (hanswer : env.storage.basic address = .ok answer)
    (horigins : readOrigins = [] ∨ readOrigins = origins)
    (hnew : newOrigins ++ [.storage] = origins) :
    ∃ origins', (readOrigins = [] → origins' = origins) ∧
      fallBack env address readOrigins u newOrigins =
        .ok (answer.or (if 0 < u.balanceAddition then some .default else none), origins') := by
  subst hnew
  rcases horigins with rfl | rfl
  · refine ⟨newOrigins ++ [.storage], fun _ => rfl, ?_⟩
    cases answer <;> simp [fallBack, hanswer]
  · refine ⟨newOrigins, by simp, ?_⟩
    cases answer <;> simp [fallBack, hanswer]

end Walks

variable [DecidableEq κ]

section Reads
variable {db : VmDb κ} {env : VmEnv κ Code Bytecode} {address : Address}
  {answer : Option AccountBasic}

/-- Neither the storage nor an entry knows the account, and its updates leave no balance. -/
def Missing (db : VmDb κ) (env : VmEnv κ Code Bytecode) (address : Address)
    (answer : Option AccountBasic) : Prop :=
  answer = none ∧ (∀ k < db.txIdx, ∀ e, db.entries env address k = some e → ¬ IsBasic e) ∧
    (db.evaluated env address answer).balance = 0

/-- What a read finds, unless the account is missing. -/
lemma findAccount_spec (h : db.ReadsHistory env address answer) :
    ∃ account u origins,
      db.findAccount env address (db.hashBasic env address) = .ok (account, u, origins) ∧
      (db.readOrigins (db.hashBasic env address) = [] →
        origins = originsBelow (db.entries env address) db.txIdx) ∧
      (db.Missing env address answer → account = none) ∧
      (¬ db.Missing env address answer →
        ∃ base, account = some base ∧ u.Spans base (db.evaluated env address answer)) := by
  have hfinal : db.evaluated env address answer =
      accountAt (initialAccount answer (history (db.entries env address) db.txIdx))
        (db.entries env address) db.txIdx := foldl_history _ _ db.txIdx
  have horigins := h.origins
  have hprefix : db.readOrigins (db.hashBasic env address) = [] ∨
      db.readOrigins (db.hashBasic env address) =
        [] ++ originsBelow (db.entries env address) db.txIdx := h.origins
  obtain ⟨r, hr, hwalked⟩ :=
    walkDown_spec h.onAccount h.inRange hprefix (LazyUpdates.Spans.refl _)
  have hentries : db.readEntries env (db.hashBasic env address) = .ok r := by
    rw [readEntries_eq]
    exact hr
  rw [← hfinal] at hwalked
  unfold findAccount
  rw [hentries, Fallible.ok_bind]
  cases hwalked with
  | @basic base u hspans hex =>
    refine ⟨some base, u, _, rfl, fun _ => rfl, fun hmissing => ?_,
      fun _ => ⟨base, rfl, hspans⟩⟩
    obtain ⟨k, hk, e, he, hbasic⟩ := hex
    exact absurd hbasic (hmissing.2.1 k hk e he)
  | @bottom u newOrigins hspans hno hnew =>
    obtain ⟨origins, horigins', hfall⟩ := fallBack_eq (u := u) h.answered horigins hnew
    rw [initialAccount_history hno] at hspans
    simp only [hfall, Fallible.ok_bind]
    refine ⟨_, u, origins, rfl, horigins', ?_⟩
    cases answer with
    | some base =>
      exact ⟨fun hmissing => absurd hmissing.1 (by simp), fun _ => ⟨base, rfl, hspans⟩⟩
    | none =>
      have hpos := hspans.balanceAddition_pos
      constructor
      · intro hmissing
        rw [if_neg fun hlt => hpos.mp hlt hmissing.2.2]
        rfl
      · intro hknown
        have hne : (db.evaluated env address none).balance ≠ 0 :=
          fun hzero => hknown ⟨rfl, hno, hzero⟩
        rw [if_pos (hpos.mpr hne)]
        exact ⟨.default, rfl, hspans⟩

lemma basic_of_notLazy (h : db.isLazy = false) : db.basic env address = (do
    let (finalAccount, updates, newOrigins) ←
      db.findAccount env address (db.hashBasic env address)
    let db' := db.register (db.hashBasic env address) newOrigins
    match finalAccount with
    | none => return (none, db')
    | some account =>
      db'.evaluateAccount env address (db.hashBasic env address) account updates) := by
  unfold basic
  exact (if_neg (by simp [h])).trans (if_neg (by simp [h]))

/-- A missing account is read as such. -/
lemma basic_of_missing (h : db.ReadsHistory env address answer)
    (hmissing : db.Missing env address answer) :
    ∃ db', db.basic env address = .ok (none, db') := by
  obtain ⟨account, u, origins, hfind, -, hnone, -⟩ := findAccount_spec h
  rw [basic_of_notLazy h.notLazy, hfind, hnone hmissing]
  exact ⟨_, rfl⟩

/-- Any other account is read with the evaluated balance and nonce. -/
lemma basic_of_known (h : db.ReadsHistory env address answer)
    (hknown : ¬ db.Missing env address answer) :
    ∃ info db', db.basic env address = .ok (some info, db') ∧
      info.balance = (db.evaluated env address answer).balance ∧
      info.nonce = (db.evaluated env address answer).nonce := by
  obtain ⟨account, u, origins, hfind, horigins, -, hsome⟩ := findAccount_spec h
  obtain ⟨base, rfl, hspans⟩ := hsome hknown
  obtain ⟨⟨codeHash, code, db'⟩, hcode⟩ := h.codeRead
  have hregister : db.register (db.hashBasic env address) origins =
      db.register (db.hashBasic env address) (originsBelow (db.entries env address) db.txIdx) :=
    register_congr horigins
  have hmatch : ∀ a, ¬ (db.register (db.hashBasic env address)
      (originsBelow (db.entries env address) db.txIdx)).NonceMismatch
        (db.hashBasic env address) a := by
    rintro a ⟨hfrom, nonce, hnonce, -⟩
    rw [register_fromHash] at hfrom
    rw [register_tx] at hnonce
    rcases h.noNonceCheck with hne | hnone
    · exact hne hfrom
    · rw [hnone] at hnonce
      cases hnonce
  have happly := hspans.apply_eq
  have hbalance := congrArg AccountBasic.balance happly
  have hnonce := congrArg AccountBasic.nonce happly
  dsimp only at hbalance hnonce
  rw [basic_of_notLazy h.notLazy, hfind]
  simp only [Fallible.ok_bind, hregister]
  unfold evaluateAccount
  rw [if_neg (hmatch _)]
  simp only [hcode, Fallible.ok_bind]
  exact ⟨_, _, rfl, hbalance, hnonce⟩

/-- A missing account has spent something exactly if its evaluated nonce is not zero. -/
lemma spentAll_iff (h : db.ReadsHistory env address answer) :
    db.SpentAll env address answer ↔
      db.Missing env address answer ∧ (db.evaluated env address answer).nonce ≠ 0 := by
  have hfinal : db.evaluated env address answer =
      accountAt (initialAccount answer (history (db.entries env address) db.txIdx))
        (db.entries env address) db.txIdx := foldl_history _ _ db.txIdx
  have hbalance := accountAt_balance h.inRange (le_refl db.txIdx)
  have husize := h.isUsize
  unfold SpentAll Missing
  by_cases hunknown : answer = none ∧
      ∀ k < db.txIdx, ∀ e, db.entries env address k = some e → ¬ IsBasic e
  · obtain ⟨rfl, hno⟩ := hunknown
    have hexact := exactBalance_eq .default hno
    have hnonce := accountAt_nonce .default hno
    have hle := senderCount_sum_le (db.entries env address) db.txIdx
    rw [initialAccount_history hno, Option.getD_none] at hfinal hbalance
    rw [hfinal, ← senderCount_sum_pos]
    generalize ∑ k ∈ Finset.range db.txIdx, senderCount (db.entries env address k) = senders at *
    generalize ∑ k ∈ Finset.range db.txIdx, credit (db.entries env address k) = credits at *
    generalize ∑ k ∈ Finset.range db.txIdx, debit (db.entries env address k) = debits at *
    generalize accountAt .default (db.entries env address) db.txIdx = account at *
    have hempty : account.balance = 0 ↔ credits = debits := by
      have hzero : account.balance = 0 ↔ account.balance.toNat = 0 := BitVec.toNat_inj.symm
      have hnothing : AccountBasic.default.balance.toNat = 0 := rfl
      rw [hzero]
      omega
    have hstepped : account.nonce ≠ 0 ↔ 0 < senders := by
      have hzero : account.nonce = 0 ↔ account.nonce.toNat = 0 := BitVec.toNat_inj.symm
      have htoNat : account.nonce.toNat = senders := by
        rw [hnonce]
        show (0 + BitVec.ofNat 64 senders : U64).toNat = senders
        rw [zero_add, BitVec.toNat_ofNat]
        omega
      rw [ne_eq, hzero]
      omega
    rw [hempty, hstepped]
    tauto
  · tauto

/-- A read equals the end-of-block evaluation unless an account that the storage does not know has
spent all that it received in the block. The read is of an account on the path that is not lazy,
after any history of lower transactions whose balances stay in the range. -/
theorem readAgrees_iff (h : db.ReadsHistory env address answer) :
    db.ReadAgrees env address answer ↔ ¬ db.SpentAll env address answer := by
  rw [spentAll_iff h]
  constructor
  · rintro hagrees ⟨hmissing, hnonce⟩
    obtain ⟨info, db', hread, -⟩ := hagrees (.inr hnonce)
    obtain ⟨db'', hnone⟩ := basic_of_missing h hmissing
    rw [hnone] at hread
    cases hread
  · intro hspent hevaluated
    apply basic_of_known h
    intro hmissing
    rcases hevaluated with hbalance | hnonce
    · exact hbalance hmissing.2.2
    · exact hspent ⟨hmissing, hnonce⟩

end Reads

section Sample

/-- Account 7 is not in the storage. Transaction 0 sends it 100, transaction 1 spends this. -/
def spendingEnv : VmEnv MemoryLocation Unit Unit where
  hash := id
  storage :=
    { basic := fun _ => .ok none
      codeHash := fun _ => .ok none
      codeByHash := fun _ => .ok none
      storage := fun _ _ => .ok 0 }
  mvMemory :=
    { data := fun l => if l = .basic 7 then
          some fun idx => if idx = 0 then some (.data 0 (.lazyRecipient 100))
            else if idx = 1 then some (.data 0 (.lazySender 100)) else none
        else none
      lastLocations := fun _ => ⟨∅, []⟩ }
  newBytecodes _ := none
  toBytecode _ := none

/-- A transaction of account 1 that creates a contract and reads account 7. -/
def reader (txIdx : ℕ) : VmDb MemoryLocation where
  txIdx
  tx :=
    { caller := 1, gasLimit := 100000, gasPrice := 0, transactTo := .create, value := 0,
      nonce := none, gasPriorityFee := none, blobHashes := [], maxFeePerBlobGas := none }
  fromHash := .basic 1
  toHash := none
  toCodeHash := none
  isLazy := false
  readSet := ∅
  readAccounts := ∅

lemma reader_readsHistory {txIdx : ℕ} (hpos : 0 < txIdx) (hle : txIdx ≤ 2) :
    (reader txIdx).ReadsHistory spendingEnv 7 none := by
  have hcases : txIdx = 1 ∨ txIdx = 2 := by omega
  rcases hcases with rfl | rfl
  · exact
      { notLazy := rfl, noNonceCheck := .inr rfl, positive := by decide, isUsize := by decide
        answered := rfl
        onAccount := by
          intro k (hk : k < 1) e he
          interval_cases k
          cases he
          trivial
        inRange := by decide
        origins := .inl rfl
        codeRead := ⟨_, rfl⟩ }
  · exact
      { notLazy := rfl, noNonceCheck := .inr rfl, positive := by decide, isUsize := by decide
        answered := rfl
        onAccount := by
          intro k (hk : k < 2) e he
          interval_cases k <;> cases he <;> trivial
        inRange := by decide
        origins := .inl rfl
        codeRead := ⟨_, rfl⟩ }

/-- Before it spends, the account is read with its balance. -/
theorem readAgrees_received : (reader 1).ReadAgrees spendingEnv 7 none :=
  (readAgrees_iff (reader_readsHistory (by decide) (by decide))).mpr (by
    rintro ⟨-, -, ⟨k, hk, hsender⟩, -⟩
    have hzero : k = 0 := by
      have hlt : k < 1 := hk
      omega
    subst hzero
    obtain ⟨inc, subtraction, h⟩ := hsender
    cases h)

/-- Afterwards its nonce is 1, but it is read as missing. -/
theorem not_readAgrees_spent :
    (reader 2).ReadsHistory spendingEnv 7 none ∧ ¬ (reader 2).ReadAgrees spendingEnv 7 none := by
  refine ⟨reader_readsHistory (by decide) (by decide), fun hagrees => ?_⟩
  obtain ⟨info, db', hread, -⟩ := hagrees (.inr (by decide))
  have hmissing : (reader 2).basic spendingEnv 7 =
      .ok (none, (reader 2).withOrigins (.basic 7)
        [.mvMemory ⟨1, 0⟩, .mvMemory ⟨0, 0⟩, .storage]) := rfl
  rw [hmissing] at hread
  cases hread

end Sample

end VmDb

end Pevm
