import Mathlib.Algebra.BigOperators.Group.Finset.Piecewise
import Pevm.Account

/-!
# The ledger

What a block of transfers is for: balances are numbers, and the transfers are run one by one in
the order of the block.
-/
namespace Pevm

/-- A transfer with what it costs its sender and what it brings the beneficiary. -/
structure Transfer where
  caller : Address
  recipient : Address
  value : ℕ
  charge : ℕ
  reward : ℕ
  maxFee : ℕ
  nonce : Option U64

/-- The sender pays all that the transfer moves, and its maximum fee covers that. -/
structure Transfer.Sound (t : Transfer) : Prop where
  covered : t.value + t.charge ≤ t.maxFee
  earned : t.reward ≤ t.charge

namespace Ledger

/-- What a ledger keeps of an account. A balance is a natural number and never wraps. -/
structure Account where
  balance : ℕ
  nonce : U64
  deriving DecidableEq, Repr

abbrev State := Address → Account

/-- The transfer carries a nonce that is not the sender's, or the sender's nonce cannot go up. -/
def NonceRefused (t : Transfer) (sender : Account) : Prop :=
  ∃ nonce, t.nonce = some nonce ∧ (sender.nonce + 1 = 0 ∨ nonce ≠ sender.nonce)

instance (t : Transfer) (sender : Account) : Decidable (NonceRefused t sender) :=
  decidable_of_iff
    ((t.nonce.any fun nonce => decide (sender.nonce + 1 = 0 ∨ nonce ≠ sender.nonce)) = true)
    (by simp [NonceRefused, Option.any_eq_true])

/-- The sender pays value and charge, and its nonce goes up. -/
def debit (t : Transfer) (s : State) : State :=
  Function.update s t.caller
    ⟨(s t.caller).balance - (t.value + t.charge), (s t.caller).nonce + 1⟩

/-- An amount is added to one balance; nonces stay. -/
def credit (address : Address) (amount : ℕ) (s : State) : State :=
  Function.update s address ⟨(s address).balance + amount, (s address).nonce⟩

/-- One transfer: sender, recipient and beneficiary are updated, unless the nonce or the funds are
refused. -/
def step (beneficiary : Address) (t : Transfer) (s : State) : Option State :=
  if NonceRefused t (s t.caller) then none
  else if (s t.caller).balance < t.maxFee then none
  else some (credit beneficiary t.reward (credit t.recipient t.value (debit t s)))

/-- The ledger after the first transfers of a block, none once one of them is refused. -/
def after (beneficiary : Address) (transfers : ℕ → Transfer) (s : State) : ℕ → Option State
  | 0 => some s
  | j + 1 => (after beneficiary transfers s j).bind (step beneficiary (transfers j))

/-- The supply stays below 2^256. -/
def Funded (s : State) : Prop := ∀ T : Finset Address, ∑ a ∈ T, (s a).balance < 2 ^ 256

variable {beneficiary address : Address} {t : Transfer} {s s' : State} {T : Finset Address}

lemma step_eq_some : step beneficiary t s = some s' ↔
    ¬ NonceRefused t (s t.caller) ∧ t.maxFee ≤ (s t.caller).balance ∧
      s' = credit beneficiary t.reward (credit t.recipient t.value (debit t s)) := by
  unfold step
  split_ifs with hnonce hfee
  · simp [hnonce]
  · simp [hfee]
  · rw [Option.some.injEq]
    constructor
    · rintro rfl
      exact ⟨hnonce, by omega, rfl⟩
    · rintro ⟨-, -, rfl⟩
      rfl

lemma step_eq_none : step beneficiary t s = none ↔
    NonceRefused t (s t.caller) ∨ (s t.caller).balance < t.maxFee := by
  unfold step
  split_ifs with hnonce hfee
  · simp [hnonce]
  · simp [hfee]
  · simp [hnonce, hfee]

/-- Where the ledger comes it has been before. -/
lemma after_of_le {transfers : ℕ → Transfer} {j n : ℕ} (hj : j ≤ n)
    (h : after beneficiary transfers s n = some s') :
    ∃ s₁, after beneficiary transfers s j = some s₁ := by
  induction n generalizing s' with
  | zero =>
    obtain rfl : j = 0 := by omega
    exact ⟨s', h⟩
  | succ n ih =>
    by_cases heq : j = n + 1
    · exact ⟨s', heq ▸ h⟩
    · obtain ⟨s₁, hbefore, -⟩ := Option.bind_eq_some_iff.mp h
      exact ih (by omega) hbefore

section Apply

lemma credit_apply (amount : ℕ) (a : Address) : credit address amount s a =
    ⟨(s a).balance + if a = address then amount else 0, (s a).nonce⟩ := by
  unfold credit
  by_cases h : a = address
  · subst h
    simp
  · simp [h]

lemma debit_apply (a : Address) : debit t s a =
    ⟨(s a).balance - (if a = t.caller then t.value + t.charge else 0),
      (s a).nonce + if a = t.caller then 1 else 0⟩ := by
  unfold debit
  by_cases h : a = t.caller
  · subst h
    simp
  · simp [h]

/-- Every account changes on its own. -/
theorem step_apply (h : step beneficiary t s = some s') (a : Address) :
    s' a =
      ⟨(s a).balance - (if a = t.caller then t.value + t.charge else 0) +
          (if a = t.recipient then t.value else 0) + (if a = beneficiary then t.reward else 0),
        (s a).nonce + if a = t.caller then 1 else 0⟩ := by
  obtain ⟨-, -, rfl⟩ := step_eq_some.mp h
  rw [credit_apply, credit_apply, debit_apply]

end Apply

section Supply

/-- Only one summand of the supply changes. -/
lemma sum_update (h : address ∈ T) (account : Account) :
    ∑ a ∈ T, (Function.update s address account a).balance + (s address).balance =
      ∑ a ∈ T, (s a).balance + account.balance := by
  have hupdate : ∀ a, (Function.update s address account a).balance =
      Function.update (fun a => (s a).balance) address account.balance a := by
    intro a
    by_cases ha : a = address
    · subst ha
      simp
    · simp [ha]
  have hrest := Finset.sum_erase_add T (fun a => (s a).balance) h
  simp only [hupdate]
  rw [Finset.sum_update_of_mem h, Finset.sdiff_singleton_eq_erase]
  omega

lemma sum_credit (h : address ∈ T) (amount : ℕ) :
    ∑ a ∈ T, (credit address amount s a).balance = ∑ a ∈ T, (s a).balance + amount := by
  have hsum := sum_update (s := s) h ⟨(s address).balance + amount, (s address).nonce⟩
  dsimp only at hsum
  unfold credit
  omega

lemma sum_debit (h : t.caller ∈ T) (hcovered : t.value + t.charge ≤ (s t.caller).balance) :
    ∑ a ∈ T, (debit t s a).balance + (t.value + t.charge) = ∑ a ∈ T, (s a).balance := by
  have hsum := sum_update (s := s) h
    ⟨(s t.caller).balance - (t.value + t.charge), (s t.caller).nonce + 1⟩
  dsimp only at hsum
  unfold debit
  omega

/-- A transfer moves what there is. -/
theorem step_funded (hsound : t.Sound) (h : step beneficiary t s = some s') (hfunded : Funded s) :
    Funded s' := by
  obtain ⟨-, hfee, rfl⟩ := step_eq_some.mp h
  intro T
  let U := insert t.caller (insert t.recipient (insert beneficiary T))
  have hcovered := hsound.covered
  have hearned := hsound.earned
  have hdebit : ∑ a ∈ U, (debit t s a).balance + (t.value + t.charge) = ∑ a ∈ U, (s a).balance :=
    sum_debit (by simp [U]) (by omega)
  have hcredit := sum_credit (s := debit t s) (show t.recipient ∈ U by simp [U]) t.value
  have hreward := sum_credit (s := credit t.recipient t.value (debit t s))
    (show beneficiary ∈ U by simp [U]) t.reward
  have hsub : T ⊆ U := by
    intro a ha
    simp [U, ha]
  have hle := Finset.sum_le_sum_of_subset (f := fun a =>
    (credit beneficiary t.reward (credit t.recipient t.value (debit t s)) a).balance) hsub
  have hbefore := hfunded U
  omega

lemma Funded.balance_lt (h : Funded s) (a : Address) : (s a).balance < 2 ^ 256 := by
  simpa using h {a}

/-- The ledger stays below 2^256 as far as it goes. -/
theorem after_funded {transfers : ℕ → Transfer} {j : ℕ} (hsound : ∀ k < j, (transfers k).Sound)
    (hfunded : Funded s) (h : after beneficiary transfers s j = some s') : Funded s' := by
  induction j generalizing s' with
  | zero =>
    obtain rfl := Option.some.inj h
    exact hfunded
  | succ j ih =>
    obtain ⟨s₁, hbefore, hstep⟩ := Option.bind_eq_some_iff.mp h
    exact step_funded (hsound j (by omega)) hstep (ih (fun k hk => hsound k (by omega)) hbefore)

end Supply

end Ledger

end Pevm
