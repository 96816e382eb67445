import Pevm.PerpDex.Batch

/-!
# A transaction writes its user's state

Whatever its operations are, a transaction that succeeds writes locations of its own user. A
balance that it writes is not above the stored one, and its last write is the next nonce.
-/
namespace Pevm.PerpDex.PerpDexExecutor
open Fallible

variable {S : Type} [PerpDexStorage S] {ex ex' : PerpDexExecutor S} {tx : PerpDexTx}

/-- A balance in the write is at most the stored one, so nothing has wrapped below zero. -/
def KeepsBelowStored (ex : PerpDexExecutor S) (user : Address)
    (w : PerpDexLocation × PerpDexValue) : Prop :=
  ∀ b, w.2 = .balance b → ∃ stored, ex.balanceOf user usdcAssetId = .ok stored ∧ b ≤ stored

lemma sub_le_of_le {a b : U256} (h : b ≤ a) : a - b ≤ a := by
  rw [BitVec.le_def, BitVec.toNat_sub_of_le h]
  omega

/-- An operation takes from the balance what it has found there, or less. -/
theorem executeOperation_keepsBelowStored (op : Operation) :
    Post (ex.executeOperation tx op .new [])
      fun out => ∀ w ∈ out.writeSet, ex.KeepsBelowStored tx.user w := by
  intro out hout w hw b hb
  cases op with
  | placeOrder m t side price size leverage postOnly reduceOnly expiresAt =>
    obtain ⟨-, balance, position, market, fill, hbalance, -, -, hmargin, -, rfl⟩ :=
      (executePlaceOrder_ok_iff ..).mp hout
    rcases List.mem_append.mp hw with hw | hw
    · unfold restingWrites at hw
      split at hw
      · rw [List.nil_append, List.mem_singleton] at hw
        rw [hw] at hb
        cases hb
      · simp at hw
    · unfold fillWrites at hw
      split_ifs at hw
      · rw [List.mem_cons, List.mem_singleton] at hw
        rcases hw with rfl | rfl
        · cases hb
        · obtain rfl := PerpDexValue.balance.inj hb
          exact ⟨balance, hbalance, sub_le_of_le hmargin⟩
      · simp at hw
  | cancelOrder m ids =>
    obtain rfl := Except.ok.inj hout
    obtain ⟨id, -, rfl⟩ := List.mem_map.mp hw
    cases hb
  | cancelAll m =>
    unfold executeOperation executeCancelAll at hout
    dsimp only at hout
    split at hout
    · obtain rfl := Except.ok.inj hout
      obtain ⟨id, -, rfl⟩ := List.mem_map.mp hw
      cases hb
    · cases hout
  | setLeverage m leverage =>
    obtain ⟨_, -, hret⟩ := bind_eq_ok.mp hout
    obtain rfl := Except.ok.inj hret
    simp at hw
  | adjustMargin m amount =>
    obtain ⟨balance, pos, hbalance, -, hamount, hwrites⟩ := executeAdjustMargin_ok hout
    rw [hwrites, List.mem_cons, List.mem_singleton] at hw
    rcases hw with rfl | rfl
    · cases hb
    · obtain rfl := PerpDexValue.balance.inj hb
      exact ⟨balance, hbalance, sub_le_of_le hamount⟩

/-- The locations of a user that a transaction of the user may write: balance in USDC, positions,
orders and nonce. -/
def UserLocation (user : Address) (l : PerpDexLocation) : Prop :=
  l = .balance user 0 ∨ (∃ m, l = .position user m) ∨ (∃ m id, l = .order user m id) ∨
    l = .userNonce user

lemma OwnLocation.userLocation {user : Address} {l : PerpDexLocation} (h : OwnLocation user l) :
    UserLocation user l := by
  cases l with
  | balance u a =>
    obtain ⟨rfl, rfl⟩ := h
    exact .inl rfl
  | position u m =>
    obtain rfl : u = user := h
    exact .inr (.inl ⟨m, rfl⟩)
  | order u m id =>
    obtain rfl : u = user := h
    exact .inr (.inr (.inl ⟨m, id, rfl⟩))
  | marketState m => exact h.elim
  | userNonce u => exact h.elim

/-- The write set stays with the user: no balance is raised, so no subtraction has wrapped, and
the nonce is written once, at the end, and goes up by one unless it is the last. -/
structure WritesOwnState (ex : PerpDexExecutor S) (user : Address) (ws : WriteSet) : Prop where
  location : ∀ w ∈ ws, UserLocation user w.1
  balance : ∀ w ∈ ws, ex.KeepsBelowStored user w
  nonce : ∃ stored own, ex.nonceOf user = .ok stored ∧
    ws = own ++ [(.userNonce user, .nonce (stored + 1))] ∧ (∀ w ∈ own, w.1 ≠ .userNonce user) ∧
    (stored.toNat + 1 < 2 ^ 64 → (stored + 1).toNat = stored.toNat + 1)

/-- A transaction writes only its user's state: balances that do not wrap, positions, orders, and
the nonce once and last. Neither the storage nor the operations are restricted. -/
theorem execute_writesOwnState {rs : ReadSet} {ws : WriteSet} {result : PerpDexResult}
    {flags : FinishExecFlags} (h : ex.execute tx = (.success rs ws result flags, ex')) :
    WritesOwnState ex tx.user ws := by
  obtain ⟨hnonce, -, own, hruns, rfl⟩ := runs_of_execute h
  have hown := hruns.own
  have hbelow : ∀ w ∈ own, ex.KeepsBelowStored tx.user w :=
    hruns.forall_writes fun _ op => executeOperation_keepsBelowStored op
  constructor
  · intro w hw
    rcases List.mem_append.mp hw with hw | hw
    · exact (hown w hw).userLocation
    · rw [List.mem_singleton.mp hw]
      exact .inr (.inr (.inr rfl))
  · intro w hw
    rcases List.mem_append.mp hw with hw | hw
    · exact hbelow w hw
    · rw [List.mem_singleton.mp hw]
      intro b hb
      cases hb
  · refine ⟨tx.nonce, own, hnonce, rfl, ?_, ?_⟩
    · intro w hw heq
      have hlocation := hown w hw
      rw [heq] at hlocation
      exact hlocation
    · intro hfits
      rw [BitVec.toNat_add]
      exact Nat.mod_eq_of_lt hfits

/-- A short position is opened in one market, and margin is added to the position of another. -/
def openAndAdjust : PerpDexTx :=
  batchTx [.placeOrder 3 .market .short (10 ^ 19) 2 5 false false none, .adjustMargin 1 7]

theorem execute_writesOwnState_openAndAdjust :
    ∃ ws result flags ex', fundedExecutor.execute openAndAdjust =
        (.success .new ws result flags, ex') ∧ ws.length = 5 ∧
      WritesOwnState fundedExecutor openAndAdjust.user ws :=
  ⟨_, _, _, _, rfl, rfl, execute_writesOwnState rfl⟩

end Pevm.PerpDex.PerpDexExecutor
