import Pevm.PerpDex.Users

/-!
# Replay

A transaction that is accepted leaves the next nonce to be written. Until that happens its own
nonce is still the current one, and it can be accepted again. From then on it is refused.
-/
namespace Pevm.PerpDex
open PerpDexExecutor Fallible

/-- The event writes what is pending: the write sets of a block, or the end of the block. -/
def Event.writes : Event → Bool
  | .inBlock (.execute _) => false
  | _ => true

def ExecutionError.IsNonceMismatch : ExecutionError → Prop
  | .nonceMismatch _ _ => True
  | _ => False

/-- The transaction is refused because of its nonce, as a second sending of the same transaction
should be. -/
def VmExecutionResult.Replayed (r : VmExecutionResult) : Prop :=
  ∃ e, r.refusal = some e ∧ e.IsNonceMismatch

/-- If all writes to a location write the same, it does not matter how many there are. -/
lemma InMemoryStorage.writeAll_data_of_forall_eq {l : PerpDexLocation} {v : PerpDexValue}
    {ws : WriteSet} (h : ∀ w ∈ ws, w.1 = l → w.2 = v) (s : InMemoryStorage) :
    (s.writeAll ws).data l = if ∃ w ∈ ws, w.1 = l then some v else s.data l := by
  induction ws generalizing s with
  | nil => simp
  | cons w ws ih =>
    rw [writeAll_cons, ih fun w hw => h w (List.mem_cons_of_mem _ hw)]
    by_cases hws : ∃ w ∈ ws, w.1 = l
    · rw [if_pos hws, if_pos (hws.imp fun w hw => ⟨List.mem_cons_of_mem _ hw.1, hw.2⟩)]
    · rw [if_neg hws]
      by_cases hw : w.1 = l
      · rw [if_pos ⟨w, List.mem_cons_self, hw⟩, ← h w List.mem_cons_self hw, ← hw]
        simp
      · have hne : l ≠ w.1 := fun heq => hw heq.symm
        rw [if_neg]
        · simp [hne]
        · rintro ⟨w', hw', heq⟩
          rcases List.mem_cons.mp hw' with rfl | hw'
          · exact hw heq
          · exact hws ⟨w', hw', heq⟩

namespace PerpDexExecutor
variable {ex ex' : PerpDexExecutor InMemoryStorage} {tx : PerpDexTx} {user : Address} {n : U64}

lemma nonceOf_eq_of_data (h : ex.storage.data (.userNonce user) =
    ex'.storage.data (.userNonce user)) : ex.nonceOf user = ex'.nonceOf user := by
  have hget : PerpDexStorage.get ex.storage (.userNonce user) =
    PerpDexStorage.get ex'.storage (.userNonce user) := congrArg Except.ok h
  unfold nonceOf readNonce readLocation
  rw [hget]

lemma nonceOf_of_data (h : ex.storage.data (.userNonce user) = some (.nonce n)) :
    ex.nonceOf user = .ok n := by
  have hget : PerpDexStorage.get ex.storage (.userNonce user) = .ok (some (.nonce n)) :=
    congrArg Except.ok h
  unfold nonceOf readNonce readLocation
  rw [hget]
  rfl

section Refusals

/-- What is known of every reason to refuse an operation, the failures of its reads included. `P` is
what is to be shown of a refusal. -/
structure Refusals (ex : PerpDexExecutor InMemoryStorage) (user : Address)
    (P : ExecutionError → Prop) : Prop where
  leverage : ∀ n, P (.invalidLeverage n)
  margin : ∀ required available, P (.insufficientBalance required available)
  reduceOnly : P .reduceOnlyViolation
  noPosition : P (.invalidPosition "No position to adjust margin")
  balanceOf : Fails (ex.balanceOf user usdcAssetId) P
  positionOf : ∀ m, Fails (ex.positionOf user m) P
  marketOf : ∀ m, Fails (ex.marketOf m) P

variable {P : ExecutionError → Prop}

lemma Refusals.checkLeverage (h : Refusals ex user P) (leverage : U8) :
    Fails (checkLeverage leverage) P := by
  unfold PerpDexExecutor.checkLeverage
  split_ifs
  · exact .error (h.leverage leverage)
  · exact .ok ()

lemma Refusals.checkReduceOnly (h : Refusals ex user P) (side : Side) (size : U256)
    (position : Option PositionData) : Fails (checkReduceOnly side size position) P := by
  cases position with
  | none => exact .error h.reduceOnly
  | some pos =>
    unfold PerpDex.checkReduceOnly
    dsimp only
    split_ifs
    · exact .ok ()
    · exact .error h.reduceOnly

lemma Refusals.matchOrder (h : Refusals ex user P) (t : OrderType) (side : Side)
    (price size : U256) (postOnly reduceOnly : Bool) (market : MarketData)
    (position : Option PositionData) :
    Fails (matchOrder t side price size postOnly reduceOnly market position) P := by
  cases t with
  | market =>
    simp only [PerpDexExecutor.matchOrder, executeMarketOrder]
    split_ifs
    · exact .bind (h.checkReduceOnly side size position) fun _ _ => .ok _
    · exact .ok _
  | limit =>
    simp only [PerpDexExecutor.matchOrder, executeLimitOrder]
    split_ifs
    · exact .ok _
    · exact .ok _
    · exact .bind (h.checkReduceOnly side size position) fun _ _ => .ok _
    · exact .ok _
  | stopLimit | stopMarket => exact .ok _

lemma Refusals.checkOperation (h : Refusals ex tx.user P) (op : Operation) :
    Fails (ex.checkOperation tx op) P := by
  cases op with
  | placeOrder m t side price size leverage postOnly reduceOnly expiresAt =>
    refine .bind (h.checkLeverage leverage) fun _ _ => ?_
    refine .bind h.balanceOf fun balance _ => ?_
    refine .bind (h.positionOf m) fun position _ => ?_
    refine .bind (h.marketOf m) fun market _ => ?_
    dsimp only
    split_ifs
    · exact .error (h.margin _ _)
    · exact .bind (h.matchOrder t side price size postOnly reduceOnly market position)
        fun _ _ => .ok _
  | cancelOrder => exact .ok _
  | cancelAll m => cases m <;> exact .ok _
  | setLeverage m leverage => exact h.checkLeverage leverage
  | adjustMargin m amount =>
    refine .bind h.balanceOf fun balance _ => ?_
    split_ifs
    · exact .error (h.margin _ _)
    · refine .bind (h.positionOf m) fun position _ => ?_
      cases position with
      | none => exact .error h.noPosition
      | some p => exact .ok _

lemma Refusals.checkOperations (h : Refusals ex tx.user P) (ops : List Operation) :
    Fails (ex.checkOperations tx ops) P := by
  induction ops with
  | nil => exact .ok _
  | cons op ops ih => exact .bind (h.checkOperation op) fun _ _ => ih

/-- A failed read is refused because of a value. -/
lemma fails_read {α : Type} {l : PerpDexLocation} {rs : ReadSet}
    {f : Option PerpDexValue × ReadSet → Except ExecutionError (α × ReadSet)}
    (hf : ∀ rs, Fails (f (ex.storage.data l, rs)) P) :
    Fails ((ex.readLocation l rs >>= f).map Prod.fst) P := by
  intro e he
  have hread : ex.readLocation l rs = .ok (ex.storage.data l, rs) := rfl
  rw [hread, ok_bind] at he
  cases hresult : f (ex.storage.data l, rs) with
  | error e' =>
    rw [hresult] at he
    obtain rfl := Except.error.inj he
    exact hf _ _ hresult
  | ok a =>
    rw [hresult] at he
    cases he

/-- No test but the first one refuses a transaction because of its nonce. -/
lemma refusals_not_nonceMismatch (ex : PerpDexExecutor InMemoryStorage) (user : Address) :
    Refusals ex user (¬ ·.IsNonceMismatch) where
  leverage _ := id
  margin _ _ := id
  reduceOnly := id
  noPosition := id
  balanceOf := fails_read fun _ => by
    rcases ex.storage.data (.balance user usdcAssetId) with _ | value
    · exact .ok _
    · cases value with
      | balance => exact .ok _
      | _ => exact .error id
  positionOf m := fails_read fun _ => by
    rcases ex.storage.data (.position user m) with _ | value
    · exact .ok _
    · cases value with
      | position => exact .ok _
      | _ => exact .error id
  marketOf m := fails_read fun _ => by
    rcases ex.storage.data (.marketState m) with _ | value
    · exact .ok _
    · cases value with
      | marketState => exact .ok _
      | _ => exact .error id

/-- With a stored nonce, the transaction is refused because of its nonce if it has another one. -/
lemma execute_replayed_iff (h : ex.nonceOf tx.user = .ok n) :
    (ex.execute tx).1.Replayed ↔ n ≠ tx.nonce := by
  have hcheck : ex.check tx = if n ≠ tx.nonce then .error (.nonceMismatch n tx.nonce)
      else ex.checkOperations tx tx.operations := by
    unfold check
    rw [h]
    rfl
  constructor
  · rintro ⟨e, hrefusal, hmismatch⟩ rfl
    rw [if_neg (not_not.mpr rfl)] at hcheck
    cases hops : ex.checkOperations tx tx.operations with
    | error e' =>
      rw [execute_of_check_error (hcheck.trans hops)] at hrefusal
      obtain rfl := Option.some.inj hrefusal
      have hrefusals := refusals_not_nonceMismatch ex tx.user
      exact hrefusals.checkOperations tx.operations e' hops hmismatch
    | ok _ =>
      obtain ⟨ws, res, ex', hexecute⟩ := execute_of_check_ok (hcheck.trans hops)
      rw [hexecute] at hrefusal
      cases hrefusal
  · intro hne
    rw [if_pos hne] at hcheck
    rw [execute_of_check_error hcheck]
    exact ⟨_, rfl, trivial⟩

end Refusals

/-- A transaction writes at most one nonce: that of its user, when it is the current one. -/
lemma nonce_of_writesOf {w : PerpDexLocation × PerpDexValue}
    (hw : w ∈ BlockState.writesOf (ex.execute tx).1) (huser : w.1 = .userNonce user) :
    tx.user = user ∧ ex.nonceOf user = .ok tx.nonce ∧ w.2 = .nonce (tx.nonce + 1) := by
  cases hcheck : ex.check tx with
  | error e =>
    rw [execute_of_check_error hcheck] at hw
    cases hw
  | ok _ =>
    obtain ⟨ws, res, ex', hexecute⟩ := execute_of_check_ok hcheck
    obtain ⟨hnonce, -, own, hruns, rfl⟩ := runs_of_execute hexecute
    rw [hexecute] at hw
    rcases List.mem_append.mp hw with hw | hw
    · have hown := hruns.own w hw
      rw [huser] at hown
      exact hown.elim
    · rw [List.mem_singleton.mp hw] at huser ⊢
      obtain rfl := PerpDexLocation.userNonce.inj huser
      exact ⟨rfl, hnonce, rfl⟩

/-- An accepted transaction has the current nonce and writes the next one. -/
lemma nonce_of_accepted (h : (ex.execute tx).1.refusal = none) :
    ex.nonceOf tx.user = .ok tx.nonce ∧
      (.userNonce tx.user, .nonce (tx.nonce + 1)) ∈ BlockState.writesOf (ex.execute tx).1 := by
  cases hcheck : ex.check tx with
  | error e =>
    rw [execute_of_check_error hcheck] at h
    cases h
  | ok _ =>
    obtain ⟨ws, res, ex', hexecute⟩ := execute_of_check_ok hcheck
    obtain ⟨hnonce, -, own, hruns, rfl⟩ := runs_of_execute hexecute
    rw [hexecute]
    exact ⟨hnonce, List.mem_append_right _ (List.mem_singleton_self _)⟩

end PerpDexExecutor

namespace BlockState
variable {b : BlockState} {user : Address} {n : U64}

/-- The nonces of a user that are pending all follow the one that is stored. -/
def NonceFollows (user : Address) (b : BlockState) : Prop :=
  ∀ w ∈ b.pending, w.1 = .userNonce user →
    ∃ n, b.executor.nonceOf user = .ok n ∧ w.2 = .nonce (n + 1)

/-- A nonce of the user is pending, from a transaction that was accepted since the last write. -/
def Renews (user : Address) (b : BlockState) : Prop := ∃ w ∈ b.pending, w.1 = .userNonce user

instance : Decidable (b.Renews user) := inferInstanceAs (Decidable (∃ w ∈ b.pending, _))

lemma nonceOf_execute (b : BlockState) (tx : PerpDexTx) (user : Address) :
    (b.step (.execute tx)).executor.nonceOf user = b.executor.nonceOf user := by
  show (b.executor.execute tx).2.nonceOf user = b.executor.nonceOf user
  rw [execute_counter]
  rfl

lemma start_nonceFollows (storage : InMemoryStorage) (config : BlockConfig) (user : Address) :
    (start storage config).NonceFollows user := by
  intro w hw
  cases hw

lemma NonceFollows.advance (h : b.NonceFollows user) (event : Event) :
    (b.advance event).NonceFollows user := by
  match event with
  | .nextBlock config => exact start_nonceFollows _ _ _
  | .inBlock .write =>
    intro w hw
    cases hw
  | .inBlock (.execute tx) =>
    intro w hw huser
    show ∃ n, (b.step (.execute tx)).executor.nonceOf user = .ok n ∧ _
    rw [nonceOf_execute]
    rcases List.mem_append.mp hw with hw | hw
    · exact h w hw huser
    · obtain ⟨-, hnonce, hvalue⟩ := nonce_of_writesOf hw huser
      exact ⟨_, hnonce, hvalue⟩

lemma NonceFollows.after (h : b.NonceFollows user) (events : List Event) :
    (b.after events).NonceFollows user := by
  induction events generalizing b with
  | nil => exact h
  | cons event events ih => exact ih (h.advance event)

/-- What an executor over the written storage has for the nonce. -/
lemma NonceFollows.nonceOf_written (h : b.NonceFollows user)
    (hn : b.executor.nonceOf user = .ok n) {ex : PerpDexExecutor InMemoryStorage}
    (hex : ex.storage = b.written) :
    (b.Renews user → ex.nonceOf user = .ok (n + 1)) ∧
      (¬ b.Renews user → ex.nonceOf user = .ok n) := by
  have hall : ∀ w ∈ b.pending, w.1 = .userNonce user → w.2 = .nonce (n + 1) := by
    intro w hw huser
    obtain ⟨m, hm, hvalue⟩ := h w hw huser
    rw [hn] at hm
    obtain rfl := Except.ok.inj hm
    exact hvalue
  have hdata : ex.storage.data (.userNonce user) =
      if b.Renews user then some (.nonce (n + 1))
      else b.executor.storage.data (.userNonce user) := by
    rw [hex]
    exact InMemoryStorage.writeAll_data_of_forall_eq hall _
  constructor
  · intro hrenews
    rw [if_pos hrenews] at hdata
    exact nonceOf_of_data hdata
  · intro hrenews
    rw [if_neg hrenews] at hdata
    rw [nonceOf_eq_of_data hdata, hn]

/-- The nonce goes up by one at each write that has one pending. -/
lemma NonceFollows.nonceOf_advance (h : b.NonceFollows user)
    (hn : b.executor.nonceOf user = .ok n) {event : Event} (hwrites : event.writes = true) :
    (b.Renews user → (b.advance event).executor.nonceOf user = .ok (n + 1)) ∧
      (¬ b.Renews user → (b.advance event).executor.nonceOf user = .ok n) := by
  match event with
  | .nextBlock config => exact h.nonceOf_written hn rfl
  | .inBlock .write => exact h.nonceOf_written hn rfl
  | .inBlock (.execute tx) => cases hwrites

/-- Over any events the nonce goes up by at most the number of writes, and by one at least if one
is pending at the first. -/
lemma NonceFollows.nonceOf_after (h : b.NonceFollows user)
    (hn : b.executor.nonceOf user = .ok n) (events : List Event) :
    ∃ k ≤ events.countP Event.writes,
      (b.after events).executor.nonceOf user = .ok (n + BitVec.ofNat 64 k) ∧
      (b.Renews user → 0 < events.countP Event.writes → 0 < k) := by
  induction events generalizing b n with
  | nil => exact ⟨0, le_rfl, hn.trans (congrArg _ (BitVec.add_zero n).symm), fun _ hpos => hpos⟩
  | cons event events ih =>
    have hfollows := h.advance event
    cases hwrites : event.writes with
    | true =>
      obtain ⟨hrenewed, hsame⟩ := h.nonceOf_advance hn hwrites
      have hcount : (event :: events).countP Event.writes = events.countP Event.writes + 1 :=
        List.countP_cons_of_pos hwrites
      by_cases hrenews : b.Renews user
      · obtain ⟨k, hk, hafter, -⟩ := ih hfollows (hrenewed hrenews)
        refine ⟨k + 1, by omega, ?_, fun _ _ => by omega⟩
        rw [BitVec.ofNat_add, BitVec.add_comm (BitVec.ofNat 64 k), ← BitVec.add_assoc]
        exact hafter
      · obtain ⟨k, hk, hafter, -⟩ := ih hfollows (hsame hrenews)
        exact ⟨k, by omega, hafter, fun hpending => absurd hpending hrenews⟩
    | false =>
      have hcount : (event :: events).countP Event.writes = events.countP Event.writes :=
        List.countP_cons_of_neg (by simp [hwrites])
      rw [hcount]
      match event with
      | .inBlock (.execute tx) =>
        obtain ⟨k, hk, hafter, hpos⟩ :=
          ih hfollows ((nonceOf_execute b tx user).trans hn)
        refine ⟨k, hk, hafter, ?_⟩
        rintro ⟨w, hw, huser⟩
        exact hpos ⟨w, List.mem_append_left _ hw, huser⟩

/-- A transaction that was accepted at some moment is sent again, possibly with other operations,
after fewer than `2 ^ 64` writes. Whatever else has happened, it is refused because of its nonce
exactly if there was a write. The storage to begin with is any. -/
theorem replayed_iff_written (storage : InMemoryStorage) (config : BlockConfig)
    (earlier later : List Event) {tx tx' : PerpDexTx} (huser : tx'.user = tx.user)
    (hnonce : tx'.nonce = tx.nonce)
    (haccepted : (((start storage config).after earlier).executor.execute tx).1.refusal = none)
    (hfew : later.countP Event.writes < 2 ^ 64) :
    ((((start storage config).after (earlier ++ .inBlock (.execute tx) :: later)).executor.execute
      tx').1.Replayed) ↔ ∃ event ∈ later, event.writes = true := by
  have hfollows := (start_nonceFollows storage config tx.user).after earlier
  have hsplit : (start storage config).after (earlier ++ .inBlock (.execute tx) :: later) =
      (((start storage config).after earlier).step (.execute tx)).after later := by
    simp [after, advance]
  rw [hsplit]
  generalize (start storage config).after earlier = b at haccepted hfollows
  obtain ⟨hcurrent, hwrite⟩ := nonce_of_accepted haccepted
  have hrenews : (b.step (.execute tx)).Renews tx.user :=
    ⟨_, List.mem_append_right _ hwrite, rfl⟩
  obtain ⟨k, hk, hafter, hpos⟩ := (hfollows.advance (.inBlock (.execute tx))).nonceOf_after
    ((nonceOf_execute b tx tx.user).trans hcurrent) later
  rw [← huser] at hafter
  refine (execute_replayed_iff hafter).trans ?_
  rw [hnonce, ← List.countP_pos_iff]
  constructor
  · intro hne
    by_contra hnone
    have hzero : k = 0 := by omega
    simp [hzero] at hne
  · intro hwritten heq
    have hk0 := hpos hrenews hwritten
    have hnat : k % 2 ^ 64 = 0 := by
      have hzero : BitVec.ofNat 64 k = 0 := by simpa using heq
      simpa using congrArg BitVec.toNat hzero
    omega

/-- Sent twice in a block that is not written in between, a transaction is accepted twice. -/
theorem replayed_iff_written_restingTx :
    (((start .new ⟨0, 1⟩).after [.inBlock (.execute restingTx), .inBlock .write]).executor.execute
        restingTx).1.Replayed ∧
      ¬ (((start .new ⟨0, 1⟩).after [.inBlock (.execute restingTx)]).executor.execute
        restingTx).1.Replayed := by
  have hwritten := @replayed_iff_written .new ⟨0, 1⟩ [] [.inBlock .write] restingTx restingTx
    rfl rfl rfl (by decide)
  have hunwritten :=
    @replayed_iff_written .new ⟨0, 1⟩ [] [] restingTx restingTx rfl rfl rfl (by decide)
  exact ⟨hwritten.mpr ⟨_, List.mem_singleton_self _, rfl⟩, fun hreplayed => by
    simpa using hunwritten.mp hreplayed⟩

end BlockState

end Pevm.PerpDex
