import Pevm.PerpDex.Placing

/-!
# Executors with a history

An executor keeps nothing of the transactions it has served but its order counter. The
counter never decides what a transaction does; it shows in the ids of the orders placed.
-/
namespace Pevm.PerpDex

/-- The operation takes an order id from the counter. -/
def Operation.isPlaceOrder : Operation → Bool
  | .placeOrder _ _ _ _ _ _ _ _ _ => true
  | _ => false

namespace PerpDexExecutor
open Fallible

variable {S : Type} (ex : PerpDexExecutor S)

@[simp] lemma withNextOrderId_nextOrderId (n : U64) : (ex.withNextOrderId n).nextOrderId = n := rfl

@[simp] lemma withNextOrderId_withNextOrderId (n m : U64) :
    (ex.withNextOrderId n).withNextOrderId m = ex.withNextOrderId m := rfl

@[simp] lemma withNextOrderId_self : ex.withNextOrderId ex.nextOrderId = ex := rfl

/-- What an operation does to the counter of order ids, and where the counter shows in its result.
-/
structure Places (ex : PerpDexExecutor S) (op : Operation) (out : Outcome) : Prop where
  nextOrderId : out.nextOrderId = ex.nextOrderId + if op.isPlaceOrder then 1 else 0
  result : op.isPlaceOrder = true → ∃ filledSize,
    out.result = .orderPlaced ex.nextOrderId filledSize

lemma places_of_same {ex : PerpDexExecutor S} {op : Operation} {out : Outcome}
    (h : op.isPlaceOrder = false) (hsame : out.nextOrderId = ex.nextOrderId) : Places ex op out := by
  constructor
  · simp [h, hsame]
  · simp [h]

variable [PerpDexStorage S] (tx : PerpDexTx)

section Checks

/-- The order ids that a cancellation of all orders finds in the index of the storage. -/
def foundOrders (marketId : Option U64) : Except StorageError (List U64) :=
  match marketId with
  | some mid => PerpDexStorage.getUserOrders ex.storage tx.user mid
  | none => PerpDexStorage.getAllUserOrders ex.storage tx.user

/-- The tests that an operation makes on its way, in their order, without what it computes and
writes. -/
def checkOperation : Operation → Except ExecutionError Unit
  | .placeOrder marketId orderType side price size leverage postOnly reduceOnly _ => do
    checkLeverage leverage
    let balance ← ex.balanceOf tx.user usdcAssetId
    let position ← ex.positionOf tx.user marketId
    let market ← ex.marketOf marketId
    let requiredMargin := calculateRequiredMargin price size leverage
    if balance < requiredMargin then .error (.insufficientBalance requiredMargin balance) else
    let _ ← matchOrder orderType side price size postOnly reduceOnly market position
    return ()
  | .cancelOrder _ _ => .ok ()
  | .cancelAll marketId =>
    match ex.foundOrders tx marketId with
    | .ok _ => .ok ()
    | .error e => .error (.storage e)
  | .setLeverage _ leverage => checkLeverage leverage
  | .adjustMargin marketId amount => do
    let balance ← ex.balanceOf tx.user usdcAssetId
    if amount > balance then .error (.insufficientBalance amount balance) else
    let position ← ex.positionOf tx.user marketId
    match position with
    | some _ => return ()
    | none => .error (.invalidPosition "No position to adjust margin")

/-- The tests of a list of operations, up to the first that is refused. All of them read the same
storage. -/
def checkOperations : List Operation → Except ExecutionError Unit
  | [] => .ok ()
  | op :: ops => do
    ex.checkOperation tx op
    checkOperations ops

/-- The tests of a transaction: its nonce, then those of the operations. -/
def check : Except ExecutionError Unit := do
  let currentNonce ← ex.nonceOf tx.user
  if currentNonce ≠ tx.nonce then .error (.nonceMismatch currentNonce tx.nonce)
  else ex.checkOperations tx tx.operations

/-- How many orders the operations place before one is refused. The ids of these orders stay taken.
-/
def idsTakenBy : List Operation → ℕ
  | [] => 0
  | op :: ops =>
    match ex.checkOperation tx op with
    | .ok _ => (if op.isPlaceOrder then 1 else 0) + idsTakenBy ops
    | .error _ => 0

/-- How many order ids a transaction takes from the counter, whether it succeeds or not. -/
def idsTaken : ℕ :=
  match ex.nonceOf tx.user with
  | .ok currentNonce => if currentNonce = tx.nonce then ex.idsTakenBy tx tx.operations else 0
  | .error _ => 0

/-- No test looks at the counter. -/
@[simp] lemma checkOperation_withNextOrderId (n : U64) (op : Operation) :
    (ex.withNextOrderId n).checkOperation tx op = ex.checkOperation tx op := by
  cases op with
  | _ => rfl

@[simp] lemma checkOperations_withNextOrderId (n : U64) (ops : List Operation) :
    (ex.withNextOrderId n).checkOperations tx ops = ex.checkOperations tx ops := by
  induction ops with
  | nil => rfl
  | cons op ops ih => rw [checkOperations, checkOperations, ih, checkOperation_withNextOrderId]

@[simp] lemma idsTakenBy_withNextOrderId (n : U64) (ops : List Operation) :
    (ex.withNextOrderId n).idsTakenBy tx ops = ex.idsTakenBy tx ops := by
  induction ops with
  | nil => rfl
  | cons op ops ih => rw [idsTakenBy, idsTakenBy, ih, checkOperation_withNextOrderId]

@[simp] lemma check_withNextOrderId (n : U64) :
    (ex.withNextOrderId n).check tx = ex.check tx := by
  show (ex.nonceOf tx.user >>= fun currentNonce =>
    if currentNonce ≠ tx.nonce then _
    else (ex.withNextOrderId n).checkOperations tx tx.operations) = ex.check tx
  rw [checkOperations_withNextOrderId]
  rfl

@[simp] lemma idsTaken_withNextOrderId (n : U64) :
    (ex.withNextOrderId n).idsTaken tx = ex.idsTaken tx := by
  show (match ex.nonceOf tx.user with
    | .ok currentNonce =>
      if currentNonce = tx.nonce then (ex.withNextOrderId n).idsTakenBy tx tx.operations else 0
    | .error _ => 0) = ex.idsTaken tx
  rw [idsTakenBy_withNextOrderId]
  rfl

end Checks

section Operation
variable {ex tx}

lemma executeCancelAll_eq (marketId : Option U64) :
    ex.executeCancelAll tx marketId .new [] =
      match ex.foundOrders tx marketId with
      | .ok orderIds => .ok ⟨.ordersCancelled orderIds, .new,
          [] ++ orderIds.map (fun id => (.order tx.user (marketId.getD 0) id, .deleted)),
          ex.nextOrderId⟩
      | .error e => .error (.storage e) := rfl

/-- An operation fails where one of its tests does, with the same error. -/
theorem executeOperation_check (op : Operation) :
    (ex.executeOperation tx op .new []).map (fun _ => ()) = ex.checkOperation tx op := by
  cases op with
  | placeOrder marketId orderType side price size leverage postOnly reduceOnly expiresAt =>
    simp only [executeOperation, executePlaceOrder, checkOperation, readBalance_eq,
      readPosition_eq, readMarket_eq]
    cases checkLeverage leverage with
    | error e => rfl
    | ok _ =>
    cases ex.balanceOf tx.user usdcAssetId with
    | error e => rfl
    | ok balance =>
    cases ex.positionOf tx.user marketId with
    | error e => rfl
    | ok position =>
    cases ex.marketOf marketId with
    | error e => rfl
    | ok market =>
    by_cases hb : balance < calculateRequiredMargin price size leverage
    · simp [Except.map, hb]
    · cases hm : matchOrder orderType side price size postOnly reduceOnly market position with
      | error e => simp [Except.map, hb, hm]
      | ok fill => simp [Except.map, hb, hm]
  | cancelOrder marketId orderIds => rfl
  | cancelAll marketId =>
    rw [executeOperation, executeCancelAll_eq, checkOperation]
    cases ex.foundOrders tx marketId with
    | error e => rfl
    | ok orderIds => rfl
  | setLeverage marketId leverage =>
    simp only [executeOperation, executeSetLeverage, checkOperation]
    cases checkLeverage leverage with
    | error e => rfl
    | ok _ => rfl
  | adjustMargin marketId amount =>
    simp only [executeOperation, executeAdjustMargin, checkOperation, readBalance_eq,
      readPosition_eq]
    cases ex.balanceOf tx.user usdcAssetId with
    | error e => rfl
    | ok balance =>
      by_cases hb : amount > balance
      · simp [Except.map, hb]
      · cases ex.positionOf tx.user marketId with
        | error e => simp [Except.map, hb]
        | ok position => cases position <;> simp [Except.map, hb, pure, Except.pure]

lemma executePlaceOrder_places {marketId : U64} {orderType : OrderType} {side : Side}
    {price size : U256} {leverage : U8} {postOnly reduceOnly : Bool} {expiresAt : Option U64} :
    Post (ex.executePlaceOrder tx marketId orderType side price size leverage postOnly reduceOnly
      expiresAt .new []) fun out => out.nextOrderId = ex.nextOrderId + 1 ∧
        ∃ filledSize, out.result = .orderPlaced ex.nextOrderId filledSize := by
  intro out hout
  obtain ⟨-, balance, position, market, fill, -, -, -, -, -, rfl⟩ :=
    (executePlaceOrder_ok_iff ..).mp hout
  exact ⟨rfl, fill.1, rfl⟩

/-- Only an order moves the counter, and it reports the id that it took. -/
theorem executeOperation_places (op : Operation) :
    Post (ex.executeOperation tx op .new []) (Places ex op) := by
  cases op with
  | placeOrder =>
    intro out hout
    obtain ⟨hid, hresult⟩ := executePlaceOrder_places out hout
    exact ⟨hid, fun _ => hresult⟩
  | cancelOrder marketId orderIds => exact Post.pure (places_of_same rfl rfl)
  | cancelAll marketId =>
    rw [executeOperation, executeCancelAll_eq]
    cases ex.foundOrders tx marketId with
    | error e => exact Post.error _
    | ok orderIds => exact Post.pure (places_of_same rfl rfl)
  | setLeverage marketId leverage =>
    exact Post.trivial.bind fun _ _ => Post.pure (places_of_same rfl rfl)
  | adjustMargin marketId amount =>
    rw [executeOperation]
    unfold executeAdjustMargin
    refine Post.trivial.bind fun _ _ => ?_
    dsimp only
    split
    · exact Post.error _
    · refine Post.trivial.bind fun position _ => ?_
      split
      · exact Post.pure (places_of_same rfl rfl)
      · exact Post.error _

/-- An operation that is no order does the same under any counter. -/
lemma executeOperation_withNextOrderId {op : Operation} (h : op.isPlaceOrder = false) (n : U64) :
    (ex.withNextOrderId n).executeOperation tx op .new [] =
      (ex.executeOperation tx op .new []).map fun out => { out with nextOrderId := n } := by
  cases op with
  | placeOrder => cases h
  | cancelOrder marketId orderIds => rfl
  | cancelAll marketId =>
    have hfound : (ex.withNextOrderId n).foundOrders tx marketId = ex.foundOrders tx marketId :=
      rfl
    rw [executeOperation, executeOperation, executeCancelAll_eq, executeCancelAll_eq, hfound]
    cases ex.foundOrders tx marketId with
    | error e => rfl
    | ok orderIds => rfl
  | setLeverage marketId leverage =>
    simp only [executeOperation, executeSetLeverage]
    cases checkLeverage leverage with
    | error e => rfl
    | ok _ => rfl
  | adjustMargin marketId amount =>
    have hbalance : (ex.withNextOrderId n).balanceOf tx.user usdcAssetId =
        ex.balanceOf tx.user usdcAssetId := rfl
    have hposition : (ex.withNextOrderId n).positionOf tx.user marketId =
        ex.positionOf tx.user marketId := rfl
    simp only [executeOperation, executeAdjustMargin, readBalance_eq, readPosition_eq, hbalance,
      hposition]
    cases ex.balanceOf tx.user usdcAssetId with
    | error e => rfl
    | ok balance =>
      by_cases hb : amount > balance
      · simp [Except.map, hb]
      · cases ex.positionOf tx.user marketId with
        | error e => simp [Except.map, hb]
        | ok position => cases position <;> simp [Except.map, hb, pure, Except.pure]

end Operation

section Operations
variable {ex tx}

/-- The loop over the operations fails where one of their tests does. -/
theorem executeOperations_check (ex : PerpDexExecutor S) (tx : PerpDexTx)
    (ops : List Operation) (p : Progress) :
    (executeOperations tx ex ops p).1.map (fun _ => ()) = ex.checkOperations tx ops := by
  induction ops generalizing ex p with
  | nil => rfl
  | cons op ops ih =>
    rw [executeOperations, checkOperations, ← executeOperation_check, executeOperation_eq]
    cases ex.executeOperation tx op .new [] with
    | error e => rfl
    | ok out =>
      show (executeOperations tx (ex.withNextOrderId out.nextOrderId) ops _).1.map _ =
        ex.checkOperations tx ops
      rw [ih, checkOperations_withNextOrderId]

/-- The loop changes nothing of the executor but its counter. -/
theorem executeOperations_counter (ex : PerpDexExecutor S) (tx : PerpDexTx)
    (ops : List Operation) (p : Progress) :
    (executeOperations tx ex ops p).2 =
      ex.withNextOrderId (ex.nextOrderId + BitVec.ofNat 64 (ex.idsTakenBy tx ops)) := by
  induction ops generalizing ex p with
  | nil => simp [executeOperations, idsTakenBy]
  | cons op ops ih =>
    rw [executeOperations, idsTakenBy, ← executeOperation_check, executeOperation_eq]
    cases hop : ex.executeOperation tx op .new [] with
    | error e => simp [Except.map]
    | ok out =>
      have hid := (executeOperation_places op out hop).nextOrderId
      show (executeOperations tx (ex.withNextOrderId out.nextOrderId) ops _).2 =
        ex.withNextOrderId (ex.nextOrderId +
          BitVec.ofNat 64 ((if op.isPlaceOrder then 1 else 0) + ex.idsTakenBy tx ops))
      rw [ih, idsTakenBy_withNextOrderId, withNextOrderId_withNextOrderId,
        withNextOrderId_nextOrderId, hid, BitVec.ofNat_add]
      split_ifs
      · rw [BitVec.add_assoc]
        rfl
      · rw [BitVec.add_assoc]
        rfl

/-- Without an order the loop does the same under any counter. -/
lemma executeOperations_withNextOrderId (ex : PerpDexExecutor S) (tx : PerpDexTx)
    {ops : List Operation} (h : ∀ op ∈ ops, op.isPlaceOrder = false) (n : U64) (p : Progress) :
    (executeOperations tx (ex.withNextOrderId n) ops p).1 = (executeOperations tx ex ops p).1 := by
  induction ops generalizing ex n p with
  | nil => rfl
  | cons op ops ih =>
    have hop := h op List.mem_cons_self
    rw [executeOperations, executeOperations, executeOperation_eq, executeOperation_eq ex,
      executeOperation_withNextOrderId hop]
    cases ex.executeOperation tx op .new [] with
    | error e => rfl
    | ok out =>
      have hrest := fun op hop => h op (List.mem_cons_of_mem _ hop)
      show (executeOperations tx ((ex.withNextOrderId n).withNextOrderId n) ops _).1 =
        (executeOperations tx (ex.withNextOrderId out.nextOrderId) ops _).1
      rw [withNextOrderId_withNextOrderId, ih ex hrest n,
        ih ex hrest out.nextOrderId]
      rfl

/-- Two runs with an order that report the same results started from the same counter. -/
lemma Runs.nextOrderId_eq {ex₁ ex₂ ex₁' ex₂' : PerpDexExecutor S} {ops : List Operation}
    {ws₁ ws₂ : WriteSet} {rs₁ rs₂ : List OperationResult} (h₁ : Runs tx ex₁ ops ws₁ rs₁ ex₁')
    (h₂ : Runs tx ex₂ ops ws₂ rs₂ ex₂') (hresults : rs₁ = rs₂)
    (horder : ∃ op ∈ ops, op.isPlaceOrder = true) : ex₁.nextOrderId = ex₂.nextOrderId := by
  induction h₁ generalizing ex₂ ws₂ rs₂ with
  | nil => simp at horder
  | @cons ex₁ ex₁' op ops out₁ ws₁ rs₁ hop₁ hruns₁ ih =>
    cases h₂ with
    | @cons _ _ _ _ out₂ ws₂ rs₂ hop₂ hruns₂ =>
      obtain ⟨hresult, hrest⟩ := List.cons.inj hresults
      have hplaces₁ := executeOperation_places op out₁ hop₁
      have hplaces₂ := executeOperation_places op out₂ hop₂
      by_cases hop : op.isPlaceOrder = true
      · obtain ⟨filled₁, h₁⟩ := hplaces₁.result hop
        obtain ⟨filled₂, h₂⟩ := hplaces₂.result hop
        rw [h₁, h₂] at hresult
        exact (OperationResult.orderPlaced.inj hresult).1
      · have hids := ih hruns₂ hrest (by simpa [hop] using horder)
        rw [withNextOrderId_nextOrderId, withNextOrderId_nextOrderId, hplaces₁.nextOrderId,
          hplaces₂.nextOrderId] at hids
        simpa [hop] using hids

end Operations

section Execute
variable {ex tx}

/-- A transaction that fails a test fails with that error. -/
lemma execute_of_check_error {e : ExecutionError} (h : ex.check tx = .error e) :
    (ex.execute tx).1 = .error e := by
  unfold check at h
  simp only [execute, readNonce_eq]
  cases hn : ex.nonceOf tx.user with
  | error e' =>
    rw [hn] at h
    obtain rfl := Except.error.inj h
    rfl
  | ok n =>
    rw [hn, ok_bind] at h
    simp only [Except.map]
    by_cases hne : n ≠ tx.nonce
    · rw [if_pos hne] at h ⊢
      obtain rfl := Except.error.inj h
      rfl
    · rw [if_neg hne] at h ⊢
      have hloop := executeOperations_check ex tx tx.operations ⟨.new, [], [], 0⟩
      rw [h] at hloop
      cases hrun : executeOperations tx ex tx.operations ⟨.new, [], [], 0⟩ with
      | mk result ex' =>
        rw [hrun] at hloop
        cases result with
        | error e' =>
          obtain rfl := Except.error.inj hloop
          rfl
        | ok p => cases hloop

/-- A transaction that passes its tests succeeds. -/
lemma execute_of_check_ok (h : ex.check tx = .ok ()) :
    ∃ ws res ex', ex.execute tx = (.success .new ws res .empty, ex') := by
  unfold check at h
  obtain ⟨n, hn, h⟩ := bind_eq_ok.mp h
  by_cases hne : n ≠ tx.nonce
  · rw [if_pos hne] at h
    cases h
  · rw [if_neg hne] at h
    rw [not_not.mp hne] at hn
    have hloop := executeOperations_check ex tx tx.operations ⟨.new, [], [], 0⟩
    rw [h] at hloop
    cases hrun : executeOperations tx ex tx.operations ⟨.new, [], [], 0⟩ with
    | mk result ex' =>
      rw [hrun] at hloop
      cases result with
      | error e => cases hloop
      | ok p =>
        obtain ⟨-, w, rs, hruns, -⟩ := runs_of_executeOperations hrun
        have hg := execute_of_runs hn hruns
        exact ⟨_, _, _, hg⟩

/-- A transaction leaves nothing in the executor but the ids it has taken, also if it fails. -/
theorem execute_counter (ex : PerpDexExecutor S) (tx : PerpDexTx) :
    (ex.execute tx).2 =
      ex.withNextOrderId (ex.nextOrderId + BitVec.ofNat 64 (ex.idsTaken tx)) := by
  simp only [execute, readNonce_eq, idsTaken]
  cases ex.nonceOf tx.user with
  | error e => simp [Except.map]
  | ok n =>
    simp only [Except.map]
    by_cases hne : n ≠ tx.nonce
    · rw [if_pos hne, if_neg hne]
      simp
    · rw [if_neg hne, if_pos (not_not.mp hne)]
      have hloop := executeOperations_counter ex tx tx.operations ⟨.new, [], [], 0⟩
      cases hrun : executeOperations tx ex tx.operations ⟨.new, [], [], 0⟩ with
      | mk result ex' =>
        rw [hrun] at hloop
        cases result with
        | error e => exact hloop
        | ok p => exact hloop

/-- Without an order the counter does not show. -/
lemma execute_of_no_order (h : ∀ op ∈ tx.operations, op.isPlaceOrder = false) (n : U64) :
    ((ex.withNextOrderId n).execute tx).1 = (ex.execute tx).1 := by
  have hnonce : (ex.withNextOrderId n).nonceOf tx.user = ex.nonceOf tx.user := rfl
  simp only [execute, readNonce_eq, hnonce]
  cases ex.nonceOf tx.user with
  | error e => rfl
  | ok currentNonce =>
    simp only [Except.map]
    by_cases hne : currentNonce ≠ tx.nonce
    · rw [if_pos hne, if_pos hne]
    · rw [if_neg hne, if_neg hne]
      have hloop := executeOperations_withNextOrderId ex tx h n ⟨.new, [], [], 0⟩
      cases hrun : executeOperations tx ex tx.operations ⟨.new, [], [], 0⟩ with
      | mk result ex' =>
        cases hrun' : executeOperations tx (ex.withNextOrderId n) tx.operations
            ⟨.new, [], [], 0⟩ with
        | mk result' ex'' =>
          rw [hrun, hrun'] at hloop
          obtain rfl : result' = result := hloop
          cases result' with
          | error e => rfl
          | ok p => rfl

/-- With an order that is placed it does. -/
lemma nextOrderId_of_execute_eq {ex' : PerpDexExecutor S} (hcheck : ex.check tx = .ok ())
    (horder : ∃ op ∈ tx.operations, op.isPlaceOrder = true)
    (h : (ex'.execute tx).1 = (ex.execute tx).1) : ex'.nextOrderId = ex.nextOrderId := by
  obtain ⟨ws, res, ex₁, hexecute⟩ := execute_of_check_ok hcheck
  obtain ⟨-, -, w, hruns, -⟩ := runs_of_execute hexecute
  have hexecute' : ex'.execute tx = (.success .new ws res .empty, (ex'.execute tx).2) := by
    rw [hexecute] at h
    exact Prod.ext h rfl
  obtain ⟨-, -, w', hruns', -⟩ := runs_of_execute hexecute'
  exact hruns'.nextOrderId_eq hruns rfl horder

end Execute

/-- The executor after a sequence of calls, the refused ones included. -/
def serve (history : List PerpDexTx) : PerpDexExecutor S :=
  history.foldl (fun ex tx => (ex.execute tx).2) ex

theorem serve_counter (history : List PerpDexTx) :
    ex.serve history = ex.withNextOrderId
      (ex.nextOrderId + BitVec.ofNat 64 (history.map ex.idsTaken).sum) := by
  induction history generalizing ex with
  | nil => simp [serve]
  | cons tx history ih =>
    have hserve : ex.serve (tx :: history) = (ex.execute tx).2.serve history := rfl
    have hsame : (history.map (ex.execute tx).2.idsTaken) = history.map ex.idsTaken := by
      rw [execute_counter]
      simp
    rw [hserve, ih, hsame, execute_counter, List.map_cons, List.sum_cons, BitVec.ofNat_add]
    simp [BitVec.add_assoc]

/-- A transaction finds a fresh executor in one with a history exactly when that history has
handed out no order ids (up to a full turn of the counter), or the transaction places no order, or
it is refused. -/
theorem execute_serve_iff (storage : S) (blockConfig : BlockConfig) (history : List PerpDexTx)
    (tx : PerpDexTx) :
    (((new storage blockConfig).serve history).execute tx).1 =
        ((new storage blockConfig).execute tx).1 ↔
      2 ^ 64 ∣ (history.map (new storage blockConfig).idsTaken).sum ∨
        (∀ op ∈ tx.operations, op.isPlaceOrder = false) ∨
        (new storage blockConfig).check tx ≠ .ok () := by
  rw [serve_counter]
  generalize (history.map (new storage blockConfig).idsTaken).sum = ids
  generalize hex : new storage blockConfig = ex
  have hturn : ex.nextOrderId + BitVec.ofNat 64 ids = ex.nextOrderId ↔ 2 ^ 64 ∣ ids := by
    rw [add_eq_left, ← BitVec.toNat_inj]
    simp [Nat.dvd_iff_mod_eq_zero]
  constructor
  · intro hsame
    by_contra hnone
    push Not at hnone
    obtain ⟨hids, ⟨op, hop, horder⟩, hcheck⟩ := hnone
    have hplaced : ∃ op ∈ tx.operations, op.isPlaceOrder = true :=
      ⟨op, hop, by simpa using horder⟩
    exact hids (hturn.mp (nextOrderId_of_execute_eq hcheck hplaced hsame))
  · rintro (hids | hno | hcheck)
    · rw [hturn.mpr hids, withNextOrderId_self]
    · exact execute_of_no_order hno _
    · cases hresult : ex.check tx with
      | ok _ => exact absurd hresult hcheck
      | error e =>
        rw [execute_of_check_error hresult]
        exact execute_of_check_error (by rw [check_withNextOrderId, hresult])

section Sample

/-- A transaction that leaves one order in the book. -/
def restingTx : PerpDexTx where
  user := 1
  operations := [.placeOrder 1 .limit .long 1 1 1 true false none]
  gasLimit := 0
  gasPrice := 0
  nonce := 0
  signature := none

/-- Executed again by the same executor, the transaction places an order of another id. -/
theorem execute_again_ne :
    (((new InMemoryStorage.new ⟨0, 0⟩).serve [restingTx]).execute restingTx).1 ≠
      ((new InMemoryStorage.new ⟨0, 0⟩).execute restingTx).1 := by
  decide +kernel

end Sample

end PerpDexExecutor

end Pevm.PerpDex
