import Pevm.PerpDex.Executor

/-!
# What a successful transaction did

Reads hand the read set on unchanged, and an operation only appends to the write
set. So a successful transaction is a run: each operation is executed on its own,
against the storage the transaction started from, and the writes are concatenated.
-/
namespace Pevm.PerpDex.PerpDexExecutor
open Fallible

variable {S : Type} [PerpDexStorage S] (ex : PerpDexExecutor S) (tx : PerpDexTx)

section Reads

/-- The nonce that the executor reads for a user. Reads leave the read set as it is, so it does not
matter here. -/
def nonceOf (user : Address) : Except ExecutionError U64 :=
  (ex.readNonce user .new).map Prod.fst

def balanceOf (user : Address) (assetId : U16) : Except ExecutionError U256 :=
  (ex.readBalance user assetId .new).map Prod.fst

/-- The position that the executor reads, if there is one. -/
def positionOf (user : Address) (marketId : U64) : Except ExecutionError (Option PositionData) :=
  (ex.readPosition user marketId .new).map Prod.fst

def marketOf (marketId : U64) : Except ExecutionError MarketData :=
  (ex.readMarket marketId .new).map Prod.fst

lemma readNonce_eq (user : Address) (rs : ReadSet) :
    ex.readNonce user rs = (ex.nonceOf user).map (·, rs) := by
  unfold nonceOf readNonce readLocation
  cases PerpDexStorage.get ex.storage (.userNonce user) with
  | error e => rfl
  | ok v =>
    rcases v with _ | v
    · rfl
    · cases v <;> rfl

lemma readBalance_eq (user : Address) (assetId : U16) (rs : ReadSet) :
    ex.readBalance user assetId rs = (ex.balanceOf user assetId).map (·, rs) := by
  unfold balanceOf readBalance readLocation
  cases PerpDexStorage.get ex.storage (.balance user assetId) with
  | error e => rfl
  | ok v =>
    rcases v with _ | v
    · rfl
    · cases v <;> rfl

lemma readPosition_eq (user : Address) (marketId : U64) (rs : ReadSet) :
    ex.readPosition user marketId rs = (ex.positionOf user marketId).map (·, rs) := by
  unfold positionOf readPosition readLocation
  cases PerpDexStorage.get ex.storage (.position user marketId) with
  | error e => rfl
  | ok v =>
    rcases v with _ | v
    · rfl
    · cases v <;> rfl

lemma readMarket_eq (marketId : U64) (rs : ReadSet) :
    ex.readMarket marketId rs = (ex.marketOf marketId).map (·, rs) := by
  unfold marketOf readMarket readLocation
  cases PerpDexStorage.get ex.storage (.marketState marketId) with
  | error e => rfl
  | ok v =>
    rcases v with _ | v
    · rfl
    · cases v <;> rfl

end Reads

/-- Put the effect of an operation behind what was collected before it. -/
def Outcome.after (rs : ReadSet) (ws : WriteSet) (o : Outcome) : Outcome :=
  { o with readSet := rs, writeSet := ws ++ o.writeSet }

lemma executeAdjustMargin_eq (marketId : U64) (amount : U256) (rs : ReadSet) (ws : WriteSet) :
    ex.executeAdjustMargin tx marketId amount rs ws =
      (ex.executeAdjustMargin tx marketId amount .new []).map (Outcome.after rs ws) := by
  simp only [executeAdjustMargin, readBalance_eq, readPosition_eq]
  cases ex.balanceOf tx.user usdcAssetId with
  | error e => rfl
  | ok balance =>
    by_cases hb : amount > balance
    · simp [Except.map, hb]
    · cases ex.positionOf tx.user marketId with
      | error e => simp [Except.map, hb]
      | ok position => cases position <;> simp [Except.map, hb, Outcome.after, pure, Except.pure]

lemma executePlaceOrder_eq (marketId : U64) (orderType : OrderType) (side : Side)
    (price size : U256) (leverage : U8) (postOnly reduceOnly : Bool) (expiresAt : Option U64)
    (rs : ReadSet) (ws : WriteSet) :
    ex.executePlaceOrder tx marketId orderType side price size leverage postOnly reduceOnly
        expiresAt rs ws =
      (ex.executePlaceOrder tx marketId orderType side price size leverage postOnly reduceOnly
        expiresAt .new []).map (Outcome.after rs ws) := by
  simp only [executePlaceOrder, readBalance_eq, readPosition_eq, readMarket_eq]
  cases checkLeverage leverage with
  | error e => rfl
  | ok _ =>
  cases ex.balanceOf tx.user usdcAssetId with
  | error e => rfl
  | ok balance =>
  cases ex.positionOf tx.user marketId with
  | error e => rfl
  | ok position =>
  cases ex.marketOf marketId with
  | error e => rfl
  | ok market =>
  by_cases hb : balance < calculateRequiredMargin price size leverage
  · simp [Except.map, hb]
  · cases hm : matchOrder orderType side price size postOnly reduceOnly market position with
    | error e => simp [Except.map, hb, hm]
    | ok fill => simp [Except.map, hb, hm, Outcome.after]

/-- What came before an operation does not change what it does. -/
theorem executeOperation_eq (op : Operation) (rs : ReadSet) (ws : WriteSet) :
    ex.executeOperation tx op rs ws =
      (ex.executeOperation tx op .new []).map (Outcome.after rs ws) := by
  cases op with
  | placeOrder => exact ex.executePlaceOrder_eq tx ..
  | cancelOrder => rfl
  | cancelAll marketId =>
    simp only [executeOperation, executeCancelAll]
    split <;> rfl
  | setLeverage marketId leverage =>
    simp only [executeOperation, executeSetLeverage]
    cases checkLeverage leverage with
    | error e => rfl
    | ok _ => simp [Except.map, Outcome.after, pure, Except.pure]
  | adjustMargin => exact ex.executeAdjustMargin_eq tx ..

/-- The operations of a successful transaction, one after the other. Each reads the storage that the
transaction began with. -/
inductive Runs (tx : PerpDexTx) : PerpDexExecutor S → List Operation → WriteSet →
    List OperationResult → PerpDexExecutor S → Prop
  | nil {ex : PerpDexExecutor S} : Runs tx ex [] [] [] ex
  | cons {ex ex' : PerpDexExecutor S} {op : Operation} {ops : List Operation} {out : Outcome}
      {ws : WriteSet} {rs : List OperationResult} :
      ex.executeOperation tx op .new [] = .ok out →
      Runs tx (ex.withNextOrderId out.nextOrderId) ops ws rs ex' →
      Runs tx ex (op :: ops) (out.writeSet ++ ws) (out.result :: rs) ex'

variable {ex tx}

lemma executeOperations_of_runs {ops : List Operation} {ws : WriteSet}
    {rs : List OperationResult} {ex' : PerpDexExecutor S} (h : Runs tx ex ops ws rs ex')
    (r : ReadSet) (ws₀ : WriteSet) (rs₀ : List OperationResult) (g : U64) :
    executeOperations tx ex ops ⟨r, ws₀, rs₀, g⟩ =
      (.ok ⟨r, ws₀ ++ ws, rs₀ ++ rs, ops.foldl (fun g op => g + estimateGas op) g⟩, ex') := by
  induction h generalizing ws₀ rs₀ g with
  | nil => simp [executeOperations]
  | @cons ex ex' op ops out ws rs hop _ ih =>
    simp only [executeOperations, ex.executeOperation_eq tx op r ws₀, hop, Except.map,
      Outcome.after]
    rw [ih]
    simp

lemma runs_of_executeOperations {ops : List Operation} {p p' : Progress}
    {ex' : PerpDexExecutor S} (h : executeOperations tx ex ops p = (.ok p', ex')) :
    p'.readSet = p.readSet ∧ ∃ ws rs, Runs tx ex ops ws rs ex' ∧
      p'.writeSet = p.writeSet ++ ws ∧ p'.results = p.results ++ rs := by
  induction ops generalizing ex p with
  | nil =>
    simp only [executeOperations, Prod.mk.injEq, Except.ok.injEq] at h
    obtain ⟨rfl, rfl⟩ := h
    exact ⟨rfl, [], [], .nil, by simp, by simp⟩
  | cons op ops ih =>
    rw [executeOperations, ex.executeOperation_eq] at h
    cases hop : ex.executeOperation tx op .new [] with
    | error e => simp [hop, Except.map] at h
    | ok out =>
      simp only [hop, Except.map] at h
      obtain ⟨hr, ws, rs, hruns, hws, hrs⟩ := ih h
      refine ⟨hr, out.writeSet ++ ws, out.result :: rs, .cons hop hruns, ?_, ?_⟩
      · rw [hws]
        simp [Outcome.after]
      · rw [hrs]
        simp [Outcome.after]

theorem Runs.split {xs ys : List Operation} {ws : WriteSet} {rs : List OperationResult}
    {ex₂ : PerpDexExecutor S} (h : Runs tx ex (xs ++ ys) ws rs ex₂) :
    ∃ wx rx ex₁ wy ry, Runs tx ex xs wx rx ex₁ ∧ Runs tx ex₁ ys wy ry ex₂ ∧
      ws = wx ++ wy ∧ rs = rx ++ ry := by
  induction xs generalizing ex ws rs with
  | nil => exact ⟨[], [], ex, ws, rs, .nil, h, rfl, rfl⟩
  | cons op xs ih =>
    rw [List.cons_append] at h
    cases h with
    | cons hop hrest =>
      obtain ⟨wx, rx, ex₁, wy, ry, hx, hy, rfl, rfl⟩ := ih hrest
      exact ⟨_, _, ex₁, wy, ry, .cons hop hx, hy, by simp, by simp⟩

theorem Runs.storage_eq {ops : List Operation} {ws : WriteSet} {rs : List OperationResult}
    {ex' : PerpDexExecutor S} (h : Runs tx ex ops ws rs ex') :
    ex'.storage = ex.storage ∧ ex'.blockConfig = ex.blockConfig := by
  induction h with
  | nil => exact ⟨rfl, rfl⟩
  | cons _ _ ih => exact ih

/-- Both executors answer alike what the operation asks about its user and its market. -/
def SameReads (user : Address) (a b : PerpDexExecutor S) : Operation → Prop
  | .placeOrder m .. =>
      a.balanceOf user usdcAssetId = b.balanceOf user usdcAssetId ∧
        a.positionOf user m = b.positionOf user m ∧ a.marketOf m = b.marketOf m
  | .adjustMargin m _ =>
      a.balanceOf user usdcAssetId = b.balanceOf user usdcAssetId ∧
        a.positionOf user m = b.positionOf user m
  | .cancelAll (some m) =>
      PerpDexStorage.getUserOrders a.storage user m = PerpDexStorage.getUserOrders b.storage user m
  | .cancelAll none =>
      PerpDexStorage.getAllUserOrders a.storage user =
        PerpDexStorage.getAllUserOrders b.storage user
  | .cancelOrder .. | .setLeverage .. => True

/-- Executors that answer an operation alike execute it alike. -/
lemma executeOperation_of_sameReads {a b : PerpDexExecutor S} {op : Operation}
    (hid : a.nextOrderId = b.nextOrderId) (hcfg : a.blockConfig = b.blockConfig)
    (h : SameReads tx.user a b op) :
    a.executeOperation tx op .new [] = b.executeOperation tx op .new [] := by
  cases op with
  | placeOrder m =>
    obtain ⟨hb, hp, hm⟩ := h
    simp only [executeOperation, executePlaceOrder, readBalance_eq, readPosition_eq,
      readMarket_eq, hb, hp, hm, hid, hcfg]
  | cancelOrder m ids => simp only [executeOperation, executeCancelOrder, hid]
  | cancelAll m =>
    cases m with
    | some m =>
      have horders : PerpDexStorage.getUserOrders a.storage tx.user m =
        PerpDexStorage.getUserOrders b.storage tx.user m := h
      simp only [executeOperation, executeCancelAll, horders, hid]
    | none =>
      have horders : PerpDexStorage.getAllUserOrders a.storage tx.user =
        PerpDexStorage.getAllUserOrders b.storage tx.user := h
      simp only [executeOperation, executeCancelAll, horders, hid]
  | setLeverage m leverage => simp only [executeOperation, executeSetLeverage, hid]
  | adjustMargin m amount =>
    obtain ⟨hb, hp⟩ := h
    simp only [executeOperation, executeAdjustMargin, readBalance_eq, readPosition_eq, hb, hp,
      hid]

/-- What holds of the writes of every operation, whatever id it would give to an order, holds of
the writes of a run. -/
theorem Runs.forall_writes {P : PerpDexLocation × PerpDexValue → Prop} {ops : List Operation}
    {ws : WriteSet} {rs : List OperationResult} {ex' : PerpDexExecutor S}
    (hstep : ∀ n op, Post ((ex.withNextOrderId n).executeOperation tx op .new [])
      fun out => ∀ w ∈ out.writeSet, P w)
    (h : Runs tx ex ops ws rs ex') : ∀ w ∈ ws, P w := by
  induction h with
  | nil => simp
  | @cons ex _ op _ out _ _ hop _ ih =>
    intro w hw
    rcases List.mem_append.mp hw with hw | hw
    · exact hstep ex.nextOrderId op out hop w hw
    · exact ih (fun n op => hstep n op) w hw

/-- A transaction that succeeds has a current nonce, and its operations run. -/
theorem runs_of_execute {r : ReadSet} {ws : WriteSet} {res : PerpDexResult}
    {flags : FinishExecFlags} {ex' : PerpDexExecutor S}
    (h : ex.execute tx = (.success r ws res flags, ex')) :
    ex.nonceOf tx.user = .ok tx.nonce ∧ r = .new ∧
      ∃ w, Runs tx ex tx.operations w res.operationsExecuted ex' ∧
        ws = w ++ [(.userNonce tx.user, .nonce (tx.nonce + 1))] := by
  simp only [execute, readNonce_eq] at h
  cases hn : ex.nonceOf tx.user with
  | error e => simp [hn, Except.map] at h
  | ok n =>
    simp only [hn, Except.map] at h
    by_cases hne : n ≠ tx.nonce
    · simp [hne] at h
    · rw [if_neg hne] at h
      have heq : n = tx.nonce := not_not.mp hne
      subst heq
      cases hrun : executeOperations tx ex tx.operations ⟨.new, [], [], 0⟩ with
      | mk result ex₁ =>
        cases result with
        | error e =>
          rw [hrun] at h
          cases h
        | ok p =>
          rw [hrun] at h
          simp only [Prod.mk.injEq, VmExecutionResult.success.injEq] at h
          obtain ⟨⟨hr, hws, hres, -⟩, rfl⟩ := h
          obtain ⟨hread, w, rs, hruns, hpw, hprs⟩ := runs_of_executeOperations hrun
          simp only [List.nil_append] at hpw hprs
          refine ⟨rfl, by rw [← hr, hread], w, ?_, by rw [← hws, hpw]⟩
          rw [← hres, hprs]
          exact hruns

theorem execute_of_runs {w : WriteSet} {rs : List OperationResult} {ex' : PerpDexExecutor S}
    (hn : ex.nonceOf tx.user = .ok tx.nonce) (h : Runs tx ex tx.operations w rs ex') :
    ex.execute tx = (.success .new (w ++ [(.userNonce tx.user, .nonce (tx.nonce + 1))])
      ⟨tx.operations.foldl (fun g op => g + estimateGas op) 0, rs⟩ .empty, ex') := by
  simp only [execute, readNonce_eq, hn, Except.map]
  rw [if_neg (by simp), executeOperations_of_runs h]
  rfl

end Pevm.PerpDex.PerpDexExecutor
