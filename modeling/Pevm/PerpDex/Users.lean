import Pevm.PerpDex.OrderIds

/-!
# Users among themselves

Over any sequence of blocks, what becomes of the balances, the positions and the nonce of a user
depends on the transactions of that user only, whoever else trades and whatever order numbers are
given out in between. A transaction that has been accepted is refused from the next write on.
-/
namespace Pevm.PerpDex
open PerpDexExecutor

/-- What can happen in a sequence of blocks: a step of the block, or the end of it, with all that
is left written, and the start of the next one. -/
inductive Event
  | inBlock (step : BlockStep)
  | nextBlock (config : BlockConfig)

namespace BlockState

/-- The exchange after one event: a call in the block, or the end of the block and the beginning of
the next. -/
def advance (b : BlockState) : Event → BlockState
  | .inBlock s => b.step s
  | .nextBlock config => start b.written config

/-- The exchange after all the events, one after the other. -/
def after (b : BlockState) (events : List Event) : BlockState := events.foldl advance b

/-- The results of the transactions of a user, in their order and with the refused ones. -/
def resultsOf (user : Address) (b : BlockState) : List Event → List VmExecutionResult
  | [] => []
  | .inBlock (.execute tx) :: events =>
    (if tx.user = user then [(b.executor.execute tx).1] else []) ++
      (b.advance (.inBlock (.execute tx))).resultsOf user events
  | event :: events => (b.advance event).resultsOf user events

end BlockState

/-- Why a transaction is refused, if it is. -/
def VmExecutionResult.refusal : VmExecutionResult → Option ExecutionError
  | .error e => some e
  | _ => none

/-- The event is not a transaction of somebody else. Writes and new blocks concern everybody. -/
def Event.concerns (user : Address) : Event → Bool
  | .inBlock (.execute tx) => tx.user = user
  | _ => true

/-- What decides on the transactions of a user: the user's own account and the markets, but no
orders. -/
def AccountLocation (user : Address) : PerpDexLocation → Prop
  | .balance u _ | .position u _ | .userNonce u => u = user
  | .marketState _ => True
  | .order _ _ _ => False

instance (user : Address) : DecidablePred (AccountLocation user) := fun l => by
  cases l <;> unfold AccountLocation <;> infer_instance

/-- Two storages agree on what decides on the transactions of a user, whatever else they hold. -/
def SameAccount (user : Address) (s t : InMemoryStorage) : Prop :=
  ∀ l, AccountLocation user l → s.data l = t.data l

/-- The part of a write set that decides on later transactions of a user. -/
def accountWrites (user : Address) (ws : WriteSet) : WriteSet :=
  ws.filter fun w => AccountLocation user w.1

section Writes
variable {user : Address} {s t : InMemoryStorage} {ws ws' : WriteSet}

@[simp] lemma accountWrites_append (ws ws' : WriteSet) :
    accountWrites user (ws ++ ws') = accountWrites user ws ++ accountWrites user ws' :=
  List.filter_append ..

lemma accountWrites_eq_nil (h : ∀ w ∈ ws, ¬ AccountLocation user w.1) :
    accountWrites user ws = [] := by
  simpa [accountWrites, List.filter_eq_nil_iff] using h

/-- The writes to other locations make no difference. -/
lemma writeAll_accountWrites {l : PerpDexLocation} (hl : AccountLocation user l)
    (h : s.data l = t.data l) (ws : WriteSet) :
    (s.writeAll ws).data l = (t.writeAll (accountWrites user ws)).data l := by
  induction ws generalizing s t with
  | nil => exact h
  | cons w ws ih =>
    by_cases hw : AccountLocation user w.1
    · have hcons : accountWrites user (w :: ws) = w :: accountWrites user ws :=
        List.filter_cons_of_pos (by simpa using hw)
      rw [hcons, InMemoryStorage.writeAll_cons, InMemoryStorage.writeAll_cons]
      apply ih
      by_cases heq : l = w.1
      · simp [heq]
      · simp [heq, h]
    · have hcons : accountWrites user (w :: ws) = accountWrites user ws :=
        List.filter_cons_of_neg (by simpa using hw)
      rw [hcons, InMemoryStorage.writeAll_cons]
      apply ih
      have hne : l ≠ w.1 := by
        rintro rfl
        exact hw hl
      simpa [hne] using h

lemma SameAccount.writeAll (h : SameAccount user s t)
    (hws : accountWrites user ws = accountWrites user ws') :
    SameAccount user (s.writeAll ws) (t.writeAll ws') := by
  intro l hl
  rw [writeAll_accountWrites hl (h l hl) ws, hws, ← writeAll_accountWrites hl rfl ws']

end Writes

/-- Two executors that decide alike on the transactions of a user. -/
structure Alike (user : Address) (a b : PerpDexExecutor InMemoryStorage) : Prop where
  blockConfig : a.blockConfig = b.blockConfig
  account : SameAccount user a.storage b.storage

namespace Alike
variable {a b : PerpDexExecutor InMemoryStorage} {tx : PerpDexTx}

lemma withNextOrderId (h : Alike tx.user a b) (n n' : U64) :
    Alike tx.user (a.withNextOrderId n) (b.withNextOrderId n') :=
  ⟨h.blockConfig, h.account⟩

lemma readLocation (h : Alike tx.user a b) {l : PerpDexLocation} (hl : AccountLocation tx.user l)
    (rs : ReadSet) : a.readLocation l rs = b.readLocation l rs := by
  have hget : PerpDexStorage.get a.storage l = PerpDexStorage.get b.storage l :=
    congrArg Except.ok (h.account l hl)
  unfold PerpDexExecutor.readLocation
  rw [hget]

lemma nonceOf (h : Alike tx.user a b) : a.nonceOf tx.user = b.nonceOf tx.user := by
  unfold PerpDexExecutor.nonceOf readNonce
  rw [h.readLocation (l := .userNonce tx.user) rfl]

lemma balanceOf (h : Alike tx.user a b) (asset : U16) :
    a.balanceOf tx.user asset = b.balanceOf tx.user asset := by
  unfold PerpDexExecutor.balanceOf readBalance
  rw [h.readLocation (l := .balance tx.user asset) rfl]

lemma positionOf (h : Alike tx.user a b) (m : U64) :
    a.positionOf tx.user m = b.positionOf tx.user m := by
  unfold PerpDexExecutor.positionOf readPosition
  rw [h.readLocation (l := .position tx.user m) rfl]

lemma marketOf (h : Alike tx.user a b) (m : U64) : a.marketOf m = b.marketOf m := by
  unfold PerpDexExecutor.marketOf readMarket defaultMarket
  rw [h.readLocation (l := .marketState m) trivial, h.blockConfig]

/-- Every test comes out alike. The in-memory storage always finds the orders. -/
lemma checkOperation (h : Alike tx.user a b) (op : Operation) :
    a.checkOperation tx op = b.checkOperation tx op := by
  cases op with
  | placeOrder m =>
    simp only [PerpDexExecutor.checkOperation, h.balanceOf, h.positionOf, h.marketOf]
  | cancelAll m => cases m <;> rfl
  | adjustMargin m => simp only [PerpDexExecutor.checkOperation, h.balanceOf, h.positionOf]
  | cancelOrder | setLeverage => rfl

lemma check (h : Alike tx.user a b) : a.check tx = b.check tx := by
  have hops : ∀ ops, a.checkOperations tx ops = b.checkOperations tx ops := by
    intro ops
    induction ops with
    | nil => rfl
    | cons op ops ih => rw [checkOperations, checkOperations, ih, h.checkOperation]
  simp only [PerpDexExecutor.check, h.nonceOf, hops]

/-- What an operation writes to the account is alike. Only orders know their number. -/
lemma executeOperation (h : Alike tx.user a b) {op : Operation} {out : Outcome}
    (hout : a.executeOperation tx op .new [] = .ok out) :
    ∃ out', b.executeOperation tx op .new [] = .ok out' ∧
      accountWrites tx.user out'.writeSet = accountWrites tx.user out.writeSet := by
  have hdeleted : ∀ (m : U64) (ids : List U64), accountWrites tx.user
      ([] ++ ids.map fun id => (.order tx.user m id, PerpDexValue.deleted)) = [] := by
    intro m ids
    apply accountWrites_eq_nil
    intro w hw
    obtain ⟨id, -, rfl⟩ := List.mem_map.mp hw
    exact fun hlocation => hlocation
  cases op with
  | placeOrder m t side price size leverage postOnly reduceOnly expiresAt =>
    obtain ⟨hleverage, balance, position, market, fill, hbalance, hposition, hmarket, hcovered,
      hfill, rfl⟩ := (executePlaceOrder_ok_iff ..).mp hout
    rw [h.balanceOf] at hbalance
    rw [h.positionOf] at hposition
    rw [h.marketOf] at hmarket
    refine ⟨_, (executePlaceOrder_ok_iff ..).mpr ⟨hleverage, balance, position, market, fill,
      hbalance, hposition, hmarket, hcovered, hfill, rfl⟩, ?_⟩
    have hresting : ∀ ex : PerpDexExecutor InMemoryStorage, accountWrites tx.user
        (ex.restingWrites tx m t side price size postOnly reduceOnly expiresAt fill.1) = [] := by
      intro ex
      apply accountWrites_eq_nil
      intro w hw
      rw [restingWrites_location hw]
      exact fun hlocation => hlocation
    simp [hresting]
  | cancelOrder m ids =>
    cases hout
    exact ⟨_, rfl, rfl⟩
  | cancelAll m =>
    cases m with
    | none =>
      cases hout
      exact ⟨_, rfl, (hdeleted _ _).trans (hdeleted _ _).symm⟩
    | some m =>
      cases hout
      exact ⟨_, rfl, (hdeleted _ _).trans (hdeleted _ _).symm⟩
  | setLeverage m leverage =>
    obtain ⟨_, hleverage, hret⟩ := Fallible.bind_eq_ok.mp hout
    cases hret
    exact ⟨_, Fallible.bind_eq_ok.mpr ⟨_, hleverage, rfl⟩, rfl⟩
  | adjustMargin m amount =>
    simp only [PerpDexExecutor.executeOperation, executeAdjustMargin, readBalance_eq,
      readPosition_eq, h.balanceOf, h.positionOf] at hout ⊢
    cases hbalance : b.balanceOf tx.user usdcAssetId with
    | error e => simp [hbalance, Except.map] at hout
    | ok balance =>
      cases hposition : b.positionOf tx.user m with
      | error e =>
        by_cases hlt : amount > balance
        · simp [hbalance, hlt, Except.map] at hout
        · simp [hbalance, hposition, hlt, Except.map] at hout
      | ok position =>
        by_cases hlt : amount > balance
        · simp [hbalance, hlt, Except.map] at hout
        · cases position with
          | none => simp [hbalance, hposition, hlt, Except.map] at hout
          | some pos =>
            simp only [hbalance, hposition, hlt, Except.map, Fallible.ok_bind, if_false] at hout ⊢
            cases hout
            exact ⟨_, rfl, rfl⟩

lemma runs {ops : List Operation} {ws : WriteSet} {rs : List OperationResult}
    {a' : PerpDexExecutor InMemoryStorage} (h : Alike tx.user a b)
    (hruns : Runs tx a ops ws rs a') :
    ∃ ws' rs' b', Runs tx b ops ws' rs' b' ∧
      accountWrites tx.user ws' = accountWrites tx.user ws := by
  induction hruns generalizing b with
  | nil => exact ⟨[], [], b, .nil, rfl⟩
  | cons hop _ ih =>
    obtain ⟨out', hout', hwrites⟩ := h.executeOperation hop
    obtain ⟨ws', rs', b', hruns', hrest⟩ := ih (h.withNextOrderId _ out'.nextOrderId)
    refine ⟨_, _, b', .cons hout' hruns', ?_⟩
    rw [accountWrites_append, accountWrites_append, hwrites, hrest]

/-- A transaction is accepted or refused alike, and writes alike to the account. -/
theorem execute (h : Alike tx.user a b) :
    (a.execute tx).1.refusal = (b.execute tx).1.refusal ∧
      accountWrites tx.user (BlockState.writesOf (a.execute tx).1) =
        accountWrites tx.user (BlockState.writesOf (b.execute tx).1) := by
  cases hcheck : a.check tx with
  | error e =>
    rw [execute_of_check_error hcheck, execute_of_check_error (h.check ▸ hcheck)]
    exact ⟨rfl, rfl⟩
  | ok _ =>
    obtain ⟨ws, res, a', hexecute⟩ := execute_of_check_ok hcheck
    obtain ⟨hnonce, -, w, hruns, rfl⟩ := runs_of_execute hexecute
    obtain ⟨w', rs', b', hruns', hwrites⟩ := h.runs hruns
    rw [h.nonceOf] at hnonce
    rw [hexecute, execute_of_runs hnonce hruns']
    refine ⟨rfl, ?_⟩
    show accountWrites tx.user (w ++ _) = accountWrites tx.user (w' ++ _)
    rw [accountWrites_append, accountWrites_append, hwrites]

end Alike

/-- Somebody else's transaction does not write to the account. -/
lemma accountWrites_other {user : Address} {ex : PerpDexExecutor InMemoryStorage} {tx : PerpDexTx}
    (h : tx.user ≠ user) : accountWrites user (BlockState.writesOf (ex.execute tx).1) = [] := by
  apply accountWrites_eq_nil
  intro w hw hlocation
  cases hcheck : ex.check tx with
  | error e =>
    rw [execute_of_check_error hcheck] at hw
    simp [BlockState.writesOf] at hw
  | ok _ =>
    obtain ⟨ws, res, ex', hexecute⟩ := execute_of_check_ok hcheck
    obtain ⟨-, -, own, hruns, rfl⟩ := runs_of_execute hexecute
    rw [hexecute] at hw
    rcases List.mem_append.mp hw with hw | hw
    · have hown := hruns.own w hw
      revert hown hlocation
      cases w.1 with
      | balance u asset => exact fun hlocation hown => h (hown.1.symm.trans hlocation)
      | position u m => exact fun hlocation hown => h (Eq.trans (Eq.symm hown) hlocation)
      | order u m id => exact fun hlocation _ => hlocation
      | marketState m => exact fun _ hown => hown
      | userNonce u => exact fun _ hown => hown
    · rw [List.mem_singleton.mp hw] at hlocation
      exact h hlocation

namespace BlockState

/-- Two blocks that decide alike on the transactions of a user, from here on. -/
structure Alike (user : Address) (b b' : BlockState) : Prop where
  executor : PerpDex.Alike user b.executor b'.executor
  pending : accountWrites user b.pending = accountWrites user b'.pending

variable {user : Address} {b b' : BlockState}

lemma Alike.written (h : Alike user b b') : SameAccount user b.written b'.written :=
  h.executor.account.writeAll h.pending

lemma Alike.execute (h : Alike user b b') {tx : PerpDexTx} (hpending :
      accountWrites user (writesOf (b.executor.execute tx).1) =
        accountWrites user (writesOf (b'.executor.execute tx).1)) :
    Alike user (b.step (.execute tx)) (b'.step (.execute tx)) where
  executor := by
    constructor
    · show (b.executor.execute tx).2.blockConfig = (b'.executor.execute tx).2.blockConfig
      rw [execute_counter, execute_counter]
      exact h.executor.blockConfig
    · show SameAccount user (b.executor.execute tx).2.storage (b'.executor.execute tx).2.storage
      rw [execute_counter, execute_counter]
      exact h.executor.account
  pending := by
    show accountWrites user (b.pending ++ _) = accountWrites user (b'.pending ++ _)
    rw [accountWrites_append, accountWrites_append, h.pending, hpending]

/-- Somebody else's transaction makes no difference. -/
lemma Alike.other (h : Alike user b b') {tx : PerpDexTx} (huser : tx.user ≠ user) :
    Alike user (b.step (.execute tx)) b' where
  executor := by
    constructor
    · show (b.executor.execute tx).2.blockConfig = b'.executor.blockConfig
      rw [execute_counter]
      exact h.executor.blockConfig
    · show SameAccount user (b.executor.execute tx).2.storage b'.executor.storage
      rw [execute_counter]
      exact h.executor.account
  pending := by
    show accountWrites user (b.pending ++ _) = accountWrites user b'.pending
    rw [accountWrites_append, accountWrites_other huser, List.append_nil, h.pending]

lemma Alike.write (h : Alike user b b') : Alike user (b.step .write) (b'.step .write) :=
  ⟨⟨h.executor.blockConfig, h.written⟩, rfl⟩

lemma Alike.nextBlock (h : Alike user b b') (config : BlockConfig) :
    Alike user (start b.written config) (start b'.written config) :=
  ⟨⟨rfl, h.written⟩, rfl⟩

/-- Without the transactions of all others, the transactions of a user meet with the same. -/
theorem Alike.after (h : Alike user b b') (events : List Event) :
    Alike user (b.after events) (b'.after (events.filter (·.concerns user))) ∧
      (b.resultsOf user events).map (·.refusal) =
        (b'.resultsOf user (events.filter (·.concerns user))).map (·.refusal) := by
  induction events generalizing b b' with
  | nil => exact ⟨h, rfl⟩
  | cons event events ih =>
    match event with
    | .inBlock .write =>
      rw [List.filter_cons_of_pos rfl]
      exact ih h.write
    | .nextBlock config =>
      rw [List.filter_cons_of_pos rfl]
      exact ih (h.nextBlock config)
    | .inBlock (.execute tx) =>
      by_cases huser : tx.user = user
      · subst huser
        obtain ⟨hrefusal, hwrites⟩ := h.executor.execute
        obtain ⟨hafter, hresults⟩ := ih (h.execute hwrites)
        rw [List.filter_cons_of_pos (by simp [Event.concerns])]
        refine ⟨hafter, ?_⟩
        rw [resultsOf, resultsOf, if_pos rfl, if_pos rfl, List.map_append, List.map_append,
          List.map_singleton, List.map_singleton, hrefusal]
        exact congrArg (_ :: ·) hresults
      · obtain ⟨hafter, hresults⟩ := ih (h.other huser)
        rw [List.filter_cons_of_neg (by simpa [Event.concerns] using huser)]
        refine ⟨hafter, ?_⟩
        rw [resultsOf, if_neg huser]
        exact hresults

/-- What becomes of a user's account over a sequence of blocks, and which of the user's transactions
are refused and why, depends on the transactions of that user only. The blocks are any, and so is
the storage to begin with. -/
theorem account_of_own_transactions (storage : InMemoryStorage) (config : BlockConfig)
    (events : List Event) (user : Address) :
    SameAccount user ((start storage config).after events).written
        ((start storage config).after (events.filter (·.concerns user))).written ∧
      ((start storage config).resultsOf user events).map (·.refusal) =
        ((start storage config).resultsOf user (events.filter (·.concerns user))).map
          (·.refusal) := by
  have hstart : Alike user (start storage config) (start storage config) :=
    ⟨⟨rfl, fun _ _ => rfl⟩, rfl⟩
  obtain ⟨hafter, hresults⟩ := hstart.after events
  exact ⟨hafter.written, hresults⟩

end BlockState

end Pevm.PerpDex
