import Pevm.PerpDex.Run

/-!
# Placing an order

An order that is accepted has passed its tests in their order, and what it leaves is
decided by the fill: a resting remainder, and for a fill that is not zero a position
and a balance.
-/
namespace Pevm.PerpDex.PerpDexExecutor
open Fallible

/-- The price at which an order that passes its checks fills, if it fills: a market order at the
mark price, a limit order that crosses it at its own. -/
def fillPriceOf (market : MarketData) (t : OrderType) (side : Side) (price : U256)
    (postOnly : Bool) : Option U256 :=
  match t with
  | .market => some market.markPrice
  | .limit =>
    let crosses := match side with
      | .long => decide (market.markPrice ≤ price)
      | .short => decide (market.markPrice ≥ price)
    if postOnly || !crosses then none else some price
  | .stopLimit | .stopMarket => none

section Matching
variable {market : MarketData} {t : OrderType} {side : Side} {price size : U256}
  {postOnly reduceOnly : Bool} {position : Option PositionData} {fill : U256 × U256}

/-- The reduce-only test as both matching paths pass it: there is a position, and the order goes
against it. -/
def PassesReduceOnly (side : Side) (size : U256) (position : Option PositionData) : Prop :=
  ∃ pos, position = some pos ∧ isReducing (signedSize size side) pos.size = true

lemma checkReduceOnly_ok_iff :
    checkReduceOnly side size position = .ok () ↔ PassesReduceOnly side size position := by
  unfold checkReduceOnly PassesReduceOnly
  cases position with
  | none => simp
  | some pos => simp

/-- An order that fills, fills in full, after the reduce-only test if it makes one. -/
lemma fill_ok_iff {fillPrice : U256} :
    (do
      if reduceOnly then checkReduceOnly side size position
      return (size, fillPrice) : Except ExecutionError (U256 × U256)) = .ok fill ↔
      fill = (size, fillPrice) ∧ (reduceOnly = true → PassesReduceOnly side size position) := by
  cases reduceOnly with
  | false =>
    show Except.ok (size, fillPrice) = .ok fill ↔ _
    simp [eq_comm]
  | true =>
    show (checkReduceOnly side size position >>= fun _ => Except.ok (size, fillPrice)) = .ok fill ↔ _
    rw [bind_eq_ok]
    constructor
    · intro ⟨_, hcheck, hfill⟩
      exact ⟨(Except.ok.inj hfill).symm, fun _ => checkReduceOnly_ok_iff.mp hcheck⟩
    · intro ⟨hfill, hcheck⟩
      exact ⟨(), checkReduceOnly_ok_iff.mpr (hcheck rfl), by rw [hfill]⟩

theorem matchOrder_ok_iff :
    matchOrder t side price size postOnly reduceOnly market position = .ok fill ↔
      (fillPriceOf market t side price postOnly = none ∧ fill = (0, 0)) ∨
      ∃ fillPrice, fillPriceOf market t side price postOnly = some fillPrice ∧
        fill = (size, fillPrice) ∧
        (reduceOnly = true → PassesReduceOnly side size position) := by
  cases t with
  | market =>
    simp only [fillPriceOf, reduceCtorEq, false_and, Option.some.injEq, exists_eq_left', false_or]
    exact fill_ok_iff
  | limit =>
    cases postOnly with
    | true => simp [matchOrder, fillPriceOf, eq_comm]
    | false =>
      have hlimit : ∀ crosses : Bool, (if (!crosses) = true then .ok (0, 0) else do
          if reduceOnly then checkReduceOnly side size position
          return (size, price) : Except ExecutionError (U256 × U256)) = .ok fill ↔
          ((if (!crosses) = true then none else some price) = none ∧ fill = (0, 0)) ∨
          ∃ fillPrice, (if (!crosses) = true then none else some price) = some fillPrice ∧
            fill = (size, fillPrice) ∧
            (reduceOnly = true → PassesReduceOnly side size position) := by
        intro crosses
        cases crosses with
        | false => simp [eq_comm]
        | true =>
          simp only [Bool.not_true, Bool.false_eq_true, if_false, reduceCtorEq, false_and,
            Option.some.injEq, exists_eq_left', false_or]
          exact fill_ok_iff
      exact hlimit _
  | stopLimit => simp [matchOrder, fillPriceOf, eq_comm]
  | stopMarket => simp [matchOrder, fillPriceOf, eq_comm]

end Matching

section Outcome
variable {S : Type} [PerpDexStorage S] (ex : PerpDexExecutor S) (tx : PerpDexTx)
  (m : U64) (t : OrderType) (side : Side) (price size : U256) (leverage : U8)
  (postOnly reduceOnly : Bool) (expiresAt : Option U64)

/-- What is left of the order goes to the book, under the next id; an order that is filled in full
leaves nothing. -/
def restingWrites (filledSize : U256) : WriteSet :=
  if size - filledSize > 0 then
    [(.order tx.user m ex.nextOrderId, .order
      { orderType := t, side, price, size := size - filledSize, filled := filledSize
        status := if filledSize > 0 then .partiallyFilled else .open
        postOnly, reduceOnly, createdAt := ex.blockConfig.timestamp, expiresAt })]
  else []

/-- A fill writes the position and takes the margin of the order from the balance; an order that
rests writes neither. -/
def fillWrites (balance : U256) (position : Option PositionData) (fill : U256 × U256) :
    WriteSet :=
  if fill.1 > 0 then
    [(.position tx.user m, .position (updatePosition position side fill.1 fill.2 leverage)),
      (.balance tx.user usdcAssetId,
        .balance (balance - calculateRequiredMargin price size leverage))]
  else []

variable {ex tx m t side price size leverage postOnly reduceOnly expiresAt}

omit [PerpDexStorage S] in
lemma restingWrites_location {filledSize : U256} {w : PerpDexLocation × PerpDexValue}
    (h : w ∈ ex.restingWrites tx m t side price size postOnly reduceOnly expiresAt filledSize) :
    w.1 = .order tx.user m ex.nextOrderId := by
  unfold restingWrites at h
  split at h
  · rw [List.mem_singleton.mp h]
  · simp at h

lemma fillWrites_location {balance : U256} {position : Option PositionData} {fill : U256 × U256}
    {w : PerpDexLocation × PerpDexValue}
    (h : w ∈ fillWrites tx m side price size leverage balance position fill) :
    w.1 = .position tx.user m ∨ w.1 = .balance tx.user usdcAssetId := by
  unfold fillWrites at h
  split_ifs at h
  · simp only [List.mem_cons, List.not_mem_nil, or_false] at h
    exact h.imp (fun h => by rw [h]) fun h => by rw [h]
  · simp at h

variable (ex tx m t side price size leverage postOnly reduceOnly expiresAt)

/-- An order is accepted exactly when it passes its tests, and then this is what it leaves. -/
theorem executePlaceOrder_ok_iff {rs : ReadSet} {ws : WriteSet} {out : Outcome} :
    ex.executePlaceOrder tx m t side price size leverage postOnly reduceOnly expiresAt rs ws =
        .ok out ↔
      checkLeverage leverage = .ok () ∧ ∃ balance position market fill,
        ex.balanceOf tx.user usdcAssetId = .ok balance ∧
        ex.positionOf tx.user m = .ok position ∧ ex.marketOf m = .ok market ∧
        calculateRequiredMargin price size leverage ≤ balance ∧
        matchOrder t side price size postOnly reduceOnly market position = .ok fill ∧
        out = ⟨.orderPlaced ex.nextOrderId fill.1, rs,
          ws ++ ex.restingWrites tx m t side price size postOnly reduceOnly expiresAt fill.1 ++
            fillWrites tx m side price size leverage balance position fill,
          ex.nextOrderId + 1⟩ := by
  simp only [executePlaceOrder, readBalance_eq, readPosition_eq, readMarket_eq]
  cases checkLeverage leverage with
  | error e => simp
  | ok _ =>
  cases ex.balanceOf tx.user usdcAssetId with
  | error e => simp [Except.map]
  | ok balance =>
  cases ex.positionOf tx.user m with
  | error e => simp [Except.map]
  | ok position =>
  cases ex.marketOf m with
  | error e => simp [Except.map]
  | ok market =>
  simp only [Except.map, ok_bind, Except.ok.injEq, true_and, exists_and_left, exists_eq_left',
    ← BitVec.not_lt]
  by_cases hlt : balance < calculateRequiredMargin price size leverage
  · simp [hlt]
  · cases matchOrder t side price size postOnly reduceOnly market position with
    | error e => simp [hlt]
    | ok fill =>
      simp only [hlt, if_false, ok_bind, not_false_eq_true, true_and, Except.ok.injEq,
        exists_eq_left']
      exact ⟨fun h => (Except.ok.inj h).symm, fun h => by rw [h]; rfl⟩

variable {ex tx m} in
/-- A margin is adjusted when the balance covers it and there is a position. -/
lemma executeAdjustMargin_ok {amount : U256} {out : Outcome}
    (h : ex.executeAdjustMargin tx m amount .new [] = .ok out) :
    ∃ balance pos, ex.balanceOf tx.user usdcAssetId = .ok balance ∧
      ex.positionOf tx.user m = .ok (some pos) ∧ amount ≤ balance ∧
      out.writeSet =
        [(.position tx.user m, .position { pos with margin := pos.margin + amount }),
          (.balance tx.user usdcAssetId, .balance (balance - amount))] := by
  simp only [executeAdjustMargin, readBalance_eq, readPosition_eq] at h
  cases hb : ex.balanceOf tx.user usdcAssetId with
  | error e => simp [hb, Except.map] at h
  | ok balance =>
    by_cases hlt : amount > balance
    · simp [hb, hlt, Except.map] at h
    · cases hp : ex.positionOf tx.user m with
      | error e => simp [hb, hp, hlt, Except.map] at h
      | ok position =>
        cases position with
        | none => simp [hb, hp, hlt, Except.map] at h
        | some pos =>
          simp only [hb, hp, hlt, Except.map, ok_bind, if_false, List.nil_append] at h
          cases h
          exact ⟨balance, pos, rfl, rfl, BitVec.not_lt.mp hlt, rfl⟩

end Outcome

end Pevm.PerpDex.PerpDexExecutor
