import Pevm.PerpDex.Position

/-!
# What an accepted order does

The margin an accepted order is checked for, the position it writes when it fills, and the
direction a reduce-only order moves the position in, against the exact numbers.
-/
namespace Pevm.PerpDex
open Wrapping

/-- The positions that a write set holds for a user and a market, in push order. -/
def positionWrites (user : Address) (m : U64) (ws : WriteSet) : List PositionData :=
  ws.filterMap fun w =>
    if w.1 = .position user m then
      match w.2 with
      | .position p => some p
      | _ => none
    else none

namespace PerpDexExecutor

section Writes
variable {S : Type} [PerpDexStorage S] (ex : PerpDexExecutor S) (tx : PerpDexTx)
  (m : U64) (t : OrderType) (side : Side) (price size : U256) (leverage : U8)
  (postOnly reduceOnly : Bool) (expiresAt : Option U64)

lemma positionWrites_append (user : Address) (ws ws' : WriteSet) :
    positionWrites user m (ws ++ ws') = positionWrites user m ws ++ positionWrites user m ws' :=
  List.filterMap_append

omit [PerpDexStorage S] in
lemma positionWrites_restingWrites (filledSize : U256) :
    positionWrites tx.user m
      (ex.restingWrites tx m t side price size postOnly reduceOnly expiresAt filledSize) = [] := by
  unfold restingWrites positionWrites
  split_ifs <;> simp

lemma positionWrites_fillWrites (balance : U256) (position : Option PositionData)
    (fill : U256 × U256) :
    positionWrites tx.user m (fillWrites tx m side price size leverage balance position fill) =
      if fill.1 > 0 then [updatePosition position side fill.1 fill.2 leverage] else [] := by
  unfold fillWrites positionWrites
  split_ifs <;> simp

end Writes

section Accepted
variable {S : Type} [PerpDexStorage S] {ex : PerpDexExecutor S} {tx : PerpDexTx}
  {m : U64} {t : OrderType} {side : Side} {price size : U256} {leverage : U8}
  {postOnly reduceOnly : Bool} {expiresAt : Option U64} {rs : ReadSet} {ws : WriteSet}
  {out : Outcome}

/-- The fill an accepted order reports is the one that its position is updated with. -/
theorem executePlaceOrder_position
    (h : ex.executePlaceOrder tx m t side price size leverage postOnly reduceOnly expiresAt rs ws =
      .ok out) :
    ∃ (position : Option PositionData) (fill : U256 × U256),
      ex.positionOf tx.user m = .ok position ∧
      out.result = .orderPlaced ex.nextOrderId fill.1 ∧
      positionWrites tx.user m (out.writeSet.drop ws.length) =
        (if fill.1 > 0 then [updatePosition position side fill.1 fill.2 leverage] else []) ∧
      (fill.1 > 0 → fill.1 = size ∧
        (reduceOnly = true → PassesReduceOnly side size position)) := by
  obtain ⟨-, balance, position, market, fill, -, hposition, -, -, hmatch, rfl⟩ :=
    (ex.executePlaceOrder_ok_iff tx m t side price size leverage postOnly reduceOnly
      expiresAt).mp h
  refine ⟨position, fill, hposition, rfl, ?_, ?_⟩
  · rw [List.append_assoc, List.drop_left, positionWrites_append, positionWrites_restingWrites,
      positionWrites_fillWrites, List.nil_append]
  · intro hfill
    obtain ⟨-, rfl⟩ | ⟨fillPrice, -, rfl, hreduce⟩ := matchOrder_ok_iff.mp hmatch
    · exact absurd hfill (by decide)
    · exact ⟨rfl, hreduce⟩

/-- An accepted order that reports a fill writes one position, and its size has moved by the
reported fill exactly when the order is one an `i128` can hold and so is the new size. -/
theorem positionSize_exact_iff {orderId : U64} {filledSize : U256}
    (h : ex.executePlaceOrder tx m t side price size leverage postOnly reduceOnly expiresAt rs ws =
      .ok out) (hresult : out.result = .orderPlaced orderId filledSize) (hfill : filledSize ≠ 0) :
    ∃ position written, ex.positionOf tx.user m = .ok position ∧
      positionWrites tx.user m (out.writeSet.drop ws.length) = [written] ∧
      (written.size.toInt - sizeOrZero position = side.sign * filledSize.toNat ↔
        size.toNat ≤ i128Max ∧ FitsI128 (sizeOrZero position + side.sign * size.toNat)) := by
  obtain ⟨position, fill, hposition, hreport, hwrites, hsize⟩ := executePlaceOrder_position h
  rw [hresult] at hreport
  obtain ⟨-, rfl⟩ := OperationResult.orderPlaced.inj hreport
  have hpos : fill.1 > 0 := toNat_pos hfill
  obtain ⟨rfl, -⟩ := hsize hpos
  rw [if_pos hpos] at hwrites
  exact ⟨position, _, hposition, hwrites, updatePosition_size_exact_iff ..⟩

/-- An accepted reduce-only order that changes a position reduces it exactly when it is no
larger than the position, or the position is at least `i128::MAX`. -/
theorem reduceOnly_reduces_iff {written : PositionData}
    (h : ex.executePlaceOrder tx m t side price size leverage postOnly true expiresAt rs ws =
      .ok out)
    (hwrites : positionWrites tx.user m (out.writeSet.drop ws.length) = [written]) :
    ∃ pos, ex.positionOf tx.user m = .ok (some pos) ∧
      (Reduced pos.size.toInt written.size.toInt ↔
        size.toNat ≤ pos.size.toInt.natAbs ∨ i128Max ≤ pos.size.toInt.natAbs) := by
  obtain ⟨position, fill, hposition, -, hwritten, hsize⟩ := executePlaceOrder_position h
  rw [hwrites] at hwritten
  by_cases hpos : fill.1 > 0
  · rw [if_pos hpos] at hwritten
    obtain rfl := List.singleton_inj.mp hwritten
    obtain ⟨hfill, hpasses⟩ := hsize hpos
    obtain ⟨pos, rfl, hreducing⟩ := hpasses rfl
    have hne : size ≠ 0 := by
      intro hzero
      rw [hfill, hzero] at hpos
      exact absurd hpos (by decide)
    rw [isReducing_signedSize_iff hne] at hreducing
    rw [hfill]
    exact ⟨pos, hposition, reduced_iff hne hreducing⟩
  · rw [if_neg hpos] at hwritten
    cases hwritten

end Accepted

section Margin

/-- The margin of a notional in unbounded integers, with the divisions of the code but without its
wrapping product. -/
def trueMargin (price size : U256) (leverage : U8) : ℕ :=
  price.toNat * size.toNat / 10 ^ 18 / leverage.toNat

/-- The margin the code asks for is the true one exactly when the product fits a word. -/
theorem calculateRequiredMargin_exact_iff (price size : U256) {leverage : U8}
    (hlow : 1 ≤ leverage.toNat) :
    (calculateRequiredMargin price size leverage).toNat = trueMargin price size leverage ↔
      price.toNat * size.toNat < 2 ^ 256 := by
  have hlt := leverage.isLt
  rw [calculateRequiredMargin_toNat, trueMargin, Nat.div_div_eq_div_mul]
  exact mod_div_eq_iff (by omega) (by omega) _

lemma calculateRequiredMargin_le (price size : U256) (leverage : U8) :
    (calculateRequiredMargin price size leverage).toNat ≤ trueMargin price size leverage := by
  rw [calculateRequiredMargin_toNat, trueMargin, Nat.div_div_eq_div_mul]
  exact Nat.div_le_div_right (Nat.mod_le _ _)

variable (m : U64) (t : OrderType) (side : Side) (price size : U256) (leverage : U8)
  (postOnly reduceOnly : Bool) (expiresAt : Option U64)

/-- Whatever the storage holds, an accepted order finds its true margin in the balance. -/
def MarginChecked : Prop :=
  ∀ (S : Type) [PerpDexStorage S] (ex : PerpDexExecutor S) (tx : PerpDexTx) (rs : ReadSet)
    (ws : WriteSet) (out : Outcome),
    ex.executePlaceOrder tx m t side price size leverage postOnly reduceOnly expiresAt rs ws =
        .ok out →
      ∃ balance, ex.balanceOf tx.user usdcAssetId = .ok balance ∧
        trueMargin price size leverage ≤ balance.toNat

/-- A position that any order of the side reduces, whatever its size: one unit the other way. -/
def opposing : PositionData where
  size := -direction side
  entryPrice := 0
  leverage := 1
  margin := 0
  unrealizedPnl := 0
  lastFundingIndex := 0

/-- An executor on a storage in which user 0 has a balance and an opposing position. -/
def stakedExecutor (balance : U256) : PerpDexExecutor InMemoryStorage :=
  new ((InMemoryStorage.new.set (.balance 0 usdcAssetId) (.balance balance)).set (.position 0 m)
    (.position (opposing side))) ⟨0, 0⟩

/-- A transaction of user 0 whose operations are called by themselves. -/
def stakedTx : PerpDexTx := ⟨0, [], 0, 0, 0, none⟩

lemma balanceOf_stakedExecutor (balance : U256) :
    (stakedExecutor m side balance).balanceOf stakedTx.user usdcAssetId = .ok balance := by
  have hdata : (stakedExecutor m side balance).storage.data (.balance 0 usdcAssetId) =
      some (.balance balance) := by
    simp [stakedExecutor, new]
  unfold balanceOf readBalance readLocation
  rw [show PerpDexStorage.get (stakedExecutor m side balance).storage
    (.balance stakedTx.user usdcAssetId) = .ok (some (.balance balance)) from congrArg _ hdata]
  rfl

lemma positionOf_stakedExecutor (balance : U256) :
    (stakedExecutor m side balance).positionOf stakedTx.user m = .ok (some (opposing side)) := by
  have hdata : (stakedExecutor m side balance).storage.data (.position 0 m) =
      some (.position (opposing side)) := by
    simp [stakedExecutor, new]
  unfold positionOf readPosition readLocation
  rw [show PerpDexStorage.get (stakedExecutor m side balance).storage
    (.position stakedTx.user m) = .ok (some (.position (opposing side))) from congrArg _ hdata]
  rfl

lemma marketOf_stakedExecutor (balance : U256) :
    (stakedExecutor m side balance).marketOf m =
      .ok (stakedExecutor m side balance).defaultMarket := by
  have hdata : (stakedExecutor m side balance).storage.data (.marketState m) = none := by
    simp [stakedExecutor, new, InMemoryStorage.new]
  unfold marketOf readMarket readLocation
  rw [show PerpDexStorage.get (stakedExecutor m side balance).storage (.marketState m) =
    .ok none from congrArg _ hdata]
  rfl

/-- The order is accepted with just the margin that the code asks for. -/
lemma exists_accepted (hlow : 1 ≤ leverage.toNat) (hhigh : leverage.toNat ≤ 100) (hsize : size ≠ 0) :
    ∃ out, (stakedExecutor m side (calculateRequiredMargin price size leverage)).executePlaceOrder
      stakedTx m t side price size leverage postOnly reduceOnly expiresAt .new [] = .ok out := by
  have hpasses : PassesReduceOnly side size (some (opposing side)) := by
    refine ⟨opposing side, rfl, (isReducing_signedSize_iff hsize _).mpr ?_⟩
    cases side <;> decide
  have hleverage : checkLeverage leverage = .ok () := by
    refine if_neg fun hout => ?_
    have h1 : ¬ leverage < 1 := Nat.not_lt_of_le hlow
    have h100 : ¬ leverage > 100 := Nat.not_lt_of_le hhigh
    exact hout.elim h1 h100
  set required := calculateRequiredMargin price size leverage with hrequired
  obtain ⟨fill, hfill⟩ : ∃ fill, matchOrder t side price size postOnly reduceOnly
      (stakedExecutor m side required).defaultMarket (some (opposing side)) = .ok fill := by
    cases hprice : fillPriceOf (stakedExecutor m side required).defaultMarket t side price
        postOnly with
    | none => exact ⟨(0, 0), matchOrder_ok_iff.mpr (.inl ⟨hprice, rfl⟩)⟩
    | some fillPrice =>
      exact ⟨_, matchOrder_ok_iff.mpr (.inr ⟨fillPrice, hprice, rfl, fun _ => hpasses⟩)⟩
  exact ⟨_, (executePlaceOrder_ok_iff ..).mpr ⟨hleverage, required, some (opposing side), _, fill,
    balanceOf_stakedExecutor m side required, positionOf_stakedExecutor m side required,
    marketOf_stakedExecutor m side required, BitVec.le_refl _, hfill, rfl⟩⟩

/-- The margin check uses the true notional exactly when price times size fits a word. The storage
and the user are any, and the leverage is one that the executor accepts. -/
theorem marginChecked_iff (hlow : 1 ≤ leverage.toNat) (hhigh : leverage.toNat ≤ 100) :
    MarginChecked m t side price size leverage postOnly reduceOnly expiresAt ↔
      price.toNat * size.toNat < 2 ^ 256 := by
  constructor
  · intro hchecked
    by_contra hwraps
    have hsize : size ≠ 0 := by
      intro hzero
      rw [hzero] at hwraps
      simp at hwraps
    obtain ⟨out, hout⟩ := exists_accepted m t side price size leverage postOnly reduceOnly expiresAt
      hlow hhigh hsize
    obtain ⟨balance, hbalance, hle⟩ := hchecked _ _ _ _ _ _ hout
    rw [balanceOf_stakedExecutor, Except.ok.injEq] at hbalance
    rw [← hbalance] at hle
    have hexact := Nat.le_antisymm (calculateRequiredMargin_le price size leverage) hle
    exact hwraps ((calculateRequiredMargin_exact_iff price size hlow).mp hexact)
  · intro hfits S _ ex tx rs ws out hout
    obtain ⟨-, balance, position, market, fill, hbalance, -, -, hmargin, -⟩ :=
      (ex.executePlaceOrder_ok_iff tx m t side price size leverage postOnly reduceOnly
        expiresAt).mp hout
    refine ⟨balance, hbalance, ?_⟩
    rw [← (calculateRequiredMargin_exact_iff price size hlow).mpr hfits]
    exact hmargin

/-- The order of `test_calculate_required_margin` is checked for its true margin. -/
theorem marginChecked_thousand :
    MarginChecked 1 .limit .long (1000 * 10 ^ 18) (10 ^ 18) 10 false false none :=
  (marginChecked_iff 1 .limit .long (1000 * 10 ^ 18) (10 ^ 18) 10 false false none (by decide)
    (by decide)).mpr (by decide)

/-- A user without a balance buys `2 ^ 128` at a price of `2 ^ 128`: the product wraps to zero. -/
theorem not_marginChecked_wrapping :
    ¬ MarginChecked 1 .market .long (2 ^ 128) (2 ^ 128) 1 false false none := by
  intro hchecked
  have haccepted : ((new InMemoryStorage.new ⟨0, 0⟩).executePlaceOrder stakedTx 1 .market .long
      (2 ^ 128) (2 ^ 128) 1 false false none .new []).isOk = true := by decide +kernel
  obtain ⟨out, hout⟩ := Fallible.exists_ok haccepted
  obtain ⟨balance, hbalance, hle⟩ := hchecked _ _ _ _ _ out hout
  have hempty : (new InMemoryStorage.new ⟨0, 0⟩).balanceOf stakedTx.user usdcAssetId = .ok 0 := by
    decide +kernel
  rw [hempty, Except.ok.injEq] at hbalance
  rw [← hbalance] at hle
  have htrue : ¬ trueMargin (2 ^ 128) (2 ^ 128) 1 ≤ (0 : U256).toNat := by decide +kernel
  exact htrue hle

end Margin

section Sample

/-- User 0 holds ten units long in market 1. -/
def holdingExecutor : PerpDexExecutor InMemoryStorage :=
  new (InMemoryStorage.new.set (.position 0 1) (.position tenLong)) ⟨0, 0⟩

/-- What a market order without a price reports, and the sizes it writes in market 1. -/
def sizesAfter (ex : PerpDexExecutor InMemoryStorage) (side : Side) (size : U256)
    (reduceOnly : Bool) : Except ExecutionError (OperationResult × List I128) :=
  (ex.executePlaceOrder stakedTx 1 .market side 0 size 1 false reduceOnly none .new []).map
    fun out => (out.result, (positionWrites 0 1 out.writeSet).map (·.size))

lemma exists_of_sizesAfter {ex : PerpDexExecutor InMemoryStorage} {side : Side} {size : U256}
    {reduceOnly : Bool} {result : OperationResult} {new : I128}
    (h : sizesAfter ex side size reduceOnly = .ok (result, [new])) :
    ∃ out written, ex.executePlaceOrder stakedTx 1 .market side 0 size 1 false reduceOnly none
        .new [] = .ok out ∧ out.result = result ∧
      positionWrites stakedTx.user 1 (out.writeSet.drop 0) = [written] ∧ written.size = new := by
  unfold sizesAfter at h
  cases hout : ex.executePlaceOrder stakedTx 1 .market side 0 size 1 false reduceOnly none
      .new [] with
  | error e =>
    rw [hout] at h
    cases h
  | ok out =>
    rw [hout] at h
    obtain ⟨hresult, hsizes⟩ := Prod.mk.inj (Except.ok.inj h)
    obtain ⟨written, hwritten, hsize⟩ := List.map_eq_singleton_iff.mp hsizes
    exact ⟨out, written, rfl, hresult, hwritten, hsize⟩

/-- Buying five more moves the position by five. -/
theorem positionSize_exact_buy_five :
    ∃ written : PositionData, written.size = 15 ∧
      written.size.toInt - sizeOrZero (some tenLong) = 5 := by
  obtain ⟨out, written, hout, hresult, hwrites, hsize⟩ := exists_of_sizesAfter
    (by decide +kernel : sizesAfter holdingExecutor .long 5 false = .ok (.orderPlaced 1 5, [15]))
  obtain ⟨position, written', hposition, hwrites', hexact⟩ :=
    positionSize_exact_iff hout hresult (by decide)
  have hheld : holdingExecutor.positionOf stakedTx.user 1 = .ok (some tenLong) := by
    decide +kernel
  rw [hheld, Except.ok.injEq] at hposition
  have hsame : written = written' := List.singleton_inj.mp (hwrites.symm.trans hwrites')
  rw [← hposition, ← hsame] at hexact
  exact ⟨written, hsize, hexact.mpr (by decide)⟩

/-- An order for `2 ^ 127` is reported as filled in full, and opens a position of one less. -/
theorem not_positionSize_exact_clamped :
    ∃ out written, (new InMemoryStorage.new ⟨0, 0⟩).executePlaceOrder stakedTx 1 .market .long 0
        (2 ^ 127) 1 false false none .new [] = .ok out ∧
      out.result = .orderPlaced 1 (2 ^ 127) ∧
      positionWrites stakedTx.user 1 (out.writeSet.drop 0) = [written] ∧
      ¬ written.size.toInt - sizeOrZero none = Side.long.sign * (2 ^ 127 : U256).toNat := by
  obtain ⟨out, written, hout, hresult, hwrites, hsize⟩ := exists_of_sizesAfter
    (by decide +kernel : sizesAfter (new InMemoryStorage.new ⟨0, 0⟩) .long (2 ^ 127) false =
      .ok (.orderPlaced 1 (2 ^ 127), [2 ^ 127 - 1]))
  refine ⟨out, written, hout, hresult, hwrites, ?_⟩
  rw [hsize]
  decide +kernel

/-- A reduce-only sale of four leaves six. -/
theorem reduceOnly_reduces_sell_four :
    ∃ written : PositionData, written.size = 6 ∧
      Reduced tenLong.size.toInt written.size.toInt := by
  obtain ⟨out, written, hout, -, hwrites, hsize⟩ := exists_of_sizesAfter
    (by decide +kernel : sizesAfter holdingExecutor .short 4 true = .ok (.orderPlaced 1 4, [6]))
  obtain ⟨pos, hposition, hreduces⟩ := reduceOnly_reduces_iff hout hwrites
  have hheld : holdingExecutor.positionOf stakedTx.user 1 = .ok (some tenLong) := by
    decide +kernel
  rw [hheld, Except.ok.injEq, Option.some.injEq] at hposition
  rw [← hposition] at hreduces
  exact ⟨written, hsize, hreduces.mpr (by decide)⟩

/-- A reduce-only sale of twenty-five turns ten long into fifteen short. -/
theorem not_reduceOnly_reduces_sell_twentyFive :
    ∃ out written, holdingExecutor.executePlaceOrder stakedTx 1 .market .short 0 25 1 false true none
        .new [] = .ok out ∧
      holdingExecutor.positionOf stakedTx.user 1 = .ok (some tenLong) ∧
      positionWrites stakedTx.user 1 (out.writeSet.drop 0) = [written] ∧
      ¬ Reduced tenLong.size.toInt written.size.toInt := by
  obtain ⟨out, written, hout, -, hwrites, hsize⟩ := exists_of_sizesAfter
    (by decide +kernel : sizesAfter holdingExecutor .short 25 true =
      .ok (.orderPlaced 1 25, [-15]))
  refine ⟨out, written, hout, by decide +kernel, hwrites, ?_⟩
  rw [hsize]
  decide

end Sample

end PerpDexExecutor

end Pevm.PerpDex
