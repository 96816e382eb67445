import Pevm.Lib.Fallible
import Pevm.PerpDex.State

/-!
# The PerpDex executor

`execute` runs the operations of one transaction in order. Every read goes to the
storage; the writes are collected and returned, and are not seen by later
operations of the transaction. The order counter belongs to the executor and keeps
what it has given out also when the transaction fails.
-/
namespace Pevm.PerpDex

structure BlockConfig where
  timestamp : U64
  blockNumber : U64
  deriving DecidableEq, Repr

/-- Why a transaction of the exchange is refused. -/
inductive ExecutionError
  | nonceMismatch (expected actual : U64)
  | insufficientBalance (required available : U256)
  | invalidLeverage (leverage : U8)
  | reduceOnlyViolation
  | invalidPosition (message : String)
  | storage (e : StorageError)
  | orderNotFound (orderId : U64)
  deriving DecidableEq, Repr

/-- Where a value that was read came from, in the executor traits. -/
inductive ReadOrigin
  | mvMemory (txIdx txIncarnation : ℕ)
  | storage
  deriving DecidableEq, Repr

/-- The read set of the executor traits, with a location beside its origins. -/
structure ReadSet where
  entries : List (PerpDexLocation × List ReadOrigin)
  deriving DecidableEq, Repr

namespace ReadSet
def new : ReadSet := ⟨[]⟩
def isEmpty (r : ReadSet) : Bool := r.entries.isEmpty
end ReadSet

/-- What a transaction writes, in the order in which it was pushed. The hashes that `push` adds are
left out. -/
abbrev WriteSet := List (PerpDexLocation × PerpDexValue)

/-- The flags that an execution ends with, in the byte of the executor traits. -/
structure FinishExecFlags where
  bits : U8
  deriving DecidableEq, Repr

namespace FinishExecFlags
def empty : FinishExecFlags := ⟨0⟩
/-- `NeedValidation = 0`, which has no bit here either. -/
def needValidation : FinishExecFlags := ⟨0⟩
/-- `WroteNewLocation`, the lowest bit. -/
def wroteNewLocation : FinishExecFlags := ⟨1⟩
end FinishExecFlags

/-- How an execution ends in the executor traits. The executor itself succeeds or returns an error.
-/
inductive VmExecutionResult
  | success (readSet : ReadSet) (writeSet : WriteSet) (result : PerpDexResult)
      (flags : FinishExecFlags)
  | blocked (txIdx : ℕ)
  | retry
  | fallbackToSequential
  | error (e : ExecutionError)
  deriving DecidableEq, Repr

/-- `PerpDexExecutor`: a storage that it reads, the block that it is for, and the counter for order
ids. -/
structure PerpDexExecutor (S : Type) where
  storage : S
  blockConfig : BlockConfig
  nextOrderId : U64

def usdcAssetId : U16 := 0

/-- `PRICE_PRECISION`, the unit of prices. -/
def pricePrecision : U256 := 10 ^ 18

section Arithmetic

def direction : Side → I128
  | .long => 1
  | .short => -1

/-- `size.try_into().unwrap_or(i128::MAX)`: a size that does not fit is cut off. -/
def clampToI128 (size : U256) : I128 :=
  if size.toNat ≤ 2 ^ 127 - 1 then size.setWidth 128 else BitVec.intMax 128

/-- The size of an order with the sign of its side. -/
def signedSize (size : U256) (side : Side) : I128 := clampToI128 size * direction side

/-- `unsigned_abs`, widened to a `U256`. The most negative size has a magnitude as well. -/
def magnitude (size : I128) : U256 := size.abs.setWidth 256

/-- `calculate_required_margin`: the product wraps at 256 bits, and the divisions round down. -/
def calculateRequiredMargin (price size : U256) (leverage : U8) : U256 :=
  let notional := price * size / pricePrecision
  notional / leverage.setWidth 256

/-- `is_reducing` compares signs only, whatever the sizes are. -/
def isReducing (orderSizeSigned positionSize : I128) : Bool :=
  if positionSize = 0 then false
  else
    let sameSign := decide (0 < orderSizeSigned.toInt) == decide (0 < positionSize.toInt)
    !sameSign

/-- The entry price after a fill of `sizeDelta` at `fillPrice` on an existing position. -/
def newEntryPrice (pos : PositionData) (sizeDelta newSize : I128) (fillPrice : U256) : U256 :=
  if pos.size.toInt.sign = sizeDelta.toInt.sign then
    let oldNotional := magnitude pos.size * pos.entryPrice / pricePrecision
    let newNotional := magnitude sizeDelta * fillPrice / pricePrecision
    let totalNotional := oldNotional + newNotional
    let totalSize := magnitude newSize
    if totalSize > 0 then totalNotional * pricePrecision / totalSize else 0
  else if newSize.abs.toInt < pos.size.abs.toInt then pos.entryPrice
  else fillPrice

/-- `update_position`: the position after a fill. Its margin is worked out anew from its entry price
and its whole size. -/
def updatePosition (current : Option PositionData) (side : Side) (filledSize fillPrice : U256)
    (leverage : U8) : PositionData :=
  let sizeDelta := signedSize filledSize side
  match current with
  | some pos =>
    let newSize := pos.size + sizeDelta
    let entryPrice := newEntryPrice pos sizeDelta newSize fillPrice
    { size := newSize
      entryPrice
      leverage
      margin := calculateRequiredMargin entryPrice (magnitude newSize) leverage
      unrealizedPnl := 0
      lastFundingIndex := pos.lastFundingIndex }
  | none =>
    { size := sizeDelta
      entryPrice := fillPrice
      leverage
      margin := calculateRequiredMargin fillPrice filledSize leverage
      unrealizedPnl := 0
      lastFundingIndex := 0 }

end Arithmetic

section Matching

/-- The reduce-only test that both matching paths make. Without a position it fails. -/
def checkReduceOnly (side : Side) (size : U256) (currentPosition : Option PositionData) :
    Except ExecutionError Unit :=
  match currentPosition with
  | some pos =>
    if isReducing (signedSize size side) pos.size then .ok () else .error .reduceOnlyViolation
  | none => .error .reduceOnlyViolation

/-- `execute_market_order`: a market order fills in full at the mark price. -/
def executeMarketOrder (side : Side) (size : U256) (market : MarketData)
    (currentPosition : Option PositionData) (reduceOnly : Bool) :
    Except ExecutionError (U256 × U256) := do
  if reduceOnly then checkReduceOnly side size currentPosition
  return (size, market.markPrice)

/-- `execute_limit_order`: a limit order fills in full at its own price, or not at all. -/
def executeLimitOrder (side : Side) (price size : U256) (market : MarketData)
    (currentPosition : Option PositionData) (reduceOnly : Bool) :
    Except ExecutionError (U256 × U256) := do
  let canFill := match side with
    | .long => decide (market.markPrice ≤ price)
    | .short => decide (market.markPrice ≥ price)
  if !canFill then return (0, 0)
  else
    if reduceOnly then checkReduceOnly side size currentPosition
    return (size, price)

end Matching

namespace PerpDexExecutor
variable {S : Type} [PerpDexStorage S] (ex : PerpDexExecutor S)

/-- `PerpDexExecutor::new`: every executor counts its order ids from 1. -/
def new (storage : S) (blockConfig : BlockConfig) : PerpDexExecutor S :=
  ⟨storage, blockConfig, 1⟩

/-- `read_location`: the read set is handed on as it came, so reads are not tracked, and nothing is
looked up in the write set. -/
def readLocation (location : PerpDexLocation) (readSet : ReadSet) :
    Except ExecutionError (Option PerpDexValue × ReadSet) :=
  match PerpDexStorage.get ex.storage location with
  | .ok value => .ok (value, readSet)
  | .error e => .error (.storage e)

/-- `read_nonce`: a user that never traded has nonce 0. -/
def readNonce (user : Address) (readSet : ReadSet) : Except ExecutionError (U64 × ReadSet) := do
  let (value, readSet) ← ex.readLocation (.userNonce user) readSet
  match value with
  | some (.nonce n) => return (n, readSet)
  | none => return (0, readSet)
  | _ => .error (.invalidPosition "Invalid nonce value")

/-- `read_balance`: a balance that was never written is 0. -/
def readBalance (user : Address) (assetId : U16) (readSet : ReadSet) :
    Except ExecutionError (U256 × ReadSet) := do
  let (value, readSet) ← ex.readLocation (.balance user assetId) readSet
  match value with
  | some (.balance b) => return (b, readSet)
  | none => return (0, readSet)
  | _ => .error (.invalidPosition "Invalid balance value")

/-- `read_position`: a position that was never written is none. -/
def readPosition (user : Address) (marketId : U64) (readSet : ReadSet) :
    Except ExecutionError (Option PositionData × ReadSet) := do
  let (value, readSet) ← ex.readLocation (.position user marketId) readSet
  match value with
  | some (.position p) => return (some p, readSet)
  | none => return (none, readSet)
  | _ => .error (.invalidPosition "Invalid position value")

/-- A market that nobody has written stands at $1000. -/
def defaultMarket : MarketData where
  indexPrice := 1000 * 10 ^ 18
  markPrice := 1000 * 10 ^ 18
  fundingRate := 0
  fundingIndex := 0
  openInterestLong := 0
  openInterestShort := 0
  lastUpdate := ex.blockConfig.timestamp

/-- `read_market`, with the default for a market that was never written. -/
def readMarket (marketId : U64) (readSet : ReadSet) :
    Except ExecutionError (MarketData × ReadSet) := do
  let (value, readSet) ← ex.readLocation (.marketState marketId) readSet
  match value with
  | some (.marketState m) => return (m, readSet)
  | none => return (ex.defaultMarket, readSet)
  | _ => .error (.invalidPosition "Invalid market state")

/-- What an operation that succeeds leaves behind: its result, both sets and the counter for order
ids. -/
structure Outcome where
  result : OperationResult
  readSet : ReadSet
  writeSet : WriteSet
  nextOrderId : U64

def checkLeverage (leverage : U8) : Except ExecutionError Unit :=
  if leverage < 1 ∨ leverage > 100 then .error (.invalidLeverage leverage) else .ok ()

/-- `execute_set_leverage`: the leverage is checked and reported, and nothing is written. -/
def executeSetLeverage (marketId : U64) (leverage : U8) (readSet : ReadSet)
    (writeSet : WriteSet) : Except ExecutionError Outcome := do
  checkLeverage leverage
  return ⟨.leverageUpdated marketId leverage, readSet, writeSet, ex.nextOrderId⟩

/-- `execute_adjust_margin`: the amount goes from the balance to the margin of the position. -/
def executeAdjustMargin (tx : PerpDexTx) (marketId : U64) (amount : U256) (readSet : ReadSet)
    (writeSet : WriteSet) : Except ExecutionError Outcome := do
  let (balance, readSet) ← ex.readBalance tx.user usdcAssetId readSet
  if amount > balance then .error (.insufficientBalance amount balance) else
  let (position, readSet) ← ex.readPosition tx.user marketId readSet
  match position with
  | some pos =>
    return ⟨.marginAdjusted marketId amount, readSet,
      writeSet ++
        [(.position tx.user marketId, .position { pos with margin := pos.margin + amount }),
         (.balance tx.user usdcAssetId, .balance (balance - amount))], ex.nextOrderId⟩
  | none => .error (.invalidPosition "No position to adjust margin")

/-- `execute_cancel_order`: the ids are deleted without a look whether they are there. -/
def executeCancelOrder (tx : PerpDexTx) (marketId : U64) (orderIds : List U64)
    (readSet : ReadSet) (writeSet : WriteSet) : Except ExecutionError Outcome :=
  .ok ⟨.ordersCancelled orderIds, readSet,
    writeSet ++ orderIds.map (fun id => (.order tx.user marketId id, .deleted)), ex.nextOrderId⟩

/-- `execute_cancel_all`: the ids come from the index. Without a market filter every deletion goes
to market 0. -/
def executeCancelAll (tx : PerpDexTx) (marketId : Option U64) (readSet : ReadSet)
    (writeSet : WriteSet) : Except ExecutionError Outcome :=
  let found := match marketId with
    | some mid => PerpDexStorage.getUserOrders ex.storage tx.user mid
    | none => PerpDexStorage.getAllUserOrders ex.storage tx.user
  match found with
  | .ok orderIds =>
    .ok ⟨.ordersCancelled orderIds, readSet,
      writeSet ++ orderIds.map (fun id => (.order tx.user (marketId.getD 0) id, .deleted)),
      ex.nextOrderId⟩
  | .error e => .error (.storage e)

/-- How an order is matched, by its type: the size that is filled and the price. Orders with a stop
and post-only orders are not filled. -/
def matchOrder (orderType : OrderType) (side : Side) (price size : U256) (postOnly reduceOnly : Bool)
    (market : MarketData) (position : Option PositionData) :
    Except ExecutionError (U256 × U256) :=
  match orderType with
  | .market => executeMarketOrder side size market position reduceOnly
  | .limit =>
    if postOnly then .ok (0, 0)
    else executeLimitOrder side price size market position reduceOnly
  | .stopLimit | .stopMarket => .ok (0, 0)

/-- `execute_place_order`: the margin is asked for at the order's own price; what is filled changes
position and balance, what is not rests in the book. -/
def executePlaceOrder (tx : PerpDexTx) (marketId : U64) (orderType : OrderType) (side : Side)
    (price size : U256) (leverage : U8) (postOnly reduceOnly : Bool) (expiresAt : Option U64)
    (readSet : ReadSet) (writeSet : WriteSet) : Except ExecutionError Outcome := do
  checkLeverage leverage
  let (balance, readSet) ← ex.readBalance tx.user usdcAssetId readSet
  let (position, readSet) ← ex.readPosition tx.user marketId readSet
  let (market, readSet) ← ex.readMarket marketId readSet
  let requiredMargin := calculateRequiredMargin price size leverage
  if balance < requiredMargin then .error (.insufficientBalance requiredMargin balance) else
  let (filledSize, avgFillPrice) ←
    matchOrder orderType side price size postOnly reduceOnly market position
  let orderId := ex.nextOrderId
  let remaining := size - filledSize
  let orderWrites : WriteSet :=
    if remaining > 0 then
      [(.order tx.user marketId orderId, .order
        { orderType, side, price, size := remaining, filled := filledSize
          status := if filledSize > 0 then .partiallyFilled else .open
          postOnly, reduceOnly, createdAt := ex.blockConfig.timestamp, expiresAt })]
    else []
  let fillWrites : WriteSet :=
    if filledSize > 0 then
      [(.position tx.user marketId,
          .position (updatePosition position side filledSize avgFillPrice leverage)),
       (.balance tx.user usdcAssetId, .balance (balance - requiredMargin))]
    else []
  return ⟨.orderPlaced orderId filledSize, readSet, writeSet ++ orderWrites ++ fillWrites,
    ex.nextOrderId + 1⟩

def executeOperation (tx : PerpDexTx) (op : Operation) (readSet : ReadSet)
    (writeSet : WriteSet) : Except ExecutionError Outcome :=
  match op with
  | .placeOrder marketId orderType side price size leverage postOnly reduceOnly expiresAt =>
    ex.executePlaceOrder tx marketId orderType side price size leverage postOnly reduceOnly
      expiresAt readSet writeSet
  | .cancelOrder marketId orderIds => ex.executeCancelOrder tx marketId orderIds readSet writeSet
  | .cancelAll marketId => ex.executeCancelAll tx marketId readSet writeSet
  | .setLeverage marketId leverage => ex.executeSetLeverage marketId leverage readSet writeSet
  | .adjustMargin marketId amount => ex.executeAdjustMargin tx marketId amount readSet writeSet

/-- `estimate_gas`, the same for every operation. -/
def estimateGas (_op : Operation) : U64 := 21000

/-- What the loop over the operations has collected so far. -/
structure Progress where
  readSet : ReadSet
  writeSet : WriteSet
  results : List OperationResult
  gasUsed : U64

/-- The same executor with another counter for order ids. -/
def withNextOrderId (id : U64) : PerpDexExecutor S := { ex with nextOrderId := id }

/-- The loop over the operations; the executor is returned with its counter also on failure. -/
def executeOperations (tx : PerpDexTx) (ex : PerpDexExecutor S) :
    List Operation → Progress → Except ExecutionError Progress × PerpDexExecutor S
  | [], progress => (.ok progress, ex)
  | op :: ops, progress =>
    match ex.executeOperation tx op progress.readSet progress.writeSet with
    | .ok out =>
      executeOperations tx (ex.withNextOrderId out.nextOrderId) ops
        { readSet := out.readSet, writeSet := out.writeSet
          results := progress.results ++ [out.result]
          gasUsed := progress.gasUsed + estimateGas op }
    | .error e => (.error e, ex)

/-- `execute`: the nonce is checked, the operations are run one after the other, and the nonce is
written last. The counter for order ids stays used up after a failure. -/
def execute (tx : PerpDexTx) : VmExecutionResult × PerpDexExecutor S :=
  match ex.readNonce tx.user .new with
  | .error e => (.error e, ex)
  | .ok (currentNonce, readSet) =>
    if currentNonce ≠ tx.nonce then (.error (.nonceMismatch currentNonce tx.nonce), ex)
    else
      match executeOperations tx ex tx.operations ⟨readSet, [], [], 0⟩ with
      | (.error e, ex) => (.error e, ex)
      | (.ok p, ex) =>
        let writeSet := p.writeSet ++ [(.userNonce tx.user, .nonce (currentNonce + 1))]
        let flags := if p.readSet.isEmpty then FinishExecFlags.empty else .needValidation
        (.success p.readSet writeSet ⟨p.gasUsed, p.results⟩ flags, ex)

end PerpDexExecutor

end Pevm.PerpDex
