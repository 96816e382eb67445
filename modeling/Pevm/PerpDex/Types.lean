import Pevm.Primitives

/-!
# PerpDex transactions and operations

The request types of the order-book machine, as they are received, and the
results one operation reports.
-/
namespace Pevm.PerpDex

/-- The types of orders; the two with a stop rest without ever being triggered. -/
inductive OrderType
  | limit
  | market
  | stopLimit
  | stopMarket
  deriving DecidableEq, Repr

inductive Side
  | long
  | short
  deriving DecidableEq, Repr

inductive OrderStatus
  | open
  | partiallyFilled
  | filled
  | cancelled
  | expired
  deriving DecidableEq, Repr

/-- A single operation within a transaction. Prices and sizes carry 18 decimals. -/
inductive Operation
  | placeOrder (marketId : U64) (orderType : OrderType) (side : Side) (price size : U256)
      (leverage : U8) (postOnly reduceOnly : Bool) (expiresAt : Option U64)
  | cancelOrder (marketId : U64) (orderIds : List U64)
  | cancelAll (marketId : Option U64)
  | setLeverage (marketId : U64) (leverage : U8)
  | adjustMargin (marketId : U64) (amount : U256)
  deriving DecidableEq, Repr

/-- A batch of operations of one user, which succeeds or fails as a whole. -/
structure PerpDexTx where
  user : Address
  operations : List Operation
  gasLimit : U64
  gasPrice : U256
  nonce : U64
  signature : Option (Vector U8 65)
  deriving DecidableEq, Repr

/-- What an operation that has succeeded reports. -/
inductive OperationResult
  | orderPlaced (orderId : U64) (filledSize : U256)
  | ordersCancelled (orderIds : List U64)
  | leverageUpdated (marketId : U64) (leverage : U8)
  | marginAdjusted (marketId : U64) (amount : U256)
  deriving DecidableEq, Repr

/-- What a transaction that has succeeded reports: the gas that is charged and a result for each
operation. -/
structure PerpDexResult where
  gasUsed : U64
  operationsExecuted : List OperationResult
  deriving DecidableEq, Repr

end Pevm.PerpDex
