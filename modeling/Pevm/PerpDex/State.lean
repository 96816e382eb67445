import Pevm.PerpDex.Types
import Mathlib.Data.List.AList

/-!
# PerpDex state

Locations, values, and the in-memory storage with its index of user orders.
-/
namespace Pevm.PerpDex

inductive PerpDexLocation
  | balance (user : Address) (assetId : U16)
  | position (user : Address) (marketId : U64)
  | order (user : Address) (marketId orderId : U64)
  | marketState (marketId : U64)
  | userNonce (user : Address)
  deriving DecidableEq, Repr

/-- A position of a user in a market. A positive size is long, a negative one short. -/
structure PositionData where
  size : I128
  entryPrice : U256
  leverage : U8
  margin : U256
  unrealizedPnl : I128
  lastFundingIndex : U256
  deriving DecidableEq, Repr

/-- An order that rests in the book, with what is filled of it. -/
structure OrderData where
  orderType : OrderType
  side : Side
  price : U256
  size : U256
  filled : U256
  status : OrderStatus
  postOnly : Bool
  reduceOnly : Bool
  createdAt : U64
  expiresAt : Option U64
  deriving DecidableEq, Repr

/-- What is kept of a market; only the mark price decides about fills. -/
structure MarketData where
  indexPrice : U256
  markPrice : U256
  fundingRate : I128
  fundingIndex : U256
  openInterestLong : U256
  openInterestShort : U256
  lastUpdate : U64
  deriving DecidableEq, Repr

/-- What may be stored at a location. Nothing but the code that writes it makes it fit the location.
-/
inductive PerpDexValue
  | balance (amount : U256)
  | position (data : PositionData)
  | order (data : OrderData)
  | marketState (data : MarketData)
  | nonce (n : U64)
  | lazyFunding (marketId : U64) (positionSize : I128)
  | deleted
  deriving DecidableEq, Repr

/-- The errors of a storage of the exchange. -/
inductive StorageError
  | notFound (location : PerpDexLocation)
  | invalidState (message : String)
  deriving DecidableEq, Repr

/-- Storage backend for PerpDex state. -/
class PerpDexStorage (S : Type) where
  get : S → PerpDexLocation → Except StorageError (Option PerpDexValue)
  set : S → PerpDexLocation → PerpDexValue → Except StorageError S
  delete : S → PerpDexLocation → Except StorageError S
  getUserOrders : S → Address → U64 → Except StorageError (List U64)
  getAllUserOrders : S → Address → Except StorageError (List U64)

/-- The storage in memory: the values, and `userOrders`, the index `(user, market) → order ids`. -/
structure InMemoryStorage where
  data : PerpDexLocation → Option PerpDexValue
  userOrders : AList fun _ : Address × U64 => List U64

namespace InMemoryStorage

/-- `InMemoryStorage::new`: nothing is stored and nothing indexed. -/
def new : InMemoryStorage := ⟨fun _ => none, ∅⟩

/-- `InMemoryStorage::with_balances`: balances to begin with; the last one of a location counts. -/
def withBalances (balances : List (Address × U16 × U256)) : InMemoryStorage :=
  { new with
    data := balances.foldl
      (fun data b => Function.update data (.balance b.1 b.2.1) (some (.balance b.2.2)))
      new.data }

/-- `add_order_index`: the id is put at the end of the list, also where it is there already. -/
def addOrderIndex (s : InMemoryStorage) (user : Address) (marketId orderId : U64) :
    InMemoryStorage :=
  { s with
    userOrders := s.userOrders.insert (user, marketId)
      ((s.userOrders.lookup (user, marketId)).getD [] ++ [orderId]) }

/-- `remove_order_index`: all occurrences of the id leave the list, which stays even when it is
empty. -/
def removeOrderIndex (s : InMemoryStorage) (user : Address) (marketId orderId : U64) :
    InMemoryStorage :=
  match s.userOrders.lookup (user, marketId) with
  | some orderList =>
    { s with
      userOrders := s.userOrders.replace (user, marketId) (orderList.filter (· ≠ orderId)) }
  | none => s

/-- What `set` does to the index. Only an order that is not `deleted` enters it. -/
def trackSet (s : InMemoryStorage) : PerpDexLocation → PerpDexValue → InMemoryStorage
  | .order _ _ _, .deleted => s
  | .order user marketId orderId, _ => s.addOrderIndex user marketId orderId
  | _, _ => s

def trackDelete (s : InMemoryStorage) : PerpDexLocation → InMemoryStorage
  | .order user marketId orderId => s.removeOrderIndex user marketId orderId
  | _ => s

/-- `InMemoryStorage::set`: the index first, then the value. -/
def set (s : InMemoryStorage) (location : PerpDexLocation) (value : PerpDexValue) :
    InMemoryStorage :=
  let s := s.trackSet location value
  { s with data := Function.update s.data location (some value) }

/-- `InMemoryStorage::delete`: the index first, then the value is removed. -/
def delete (s : InMemoryStorage) (location : PerpDexLocation) : InMemoryStorage :=
  let s := s.trackDelete location
  { s with data := Function.update s.data location none }

/-- `get_user_orders`: the ids of a user in one market, in the order in which they came. -/
def getUserOrders (s : InMemoryStorage) (user : Address) (marketId : U64) : List U64 :=
  (s.userOrders.lookup (user, marketId)).getD []

/-- `get_all_user_orders`: the lists of all markets of a user, one after the other. The source
iterates over a hash map. -/
def getAllUserOrders (s : InMemoryStorage) (user : Address) : List U64 :=
  s.userOrders.entries.flatMap fun e => if e.1.1 = user then e.2 else []

@[simp] theorem addOrderIndex_data (s : InMemoryStorage) (user : Address) (m id : U64) :
    (s.addOrderIndex user m id).data = s.data := rfl

@[simp] theorem trackSet_data (s : InMemoryStorage) (l : PerpDexLocation) (v : PerpDexValue) :
    (s.trackSet l v).data = s.data := by
  cases l <;> cases v <;> rfl

@[simp] theorem set_data (s : InMemoryStorage) (l : PerpDexLocation) (v : PerpDexValue) :
    (s.set l v).data = Function.update s.data l (some v) := by
  simp [set]

@[simp] theorem set_userOrders (s : InMemoryStorage) (l : PerpDexLocation) (v : PerpDexValue) :
    (s.set l v).userOrders = (s.trackSet l v).userOrders := rfl

end InMemoryStorage

/-- No call on the in-memory storage fails. -/
instance : PerpDexStorage InMemoryStorage where
  get s location := .ok (s.data location)
  set s location value := .ok (s.set location value)
  delete s location := .ok (s.delete location)
  getUserOrders s user marketId := .ok (s.getUserOrders user marketId)
  getAllUserOrders s user := .ok (s.getAllUserOrders user)

end Pevm.PerpDex
