import Pevm.Lib.BigEndian
import Pevm.Lib.Fallible
import Pevm.PerpDex.Types

/-!
# The byte format of PerpDex transactions

The encoder and the decoder of `hybrid.rs`. The decoder keeps its own offset into
the input; an access outside the input, and a capacity no allocation can have, are
panics. Offsets and lengths are `usize` and wrap.
-/
namespace Pevm.Hybrid
open Pevm.PerpDex BigEndian Fallible

inductive DecodeError
  | invalidLength
  | invalidFormat
  | invalidSignature
  deriving DecidableEq, Repr

/-- How decoding stops without a value: an error that it returns, or a panic. -/
inductive Fault
  | error (e : DecodeError)
  | panic
  deriving DecidableEq, Repr

/-- Input bytes. Those of a Rust vector never exceed `isize::MAX`, so offsets into them do not wrap
as long as they stay inside. -/
structure Bytes where
  data : List U8
  length_le : data.length ≤ isizeMax

/-- What `decode_perpdex_tx` reads of the EVM transaction that carries the request. -/
structure CarryingTx where
  input : Bytes
  maxFeePerGas : U128

/-- `data[offset]`, which panics outside the data. -/
def readU8 (data : List U8) (offset : ℕ) : Except Fault U8 :=
  byteAt .panic data offset

/-- A word of `w` bits from `n` bytes, most significant first; the slice panics outside the data. -/
def readWord (w n : ℕ) (data : List U8) (offset : ℕ) : Except Fault (BitVec w) := do
  let field ← range .panic data offset (usizeAdd offset n)
  return BitVec.ofNat w (ofBytes field)

def readU64 := readWord 64 8
def readU256 := readWord 256 32

/-- The length check at the head of every decoder, with the wrapping sum of the source. -/
def ensure (data : List U8) (offset n : ℕ) : Except Fault Unit :=
  if usizeAdd offset n > data.length then .error (.error .invalidFormat) else .ok ()

/-- The order type that a byte stands for; other bytes are refused. -/
def orderTypeOfByte : U8 → Except Fault PerpDex.OrderType
  | 0 => .ok .limit
  | 1 => .ok .market
  | 2 => .ok .stopLimit
  | 3 => .ok .stopMarket
  | _ => .error (.error .invalidFormat)

/-- Zero stands for `None` in the optional words of the format. -/
def noneIfZero (raw : U64) : Option U64 := if raw = 0 then none else some raw

/-- The decoder of `PlaceOrder`, field by field. It asks for 89 bytes and reads 85. -/
def decodePlaceOrder (data : List U8) (offset : ℕ) : Except Fault (Operation × ℕ) := do
  ensure data offset 89
  let marketId ← readU64 data offset
  let offset := usizeAdd offset 8
  let orderTypeByte ← readU8 data offset
  let offset := usizeAdd offset 1
  let orderType ← orderTypeOfByte orderTypeByte
  let sideByte ← readU8 data offset
  let side := if sideByte = 0 then Side.long else Side.short
  let offset := usizeAdd offset 1
  let price ← readU256 data offset
  let offset := usizeAdd offset 32
  let size ← readU256 data offset
  let offset := usizeAdd offset 32
  let leverage ← readU8 data offset
  let offset := usizeAdd offset 1
  let postOnly ← readU8 data offset
  let offset := usizeAdd offset 1
  let reduceOnly ← readU8 data offset
  let offset := usizeAdd offset 1
  let expiresAtRaw ← readU64 data offset
  let offset := usizeAdd offset 8
  return (.placeOrder marketId orderType side price size leverage (postOnly ≠ 0)
    (reduceOnly ≠ 0) (noneIfZero expiresAtRaw), offset)

/-- `Vec::with_capacity` for elements of eight bytes, which panics beyond `isize::MAX` bytes. -/
def withCapacity (count : ℕ) : Except Fault Unit :=
  if count * 8 > isizeMax then .error .panic else .ok ()

/-- The loop that reads `count` order ids, one after the other. -/
def readIds (data : List U8) : ℕ → ℕ → Except Fault (List U64 × ℕ)
  | 0, offset => return ([], offset)
  | count + 1, offset => do
    let id ← readU64 data offset
    let rest ← readIds data count (usizeAdd offset 8)
    return (id :: rest.1, rest.2)

/-- The decoder of `CancelOrder`: a market, a count and that many ids. The product in the second
check wraps. -/
def decodeCancelOrder (data : List U8) (offset : ℕ) : Except Fault (Operation × ℕ) := do
  ensure data offset 16
  let marketId ← readU64 data offset
  let offset := usizeAdd offset 8
  let countWord ← readU64 data offset
  let count := countWord.toNat
  let offset := usizeAdd offset 8
  ensure data offset (usizeMul count 8)
  withCapacity count
  let ids ← readIds data count offset
  return (.cancelOrder marketId ids.1, ids.2)

/-- The decoder of `CancelAll`, where market 0 stands for all markets. -/
def decodeCancelAll (data : List U8) (offset : ℕ) : Except Fault (Operation × ℕ) := do
  ensure data offset 8
  let marketIdRaw ← readU64 data offset
  let offset := usizeAdd offset 8
  return (.cancelAll (noneIfZero marketIdRaw), offset)

/-- The decoder of `SetLeverage`: a market and a byte. -/
def decodeSetLeverage (data : List U8) (offset : ℕ) : Except Fault (Operation × ℕ) := do
  ensure data offset 9
  let marketId ← readU64 data offset
  let offset := usizeAdd offset 8
  let leverage ← readU8 data offset
  let offset := usizeAdd offset 1
  return (.setLeverage marketId leverage, offset)

/-- The decoder of `AdjustMargin`: a market and an amount without sign. -/
def decodeAdjustMargin (data : List U8) (offset : ℕ) : Except Fault (Operation × ℕ) := do
  ensure data offset 40
  let marketId ← readU64 data offset
  let offset := usizeAdd offset 8
  let amount ← readU256 data offset
  let offset := usizeAdd offset 32
  return (.adjustMargin marketId amount, offset)

/-- One round of the decoding loop: an operation and the offset behind it. An unknown type byte is
refused. -/
def decodeOperation (data : List U8) (offset : ℕ) : Except Fault (Operation × ℕ) := do
  let opType ← readU8 data offset
  let offset := usizeAdd offset 1
  match opType with
  | 0 => decodePlaceOrder data offset
  | 1 => decodeCancelOrder data offset
  | 2 => decodeCancelAll data offset
  | 3 => decodeSetLeverage data offset
  | 4 => decodeAdjustMargin data offset
  | _ => .error (.error .invalidFormat)

section Advance
variable {data : List U8} {offset : ℕ}

lemma readU8_post (hl : data.length ≤ isizeMax) :
    Post (readU8 data offset) fun _ =>
      usizeAdd offset 1 = offset + 1 ∧ offset + 1 ≤ data.length := by
  intro b hb
  unfold isizeMax at hl
  have hlt : offset < data.length := by
    by_contra hge
    have hnone : data[offset]? = none := by simp; omega
    simp [readU8, byteAt, hnone] at hb
  exact ⟨usizeAdd_eq (by omega), hlt⟩

lemma readWord_post (w n : ℕ) (hn : n < 2 ^ 63) (hl : data.length ≤ isizeMax) :
    Post (readWord w n data offset) fun _ =>
      usizeAdd offset n = offset + n ∧ offset + n ≤ data.length := by
  intro x hx
  obtain ⟨field, hfield, -⟩ := bind_eq_ok.mp hx
  unfold isizeMax at hl
  unfold range at hfield
  split at hfield
  · rename_i hin
    have heq : usizeAdd offset n = offset + n := usizeAdd_eq (by omega)
    rw [heq] at hin
    exact ⟨heq, hin.2⟩
  · cases hfield

lemma readIds_post (hl : data.length ≤ isizeMax) (count : ℕ) (ho : offset ≤ data.length) :
    Post (readIds data count offset) fun r => offset ≤ r.2 ∧ r.2 ≤ data.length := by
  induction count generalizing offset with
  | zero => exact Post.pure ⟨le_rfl, ho⟩
  | succ count ih =>
    refine (readWord_post 64 8 (by norm_num) hl).bind fun id hid => ?_
    rw [hid.1]
    refine (ih hid.2).bind fun rest hrest => Post.pure ⟨?_, hrest.2⟩
    have := hrest.1
    dsimp only
    omega

/-- A decoded record ends inside the input, and not before where it starts. This is what the loop
terminates by. -/
def Advances (data : List U8) (offset : ℕ) (r : Operation × ℕ) : Prop :=
  offset ≤ r.2 ∧ r.2 ≤ data.length

lemma decodePlaceOrder_post (hl : data.length ≤ isizeMax) :
    Post (decodePlaceOrder data offset) (Advances data offset) := by
  refine Post.trivial.bind fun _ _ => ?_
  refine (readWord_post 64 8 (by norm_num) hl).bind fun _ h1 => ?_
  rw [h1.1]
  refine (readU8_post hl).bind fun _ h2 => ?_
  rw [h2.1]
  refine Post.trivial.bind fun _ _ => ?_
  refine (readU8_post hl).bind fun _ h3 => ?_
  rw [h3.1]
  refine (readWord_post 256 32 (by norm_num) hl).bind fun _ h4 => ?_
  rw [h4.1]
  refine (readWord_post 256 32 (by norm_num) hl).bind fun _ h5 => ?_
  rw [h5.1]
  refine (readU8_post hl).bind fun _ h6 => ?_
  rw [h6.1]
  refine (readU8_post hl).bind fun _ h7 => ?_
  rw [h7.1]
  refine (readU8_post hl).bind fun _ h8 => ?_
  rw [h8.1]
  refine (readWord_post 64 8 (by norm_num) hl).bind fun _ h9 => Post.pure ⟨?_, ?_⟩
  · rw [h9.1]
    dsimp only
    omega
  · rw [h9.1]
    exact h9.2

lemma decodeCancelOrder_post (hl : data.length ≤ isizeMax) :
    Post (decodeCancelOrder data offset) (Advances data offset) := by
  refine Post.trivial.bind fun _ _ => ?_
  refine (readWord_post 64 8 (by norm_num) hl).bind fun _ h1 => ?_
  rw [h1.1]
  refine (readWord_post 64 8 (by norm_num) hl).bind fun countWord h2 => ?_
  rw [h2.1]
  refine Post.trivial.bind fun _ _ => Post.trivial.bind fun _ _ => ?_
  refine (readIds_post hl countWord.toNat h2.2).bind fun ids h3 => Post.pure ⟨?_, h3.2⟩
  have := h3.1
  dsimp only
  omega

lemma decodeCancelAll_post (hl : data.length ≤ isizeMax) :
    Post (decodeCancelAll data offset) (Advances data offset) := by
  refine Post.trivial.bind fun _ _ => ?_
  refine (readWord_post 64 8 (by norm_num) hl).bind fun _ h1 => ?_
  rw [h1.1]
  exact Post.pure ⟨Nat.le_add_right _ _, h1.2⟩

lemma decodeSetLeverage_post (hl : data.length ≤ isizeMax) :
    Post (decodeSetLeverage data offset) (Advances data offset) := by
  refine Post.trivial.bind fun _ _ => ?_
  refine (readWord_post 64 8 (by norm_num) hl).bind fun _ h1 => ?_
  rw [h1.1]
  refine (readU8_post hl).bind fun _ h2 => ?_
  rw [h2.1]
  exact Post.pure ⟨by dsimp only; omega, h2.2⟩

lemma decodeAdjustMargin_post (hl : data.length ≤ isizeMax) :
    Post (decodeAdjustMargin data offset) (Advances data offset) := by
  refine Post.trivial.bind fun _ _ => ?_
  refine (readWord_post 64 8 (by norm_num) hl).bind fun _ h1 => ?_
  rw [h1.1]
  refine (readWord_post 256 32 (by norm_num) hl).bind fun _ h2 => ?_
  rw [h2.1]
  exact Post.pure ⟨by dsimp only; omega, h2.2⟩

/-- Every round of the loop moves the offset forward and keeps it inside the input. -/
theorem decodeOperation_post (hl : data.length ≤ isizeMax) :
    Post (decodeOperation data offset) fun r => offset < r.2 ∧ r.2 ≤ data.length := by
  refine (readU8_post hl).bind fun opType h => ?_
  rw [h.1]
  have step : ∀ {x : Except Fault (Operation × ℕ)}, Post x (Advances data (offset + 1)) →
      Post x fun r => offset < r.2 ∧ r.2 ≤ data.length :=
    fun hx r hr => ⟨(hx r hr).1, (hx r hr).2⟩
  split
  · exact step (decodePlaceOrder_post hl)
  · exact step (decodeCancelOrder_post hl)
  · exact step (decodeCancelAll_post hl)
  · exact step (decodeSetLeverage_post hl)
  · exact step (decodeAdjustMargin_post hl)
  · exact Post.error _

end Advance

/-- The loop `while offset < data.len()`; it ends because every round moves forward. -/
def decodeLoop (data : Bytes) (offset : ℕ) (operations : List Operation) :
    Except Fault (List Operation) :=
  if offset < data.data.length then
    if usizeAdd offset 1 > data.data.length then .ok operations
    else
      match _h : decodeOperation data.data offset with
      | .error e => .error e
      | .ok (op, offset') => decodeLoop data offset' (operations ++ [op])
  else .ok operations
termination_by data.data.length - offset
decreasing_by
  have hstep := decodeOperation_post data.length_le _ _h
  dsimp only at hstep
  omega

/-- `decode_operations`: records up to the end of the input; an empty input has none. -/
def decodeOperations (data : Bytes) : Except Fault (List Operation) :=
  if data.data.isEmpty then .ok [] else decodeLoop data 0 []

/-- The input behind its first `n` bytes, which is no longer than the input. -/
def Bytes.drop (b : Bytes) (n : ℕ) : Bytes :=
  ⟨b.data.drop n, (List.length_drop ..).trans_le ((Nat.sub_le _ _).trans b.length_le)⟩

/-- `decode_perpdex_tx`: a header of 44 bytes, of which the last 8 are not read, then the
operations. The gas price is taken from the carrying transaction. -/
def decodePerpdexTx (tx : CarryingTx) : Except Fault PerpDexTx := do
  let input := tx.input.data
  if input.length < 44 then .error (.error .invalidLength) else
  let user ← readWord 160 20 input 0
  let nonce ← readU64 input 20
  let gasLimit ← readU64 input 28
  let gasPrice := tx.maxFeePerGas.setWidth 256
  let operations ← decodeOperations (tx.input.drop 44)
  return { user, operations, gasLimit, gasPrice, nonce, signature := none }

def orderTypeByte : PerpDex.OrderType → U8
  | .limit => 0
  | .market => 1
  | .stopLimit => 2
  | .stopMarket => 3

/-- The encoding of one operation: its type byte, then its fields, most significant byte first. -/
def encodeOperation : Operation → List U8
  | .placeOrder marketId orderType side price size leverage postOnly reduceOnly expiresAt =>
      [0] ++ toBytes 8 marketId.toNat ++ [orderTypeByte orderType] ++
        [if side = .long then 0 else 1] ++ toBytes 32 price.toNat ++ toBytes 32 size.toNat ++
        [leverage] ++ [if postOnly then 1 else 0] ++ [if reduceOnly then 1 else 0] ++
        toBytes 8 (expiresAt.getD 0).toNat
  | .cancelOrder marketId orderIds =>
      [1] ++ toBytes 8 marketId.toNat ++ toBytes 8 (BitVec.ofNat 64 orderIds.length).toNat ++
        orderIds.flatMap (fun id => toBytes 8 id.toNat)
  | .cancelAll marketId => [2] ++ toBytes 8 (marketId.getD 0).toNat
  | .setLeverage marketId leverage => [3] ++ toBytes 8 marketId.toNat ++ [leverage]
  | .adjustMargin marketId amount =>
      [4] ++ toBytes 8 marketId.toNat ++ toBytes 32 amount.toNat

/-- `encode_perpdex_tx`: the header and the operations behind it. The gas price keeps only its low
eight bytes. -/
def encodePerpdexTx (tx : PerpDexTx) : List U8 :=
  toBytes 20 tx.user.toNat ++ toBytes 8 tx.nonce.toNat ++ toBytes 8 tx.gasLimit.toNat ++
    (toBytes 32 tx.gasPrice.toNat).drop 24 ++ tx.operations.flatMap encodeOperation

end Pevm.Hybrid
