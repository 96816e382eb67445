import Pevm.Lib.Logged
import Pevm.Hybrid

/-!
# The decoder under watch

The decoder of `hybrid.rs` once more, with every index, slice, `usize` computation and
capacity request on record. `Watched.decodeOperations_result` says that it is the same
decoder.
-/
namespace Pevm.Hybrid
open Pevm.PerpDex BigEndian Fallible

/-- What the decoder does that can go wrong: it indexes, slices, adds and multiplies offsets, and
asks for capacity. -/
inductive Access
  | index (i : ℕ)
  | slice (lo hi : ℕ)
  | add (a b : ℕ)
  | mul (a b : ℕ)
  | capacity (n : ℕ)
  deriving DecidableEq, Repr

/-- Inside an input of `len` bytes, without a wrap, and with no more room than it has bytes. -/
def Access.Safe (len : ℕ) : Access → Prop
  | .index i => i < len
  | .slice lo hi => lo ≤ hi ∧ hi ≤ len
  | .add a b => a + b < 2 ^ 64
  | .mul a b => a * b < 2 ^ 64
  | .capacity n => n ≤ len

namespace Watched

abbrev Decoding := Logged Access Fault

/-- The sum of two offsets, on record before it wraps. -/
def add (a b : ℕ) : Decoding ℕ := do
  Logged.note (.add a b)
  return usizeAdd a b

/-- The product of two lengths, on record before it wraps. -/
def mul (a b : ℕ) : Decoding ℕ := do
  Logged.note (.mul a b)
  return usizeMul a b

def readU8 (data : List U8) (offset : ℕ) : Decoding U8 := do
  Logged.note (.index offset)
  Logged.quiet (Hybrid.readU8 data offset)

/-- A word from `n` bytes; the end of the slice is a sum on record, and so is the slice. -/
def readWord (w n : ℕ) (data : List U8) (offset : ℕ) : Decoding (BitVec w) := do
  let stop ← add offset n
  Logged.note (.slice offset stop)
  let field ← Logged.quiet (range .panic data offset stop)
  return BitVec.ofNat w (ofBytes field)

def readU64 := readWord 64 8
def readU256 := readWord 256 32

def ensure (data : List U8) (offset n : ℕ) : Decoding PUnit := do
  let stop ← add offset n
  if stop > data.length then Logged.quiet (.error (.error .invalidFormat)) else return .unit

/-- The decoder of `PlaceOrder` on record, field by field as the plain one. -/
def decodePlaceOrder (data : List U8) (offset : ℕ) : Decoding (Operation × ℕ) := do
  ensure data offset 89
  let marketId ← readU64 data offset
  let offset ← add offset 8
  let orderTypeByte ← readU8 data offset
  let offset ← add offset 1
  let orderType ← Logged.quiet (orderTypeOfByte orderTypeByte)
  let sideByte ← readU8 data offset
  let side := if sideByte = 0 then Side.long else Side.short
  let offset ← add offset 1
  let price ← readU256 data offset
  let offset ← add offset 32
  let size ← readU256 data offset
  let offset ← add offset 32
  let leverage ← readU8 data offset
  let offset ← add offset 1
  let postOnly ← readU8 data offset
  let offset ← add offset 1
  let reduceOnly ← readU8 data offset
  let offset ← add offset 1
  let expiresAtRaw ← readU64 data offset
  let offset ← add offset 8
  return (.placeOrder marketId orderType side price size leverage (postOnly ≠ 0)
    (reduceOnly ≠ 0) (noneIfZero expiresAtRaw), offset)

def withCapacity (count : ℕ) : Decoding PUnit := do
  Logged.note (.capacity count)
  Logged.quiet (Hybrid.withCapacity count)

def readIds (data : List U8) : ℕ → ℕ → Decoding (List U64 × ℕ)
  | 0, offset => return ([], offset)
  | count + 1, offset => do
    let id ← readU64 data offset
    let offset ← add offset 8
    let rest ← readIds data count offset
    return (id :: rest.1, rest.2)

/-- The decoder of `CancelOrder` on record; the product in the second check is put down as well. -/
def decodeCancelOrder (data : List U8) (offset : ℕ) : Decoding (Operation × ℕ) := do
  ensure data offset 16
  let marketId ← readU64 data offset
  let offset ← add offset 8
  let countWord ← readU64 data offset
  let count := countWord.toNat
  let offset ← add offset 8
  let bytes ← mul count 8
  ensure data offset bytes
  withCapacity count
  let ids ← readIds data count offset
  return (.cancelOrder marketId ids.1, ids.2)

def decodeCancelAll (data : List U8) (offset : ℕ) : Decoding (Operation × ℕ) := do
  ensure data offset 8
  let marketIdRaw ← readU64 data offset
  let offset ← add offset 8
  return (.cancelAll (noneIfZero marketIdRaw), offset)

def decodeSetLeverage (data : List U8) (offset : ℕ) : Decoding (Operation × ℕ) := do
  ensure data offset 9
  let marketId ← readU64 data offset
  let offset ← add offset 8
  let leverage ← readU8 data offset
  let offset ← add offset 1
  return (.setLeverage marketId leverage, offset)

def decodeAdjustMargin (data : List U8) (offset : ℕ) : Decoding (Operation × ℕ) := do
  ensure data offset 40
  let marketId ← readU64 data offset
  let offset ← add offset 8
  let amount ← readU256 data offset
  let offset ← add offset 32
  return (.adjustMargin marketId amount, offset)

/-- The record behind a type byte, on record. -/
def decodeRecord (data : List U8) (opType : U8) (offset : ℕ) : Decoding (Operation × ℕ) :=
  match opType with
  | 0 => decodePlaceOrder data offset
  | 1 => decodeCancelOrder data offset
  | 2 => decodeCancelAll data offset
  | 3 => decodeSetLeverage data offset
  | 4 => decodeAdjustMargin data offset
  | _ => Logged.quiet (.error (.error .invalidFormat))

/-- One round of the decoding loop on record: the type byte and what is behind it. -/
def decodeOperation (data : List U8) (offset : ℕ) : Decoding (Operation × ℕ) := do
  let opType ← readU8 data offset
  let offset ← add offset 1
  decodeRecord data opType offset

section Result
variable {data : List U8} {offset : ℕ}

@[simp] lemma add_result (a b : ℕ) : (add a b).result = .ok (usizeAdd a b) := by
  simp [add]

@[simp] lemma mul_result (a b : ℕ) : (mul a b).result = .ok (usizeMul a b) := by
  simp [mul]

@[simp] lemma readU8_result : (readU8 data offset).result = Hybrid.readU8 data offset := by
  simp [readU8]

@[simp] lemma readWord_result (w n : ℕ) :
    (readWord w n data offset).result = Hybrid.readWord w n data offset := by
  simp [readWord, Hybrid.readWord]
  rfl

@[simp] lemma readU64_result : (readU64 data offset).result = Hybrid.readU64 data offset :=
  readWord_result 64 8

@[simp] lemma readU256_result : (readU256 data offset).result = Hybrid.readU256 data offset :=
  readWord_result 256 32

@[simp] lemma ensure_result (n : ℕ) :
    (ensure data offset n).result = Hybrid.ensure data offset n := by
  simp only [ensure, Hybrid.ensure, Logged.result_bind, add_result, ok_bind]
  split_ifs <;> rfl

@[simp] lemma withCapacity_result (count : ℕ) :
    (withCapacity count).result = Hybrid.withCapacity count := by
  simp [withCapacity]

@[simp] lemma readIds_result (count : ℕ) :
    (readIds data count offset).result = Hybrid.readIds data count offset := by
  induction count generalizing offset with
  | zero => rfl
  | succ count ih =>
    simp only [readIds, Hybrid.readIds, Logged.result_bind, readU64_result, add_result, ok_bind,
      ih]
    rfl

/-- Each record of the watched decoder is the record of the decoder. -/
lemma decodePlaceOrder_result :
    (decodePlaceOrder data offset).result = Hybrid.decodePlaceOrder data offset := by
  simp only [decodePlaceOrder, Hybrid.decodePlaceOrder, Logged.result_bind, ensure_result,
    readU64_result, readU8_result, readU256_result, add_result, Logged.result_quiet, ok_bind]
  rfl

lemma decodeCancelOrder_result :
    (decodeCancelOrder data offset).result = Hybrid.decodeCancelOrder data offset := by
  simp only [decodeCancelOrder, Hybrid.decodeCancelOrder, Logged.result_bind, ensure_result,
    readU64_result, add_result, mul_result, withCapacity_result, readIds_result, ok_bind]
  rfl

lemma decodeCancelAll_result :
    (decodeCancelAll data offset).result = Hybrid.decodeCancelAll data offset := by
  simp only [decodeCancelAll, Hybrid.decodeCancelAll, Logged.result_bind, ensure_result,
    readU64_result, add_result, ok_bind]
  rfl

lemma decodeSetLeverage_result :
    (decodeSetLeverage data offset).result = Hybrid.decodeSetLeverage data offset := by
  simp only [decodeSetLeverage, Hybrid.decodeSetLeverage, Logged.result_bind, ensure_result,
    readU64_result, readU8_result, add_result, ok_bind]
  rfl

lemma decodeAdjustMargin_result :
    (decodeAdjustMargin data offset).result = Hybrid.decodeAdjustMargin data offset := by
  simp only [decodeAdjustMargin, Hybrid.decodeAdjustMargin, Logged.result_bind, ensure_result,
    readU64_result, readU256_result, add_result, ok_bind]
  rfl

lemma decodeOperation_result :
    (decodeOperation data offset).result = Hybrid.decodeOperation data offset := by
  simp only [decodeOperation, Hybrid.decodeOperation, Logged.result_bind, readU8_result,
    add_result, ok_bind]
  congr 1
  funext opType
  unfold decodeRecord
  split
  · exact decodePlaceOrder_result
  · exact decodeCancelOrder_result
  · exact decodeCancelAll_result
  · exact decodeSetLeverage_result
  · exact decodeAdjustMargin_result
  · simp only [Logged.result_quiet]

end Result

/-- The decoding loop on record, one round at a time. It ends because every round gets further. -/
def decodeLoop (data : Bytes) (offset : ℕ) (operations : List Operation) :
    Decoding (List Operation) :=
  if offset < data.data.length then
    if usizeAdd offset 1 > data.data.length then ⟨.ok operations, [.add offset 1]⟩
    else
      let round := decodeOperation data.data offset
      match _h : round.result with
      | .error e => ⟨.error e, .add offset 1 :: round.log⟩
      | .ok (op, offset') =>
        let rest := decodeLoop data offset' (operations ++ [op])
        ⟨rest.result, .add offset 1 :: (round.log ++ rest.log)⟩
  else ⟨.ok operations, []⟩
termination_by data.data.length - offset
decreasing_by
  have hstep := decodeOperation_post data.length_le _ (decodeOperation_result.symm.trans _h)
  dsimp only at hstep
  omega

/-- `decode_operations` with every access to the data on record. -/
def decodeOperations (data : Bytes) : Decoding (List Operation) :=
  if data.data.isEmpty then ⟨.ok [], []⟩ else decodeLoop data 0 []

section Loop
variable {data : Bytes} {o : ℕ} {acc : List Operation}

lemma decodeLoop_end (h : ¬ o < data.data.length) : decodeLoop data o acc = ⟨.ok acc, []⟩ := by
  rw [decodeLoop, if_neg h]

/-- The test at the head of a round never ends the loop. -/
lemma round_head (h : o < data.data.length) : ¬ usizeAdd o 1 > data.data.length := by
  have hl := data.length_le
  unfold isizeMax at hl
  rw [usizeAdd_eq (by omega)]
  omega

lemma decodeLoop_error (h : o < data.data.length) {e : Fault}
    (hr : (decodeOperation data.data o).result = .error e) :
    decodeLoop data o acc = ⟨.error e, .add o 1 :: (decodeOperation data.data o).log⟩ := by
  rw [decodeLoop, if_pos h, if_neg (round_head h)]
  dsimp only
  split
  · rename_i e' he'
    rw [hr] at he'
    cases he'
    rfl
  · rename_i op o' hok
    rw [hr] at hok
    cases hok

lemma decodeLoop_ok (h : o < data.data.length) {op : Operation} {o' : ℕ}
    (hr : (decodeOperation data.data o).result = .ok (op, o')) :
    decodeLoop data o acc = ⟨(decodeLoop data o' (acc ++ [op])).result, .add o 1 ::
      ((decodeOperation data.data o).log ++ (decodeLoop data o' (acc ++ [op])).log)⟩ := by
  rw [decodeLoop, if_pos h, if_neg (round_head h)]
  dsimp only
  split
  · rename_i e he
    rw [hr] at he
    cases he
  · rename_i op' o'' hok
    rw [hr] at hok
    cases hok
    rfl

/-- A successful round moves forward and stays inside. -/
lemma round_moves {op : Operation} {o' : ℕ}
    (hr : (decodeOperation data.data o).result = .ok (op, o')) :
    o < o' ∧ o' ≤ data.data.length :=
  decodeOperation_post data.length_le _ (decodeOperation_result.symm.trans hr)

variable (data) in
/-- Induction over the rounds of the loop. -/
theorem loop_induction {motive : ℕ → List Operation → Prop}
    (stop : ∀ o acc, ¬ o < data.data.length → motive o acc)
    (failed : ∀ o acc e, o < data.data.length →
      (decodeOperation data.data o).result = .error e → motive o acc)
    (round : ∀ o acc op o', o < data.data.length →
      (decodeOperation data.data o).result = .ok (op, o') → motive o' (acc ++ [op]) →
        motive o acc) (o : ℕ) (acc : List Operation) : motive o acc := by
  induction hn : data.data.length - o using Nat.strong_induction_on generalizing o acc with
  | h n ih =>
    by_cases h : o < data.data.length
    · cases hr : (decodeOperation data.data o).result with
      | error e => exact failed o acc e h hr
      | ok r =>
        have hmove := round_moves hr
        exact round o acc r.1 r.2 h hr (ih _ (by omega) r.2 _ rfl)
    · exact stop o acc h

theorem decodeLoop_result : (decodeLoop data o acc).result = Hybrid.decodeLoop data o acc := by
  induction o, acc using loop_induction data with
  | stop o acc h => rw [decodeLoop_end h, Hybrid.decodeLoop, if_neg h]
  | failed o acc e h hr =>
    have hr' := decodeOperation_result.symm.trans hr
    rw [decodeLoop_error h hr, Hybrid.decodeLoop, if_pos h, if_neg (round_head h), hr']
  | round o acc op o' h hr ih =>
    have hr' := decodeOperation_result.symm.trans hr
    rw [decodeLoop_ok h hr, Hybrid.decodeLoop, if_pos h, if_neg (round_head h), hr']
    exact ih

/-- Watching the decoder does not change what it returns. -/
theorem decodeOperations_result :
    (decodeOperations data).result = Hybrid.decodeOperations data := by
  unfold decodeOperations Hybrid.decodeOperations
  split
  · rfl
  · exact decodeLoop_result

end Loop

end Watched

end Pevm.Hybrid
