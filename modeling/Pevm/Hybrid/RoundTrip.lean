import Pevm.Hybrid

/-!
# Decoding what was encoded

Each record is read back field by field from the bytes the encoder emits for it.
The decoder asks for 89 bytes behind the type byte of a `PlaceOrder` record, which
has only 85, so such a record is read back only when at least four more bytes
follow it.
-/
namespace Pevm.Hybrid
open Pevm.PerpDex BigEndian Fallible

section Fields
variable {data rest : List U8} {o : ℕ}

lemma readU8_of_drop (hl : data.length ≤ isizeMax) {b : U8} (h : data.drop o = b :: rest) :
    readU8 data o = .ok b ∧ usizeAdd o 1 = o + 1 ∧ data.drop (o + 1) = rest := by
  have hr : readU8 data o = .ok b := byteAt_of_drop _ h
  have hd : data.drop (o + [b].length) = rest := drop_add_length h
  exact ⟨hr, (readU8_post hl b hr).1, hd⟩

lemma readWord_of_drop {w : ℕ} (n : ℕ) (hw : w ≤ 8 * n) (hn : 0 < n)
    (hl : data.length ≤ isizeMax) {x : BitVec w} (h : data.drop o = toBytes n x.toNat ++ rest) :
    readWord w n data o = .ok x ∧ usizeAdd o n = o + n ∧ data.drop (o + n) = rest := by
  have hne : toBytes n x.toNat ≠ [] := by
    rw [← List.length_pos_iff, toBytes_length]
    exact hn
  have hlen : o + n ≤ data.length := by
    have hh := length_of_drop h (by simp [hne])
    rw [List.length_append, toBytes_length] at hh
    omega
  have ha : usizeAdd o n = o + n := by
    unfold isizeMax at hl
    exact usizeAdd_eq (by omega)
  have hr := range_of_drop (.panic : Fault) h hne
  have hd := drop_add_length h
  rw [toBytes_length] at hr hd
  refine ⟨?_, ha, hd⟩
  rw [readWord, ha, hr, ok_bind, ofNat_ofBytes_toBytes n hw]
  rfl

lemma readU64_of_drop (hl : data.length ≤ isizeMax) {x : U64}
    (h : data.drop o = toBytes 8 x.toNat ++ rest) :
    readU64 data o = .ok x ∧ usizeAdd o 8 = o + 8 ∧ data.drop (o + 8) = rest :=
  readWord_of_drop 8 (by norm_num) (by norm_num) hl h

lemma readU256_of_drop (hl : data.length ≤ isizeMax) {x : U256}
    (h : data.drop o = toBytes 32 x.toNat ++ rest) :
    readU256 data o = .ok x ∧ usizeAdd o 32 = o + 32 ∧ data.drop (o + 32) = rest :=
  readWord_of_drop 32 (by norm_num) (by norm_num) hl h

/-- The length test at a position with `bs` left to read. -/
lemma ensure_of_drop (hl : data.length ≤ isizeMax) {bs : List U8} (h : data.drop o = bs)
    (hne : bs ≠ []) {n : ℕ} (hn : n < 2 ^ 63) :
    ensure data o n = if bs.length < n then .error (.error .invalidFormat) else .ok () := by
  have hlen := length_of_drop h hne
  unfold isizeMax at hl
  unfold ensure
  rw [usizeAdd_eq (by omega)]
  exact if_congr (by omega) rfl rfl

lemma readIds_of_drop (hl : data.length ≤ isizeMax) (ids : List U64)
    (h : data.drop o = ids.flatMap (fun id => toBytes 8 id.toNat) ++ rest) :
    readIds data ids.length o = .ok (ids, o + 8 * ids.length) := by
  induction ids generalizing o with
  | nil => rfl
  | cons id ids ih =>
    rw [List.flatMap_cons, List.append_assoc] at h
    obtain ⟨hr, ha, hd⟩ := readU64_of_drop hl h
    have hrest := ih hd
    rw [List.length_cons, readIds, hr, ok_bind, ha, hrest, ok_bind]
    congr 2
    omega

end Fields

@[simp] lemma orderTypeOfByte_orderTypeByte (t : PerpDex.OrderType) :
    orderTypeOfByte (orderTypeByte t) = .ok t := by cases t <;> rfl

@[simp] lemma sideOfByte_sideByte (s : Side) :
    (if (if s = .long then (0 : U8) else 1) = 0 then Side.long else .short) = s := by
  cases s <;> rfl

@[simp] lemma decide_boolByte (b : Bool) :
    decide ((if b = true then (1 : U8) else 0) ≠ 0) = b := by cases b <;> rfl

lemma noneIfZero_getD {raw : Option U64} (h : raw ≠ some 0) :
    noneIfZero (raw.getD 0) = raw := by
  cases raw with
  | none => rfl
  | some x =>
    have hx : x ≠ 0 := fun he => h (by rw [he])
    exact if_neg hx

/-- Zero stands for `None` in the two optional fields of the format, so a zero in them cannot be
encoded. -/
def Representable : Operation → Prop
  | .placeOrder _ _ _ _ _ _ _ _ expiresAt => expiresAt ≠ some 0
  | .cancelAll marketId => marketId ≠ some 0
  | _ => True

/-- The operation is a `PlaceOrder`, whose decoder asks for more bytes than the encoder writes. -/
def IsPlaceOrder : Operation → Prop
  | .placeOrder .. => True
  | _ => False

section Operations
variable {data rest : List U8} {o : ℕ}

lemma decodeCancelAll_of_drop (hl : data.length ≤ isizeMax) {marketId : Option U64}
    (hm : marketId ≠ some 0) (h : data.drop o = toBytes 8 (marketId.getD 0).toNat ++ rest) :
    decodeCancelAll data o = .ok (.cancelAll marketId, o + 8) := by
  have he := ensure_of_drop hl h (by simp [toBytes]) (n := 8) (by norm_num)
  obtain ⟨hr, ha, -⟩ := readU64_of_drop hl h
  rw [if_neg (by simp)] at he
  simp only [decodeCancelAll, he, hr, ha, ok_bind, noneIfZero_getD hm]
  rfl

lemma decodeSetLeverage_of_drop (hl : data.length ≤ isizeMax) {marketId : U64} {leverage : U8}
    (h : data.drop o = toBytes 8 marketId.toNat ++ leverage :: rest) :
    decodeSetLeverage data o = .ok (.setLeverage marketId leverage, o + 9) := by
  have he := ensure_of_drop hl h (by simp [toBytes]) (n := 9) (by norm_num)
  obtain ⟨hr, ha, h⟩ := readU64_of_drop hl h
  obtain ⟨hr', ha', -⟩ := readU8_of_drop hl h
  rw [if_neg (by simp; omega)] at he
  simp only [decodeSetLeverage, he, hr, ha, hr', ha', ok_bind]
  rfl

lemma decodeAdjustMargin_of_drop (hl : data.length ≤ isizeMax) {marketId : U64} {amount : U256}
    (h : data.drop o = toBytes 8 marketId.toNat ++ (toBytes 32 amount.toNat ++ rest)) :
    decodeAdjustMargin data o = .ok (.adjustMargin marketId amount, o + 40) := by
  have he := ensure_of_drop hl h (by simp [toBytes]) (n := 40) (by norm_num)
  obtain ⟨hr, ha, h⟩ := readU64_of_drop hl h
  obtain ⟨hr', ha', -⟩ := readU256_of_drop hl h
  rw [if_neg (by simp; omega)] at he
  simp only [decodeAdjustMargin, he, hr, ha, hr', ha', ok_bind]
  rfl

/-- The declared number of ids cannot overflow: as many ids really follow. -/
lemma decodeCancelOrder_of_drop (hl : data.length ≤ isizeMax) {marketId : U64}
    {ids : List U64} (h : data.drop o = toBytes 8 marketId.toNat ++
      (toBytes 8 (BitVec.ofNat 64 ids.length).toNat ++
        (ids.flatMap (fun id => toBytes 8 id.toNat) ++ rest))) :
    decodeCancelOrder data o = .ok (.cancelOrder marketId ids, o + 16 + 8 * ids.length) := by
  have he := ensure_of_drop hl h (by simp [toBytes]) (n := 16) (by norm_num)
  rw [if_neg (by simp; omega)] at he
  have hids : (ids.flatMap (fun id => toBytes 8 id.toNat)).length = 8 * ids.length := by
    simp [List.length_flatMap, Nat.mul_comm]
  have htotal := length_of_drop h (by simp [toBytes])
  simp only [List.length_append, toBytes_length, hids] at htotal
  unfold isizeMax at hl
  have hcount : (BitVec.ofNat 64 ids.length).toNat = ids.length := by
    rw [BitVec.toNat_ofNat]
    exact Nat.mod_eq_of_lt (by omega)
  obtain ⟨hr, ha, h⟩ := readU64_of_drop hl h
  obtain ⟨hr', ha', h⟩ := readU64_of_drop hl h
  have hmul : usizeMul ids.length 8 = ids.length * 8 := usizeMul_eq (by omega)
  have he' : ensure data (o + 8 + 8) (ids.length * 8) = .ok () := by
    rw [ensure, usizeAdd_eq (by omega)]
    exact if_neg (by omega)
  have hc : withCapacity ids.length = .ok () := if_neg (by unfold isizeMax; omega)
  have hread := readIds_of_drop hl ids h
  simp only [decodeCancelOrder, he, hr, ha, hr', ha', hcount, hmul, he', hc, hread, ok_bind]
  rfl

/-- The record itself is read back; the length test alone depends on what follows. -/
lemma decodePlaceOrder_of_drop (hl : data.length ≤ isizeMax) {marketId : U64} {t : PerpDex.OrderType}
    {side : Side} {price size : U256} {leverage : U8} {postOnly reduceOnly : Bool}
    {expiresAt : Option U64} (hexp : expiresAt ≠ some 0)
    (h : data.drop o = toBytes 8 marketId.toNat ++ (orderTypeByte t ::
      (if side = .long then 0 else 1) :: (toBytes 32 price.toNat ++ (toBytes 32 size.toNat ++
        (leverage :: (if postOnly then 1 else 0) :: (if reduceOnly then 1 else 0) ::
          (toBytes 8 (expiresAt.getD 0).toNat ++ rest)))))) :
    decodePlaceOrder data o =
      if rest.length < 4 then .error (.error .invalidFormat)
      else .ok (.placeOrder marketId t side price size leverage postOnly reduceOnly expiresAt,
        o + 85) := by
  have he := ensure_of_drop hl h (by simp [toBytes]) (n := 89) (by norm_num)
  simp only [List.length_append, List.length_cons, toBytes_length] at he
  obtain ⟨r1, a1, h⟩ := readU64_of_drop hl h
  obtain ⟨r2, a2, h⟩ := readU8_of_drop hl h
  obtain ⟨r3, a3, h⟩ := readU8_of_drop hl h
  obtain ⟨r4, a4, h⟩ := readU256_of_drop hl h
  obtain ⟨r5, a5, h⟩ := readU256_of_drop hl h
  obtain ⟨r6, a6, h⟩ := readU8_of_drop hl h
  obtain ⟨r7, a7, h⟩ := readU8_of_drop hl h
  obtain ⟨r8, a8, h⟩ := readU8_of_drop hl h
  obtain ⟨r9, a9, -⟩ := readU64_of_drop hl h
  by_cases hshort : rest.length < 4
  · rw [if_pos hshort]
    rw [if_pos (by omega)] at he
    rw [decodePlaceOrder, he, error_bind]
  · rw [if_neg hshort]
    rw [if_neg (by omega)] at he
    simp only [decodePlaceOrder, he, r1, a1, r2, a2, r3, a3, r4, a4, r5, a5, r6, a6, r7, a7,
      r8, a8, r9, a9, ok_bind, orderTypeOfByte_orderTypeByte, sideOfByte_sideByte,
      decide_boolByte, noneIfZero_getD hexp]
    rfl

/-- A record with room behind it, four bytes for a `PlaceOrder`, is read back. -/
theorem decodeOperation_of_drop (hl : data.length ≤ isizeMax) {op : Operation}
    (hrep : Representable op) (hroom : IsPlaceOrder op → 4 ≤ rest.length)
    (h : data.drop o = encodeOperation op ++ rest) :
    decodeOperation data o = .ok (op, o + (encodeOperation op).length) := by
  cases op with
  | placeOrder marketId t side price size leverage postOnly reduceOnly expiresAt =>
    simp only [encodeOperation, List.append_assoc, List.cons_append, List.nil_append] at h
    obtain ⟨hr, ha, h⟩ := readU8_of_drop hl h
    have hd := decodePlaceOrder_of_drop hl hrep h
    have hfour := hroom trivial
    rw [if_neg (by omega)] at hd
    simp only [decodeOperation, hr, ha, ok_bind, hd]
    simp [encodeOperation, Nat.add_assoc]
  | cancelOrder marketId ids =>
    simp only [encodeOperation, List.append_assoc, List.cons_append, List.nil_append] at h
    obtain ⟨hr, ha, h⟩ := readU8_of_drop hl h
    have hd := decodeCancelOrder_of_drop hl h
    simp only [decodeOperation, hr, ha, ok_bind, hd]
    simp [encodeOperation, List.length_flatMap]
    omega
  | cancelAll marketId =>
    simp only [encodeOperation, List.cons_append, List.nil_append] at h
    obtain ⟨hr, ha, h⟩ := readU8_of_drop hl h
    have hd := decodeCancelAll_of_drop hl hrep h
    simp only [decodeOperation, hr, ha, ok_bind, hd]
    simp [encodeOperation, Nat.add_assoc]
  | setLeverage marketId leverage =>
    simp only [encodeOperation, List.append_assoc, List.cons_append, List.nil_append] at h
    obtain ⟨hr, ha, h⟩ := readU8_of_drop hl h
    have hd := decodeSetLeverage_of_drop hl h
    simp only [decodeOperation, hr, ha, ok_bind, hd]
    simp [encodeOperation, Nat.add_assoc]
  | adjustMargin marketId amount =>
    simp only [encodeOperation, List.append_assoc, List.cons_append, List.nil_append] at h
    obtain ⟨hr, ha, h⟩ := readU8_of_drop hl h
    have hd := decodeAdjustMargin_of_drop hl h
    simp only [decodeOperation, hr, ha, ok_bind, hd]
    simp [encodeOperation, Nat.add_assoc]

/-- A `PlaceOrder` record with fewer than four bytes behind it is refused. -/
theorem decodeOperation_of_drop_short (hl : data.length ≤ isizeMax) {op : Operation}
    (hrep : Representable op) (hop : IsPlaceOrder op) (hshort : rest.length < 4)
    (h : data.drop o = encodeOperation op ++ rest) :
    decodeOperation data o = .error (.error .invalidFormat) := by
  cases op with
  | placeOrder marketId t side price size leverage postOnly reduceOnly expiresAt =>
    simp only [encodeOperation, List.append_assoc, List.cons_append, List.nil_append] at h
    obtain ⟨hr, ha, h⟩ := readU8_of_drop hl h
    have hd := decodePlaceOrder_of_drop hl hrep h
    rw [if_pos hshort] at hd
    simp only [decodeOperation, hr, ha, ok_bind, hd]
    rfl
  | _ => exact hop.elim

end Operations

/-- Any record has at least four bytes. -/
lemma four_le_encodeOperation_length (op : Operation) : 4 ≤ (encodeOperation op).length := by
  cases op
  all_goals
    simp only [encodeOperation, List.length_append, toBytes_length]
    omega

/-- The last operation is a `PlaceOrder`: no bytes follow that the length check could count. -/
def EndsWithPlaceOrder (ops : List Operation) : Prop :=
  ∃ op, ops.getLast? = some op ∧ IsPlaceOrder op

theorem decodeLoop_of_drop (data : Bytes) (ops : List Operation)
    (hrep : ∀ op ∈ ops, Representable op) (o : ℕ) (acc : List Operation)
    (h : data.data.drop o = ops.flatMap encodeOperation) :
    (EndsWithPlaceOrder ops → decodeLoop data o acc = .error (.error .invalidFormat)) ∧
    (¬ EndsWithPlaceOrder ops → decodeLoop data o acc = .ok (acc ++ ops)) := by
  induction ops generalizing o acc with
  | nil =>
    have hend : ¬ o < data.data.length := by
      have hh := congrArg List.length h
      simp only [List.length_drop, List.flatMap_nil, List.length_nil] at hh
      omega
    refine ⟨fun ⟨_, hlast, _⟩ => by simp at hlast, fun _ => ?_⟩
    rw [decodeLoop, if_neg hend, List.append_nil]
  | cons op ops ih =>
    rw [List.flatMap_cons] at h
    have hop := four_le_encodeOperation_length op
    have hne : encodeOperation op ≠ [] := by
      intro he
      rw [he] at hop
      simp at hop
    have hlen := length_of_drop h (by simp [hne])
    rw [List.length_append] at hlen
    have hin : o < data.data.length := by omega
    have hbreak : ¬ usizeAdd o 1 > data.data.length := by
      have hbound := data.length_le
      unfold isizeMax at hbound
      rw [usizeAdd_eq (by omega)]
      omega
    have hrepOp : Representable op := hrep op (by simp)
    have hrepOps : ∀ q ∈ ops, Representable q := fun q hq => hrep q (by simp [hq])
    rw [decodeLoop, if_pos hin, if_neg hbreak]
    by_cases hshort : IsPlaceOrder op ∧ ops = []
    · obtain ⟨hplace, rfl⟩ := hshort
      have hd := decodeOperation_of_drop_short data.length_le hrepOp hplace (by simp) h
      rw [hd]
      exact ⟨fun _ => rfl, fun hn => (hn ⟨op, rfl, hplace⟩).elim⟩
    · have hroom : IsPlaceOrder op → 4 ≤ (ops.flatMap encodeOperation).length := by
        intro hplace
        cases ops with
        | nil => exact (hshort ⟨hplace, rfl⟩).elim
        | cons q qs =>
          rw [List.flatMap_cons, List.length_append]
          have := four_le_encodeOperation_length q
          omega
      have hd := decodeOperation_of_drop data.length_le hrepOp hroom h
      have hnext := ih hrepOps (o + (encodeOperation op).length) (acc ++ [op])
        (drop_add_length h)
      have hlast : EndsWithPlaceOrder (op :: ops) ↔ EndsWithPlaceOrder ops := by
        cases ops with
        | nil => simpa [EndsWithPlaceOrder] using hshort
        | cons q qs => simp [EndsWithPlaceOrder, List.getLast?_cons_cons]
      rw [hd, hlast]
      simpa only [List.append_assoc, List.singleton_append] using hnext

section Transaction
variable (p : PerpDexTx) (tx : CarryingTx)

lemma encodePerpdexTx_eq : encodePerpdexTx p = toBytes 20 p.user.toNat ++
    (toBytes 8 p.nonce.toNat ++ (toBytes 8 p.gasLimit.toNat ++
      ((toBytes 32 p.gasPrice.toNat).drop 24 ++ p.operations.flatMap encodeOperation))) := by
  simp [encodePerpdexTx]

/-- The header is read back, and the operations are left for `decode_operations`. -/
theorem decodePerpdexTx_encode (hin : tx.input.data = encodePerpdexTx p) :
    decodePerpdexTx tx = (do
      let operations ← decodeOperations (tx.input.drop 44)
      return { user := p.user, operations, gasLimit := p.gasLimit,
               gasPrice := tx.maxFeePerGas.setWidth 256, nonce := p.nonce, signature := none }) ∧
    (tx.input.drop 44).data = p.operations.flatMap encodeOperation := by
  have hl := tx.input.length_le
  have h : tx.input.data.drop 0 = encodePerpdexTx p := hin
  rw [encodePerpdexTx_eq] at h
  have hlen : ¬ tx.input.data.length < 44 := by
    rw [hin, encodePerpdexTx_eq]
    simp only [List.length_append, List.length_drop, toBytes_length]
    omega
  obtain ⟨r1, -, h⟩ := readWord_of_drop 20 (by norm_num) (by norm_num) hl h
  obtain ⟨r2, -, h⟩ := readU64_of_drop hl h
  obtain ⟨r3, -, h⟩ := readU64_of_drop hl h
  have hops := drop_add_length h
  simp only [List.length_drop, toBytes_length] at hops
  norm_num at r2 r3 hops
  refine ⟨?_, hops⟩
  simp only [decodePerpdexTx, if_neg hlen, r1, r2, r3, ok_bind]

/-- What a reader of the input has to find in it: user, nonce, gas limit and operations of `p`. -/
def Recovers (tx : CarryingTx) (p : PerpDexTx) : Prop :=
  ∃ q, decodePerpdexTx tx = .ok q ∧ q.user = p.user ∧ q.nonce = p.nonce ∧
    q.gasLimit = p.gasLimit ∧ q.operations = p.operations

/-- The operations behind the header are read back, or refused for their last record. -/
lemma decodeOperations_encode (data : Bytes) (ops : List Operation)
    (hrep : ∀ op ∈ ops, Representable op) (hdata : data.data = ops.flatMap encodeOperation) :
    (EndsWithPlaceOrder ops → decodeOperations data = .error (.error .invalidFormat)) ∧
    (¬ EndsWithPlaceOrder ops → decodeOperations data = .ok ops) := by
  have hloop := decodeLoop_of_drop data ops hrep 0 [] hdata
  rw [decodeOperations, hdata]
  by_cases hnil : ops = []
  · subst hnil
    exact ⟨fun ⟨_, hlast, _⟩ => by simp at hlast, fun _ => rfl⟩
  · have hne : (ops.flatMap encodeOperation).isEmpty = false := by
      obtain ⟨op, rest, hcons⟩ := List.exists_cons_of_ne_nil hnil
      have hop := four_le_encodeOperation_length op
      rw [hcons, List.flatMap_cons, List.isEmpty_eq_false_iff, ← List.length_pos_iff,
        List.length_append]
      omega
    rw [hne]
    exact hloop

lemma recovers_of_not_endsWithPlaceOrder (hin : tx.input.data = encodePerpdexTx p)
    (hrep : ∀ op ∈ p.operations, Representable op) (hend : ¬ EndsWithPlaceOrder p.operations) :
    Recovers tx p := by
  obtain ⟨hdec, hdata⟩ := decodePerpdexTx_encode p tx hin
  rw [(decodeOperations_encode _ _ hrep hdata).2 hend, ok_bind] at hdec
  exact ⟨_, hdec, rfl, rfl, rfl, rfl⟩

lemma not_recovers_of_endsWithPlaceOrder (hin : tx.input.data = encodePerpdexTx p)
    (hrep : ∀ op ∈ p.operations, Representable op) (hend : EndsWithPlaceOrder p.operations) :
    ¬ Recovers tx p := by
  obtain ⟨hdec, hdata⟩ := decodePerpdexTx_encode p tx hin
  rw [(decodeOperations_encode _ _ hrep hdata).1 hend, error_bind] at hdec
  rintro ⟨q, hq, -⟩
  rw [hdec] at hq
  cases hq

/-- Decoding undoes encoding exactly when the last operation is not a `PlaceOrder`, whatever the
operations before it are. No operation has a zero in an optional field, where it stands for `None`.
-/
theorem recovers_encode_iff (hin : tx.input.data = encodePerpdexTx p)
    (hrep : ∀ op ∈ p.operations, Representable op) :
    Recovers tx p ↔ ¬ EndsWithPlaceOrder p.operations :=
  ⟨fun h hend => not_recovers_of_endsWithPlaceOrder p tx hin hrep hend h,
    recovers_of_not_endsWithPlaceOrder p tx hin hrep⟩

end Transaction

section Sample

/-- The order of `test_encode_decode_perpdex_tx`. -/
def sampleOrder : Operation :=
  .placeOrder 1 .market .long (1500 * 10 ^ 18) (2 * 10 ^ 18) 5 false false (some 2000)

def sampleTx (ops : List Operation) : PerpDexTx where
  user := 0x2222222222222222222222222222222222222222
  operations := ops
  gasLimit := 200000
  gasPrice := 5000
  nonce := 42
  signature := none

def carry (p : PerpDexTx) (h : (encodePerpdexTx p).length ≤ isizeMax) : CarryingTx where
  input := ⟨encodePerpdexTx p, h⟩
  maxFeePerGas := 5000

lemma sampleTx_length_le (ops : List Operation)
    (h : (ops.flatMap encodeOperation).length ≤ 200) :
    (encodePerpdexTx (sampleTx ops)).length ≤ isizeMax := by
  rw [encodePerpdexTx_eq]
  simp only [List.length_append, List.length_drop, toBytes_length, isizeMax, sampleTx]
  omega

lemma order_length_le : ([sampleOrder].flatMap encodeOperation).length ≤ 200 := by
  simp [sampleOrder, encodeOperation]

lemma order_cancelAll_length_le :
    ([sampleOrder, .cancelAll (some 1)].flatMap encodeOperation).length ≤ 200 := by
  simp [sampleOrder, encodeOperation]

/-- The request of `test_encode_decode_perpdex_tx`, an order and a `CancelAll`, is read back. -/
theorem recovers_order_then_cancelAll :
    Recovers (carry (sampleTx [sampleOrder, .cancelAll (some 1)])
        (sampleTx_length_le _ order_cancelAll_length_le))
      (sampleTx [sampleOrder, .cancelAll (some 1)]) :=
  (recovers_encode_iff _ _ rfl (by simp [sampleTx, sampleOrder, Representable])).mpr
    (by rintro ⟨op, hlast, hop⟩; cases hlast; exact hop)

/-- The same order alone is refused. -/
theorem not_recovers_order_alone :
    (∀ op ∈ (sampleTx [sampleOrder]).operations, Representable op) ∧
      ¬ Recovers (carry (sampleTx [sampleOrder]) (sampleTx_length_le _ order_length_le))
        (sampleTx [sampleOrder]) := by
  have hrep : ∀ op ∈ (sampleTx [sampleOrder]).operations, Representable op := by
    simp [sampleTx, sampleOrder, Representable]
  exact ⟨hrep, not_recovers_of_endsWithPlaceOrder _ _ rfl hrep ⟨sampleOrder, rfl, trivial⟩⟩

end Sample

end Pevm.Hybrid
