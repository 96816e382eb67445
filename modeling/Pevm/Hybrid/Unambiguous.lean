import Pevm.Lib.PrefixCode
import Pevm.Hybrid.RoundTrip

/-!
# What an encoding determines

Each record starts with its type byte and has a length its own bytes tell, so the records
are a prefix code. What a record does not determine is whether a zero in one of its two
optional fields was a zero or a `None`.
-/
namespace Pevm.Hybrid
open Pevm.PerpDex BigEndian PrefixCode

/-- The operation as its record is read: a zero in an optional field stands for `None`. -/
def zeroAsNone : Operation → Operation
  | .placeOrder marketId orderType side price size leverage postOnly reduceOnly expiresAt =>
      .placeOrder marketId orderType side price size leverage postOnly reduceOnly
        (noneIfZero (expiresAt.getD 0))
  | .cancelAll marketId => .cancelAll (noneIfZero (marketId.getD 0))
  | op => op

lemma noneIfZero_getD_zero (raw : U64) : (noneIfZero raw).getD 0 = raw := by
  unfold noneIfZero
  split_ifs with h
  · exact h.symm
  · rfl

lemma encodeOperation_zeroAsNone (op : Operation) :
    encodeOperation (zeroAsNone op) = encodeOperation op := by
  cases op <;> simp only [zeroAsNone, encodeOperation, noneIfZero_getD_zero]

/-- The number of ids of a `CancelOrder` fits the word that carries it; a Rust vector cannot hold
more. -/
def CountFits : Operation → Prop
  | .cancelOrder _ orderIds => orderIds.length < 2 ^ 64
  | _ => True

section Fields
variable {r s : List U8}

lemma field_inj {w : ℕ} (n : ℕ) (hw : w ≤ 8 * n) {x y : BitVec w}
    (h : toBytes n x.toNat ++ r = toBytes n y.toNat ++ s) : x = y ∧ r = s := by
  obtain ⟨hfield, hrest⟩ := List.append_inj h (by rw [toBytes_length, toBytes_length])
  exact ⟨toBytes_inj n hw hfield, hrest⟩

lemma u64_inj {x y : U64} (h : toBytes 8 x.toNat ++ r = toBytes 8 y.toNat ++ s) :
    x = y ∧ r = s :=
  field_inj 8 (by norm_num) h

lemma u256_inj {x y : U256} (h : toBytes 32 x.toNat ++ r = toBytes 32 y.toNat ++ s) :
    x = y ∧ r = s :=
  field_inj 32 (by norm_num) h

lemma orderTypeByte_inj {t t' : PerpDex.OrderType} (h : orderTypeByte t = orderTypeByte t') :
    t = t' := by
  have hread := congrArg orderTypeOfByte h
  rw [orderTypeOfByte_orderTypeByte, orderTypeOfByte_orderTypeByte, Except.ok.injEq] at hread
  exact hread

lemma sideByte_inj {d d' : Side}
    (h : (if d = .long then (0 : U8) else 1) = if d' = .long then 0 else 1) : d = d' := by
  rw [← sideOfByte_sideByte d, h, sideOfByte_sideByte]

lemma boolByte_inj {b b' : Bool}
    (h : (if b = true then (1 : U8) else 0) = if b' = true then 1 else 0) : b = b' := by
  rw [← decide_boolByte b, h, decide_boolByte]

/-- As many ids as the count says, then the rest. -/
lemma ids_inj {ids ids' : List U64} (hlen : ids.length = ids'.length)
    (h : ids.flatMap (fun id => toBytes 8 id.toNat) ++ r =
      ids'.flatMap (fun id => toBytes 8 id.toNat) ++ s) : ids = ids' ∧ r = s := by
  induction ids generalizing ids' with
  | nil =>
    obtain rfl : ids' = [] := List.length_eq_zero_iff.mp hlen.symm
    exact ⟨rfl, h⟩
  | cons id ids ih =>
    cases ids' with
    | nil => simp at hlen
    | cons id' ids' =>
      rw [List.flatMap_cons, List.flatMap_cons, List.append_assoc, List.append_assoc] at h
      obtain ⟨hid, hrest⟩ := u64_inj h
      obtain ⟨hids, hrs⟩ := ih (by simpa using hlen) hrest
      exact ⟨by rw [hid, hids], hrs⟩

end Fields

/-- A record determines its operation up to the sentinel, and where it ends. -/
theorem encodeOperation_headDetermines :
    HeadDetermines {op | CountFits op} encodeOperation zeroAsNone := by
  intro a ha b hb r s h
  cases a with
  | placeOrder m t d p z l po ro e =>
    cases b with
    | placeOrder m' t' d' p' z' l' po' ro' e' =>
      simp only [encodeOperation, List.append_assoc, List.cons_append, List.nil_append,
        List.cons.injEq, true_and] at h
      obtain ⟨hm, h⟩ := u64_inj h
      simp only [List.cons.injEq] at h
      obtain ⟨ht, hd, h⟩ := h
      obtain ⟨hp, h⟩ := u256_inj h
      obtain ⟨hz, h⟩ := u256_inj h
      simp only [List.cons.injEq] at h
      obtain ⟨hl, hpo, hro, h⟩ := h
      obtain ⟨he, hrest⟩ := u64_inj h
      refine ⟨?_, hrest⟩
      rw [zeroAsNone, zeroAsNone, hm, orderTypeByte_inj ht, sideByte_inj hd, hp, hz, hl,
        boolByte_inj hpo, boolByte_inj hro, he]
    | _ => simp [encodeOperation] at h
  | cancelOrder m ids =>
    cases b with
    | cancelOrder m' ids' =>
      simp only [encodeOperation, List.append_assoc, List.cons_append, List.nil_append,
        List.cons.injEq, true_and] at h
      obtain ⟨hm, h⟩ := u64_inj h
      obtain ⟨hcount, h⟩ := u64_inj h
      have hlen : ids.length = ids'.length := by
        have hnat := congrArg BitVec.toNat hcount
        rw [BitVec.toNat_ofNat, BitVec.toNat_ofNat, Nat.mod_eq_of_lt ha, Nat.mod_eq_of_lt hb] at hnat
        exact hnat
      obtain ⟨hids, hrest⟩ := ids_inj hlen h
      exact ⟨by rw [hm, hids], hrest⟩
    | _ => simp [encodeOperation] at h
  | cancelAll m =>
    cases b with
    | cancelAll m' =>
      simp only [encodeOperation, List.cons_append, List.nil_append, List.cons.injEq,
        true_and] at h
      obtain ⟨hm, hrest⟩ := u64_inj h
      exact ⟨by rw [zeroAsNone, zeroAsNone, hm], hrest⟩
    | _ => simp [encodeOperation] at h
  | setLeverage m l =>
    cases b with
    | setLeverage m' l' =>
      simp only [encodeOperation, List.append_assoc, List.cons_append, List.nil_append,
        List.cons.injEq, true_and] at h
      obtain ⟨hm, h⟩ := u64_inj h
      simp only [List.cons.injEq] at h
      exact ⟨by rw [hm, h.1], h.2⟩
    | _ => simp [encodeOperation] at h
  | adjustMargin m x =>
    cases b with
    | adjustMargin m' x' =>
      simp only [encodeOperation, List.append_assoc, List.cons_append, List.nil_append,
        List.cons.injEq, true_and] at h
      obtain ⟨hm, h⟩ := u64_inj h
      obtain ⟨hx, hrest⟩ := u256_inj h
      exact ⟨by rw [hm, hx], hrest⟩
    | _ => simp [encodeOperation] at h

section Transaction
variable (p q : PerpDexTx)

/-- The ids of a `CancelOrder` take eight bytes each in the encoding. -/
lemma countFits_of_length_le {p : PerpDexTx} (hp : (encodePerpdexTx p).length ≤ isizeMax)
    {op : Operation} (hop : op ∈ p.operations) : CountFits op := by
  cases op with
  | cancelOrder m ids =>
    obtain ⟨before, after, hops⟩ := List.append_of_mem hop
    have hids : (ids.flatMap fun id => toBytes 8 id.toNat).length = ids.length * 8 := by
      simp [List.length_flatMap]
    have hrecord : ids.length * 8 ≤ (encodeOperation (.cancelOrder m ids)).length := by
      simp only [encodeOperation, List.length_append, hids]
      omega
    rw [encodePerpdexTx_eq, hops, List.flatMap_append, List.flatMap_cons] at hp
    simp only [List.length_append] at hp
    unfold isizeMax at hp
    show ids.length < 2 ^ 64
    omega
  | _ => trivial

/-- Two requests with the same header have the same encoding exactly when their operations are the
same once a zero in an optional field is read as `None`. It is enough that one encoding is no longer
than a vector can be. -/
theorem encodePerpdexTx_eq_iff (huser : p.user = q.user) (hnonce : p.nonce = q.nonce)
    (hlimit : p.gasLimit = q.gasLimit) (hprice : p.gasPrice = q.gasPrice)
    (hp : (encodePerpdexTx p).length ≤ isizeMax) :
    encodePerpdexTx p = encodePerpdexTx q ↔
      p.operations.map zeroAsNone = q.operations.map zeroAsNone := by
  have hbody : encodePerpdexTx p = encodePerpdexTx q ↔
      p.operations.flatMap encodeOperation = q.operations.flatMap encodeOperation := by
    rw [encodePerpdexTx_eq, encodePerpdexTx_eq, huser, hnonce, hlimit, hprice]
    simp only [List.append_cancel_left_eq]
  constructor
  · intro heq
    have hq : (encodePerpdexTx q).length ≤ isizeMax := heq ▸ hp
    refine encodeOperation_headDetermines.map_eq ?_ (fun op hop => countFits_of_length_le hp hop)
      (fun op hop => countFits_of_length_le hq hop) (hbody.mp heq)
    intro op _ hnil
    have hfour := four_le_encodeOperation_length op
    rw [hnil] at hfour
    simp at hfour
  · intro hmap
    refine hbody.mpr ?_
    have hread : ∀ ops : List Operation,
        ops.flatMap encodeOperation = (ops.map zeroAsNone).flatMap encodeOperation := by
      intro ops
      simp only [List.flatMap_map, encodeOperation_zeroAsNone]
    rw [hread, hread q.operations, hmap]

end Transaction

section Sample

/-- A request to cancel everything in market 0, and one to cancel everything anywhere. -/
def cancelMarketZero : PerpDexTx := sampleTx [.cancelAll (some 0)]
def cancelEverywhere : PerpDexTx := sampleTx [.cancelAll none]

theorem encodePerpdexTx_cancel_eq :
    encodePerpdexTx cancelMarketZero = encodePerpdexTx cancelEverywhere :=
  (encodePerpdexTx_eq_iff cancelMarketZero cancelEverywhere rfl rfl rfl rfl
    (sampleTx_length_le _ (by decide))).mpr (by decide)

/-- The two requests share every byte and are not the same request. -/
theorem encodePerpdexTx_not_injective :
    cancelMarketZero.user = cancelEverywhere.user ∧
    cancelMarketZero.nonce = cancelEverywhere.nonce ∧
    cancelMarketZero.gasLimit = cancelEverywhere.gasLimit ∧
    cancelMarketZero.gasPrice = cancelEverywhere.gasPrice ∧
    encodePerpdexTx cancelMarketZero = encodePerpdexTx cancelEverywhere ∧
    cancelMarketZero.operations ≠ cancelEverywhere.operations := by
  refine ⟨rfl, rfl, rfl, rfl, rfl, by decide⟩

end Sample

end Pevm.Hybrid
