import Pevm.Hybrid.Watched

/-!
# When decoding is safe

The records of the format as a grammar on bytes, and the one computation of the decoder
that its length tests do not guard: the product of a declared number of order ids by
eight, taken before it is compared with the length of the input.
-/
namespace Pevm.Hybrid
open Pevm.PerpDex BigEndian Fallible

/-- One complete record of the format, by its type byte and the lengths of its fields. -/
inductive Record : List U8 → Prop
  | placeOrder (marketId : List U8) (orderType : U8) (fields : List U8)
      (hm : marketId.length = 8) (ht : orderType.toNat ≤ 3) (hf : fields.length = 76) :
      Record (0 :: (marketId ++ orderType :: fields))
  | cancelOrder (marketId count ids : List U8) (hm : marketId.length = 8)
      (hc : count.length = 8) (hi : ids.length = 8 * ofBytes count) :
      Record (1 :: (marketId ++ count ++ ids))
  | cancelAll (marketId : List U8) (hm : marketId.length = 8) : Record (2 :: marketId)
  | setLeverage (fields : List U8) (hf : fields.length = 9) : Record (3 :: fields)
  | adjustMargin (fields : List U8) (hf : fields.length = 40) : Record (4 :: fields)

/-- Behind complete records, a `CancelOrder` header that declares so many ids that the
end of the list lies beyond the range of `usize`. -/
def DeclaresTooMany (data : List U8) : Prop :=
  ∃ (records : List (List U8)) (marketId count rest : List U8),
    (∀ r ∈ records, Record r) ∧ marketId.length = 8 ∧ count.length = 8 ∧
    data = records.flatten ++ 1 :: (marketId ++ count ++ rest) ∧
    2 ^ 64 ≤ records.flatten.length + 17 + 8 * ofBytes count

/-- Everything the decoder does is safe, and it ends in a value or in `InvalidFormat`. -/
def DecodesSafely (data : Bytes) : Prop :=
  (∀ a ∈ (Watched.decodeOperations data).log, a.Safe data.data.length) ∧
  ((∃ operations, decodeOperations data = .ok operations) ∨
    decodeOperations data = .error (.error .invalidFormat))

namespace Watched

section Accesses
variable {data : List U8} {o : ℕ} {E : Fault → Prop}

lemma add_ensures {len a b : ℕ} (h : a + b < 2 ^ 64) :
    (add a b).Ensures (Access.Safe len) E (· = a + b) :=
  Logged.Ensures.bind (.note h) fun _ _ => .pure (usizeAdd_eq h)

lemma mul_ensures {len a b : ℕ} (h : a * b < 2 ^ 64) :
    (mul a b).Ensures (Access.Safe len) E (· = a * b) :=
  Logged.Ensures.bind (.note h) fun _ _ => .pure (usizeMul_eq h)

lemma readU8_ensures (h : o < data.length) :
    (readU8 data o).Ensures (Access.Safe data.length) E (data[o]? = some ·) := by
  have hget : data[o]? = some data[o] := List.getElem?_eq_getElem h
  refine Logged.Ensures.bind (.note h) fun _ _ => .quiet ?_ ?_
  · intro e he
    simp [Hybrid.readU8, byteAt, hget] at he
  · intro b hb
    simp only [Hybrid.readU8, byteAt, hget, Except.ok.injEq] at hb
    rw [hget, hb]

lemma readWord_ensures (w : ℕ) {n : ℕ} (hl : data.length ≤ isizeMax) (h : o + n ≤ data.length) :
    (readWord w n data o).Ensures (Access.Safe data.length) E
      (· = BitVec.ofNat w (ofBytes ((data.drop o).take n))) := by
  unfold isizeMax at hl
  refine (add_ensures (by omega)).bind fun stop hstop => ?_
  subst hstop
  have hin : o ≤ o + n ∧ o + n ≤ data.length := ⟨Nat.le_add_right _ _, h⟩
  refine Logged.Ensures.bind (.note hin) fun _ _ => ?_
  rw [range, if_pos hin, Nat.add_sub_cancel_left]
  have hfield : (Logged.quiet (.ok ((data.drop o).take n)) : Decoding _).Ensures
      (Access.Safe data.length) E (· = (data.drop o).take n) :=
    .quiet (fun e he => by cases he) fun a ha => by
      cases ha
      rfl
  exact hfield.bind fun field hf => .pure (by rw [hf])

lemma readU64_ensures (hl : data.length ≤ isizeMax) (h : o + 8 ≤ data.length) :
    (readU64 data o).Ensures (Access.Safe data.length) E
      (· = BitVec.ofNat 64 (ofBytes ((data.drop o).take 8))) :=
  readWord_ensures 64 hl h

lemma readU256_ensures (hl : data.length ≤ isizeMax) (h : o + 32 ≤ data.length) :
    (readU256 data o).Ensures (Access.Safe data.length) E fun _ => True :=
  (readWord_ensures 256 hl h).mono (fun _ he => he) fun _ _ => trivial

/-- A length test fails with `InvalidFormat`, and only when the bytes are not there. -/
lemma ensure_ensures {n : ℕ} (hsum : o + n < 2 ^ 64)
    (hE : ¬ o + n ≤ data.length → E (.error .invalidFormat)) :
    (ensure data o n).Ensures (Access.Safe data.length) E fun _ => o + n ≤ data.length := by
  refine (add_ensures hsum).bind fun stop hstop => ?_
  subst hstop
  split_ifs with hgt
  · have hfail := hE (Nat.not_le_of_gt hgt)
    exact .quiet (fun e he => by cases he; exact hfail) fun a ha => by cases ha
  · exact .pure (Nat.le_of_not_lt hgt)

lemma readIds_ensures (hl : data.length ≤ isizeMax) (count : ℕ)
    (h : o + 8 * count ≤ data.length) :
    (readIds data count o).Ensures (Access.Safe data.length) E
      fun r => r.2 = o + 8 * count := by
  have hmax := hl
  unfold isizeMax at hmax
  induction count generalizing o with
  | zero => exact .pure rfl
  | succ count ih =>
    refine (readU64_ensures hl (by omega)).bind fun _ _ => ?_
    refine (add_ensures (by omega)).bind fun o' ho' => ?_
    subst ho'
    refine (ih (o := o + 8) (by omega)).bind fun rest hrest => .pure ?_
    dsimp only
    omega

end Accesses

section Records
variable {data : List U8} {o : ℕ} {E : Fault → Prop}

/-- The number of ids that a `CancelOrder` record at `o` declares, whether they are there or not. -/
def declared (data : List U8) (o : ℕ) : ℕ := ofBytes ((data.drop (o + 8)).take 8)

lemma decodeSetLeverage_ensures (hl : data.length ≤ isizeMax) (ho : o ≤ data.length)
    (hE : ¬ o + 9 ≤ data.length → E (.error .invalidFormat)) :
    (decodeSetLeverage data o).Ensures (Access.Safe data.length) E
      fun r => r.2 = o + 9 ∧ o + 9 ≤ data.length := by
  have hmax := hl
  unfold isizeMax at hmax
  refine (ensure_ensures (by omega) hE).bind fun _ hin => ?_
  refine (readU64_ensures hl (by omega)).bind fun _ _ => ?_
  refine (add_ensures (by omega)).bind fun o₁ h₁ => ?_
  refine (readU8_ensures (by omega)).bind fun _ _ => ?_
  refine (add_ensures (by omega)).bind fun o₂ h₂ => .pure ?_
  exact ⟨by dsimp only; omega, hin⟩

lemma decodeCancelAll_ensures (hl : data.length ≤ isizeMax) (ho : o ≤ data.length)
    (hE : ¬ o + 8 ≤ data.length → E (.error .invalidFormat)) :
    (decodeCancelAll data o).Ensures (Access.Safe data.length) E
      fun r => r.2 = o + 8 ∧ o + 8 ≤ data.length := by
  have hmax := hl
  unfold isizeMax at hmax
  refine (ensure_ensures (by omega) hE).bind fun _ hin => ?_
  refine (readU64_ensures hl (by omega)).bind fun _ _ => ?_
  refine (add_ensures (by omega)).bind fun o₁ h₁ => .pure ?_
  exact ⟨h₁, hin⟩

lemma decodeAdjustMargin_ensures (hl : data.length ≤ isizeMax) (ho : o ≤ data.length)
    (hE : ¬ o + 40 ≤ data.length → E (.error .invalidFormat)) :
    (decodeAdjustMargin data o).Ensures (Access.Safe data.length) E
      fun r => r.2 = o + 40 ∧ o + 40 ≤ data.length := by
  have hmax := hl
  unfold isizeMax at hmax
  refine (ensure_ensures (by omega) hE).bind fun _ hin => ?_
  refine (readU64_ensures hl (by omega)).bind fun _ _ => ?_
  refine (add_ensures (by omega)).bind fun o₁ h₁ => ?_
  refine (readU256_ensures hl (by omega)).bind fun _ _ => ?_
  refine (add_ensures (by omega)).bind fun o₂ h₂ => .pure ?_
  exact ⟨by dsimp only; omega, hin⟩

lemma declared_lt (data : List U8) (o : ℕ) : declared data o < 2 ^ 64 := by
  have hlt := ofBytes_lt ((data.drop (o + 8)).take 8)
  have hlen : ((data.drop (o + 8)).take 8).length ≤ 8 := List.length_take_le _ _
  calc declared data o < 256 ^ ((data.drop (o + 8)).take 8).length := hlt
    _ ≤ 256 ^ 8 := Nat.pow_le_pow_right (by norm_num) hlen
    _ = 2 ^ 64 := by norm_num

/-- The length test on the ids is exact when the end of the list is in range. -/
lemma decodeCancelOrder_ensures (hl : data.length ≤ isizeMax) (ho : o ≤ data.length)
    (hfits : o + 16 ≤ data.length → o + 16 + 8 * declared data o < 2 ^ 64)
    (hE : ¬ (o + 16 ≤ data.length ∧ o + 16 + 8 * declared data o ≤ data.length) →
      E (.error .invalidFormat)) :
    (decodeCancelOrder data o).Ensures (Access.Safe data.length) E
      fun r => r.2 = o + 16 + 8 * declared data o ∧ o + 16 + 8 * declared data o ≤ data.length := by
  have hmax := hl
  unfold isizeMax at hmax
  refine (ensure_ensures (by omega) fun hn => hE fun h => hn h.1).bind fun _ hin => ?_
  have hsum := hfits hin
  refine (readU64_ensures hl (by omega)).bind fun _ _ => ?_
  refine (add_ensures (by omega)).bind fun o₁ h₁ => ?_
  subst h₁
  refine (readU64_ensures hl (by omega)).bind fun countWord hcount => ?_
  have hc : countWord.toNat = declared data o := by
    rw [hcount, BitVec.toNat_ofNat]
    exact Nat.mod_eq_of_lt (declared_lt data o)
  rw [hc]
  refine (add_ensures (by omega)).bind fun o₂ h₂ => ?_
  subst h₂
  refine (mul_ensures (by omega)).bind fun bytes hbytes => ?_
  subst hbytes
  refine (ensure_ensures (by omega) fun hn => hE fun h => hn (by omega)).bind fun _ hids => ?_
  have hcap : (withCapacity (declared data o)).Ensures (Access.Safe data.length) E
      fun _ => True := by
    have hroom : declared data o ≤ data.length := by omega
    refine Logged.Ensures.bind (.note hroom) fun _ _ => ?_
    have hsmall : ¬ declared data o * 8 > isizeMax := by
      unfold isizeMax
      omega
    rw [Hybrid.withCapacity, if_neg hsmall]
    exact .quiet (fun e he => by cases he) fun _ _ => trivial
  refine hcap.bind fun _ _ => ?_
  refine (readIds_ensures hl (declared data o) (by omega)).bind fun ids hend => .pure ?_
  exact ⟨by dsimp only; omega, by omega⟩

/-- The byte of a `PlaceOrder` record at `o` that names an order type does name one. -/
def NamesOrderType (data : List U8) (o : ℕ) : Prop :=
  ∃ b : U8, data[o + 8]? = some b ∧ b.toNat ≤ 3

lemma orderTypeOfByte_ensures {len : ℕ} (b : U8)
    (hE : ¬ b.toNat ≤ 3 → E (.error .invalidFormat)) :
    (Logged.quiet (orderTypeOfByte b) : Decoding _).Ensures (Access.Safe len) E
      fun _ => b.toNat ≤ 3 := by
  unfold orderTypeOfByte
  split
  · exact .quiet (fun e he => by cases he) fun _ _ => by decide
  · exact .quiet (fun e he => by cases he) fun _ _ => by decide
  · exact .quiet (fun e he => by cases he) fun _ _ => by decide
  · exact .quiet (fun e he => by cases he) fun _ _ => by decide
  · rename_i h0 h1 h2 h3
    have hbig : ¬ b.toNat ≤ 3 := by
      intro hle
      have hcases : b = 0 ∨ b = 1 ∨ b = 2 ∨ b = 3 := by bv_omega
      exact hcases.elim h0 fun h => h.elim h1 fun h => h.elim h2 h3
    have hfail := hE hbig
    exact .quiet (fun e he => by cases he; exact hfail) fun a ha => by cases ha

lemma decodePlaceOrder_ensures (hl : data.length ≤ isizeMax) (ho : o ≤ data.length)
    (hE : ¬ (o + 89 ≤ data.length ∧ NamesOrderType data o) → E (.error .invalidFormat)) :
    (decodePlaceOrder data o).Ensures (Access.Safe data.length) E
      fun r => r.2 = o + 85 ∧ o + 89 ≤ data.length ∧ NamesOrderType data o := by
  have hmax := hl
  unfold isizeMax at hmax
  refine (ensure_ensures (by omega) fun hn => hE fun h => hn h.1).bind fun _ hin => ?_
  refine (readU64_ensures hl (by omega)).bind fun _ _ => ?_
  refine (add_ensures (by omega)).bind fun o₁ h₁ => ?_
  subst h₁
  refine (readU8_ensures (by omega)).bind fun b hb => ?_
  refine (add_ensures (by omega)).bind fun o₂ h₂ => ?_
  subst h₂
  have hname : ¬ b.toNat ≤ 3 → E (.error .invalidFormat) := by
    intro hbig
    refine hE fun h => ?_
    obtain ⟨b', hb', hle⟩ := h.2
    rw [hb, Option.some.injEq] at hb'
    exact hbig (hb' ▸ hle)
  refine (orderTypeOfByte_ensures b hname).bind fun _ hle => ?_
  refine (readU8_ensures (by omega)).bind fun _ _ => ?_
  refine (add_ensures (by omega)).bind fun o₃ h₃ => ?_
  subst h₃
  refine (readU256_ensures hl (by omega)).bind fun _ _ => ?_
  refine (add_ensures (by omega)).bind fun o₄ h₄ => ?_
  subst h₄
  refine (readU256_ensures hl (by omega)).bind fun _ _ => ?_
  refine (add_ensures (by omega)).bind fun o₅ h₅ => ?_
  subst h₅
  refine (readU8_ensures (by omega)).bind fun _ _ => ?_
  refine (add_ensures (by omega)).bind fun o₆ h₆ => ?_
  subst h₆
  refine (readU8_ensures (by omega)).bind fun _ _ => ?_
  refine (add_ensures (by omega)).bind fun o₇ h₇ => ?_
  subst h₇
  refine (readU8_ensures (by omega)).bind fun _ _ => ?_
  refine (add_ensures (by omega)).bind fun o₈ h₈ => ?_
  subst h₈
  refine (readU64_ensures hl (by omega)).bind fun _ _ => ?_
  refine (add_ensures (by omega)).bind fun o₉ h₉ => .pure ?_
  exact ⟨by dsimp only; omega, hin, b, hb, hle⟩

/-- A round of the loop at `o` finds a complete record that ends at the given position. -/
inductive CompleteAt (data : List U8) (o : ℕ) : ℕ → Prop
  | placeOrder (hb : data[o]? = some 0) (hin : o + 1 + 89 ≤ data.length)
      (ht : NamesOrderType data (o + 1)) : CompleteAt data o (o + 1 + 85)
  | cancelOrder (hb : data[o]? = some 1)
      (hin : o + 1 + 16 + 8 * declared data (o + 1) ≤ data.length) :
      CompleteAt data o (o + 1 + 16 + 8 * declared data (o + 1))
  | cancelAll (hb : data[o]? = some 2) (hin : o + 1 + 8 ≤ data.length) :
      CompleteAt data o (o + 1 + 8)
  | setLeverage (hb : data[o]? = some 3) (hin : o + 1 + 9 ≤ data.length) :
      CompleteAt data o (o + 1 + 9)
  | adjustMargin (hb : data[o]? = some 4) (hin : o + 1 + 40 ≤ data.length) :
      CompleteAt data o (o + 1 + 40)

/-- A `CancelOrder` header at `o` declares a list that ends beyond the range of `usize`. -/
def TooManyAt (data : List U8) (o : ℕ) : Prop :=
  data[o]? = some 1 ∧ o + 17 ≤ data.length ∧ 2 ^ 64 ≤ o + 17 + 8 * declared data (o + 1)

/-- A round reads complete records, is safe, and refuses everything else. -/
theorem decodeOperation_ensures (hl : data.length ≤ isizeMax) (ho : o < data.length)
    (hfew : ¬ TooManyAt data o)
    (hE : (∀ o', ¬ CompleteAt data o o') → E (.error .invalidFormat)) :
    (decodeOperation data o).Ensures (Access.Safe data.length) E
      fun r => CompleteAt data o r.2 := by
  have hmax := hl
  unfold isizeMax at hmax
  refine (readU8_ensures ho).bind fun opType hb => ?_
  refine (add_ensures (by omega)).bind fun o₁ h₁ => ?_
  subst h₁
  unfold decodeRecord
  split
  · refine (decodePlaceOrder_ensures hl ho fun hn => hE fun o' h => ?_).mono (fun _ he => he) ?_
    · cases h with
      | placeOrder _ hin ht => exact hn ⟨hin, ht⟩
      | _ => simp_all
    · rintro ⟨op, o'⟩ ⟨hend, hin, ht⟩
      dsimp only at hend
      rw [hend]
      exact .placeOrder hb hin ht
  · have hfits : o + 1 + 16 ≤ data.length → o + 1 + 16 + 8 * declared data (o + 1) < 2 ^ 64 := by
      intro hin
      by_contra hge
      exact hfew ⟨hb, hin, by omega⟩
    refine (decodeCancelOrder_ensures hl ho hfits fun hn => hE fun o' h => ?_).mono
      (fun _ he => he) ?_
    · cases h with
      | cancelOrder _ hin => exact hn ⟨by omega, hin⟩
      | _ => simp_all
    · rintro ⟨op, o'⟩ ⟨hend, hin⟩
      dsimp only at hend
      rw [hend]
      exact .cancelOrder hb hin
  · refine (decodeCancelAll_ensures hl ho fun hn => hE fun o' h => ?_).mono (fun _ he => he) ?_
    · cases h with
      | cancelAll _ hin => exact hn hin
      | _ => simp_all
    · rintro ⟨op, o'⟩ ⟨hend, hin⟩
      dsimp only at hend
      rw [hend]
      exact .cancelAll hb hin
  · refine (decodeSetLeverage_ensures hl ho fun hn => hE fun o' h => ?_).mono (fun _ he => he) ?_
    · cases h with
      | setLeverage _ hin => exact hn hin
      | _ => simp_all
    · rintro ⟨op, o'⟩ ⟨hend, hin⟩
      dsimp only at hend
      rw [hend]
      exact .setLeverage hb hin
  · refine (decodeAdjustMargin_ensures hl ho fun hn => hE fun o' h => ?_).mono
      (fun _ he => he) ?_
    · cases h with
      | adjustMargin _ hin => exact hn hin
      | _ => simp_all
    · rintro ⟨op, o'⟩ ⟨hend, hin⟩
      dsimp only at hend
      rw [hend]
      exact .adjustMargin hb hin
  · rename_i h0 h1 h2 h3 h4
    have hfail : E (.error .invalidFormat) := by
      refine hE fun o' h => ?_
      cases h <;> simp_all
    exact .quiet (fun e he => by cases he; exact hfail) fun a ha => by cases ha

end Records

section Grammar
variable {data rest : List U8} {o o' : ℕ}

/-- The bytes from one position to a later one. -/
lemma drop_split {n : ℕ} : data.drop o = (data.drop o).take n ++ data.drop (o + n) := by
  rw [← List.drop_drop, List.take_append_drop]

lemma drop_of_get {b : U8} (h : data[o]? = some b) : data.drop o = b :: data.drop (o + 1) := by
  obtain ⟨hlt, hb⟩ := List.getElem?_eq_some_iff.mp h
  rw [← hb]
  exact List.drop_eq_getElem_cons hlt

variable (data) in
lemma length_take_drop {n : ℕ} (h : o + n ≤ data.length) : ((data.drop o).take n).length = n := by
  rw [List.length_take, List.length_drop]
  omega

/-- What a round reads is a record of the grammar. -/
theorem CompleteAt.record (h : CompleteAt data o o') :
    ∃ r, Record r ∧ data.drop o = r ++ data.drop o' ∧ o' = o + r.length := by
  cases h with
  | placeOrder hb hin ht =>
    obtain ⟨b, hb', hle⟩ := ht
    refine ⟨0 :: ((data.drop (o + 1)).take 8 ++ b :: (data.drop (o + 1 + 8 + 1)).take 76),
      .placeOrder _ b _ (length_take_drop data (by omega)) hle
        (length_take_drop data (by omega)), ?_, ?_⟩
    · conv_lhs =>
        rw [drop_of_get hb, drop_split (o := o + 1) (n := 8), drop_of_get hb',
          drop_split (o := o + 1 + 8 + 1) (n := 76)]
      simp
    · simp only [List.length_cons, List.length_append, length_take_drop data
        (o := o + 1) (n := 8) (by omega), length_take_drop data (o := o + 1 + 8 + 1)
        (n := 76) (by omega)]
  | cancelOrder hb hin =>
    have hm := length_take_drop data (o := o + 1) (n := 8) (by omega)
    have hc := length_take_drop data (o := o + 1 + 8) (n := 8) (by omega)
    have hi := length_take_drop data (o := o + 1 + 16) (n := 8 * declared data (o + 1))
      (by omega)
    refine ⟨_, .cancelOrder _ _ _ hm hc hi, ?_, ?_⟩
    · conv_lhs =>
        rw [drop_of_get hb, drop_split (o := o + 1) (n := 8), drop_split (o := o + 1 + 8) (n := 8),
          drop_split (o := o + 1 + 16) (n := 8 * declared data (o + 1))]
      simp
    · simp only [List.length_cons, List.length_append, hm, hc, hi]
      omega
  | cancelAll hb hin =>
    have hm := length_take_drop data (o := o + 1) (n := 8) (by omega)
    refine ⟨_, .cancelAll _ hm, ?_, ?_⟩
    · conv_lhs => rw [drop_of_get hb, drop_split (o := o + 1) (n := 8)]
      simp
    · rw [List.length_cons, hm]
  | setLeverage hb hin =>
    have hm := length_take_drop data (o := o + 1) (n := 9) (by omega)
    refine ⟨_, .setLeverage _ hm, ?_, ?_⟩
    · conv_lhs => rw [drop_of_get hb, drop_split (o := o + 1) (n := 9)]
      simp
    · rw [List.length_cons, hm]
  | adjustMargin hb hin =>
    have hm := length_take_drop data (o := o + 1) (n := 40) (by omega)
    refine ⟨_, .adjustMargin _ hm, ?_, ?_⟩
    · conv_lhs => rw [drop_of_get hb, drop_split (o := o + 1) (n := 40)]
      simp
    · rw [List.length_cons, hm]

lemma get_of_drop {b : U8} (h : data.drop o = b :: rest) : data[o]? = some b := by
  have hh := congrArg (fun l => l[0]?) h
  simpa using hh

/-- The declared number of ids stands behind the type byte and the market. -/
lemma declared_of_drop {marketId count : List U8} (hm : marketId.length = 8)
    (hc : count.length = 8) (h : data.drop o = (1 :: marketId) ++ (count ++ rest)) :
    declared data (o + 1) = ofBytes count := by
  have hafter := drop_add_length h
  rw [List.length_cons, hm] at hafter
  have hcount : data.drop (o + 1 + 8) = count ++ rest := by rw [← hafter]
  have htake : (data.drop (o + 1 + 8)).take 8 = count := by
    rw [hcount]
    exact List.take_left' hc
  rw [declared, htake]

/-- A record of the grammar with four more bytes behind it is read by a round. -/
theorem completeAt_of_record {r : List U8} (hr : Record r) (h : data.drop o = r ++ rest)
    (hroom : 4 ≤ rest.length) : CompleteAt data o (o + r.length) := by
  have hne : r ++ rest ≠ [] := by
    intro he
    have := congrArg List.length he
    rw [List.length_append, List.length_nil] at this
    omega
  have hlen := length_of_drop h hne
  rw [List.length_append] at hlen
  cases hr with
  | placeOrder marketId orderType fields hm ht hf =>
    simp only [List.cons_append, List.append_assoc] at h
    simp only [List.length_cons, List.length_append, hm, hf] at hlen ⊢
    have htype : data[o + 1 + 8]? = some orderType := by
      have hafter : data.drop o = (0 :: marketId) ++ orderType :: (fields ++ rest) := h
      have hbyte := drop_add_length hafter
      rw [List.length_cons, hm] at hbyte
      exact get_of_drop hbyte
    have hend : o + (8 + (76 + 1) + 1) = o + 1 + 85 := by omega
    rw [hend]
    exact .placeOrder (get_of_drop h) (by omega) ⟨orderType, htype, ht⟩
  | cancelOrder marketId count ids hm hc hi =>
    simp only [List.cons_append, List.append_assoc] at h
    simp only [List.length_cons, List.length_append, hm, hc, hi] at hlen ⊢
    have hcount : declared data (o + 1) = ofBytes count := by
      have hafter : data.drop o = (1 :: marketId) ++ (count ++ (ids ++ rest)) := h
      exact declared_of_drop hm hc hafter
    have hend : o + (8 + 8 + 8 * ofBytes count + 1) = o + 1 + 16 + 8 * declared data (o + 1) := by
      rw [hcount]
      omega
    rw [hend]
    exact .cancelOrder (get_of_drop h) (by rw [hcount]; omega)
  | cancelAll marketId hm =>
    simp only [List.length_cons, hm] at hlen ⊢
    exact .cancelAll (get_of_drop h) (by omega)
  | setLeverage fields hf =>
    simp only [List.length_cons, hf] at hlen ⊢
    exact .setLeverage (get_of_drop h) (by omega)
  | adjustMargin fields hf =>
    simp only [List.length_cons, hf] at hlen ⊢
    exact .adjustMargin (get_of_drop h) (by omega)

theorem CompleteAt.unique (h : CompleteAt data o o') {o'' : ℕ} (h' : CompleteAt data o o'') :
    o' = o'' := by
  cases h <;> cases h' <;> simp_all

end Grammar

section TooMany
variable {data : List U8} {o : ℕ}

lemma ensure_total {n : ℕ} (hl : data.length ≤ isizeMax) (h : o + n ≤ data.length) :
    (ensure data o n).result = .ok .unit := by
  unfold isizeMax at hl
  rw [ensure_result, Hybrid.ensure, usizeAdd_eq (by omega)]
  exact if_neg (Nat.not_lt_of_le h)

lemma add_total {a b : ℕ} (h : a + b < 2 ^ 64) : (add a b).result = .ok (a + b) := by
  rw [add_result, usizeAdd_eq h]

lemma readU8_total {b : U8} (h : data[o]? = some b) : (readU8 data o).result = .ok b := by
  rw [readU8_result, Hybrid.readU8, byteAt, h]

lemma readU64_total (hl : data.length ≤ isizeMax) (h : o + 8 ≤ data.length) :
    (readU64 data o).result = .ok (BitVec.ofNat 64 (ofBytes ((data.drop o).take 8))) := by
  obtain ⟨x, hx, rfl⟩ := (readU64_ensures (E := fun _ => False) hl h).total
  exact hx

/-- With such a header the product wraps, or the sum behind it does. -/
lemma TooManyAt.decodeCancelOrder (hl : data.length ≤ isizeMax) (h : TooManyAt data o) :
    ∃ a ∈ (decodeCancelOrder data (o + 1)).log, ¬ a.Safe data.length := by
  obtain ⟨-, hin, hbig⟩ := h
  have hmax := hl
  unfold isizeMax at hmax
  have hensure := ensure_total (o := o + 1) (n := 16) hl (by omega)
  have hmarket := readU64_total (o := o + 1) hl (by omega)
  have hadd := add_total (a := o + 1) (b := 8) (by omega)
  have hcount := readU64_total (o := o + 1 + 8) hl (by omega)
  have hadd' := add_total (a := o + 1 + 8) (b := 8) (by omega)
  generalize hword : BitVec.ofNat 64 (ofBytes ((data.drop (o + 1 + 8)).take 8)) = countWord at hcount
  have hc : countWord.toNat = declared data (o + 1) := by
    rw [← hword, BitVec.toNat_ofNat]
    exact Nat.mod_eq_of_lt (declared_lt data (o + 1))
  by_cases hwrap : 2 ^ 64 ≤ countWord.toNat * 8
  · refine ⟨.mul countWord.toNat 8, ?_, Nat.not_lt_of_le hwrap⟩
    refine Logged.mem_log_bind_ok hensure <| Logged.mem_log_bind_ok hmarket <|
      Logged.mem_log_bind_ok hadd <| Logged.mem_log_bind_ok hcount <|
      Logged.mem_log_bind_ok hadd' <| Logged.mem_log_bind ?_
    exact List.mem_singleton_self _
  · have hmul : (mul countWord.toNat 8).result = .ok (countWord.toNat * 8) := by
      rw [mul_result, usizeMul_eq (by omega)]
    refine ⟨.add (o + 1 + 8 + 8) (countWord.toNat * 8), ?_, ?_⟩
    · refine Logged.mem_log_bind_ok hensure <| Logged.mem_log_bind_ok hmarket <|
        Logged.mem_log_bind_ok hadd <| Logged.mem_log_bind_ok hcount <|
        Logged.mem_log_bind_ok hadd' <| Logged.mem_log_bind_ok hmul <| Logged.mem_log_bind ?_
      exact Logged.mem_log_bind (List.mem_singleton_self _)
    · show ¬ o + 1 + 8 + 8 + countWord.toNat * 8 < 2 ^ 64
      omega

lemma TooManyAt.decodeOperation (hl : data.length ≤ isizeMax) (h : TooManyAt data o) :
    ∃ a ∈ (decodeOperation data o).log, ¬ a.Safe data.length := by
  obtain ⟨a, ha, hunsafe⟩ := h.decodeCancelOrder hl
  obtain ⟨hb, hin, -⟩ := h
  unfold isizeMax at hl
  have hread := readU8_total hb
  have hadd := add_total (a := o) (b := 1) (by omega)
  exact ⟨a, Logged.mem_log_bind_ok hread (Logged.mem_log_bind_ok hadd ha), hunsafe⟩

end TooMany

section Loop
variable {data : Bytes} {o : ℕ} {acc : List Operation}

/-- What a round logs is in the log of the loop. -/
lemma mem_decodeLoop_of_round (ho : o < data.data.length) {a : Access}
    (ha : a ∈ (decodeOperation data.data o).log) : a ∈ (decodeLoop data o acc).log := by
  cases hr : (decodeOperation data.data o).result with
  | error e =>
    rw [decodeLoop_error ho hr]
    exact List.mem_cons_of_mem _ ha
  | ok r =>
    rw [decodeLoop_ok ho hr]
    exact List.mem_cons_of_mem _ (List.mem_append_left _ ha)

/-- The loop gets to a header behind complete records, and does something unsafe there. -/
lemma decodeLoop_unsafe (records : List (List U8)) (hrec : ∀ r ∈ records, Record r)
    {rest : List U8} (h : data.data.drop o = records.flatten ++ rest) (hroom : 4 ≤ rest.length)
    (hmany : TooManyAt data.data (o + records.flatten.length)) :
    ∃ a ∈ (decodeLoop data o acc).log, ¬ a.Safe data.data.length := by
  have hl := data.length_le
  induction records generalizing o acc with
  | nil =>
    rw [List.flatten_nil, List.length_nil, Nat.add_zero] at hmany
    obtain ⟨a, ha, hunsafe⟩ := hmany.decodeOperation hl
    have hin := hmany.2.1
    exact ⟨a, mem_decodeLoop_of_round (by omega) ha, hunsafe⟩
  | cons r records ih =>
    rw [List.flatten_cons, List.append_assoc] at h
    rw [List.flatten_cons, List.length_append, ← Nat.add_assoc] at hmany
    have hin := hmany.2.1
    have ho : o < data.data.length := by omega
    have hcomplete : CompleteAt data.data o (o + r.length) :=
      completeAt_of_record (hrec r List.mem_cons_self) h (by rw [List.length_append]; omega)
    by_cases hhere : TooManyAt data.data o
    · obtain ⟨a, ha, hunsafe⟩ := hhere.decodeOperation hl
      exact ⟨a, mem_decodeLoop_of_round ho ha, hunsafe⟩
    · obtain ⟨⟨op, o'⟩, hr, hend⟩ := (decodeOperation_ensures (E := fun _ => False) hl ho hhere
        fun hnone => hnone _ hcomplete).total
      have heq : o' = o + r.length := hend.unique hcomplete
      subst heq
      obtain ⟨a, ha, hunsafe⟩ : ∃ a ∈ (decodeLoop data (o + r.length) (acc ++ [op])).log,
          ¬ a.Safe data.data.length :=
        ih (fun q hq => hrec q (List.mem_cons_of_mem _ hq)) (drop_add_length h) hmany
      refine ⟨a, ?_, hunsafe⟩
      rw [decodeLoop_ok ho hr]
      exact List.mem_cons_of_mem _ (List.mem_append_right _ ha)

/-- The bytes before `o` are complete records, and `o` is where they end. -/
def Parsed (data : List U8) (o : ℕ) : Prop :=
  ∃ records : List (List U8), (∀ r ∈ records, Record r) ∧
    data = records.flatten ++ data.drop o ∧ records.flatten.length = o

lemma Parsed.zero (data : List U8) : Parsed data 0 :=
  ⟨[], fun _ hr => absurd hr List.not_mem_nil, rfl, rfl⟩

lemma Parsed.next {data : List U8} {o' : ℕ} (h : Parsed data o) (hc : CompleteAt data o o') :
    Parsed data o' := by
  obtain ⟨records, hrec, hdata, hlen⟩ := h
  obtain ⟨r, hr, hdrop, hend⟩ := hc.record
  refine ⟨records ++ [r], ?_, ?_, ?_⟩
  · intro q hq
    rw [List.mem_append, List.mem_singleton] at hq
    exact hq.elim (hrec q) fun heq => heq ▸ hr
  · rw [List.flatten_append, List.flatten_singleton, List.append_assoc, ← hdrop]
    exact hdata
  · rw [List.flatten_append, List.flatten_singleton, List.length_append, hlen, hend]

/-- Such a header behind parsed records is one the condition on the input speaks of. -/
lemma Parsed.declaresTooMany {data : List U8} (h : Parsed data o) (hmany : TooManyAt data o) :
    DeclaresTooMany data := by
  obtain ⟨records, hrec, hdata, hlen⟩ := h
  obtain ⟨hb, hin, hbig⟩ := hmany
  refine ⟨records, (data.drop (o + 1)).take 8, (data.drop (o + 1 + 8)).take 8,
    data.drop (o + 1 + 16), hrec, length_take_drop data (by omega),
    length_take_drop data (by omega), ?_, ?_⟩
  · conv_lhs =>
      rw [hdata, drop_of_get hb, drop_split (o := o + 1) (n := 8),
        drop_split (o := o + 1 + 8) (n := 8)]
    simp
  · rw [hlen]
    exact hbig

/-- Without such a header the loop is safe from any position it gets to. -/
lemma decodeLoop_ensures (hfew : ¬ DeclaresTooMany data.data) (hp : Parsed data.data o) :
    (decodeLoop data o acc).Ensures (Access.Safe data.data.length) (· = .error .invalidFormat)
      fun _ => True := by
  have hl := data.length_le
  have hhead : ∀ o, o < data.data.length → (Access.add o 1).Safe data.data.length := by
    intro o ho
    unfold isizeMax at hl
    show o + 1 < 2 ^ 64
    omega
  induction o, acc using loop_induction data with
  | stop o acc ho =>
    rw [decodeLoop_end ho]
    exact .quiet (fun e he => by cases he) fun _ _ => trivial
  | failed o acc e ho hr =>
    have hround := decodeOperation_ensures hl ho (fun hmany => hfew (hp.declaresTooMany hmany))
      (E := (· = .error .invalidFormat)) fun _ => rfl
    rw [decodeLoop_error ho hr]
    refine ⟨?_, fun e' he' => ?_, fun _ _ => trivial⟩
    · rw [List.forall_mem_cons]
      exact ⟨hhead o ho, hround.log⟩
    · cases he'
      exact hround.error e hr
  | round o acc op o' ho hr ih =>
    have hround := decodeOperation_ensures hl ho (fun hmany => hfew (hp.declaresTooMany hmany))
      (E := (· = .error .invalidFormat)) fun _ => rfl
    have hrest := ih (hp.next (hround.ok _ hr))
    rw [decodeLoop_ok ho hr]
    refine ⟨?_, hrest.error, fun _ _ => trivial⟩
    rw [List.forall_mem_cons, List.forall_mem_append]
    exact ⟨hhead o ho, hround.log, hrest.log⟩

end Loop

end Watched

section Main
variable (data : Bytes)

lemma decodesSafely_of_not_declaresTooMany (h : ¬ DeclaresTooMany data.data) :
    DecodesSafely data := by
  have hens : (Watched.decodeOperations data).Ensures (Access.Safe data.data.length)
      (· = .error .invalidFormat) fun _ => True := by
    unfold Watched.decodeOperations
    split_ifs
    · exact .quiet (fun e he => by cases he) fun _ _ => trivial
    · exact Watched.decodeLoop_ensures h (.zero _)
  refine ⟨hens.log, ?_⟩
  rw [← Watched.decodeOperations_result]
  cases hr : (Watched.decodeOperations data).result with
  | error e => exact .inr (by rw [hens.error e hr])
  | ok operations => exact .inl ⟨operations, rfl⟩

lemma unsafe_of_declaresTooMany (h : DeclaresTooMany data.data) :
    ∃ a ∈ (Watched.decodeOperations data).log, ¬ a.Safe data.data.length := by
  obtain ⟨records, marketId, count, rest, hrec, hm, hc, hdata, hbig⟩ := h
  have hlen := congrArg List.length hdata
  simp only [List.length_append, List.length_cons, hm, hc] at hlen
  have hne : data.data.isEmpty = false := by
    rw [List.isEmpty_eq_false_iff, ← List.length_pos_iff]
    omega
  have hheader : data.data.drop records.flatten.length = 1 :: (marketId ++ count ++ rest) := by
    rw [hdata, List.drop_left]
  have hmany : Watched.TooManyAt data.data (0 + records.flatten.length) := by
    rw [Nat.zero_add]
    refine ⟨Watched.get_of_drop hheader, by omega, ?_⟩
    rw [List.append_assoc] at hheader
    rw [Watched.declared_of_drop hm hc hheader]
    exact hbig
  rw [Watched.decodeOperations, hne]
  exact Watched.decodeLoop_unsafe records hrec hdata (by simp; omega) hmany

/-- Decoding is safe exactly when no `CancelOrder` header that the decoder comes to declares a list
of ids that ends beyond the range of `usize`. The data may be any bytes, encoded or not. -/
theorem decodesSafely_iff : DecodesSafely data ↔ ¬ DeclaresTooMany data.data := by
  refine ⟨fun hsafe hmany => ?_, decodesSafely_of_not_declaresTooMany data⟩
  obtain ⟨a, ha, hunsafe⟩ := unsafe_of_declaresTooMany data hmany
  exact hunsafe (hsafe.1 a ha)

end Main

section Sample

/-- A `CancelOrder` header for market 1 that declares `2 ^ 61` ids, with nothing behind it:
eight times that number is zero in `usize`. -/
def hugeCount : Bytes where
  data := 1 :: (toBytes 8 1 ++ toBytes 8 (2 ^ 61))
  length_le := by
    simp only [List.length_cons, List.length_append, toBytes_length, isizeMax]
    norm_num

/-- The length test lets it pass, and the vector for the ids is refused with a panic. -/
theorem decodeOperations_hugeCount :
    decodeOperations hugeCount = .error .panic ∧ ¬ DecodesSafely hugeCount := by
  have hround : (Watched.decodeOperation hugeCount.data 0).result = .error .panic := by
    decide +kernel
  have hpanic : decodeOperations hugeCount = .error .panic := by
    rw [← Watched.decodeOperations_result, Watched.decodeOperations, if_neg (by decide),
      Watched.decodeLoop_error (by decide) hround]
  refine ⟨hpanic, ?_⟩
  rintro ⟨-, ⟨operations, hok⟩ | herr⟩
  · rw [hpanic] at hok
    cases hok
  · rw [hpanic] at herr
    cases herr

end Sample

end Pevm.Hybrid
