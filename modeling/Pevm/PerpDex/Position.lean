import Pevm.Lib.Wrapping
import Pevm.PerpDex.Placing

/-!
# What a fill does to a position

Orders have sizes of 256 bits without a sign, positions have sizes of 128 bits with one. A
fill is clamped into the smaller range and added there. As exact integers the two sizes
agree exactly when nothing is clamped and nothing overflows; whether a reduce-only order
reduces, and which price the position carries afterwards, is decided by the exact sizes
before the fill.
-/
namespace Pevm.PerpDex
open Wrapping

def i128Max : ℕ := 2 ^ 127 - 1

/-- The exact integer is one that an `i128` can hold. -/
def FitsI128 (n : ℤ) : Prop := -2 ^ 127 ≤ n ∧ n < 2 ^ 127

instance (n : ℤ) : Decidable (FitsI128 n) := inferInstanceAs (Decidable (_ ∧ _))

/-- Plus for `Long` and minus for `Short`, as an exact integer. -/
def Side.sign : Side → ℤ
  | .long => 1
  | .short => -1

/-- The exact size of a position that may be missing. -/
def sizeOrZero (position : Option PositionData) : ℤ :=
  (position.map fun pos => pos.size.toInt).getD 0

section Sizes

lemma fitsI128_toInt (a : I128) : FitsI128 a.toInt := ⟨a.le_toInt, a.toInt_lt⟩

lemma bmod_eq_self_iff (n : ℤ) : n.bmod (2 ^ 128) = n ↔ FitsI128 n := by
  unfold FitsI128
  rw [Int.bmod_def]
  constructor
  · intro h
    split_ifs at h <;> omega
  · intro h
    split_ifs <;> omega

lemma clampToI128_toInt (size : U256) :
    (clampToI128 size).toInt = (min size.toNat i128Max : ℕ) := by
  unfold clampToI128
  split_ifs with h
  · have hnat : (size.setWidth 128).toNat = size.toNat := by
      rw [BitVec.toNat_setWidth]
      exact Nat.mod_eq_of_lt (by omega)
    rw [BitVec.toInt_eq_toNat_of_lt (by omega), hnat]
    unfold i128Max
    rw [Nat.min_eq_left h]
  · rw [Nat.min_eq_right (by unfold i128Max; omega)]
    decide

lemma direction_toInt (side : Side) : (direction side).toInt = side.sign := by
  cases side <;> decide

/-- The signed size of a fill, clamped. -/
theorem signedSize_toInt (size : U256) (side : Side) :
    (signedSize size side).toInt = side.sign * (min size.toNat i128Max : ℕ) := by
  have hle : min size.toNat i128Max ≤ i128Max := Nat.min_le_right _ _
  unfold signedSize
  rw [BitVec.toInt_mul, clampToI128_toInt, direction_toInt, Int.mul_comm]
  refine (bmod_eq_self_iff _).mpr ?_
  unfold FitsI128
  unfold i128Max at hle ⊢
  cases side <;> simp only [Side.sign] <;> omega

lemma magnitude_toNat (a : I128) : (magnitude a).toNat = a.toInt.natAbs := by
  have hlt := a.abs.isLt
  unfold magnitude
  rw [BitVec.toNat_setWidth, Nat.mod_eq_of_lt (by omega), BitVec.toNat_abs,
    BitVec.toInt_eq_msb_cond]
  have hbound := a.isLt
  split_ifs <;> omega

lemma eq_intMin_iff (a : I128) : a = BitVec.intMin 128 ↔ a.toInt = -2 ^ 127 := by
  have hmin : (BitVec.intMin 128).toInt = -2 ^ 127 := by decide
  rw [← BitVec.toInt_inj, hmin]

/-- The magnitude the code compares: `i128::MIN` is its own. -/
lemma abs_toInt (a : I128) :
    a.abs.toInt = if a.toInt = -2 ^ 127 then -2 ^ 127 else (a.toInt.natAbs : ℤ) := by
  have hmin : (BitVec.intMin 128).toInt = -2 ^ 127 := by decide
  rw [BitVec.toInt_abs_eq_natAbs, hmin]
  simp only [eq_intMin_iff]

/-- A notional in units of the price precision; the product is one of 256 bits. -/
lemma notional_toNat (a b : U256) :
    (a * b / pricePrecision).toNat = a.toNat * b.toNat % 2 ^ 256 / 10 ^ 18 := by
  have hprecision : pricePrecision.toNat = 10 ^ 18 := by decide
  rw [BitVec.toNat_udiv, BitVec.toNat_mul, hprecision]

lemma calculateRequiredMargin_toNat (price size : U256) (leverage : U8) :
    (calculateRequiredMargin price size leverage).toNat =
      price.toNat * size.toNat % 2 ^ 256 / (10 ^ 18 * leverage.toNat) := by
  have hleverage : (leverage.setWidth 256).toNat = leverage.toNat := by
    have hlt := leverage.isLt
    rw [BitVec.toNat_setWidth, Nat.mod_eq_of_lt (by omega)]
  unfold calculateRequiredMargin
  rw [BitVec.toNat_udiv, notional_toNat, hleverage, Nat.div_div_eq_div_mul]

end Sizes

section SizeExact
variable (position : Option PositionData) (side : Side) (filledSize fillPrice : U256)
  (leverage : U8)

lemma updatePosition_size_toInt :
    (updatePosition position side filledSize fillPrice leverage).size.toInt =
      (sizeOrZero position + (signedSize filledSize side).toInt).bmod (2 ^ 128) := by
  cases position with
  | none =>
    show (signedSize filledSize side).toInt = (0 + (signedSize filledSize side).toInt).bmod (2 ^ 128)
    rw [Int.zero_add]
    exact ((bmod_eq_self_iff _).mpr (fitsI128_toInt _)).symm
  | some pos => exact BitVec.toInt_add _ _

/-- A fill moves a position by its exact size when it can be an `i128` and the sum is one. -/
theorem updatePosition_size_exact_iff :
    (updatePosition position side filledSize fillPrice leverage).size.toInt - sizeOrZero position =
        side.sign * filledSize.toNat ↔
      filledSize.toNat ≤ i128Max ∧ FitsI128 (sizeOrZero position + side.sign * filledSize.toNat) := by
  have hold : FitsI128 (sizeOrZero position) := by
    cases position with
    | none => exact ⟨by decide, by decide⟩
    | some pos => exact fitsI128_toInt pos.size
  have hnew := fitsI128_toInt
    (updatePosition position side filledSize fillPrice leverage).size
  rw [updatePosition_size_toInt, signedSize_toInt] at hnew ⊢
  unfold FitsI128 at *
  rw [Int.bmod_def] at hnew ⊢
  unfold i128Max at *
  cases side <;> simp only [Side.sign] at hnew ⊢ <;> split_ifs at hnew ⊢ <;> omega

end SizeExact

section ReduceOnly
variable {pos : PositionData} {side : Side} {size fillPrice : U256} {leverage : U8}

/-- A smaller position than before, and not one of the opposite sign. This is what reduce-only
promises. -/
def Reduced (old new : ℤ) : Prop :=
  new.natAbs < old.natAbs ∧ ¬ (old < 0 ∧ 0 < new) ∧ ¬ (0 < old ∧ new < 0)

instance (old new : ℤ) : Decidable (Reduced old new) := inferInstanceAs (Decidable (_ ∧ _))

lemma toNat_pos (hsize : size ≠ 0) : 0 < size.toNat := by
  have hne : size.toNat ≠ 0 := fun h => hsize (BitVec.eq_of_toNat_eq h)
  omega

lemma isReducing_eq_true_iff (order position : I128) :
    isReducing order position = true ↔
      position.toInt ≠ 0 ∧ ¬ (0 < order.toInt ↔ 0 < position.toInt) := by
  have hzero : position = 0 ↔ position.toInt = 0 := by
    rw [← BitVec.toInt_inj]
    exact Iff.rfl
  unfold isReducing
  split_ifs with h
  · simp [hzero.mp h]
  · rw [hzero] at h
    by_cases ho : 0 < order.toInt <;> by_cases hp : 0 < position.toInt <;> simp [h, ho, hp]

/-- What passes the reduce-only test has the opposite sign of the position. -/
lemma isReducing_signedSize_iff (hsize : size ≠ 0) (position : I128) :
    isReducing (signedSize size side) position = true ↔ side.sign * position.toInt < 0 := by
  have hpos := toNat_pos hsize
  rw [isReducing_eq_true_iff, signedSize_toInt]
  unfold i128Max
  cases side <;> simp only [Side.sign] <;> omega

/-- A fill against a position cannot overflow. -/
lemma updatePosition_size_of_opposite (hopposite : side.sign * pos.size.toInt < 0) :
    (updatePosition (some pos) side size fillPrice leverage).size.toInt =
      pos.size.toInt + side.sign * (min size.toNat i128Max : ℕ) := by
  have hfits := fitsI128_toInt pos.size
  rw [updatePosition_size_toInt, signedSize_toInt]
  refine (bmod_eq_self_iff _).mpr ?_
  show FitsI128 (pos.size.toInt + _)
  unfold FitsI128 at *
  unfold i128Max
  cases side <;> simp only [Side.sign] at hopposite ⊢ <;> omega

/-- A fill against a position reduces it exactly when it is no larger than the position. A
position of at least `i128::MAX` is reduced by every fill, which is clamped to that. -/
theorem reduced_iff (hsize : size ≠ 0) (hopposite : side.sign * pos.size.toInt < 0) :
    Reduced pos.size.toInt (updatePosition (some pos) side size fillPrice leverage).size.toInt ↔
      size.toNat ≤ pos.size.toInt.natAbs ∨ i128Max ≤ pos.size.toInt.natAbs := by
  have hpos := toNat_pos hsize
  have hfits := fitsI128_toInt pos.size
  rw [updatePosition_size_of_opposite hopposite]
  unfold Reduced FitsI128 i128Max at *
  cases side <;> simp only [Side.sign] at hopposite ⊢ <;> omega

end ReduceOnly

section EntryPrice

/-- From long to short, or from short to long, past zero. -/
def Flips (old new : ℤ) : Prop := (old < 0 ∧ 0 < new) ∨ (0 < old ∧ new < 0)

/-- Further out in the same direction; a position of size zero grows by no order. -/
def Grows (old new : ℤ) : Prop := (old < 0 ∧ new < old) ∨ (0 < old ∧ old < new)

/-- Closer to zero in the same direction, or closed; the size has changed. -/
def Shrinks (old new : ℤ) : Prop := (old < new ∧ new ≤ 0) ∨ (0 ≤ new ∧ new < old)

instance (old new : ℤ) : Decidable (Flips old new) := inferInstanceAs (Decidable (_ ∨ _))
instance (old new : ℤ) : Decidable (Grows old new) := inferInstanceAs (Decidable (_ ∨ _))
instance (old new : ℤ) : Decidable (Shrinks old new) := inferInstanceAs (Decidable (_ ∨ _))

/-- The entry price that goes with a move from one exact size to another: the old one while
the position shrinks, the price of the fill when it opens or turns around, and the average,
weighted by size and rounded down to 18 decimals, when it grows. -/
structure EntryFollowsSign (old new : ℤ) (oldPrice fillPrice entry : U256) : Prop where
  kept : Shrinks old new → entry = oldPrice
  taken : old = 0 ∨ Flips old new → entry = fillPrice
  averaged : Grows old new → entry.toNat = average (10 ^ 18) (old.natAbs * oldPrice.toNat)
    ((new - old).natAbs * fillPrice.toNat) new.natAbs

lemma sign_eq_iff (a b : ℤ) :
    a.sign = b.sign ↔ (0 < a ∧ 0 < b) ∨ (a < 0 ∧ b < 0) ∨ (a = 0 ∧ b = 0) := by
  obtain ha | ha | ha := lt_trichotomy a 0 <;> obtain hb | hb | hb := lt_trichotomy b 0 <;>
    simp [ha, hb, Int.sign_eq_neg_one_of_neg, Int.sign_eq_one_of_pos] <;> omega

variable (pos : PositionData) (side : Side) (filledSize fillPrice : U256) (leverage : U8)

/-- When the signs agree the code averages, with products of 256 bits. -/
lemma entryPrice_of_same_sign
    (hsign : pos.size.toInt.sign = (signedSize filledSize side).toInt.sign)
    (hopen : (updatePosition (some pos) side filledSize fillPrice leverage).size ≠ 0) :
    (updatePosition (some pos) side filledSize fillPrice leverage).entryPrice.toNat =
      wrappedAverage (2 ^ 256) (10 ^ 18) (pos.size.toInt.natAbs * pos.entryPrice.toNat)
        ((signedSize filledSize side).toInt.natAbs * fillPrice.toNat)
        (updatePosition (some pos) side filledSize fillPrice leverage).size.toInt.natAbs := by
  generalize hdelta : signedSize filledSize side = delta at hsign ⊢
  have hsize : (updatePosition (some pos) side filledSize fillPrice leverage).size =
      pos.size + delta := by
    rw [← hdelta]
    rfl
  have hentry : (updatePosition (some pos) side filledSize fillPrice leverage).entryPrice =
      newEntryPrice pos delta (pos.size + delta) fillPrice := by
    rw [← hdelta]
    rfl
  rw [hsize] at hopen ⊢
  have htotal : magnitude (pos.size + delta) > 0 := by
    have hne : (pos.size + delta).toInt ≠ 0 := fun h => hopen (BitVec.toInt_inj.mp h)
    have hmag := magnitude_toNat (pos.size + delta)
    show (0 : U256).toNat < (magnitude (pos.size + delta)).toNat
    rw [hmag]
    exact Int.natAbs_pos.mpr hne
  have hprecision : pricePrecision.toNat = 10 ^ 18 := by decide
  have hsum : (magnitude pos.size * pos.entryPrice / pricePrecision).toNat +
      (magnitude delta * fillPrice / pricePrecision).toNat < 2 ^ 256 := by
    rw [notional_toNat, notional_toNat]
    have hold := Nat.mod_lt ((magnitude pos.size).toNat * pos.entryPrice.toNat)
      (show 0 < 2 ^ 256 by norm_num)
    have hnew := Nat.mod_lt ((magnitude delta).toNat * fillPrice.toNat)
      (show 0 < 2 ^ 256 by norm_num)
    omega
  rw [hentry, newEntryPrice, if_pos hsign, if_pos htotal, BitVec.toNat_udiv, BitVec.toNat_mul,
    BitVec.toNat_add, Nat.mod_eq_of_lt hsum, notional_toNat, notional_toNat, hprecision,
    magnitude_toNat, magnitude_toNat, magnitude_toNat, wrappedAverage]

/-- When they do not, the code compares magnitudes and nothing else. -/
lemma entryPrice_of_other_sign
    (hsign : pos.size.toInt.sign ≠ (signedSize filledSize side).toInt.sign) :
    (updatePosition (some pos) side filledSize fillPrice leverage).entryPrice =
      if (updatePosition (some pos) side filledSize fillPrice leverage).size.abs.toInt <
        pos.size.abs.toInt then pos.entryPrice else fillPrice :=
  if_neg hsign

/-- A fill of nothing on an empty position has no price. -/
lemma entryPrice_of_nothing (hold : pos.size = 0) (hdelta : signedSize filledSize side = 0) :
    (updatePosition (some pos) side filledSize fillPrice leverage).entryPrice = 0 := by
  have hentry : (updatePosition (some pos) side filledSize fillPrice leverage).entryPrice =
      newEntryPrice pos 0 (pos.size + 0) fillPrice := by
    rw [← hdelta]
    rfl
  have hsign : pos.size.toInt.sign = (0 : I128).toInt.sign := by rw [hold]
  have htotal : ¬ magnitude (pos.size + 0) > 0 := by
    rw [hold]
    decide
  rw [hentry, newEntryPrice, if_pos hsign, if_neg htotal]

/-- The exact size after the fill, where the code may clamp or wrap. -/
def sizeAfter (pos : PositionData) (side : Side) (filledSize : U256) : ℤ :=
  pos.size.toInt + side.sign * filledSize.toNat

/-- Where the entry price comes out right: a position that turns around ends no closer to zero
than it was, the most negative position is not reduced, nothing is filled on an empty position
only for nothing, and no product of an average needs more than 256 bits. -/
structure EntryPriced (pos : PositionData) (side : Side) (filledSize fillPrice : U256) : Prop where
  flips : Flips pos.size.toInt (sizeAfter pos side filledSize) → pos.size.toInt ≠ -2 ^ 127 →
    min filledSize.toNat i128Max < 2 * pos.size.toInt.natAbs → pos.entryPrice = fillPrice
  mostNegative : pos.size.toInt = -2 ^ 127 → Shrinks pos.size.toInt (sizeAfter pos side filledSize) →
    pos.entryPrice = fillPrice
  nothing : pos.size.toInt = 0 → filledSize.toNat = 0 → fillPrice = 0
  grows : Grows pos.size.toInt (sizeAfter pos side filledSize) →
    pos.size.toInt.natAbs * pos.entryPrice.toNat < 2 ^ 256 ∧
    filledSize.toNat * fillPrice.toNat < 2 ^ 256 ∧
    (pos.size.toInt.natAbs * pos.entryPrice.toNat / 10 ^ 18 +
      filledSize.toNat * fillPrice.toNat / 10 ^ 18) * 10 ^ 18 < 2 ^ 256

variable {pos side filledSize fillPrice}

/-- Unless both move the same way, the code keeps the old price exactly when the fill is less
than twice the position, and the position is not the most negative one. -/
lemma entryPrice_eq_ite (hother : ¬ Grows pos.size.toInt (sizeAfter pos side filledSize))
    (hsome : pos.size.toInt ≠ 0 ∨ filledSize.toNat ≠ 0)  :
    (updatePosition (some pos) side filledSize fillPrice leverage).entryPrice =
      if pos.size.toInt ≠ -2 ^ 127 ∧ 0 < filledSize.toNat ∧
        min filledSize.toNat i128Max < 2 * pos.size.toInt.natAbs
      then pos.entryPrice else fillPrice := by
  have hold := fitsI128_toInt pos.size
  have hsign : pos.size.toInt.sign ≠ (signedSize filledSize side).toInt.sign := by
    rw [ne_eq, sign_eq_iff, signedSize_toInt]
    unfold Grows sizeAfter FitsI128 i128Max at *
    cases side <;> simp only [Side.sign] at hother ⊢ <;> omega
  have hnew : (updatePosition (some pos) side filledSize fillPrice leverage).size.toInt =
      pos.size.toInt + side.sign * (min filledSize.toNat i128Max : ℕ) := by
    rw [updatePosition_size_toInt, signedSize_toInt]
    refine (bmod_eq_self_iff _).mpr ?_
    show FitsI128 (pos.size.toInt + _)
    unfold Grows sizeAfter FitsI128 i128Max at *
    cases side <;> simp only [Side.sign] at hother ⊢ <;> omega
  rw [entryPrice_of_other_sign _ _ _ _ _ hsign, abs_toInt, abs_toInt, hnew]
  refine if_congr ?_ (rfl) (rfl)
  unfold Grows sizeAfter FitsI128 i128Max at *
  cases side <;> simp only [Side.sign] at hother ⊢ <;> split_ifs <;> omega

lemma entryPrice_of_grows (hfits : FitsI128 (sizeAfter pos side filledSize))
    (hgrows : Grows pos.size.toInt (sizeAfter pos side filledSize)) :
    (updatePosition (some pos) side filledSize fillPrice leverage).entryPrice.toNat =
      wrappedAverage (2 ^ 256) (10 ^ 18) (pos.size.toInt.natAbs * pos.entryPrice.toNat)
        (filledSize.toNat * fillPrice.toNat) (sizeAfter pos side filledSize).natAbs := by
  have hsmall : filledSize.toNat ≤ i128Max := by
    have hold := fitsI128_toInt pos.size
    unfold Grows sizeAfter FitsI128 i128Max at *
    cases side <;> simp only [Side.sign] at hfits hgrows <;> omega
  have hdelta : (signedSize filledSize side).toInt = side.sign * filledSize.toNat := by
    rw [signedSize_toInt, Nat.min_eq_left hsmall]
  have hsign : pos.size.toInt.sign = (signedSize filledSize side).toInt.sign := by
    rw [sign_eq_iff, hdelta]
    unfold Grows sizeAfter at *
    cases side <;> simp only [Side.sign] at hgrows ⊢ <;> omega
  have hnew : (updatePosition (some pos) side filledSize fillPrice leverage).size.toInt =
      sizeAfter pos side filledSize := by
    rw [updatePosition_size_toInt, hdelta]
    exact (bmod_eq_self_iff _).mpr hfits
  have hopen : (updatePosition (some pos) side filledSize fillPrice leverage).size ≠ 0 := by
    intro hzero
    rw [hzero] at hnew
    have hz : (0 : I128).toInt = 0 := by decide
    unfold Grows at hgrows
    omega
  have hfilled : (side.sign * (filledSize.toNat : ℤ)).natAbs = filledSize.toNat := by
    cases side <;> simp only [Side.sign] <;> omega
  rw [entryPrice_of_same_sign _ _ _ _ _ hsign hopen, hnew, hdelta, hfilled]

lemma entryFollowsSign_of_grows {old new : ℤ} {oldPrice entry : U256} (h : Grows old new) :
    EntryFollowsSign old new oldPrice fillPrice entry ↔
      entry.toNat = average (10 ^ 18) (old.natAbs * oldPrice.toNat)
        ((new - old).natAbs * fillPrice.toNat) new.natAbs := by
  refine ⟨fun hf => hf.averaged h, fun hav => ⟨fun hs => ?_, fun ht => ?_, fun _ => hav⟩⟩
  · unfold Grows Shrinks at *
    omega
  · unfold Grows Flips at *
    omega

lemma entryFollowsSign_of_not_grows {old new : ℤ} {oldPrice entry : U256} (h : ¬ Grows old new) :
    EntryFollowsSign old new oldPrice fillPrice entry ↔
      (Shrinks old new → entry = oldPrice) ∧ (old = 0 ∨ Flips old new → entry = fillPrice) :=
  ⟨fun hf => ⟨hf.kept, hf.taken⟩, fun hf => ⟨hf.1, hf.2, fun hg => absurd hg h⟩⟩

variable (pos side filledSize fillPrice) in
/-- The entry price follows the sign of the position exactly where it is priced right. The fill is
any whose new size fits an `i128`, with positions and prices at their limits included. -/
theorem entryFollowsSign_iff (hfits : FitsI128 (sizeAfter pos side filledSize)) :
    EntryFollowsSign pos.size.toInt (sizeAfter pos side filledSize) pos.entryPrice fillPrice
        (updatePosition (some pos) side filledSize fillPrice leverage).entryPrice ↔
      EntryPriced pos side filledSize fillPrice := by
  have hold := fitsI128_toInt pos.size
  have hmoved : (sizeAfter pos side filledSize - pos.size.toInt).natAbs = filledSize.toNat := by
    unfold sizeAfter
    cases side <;> simp only [Side.sign] <;> omega
  by_cases hgrows : Grows pos.size.toInt (sizeAfter pos side filledSize)
  · have hopen : 0 < (sizeAfter pos side filledSize).natAbs := by
      unfold Grows at hgrows
      omega
    have hroom : 10 ^ 18 + (sizeAfter pos side filledSize).natAbs ≤ 2 ^ 256 := by
      unfold FitsI128 at hfits
      omega
    rw [entryFollowsSign_of_grows hgrows, entryPrice_of_grows leverage hfits hgrows, hmoved,
      wrappedAverage_eq_iff (by norm_num) hopen hroom]
    refine ⟨fun hroom => ⟨fun hflips => ?_, fun _ hshrinks => ?_, fun hzero => ?_, fun _ => hroom⟩,
      fun h => h.grows hgrows⟩
    · unfold Grows Flips at *
      omega
    · unfold Grows Shrinks at *
      omega
    · unfold Grows at hgrows
      omega
  by_cases hnone : pos.size.toInt = 0 ∧ filledSize.toNat = 0
  · have hentry : (updatePosition (some pos) side filledSize fillPrice leverage).entryPrice = 0 :=
      entryPrice_of_nothing _ _ _ _ _ (BitVec.toInt_inj.mp hnone.1) (by
        rw [← BitVec.toInt_inj, signedSize_toInt, hnone.2]
        cases side <;> decide)
    rw [hentry, entryFollowsSign_of_not_grows hgrows]
    constructor
    · intro ⟨_, htaken⟩
      refine ⟨fun hflips => ?_, fun hmin => ?_, fun _ _ => (htaken (.inl hnone.1)).symm,
        fun hg => absurd hg hgrows⟩
      · unfold Flips at hflips
        omega
      · omega
    · intro h
      refine ⟨fun hshrinks => ?_, fun _ => (h.nothing hnone.1 hnone.2).symm⟩
      unfold Shrinks at hshrinks
      omega
  · rw [entryPrice_eq_ite leverage hgrows (by omega), entryFollowsSign_of_not_grows hgrows]
    constructor
    · intro ⟨hkept, htaken⟩
      refine ⟨fun hflips hmin hless => ?_, fun hmin hshrinks => ?_,
        fun hzero hnothing => absurd ⟨hzero, hnothing⟩ hnone, fun hg => absurd hg hgrows⟩
      · have hfilled : 0 < filledSize.toNat := by
          unfold Flips at hflips
          omega
        have hentry := htaken (.inr hflips)
        rw [if_pos ⟨hmin, hfilled, hless⟩] at hentry
        exact hentry
      · have hentry := hkept hshrinks
        rw [if_neg fun h => h.1 hmin] at hentry
        exact hentry.symm
    · intro h
      refine ⟨fun hshrinks => ?_, fun hopen => ?_⟩
      · by_cases hmin : pos.size.toInt = -2 ^ 127
        · rw [if_neg fun hc => hc.1 hmin]
          exact (h.mostNegative hmin hshrinks).symm
        · have hless : 0 < filledSize.toNat ∧
              min filledSize.toNat i128Max < 2 * pos.size.toInt.natAbs := by
            unfold Shrinks i128Max at *
            omega
          rw [if_pos ⟨hmin, hless⟩]
      · split_ifs with hc
        · have hflips : Flips pos.size.toInt (sizeAfter pos side filledSize) :=
            hopen.resolve_left (by omega)
          exact h.flips hflips hc.1 hc.2.2
        · rfl

end EntryPrice

section Sample

/-- Ten units, long, entered at a price of 100. -/
def tenLong : PositionData where
  size := 10
  entryPrice := 100
  leverage := 1
  margin := 0
  unrealizedPnl := 0
  lastFundingIndex := 0

/-- Selling four of them keeps the entry price. -/
theorem entryFollowsSign_tenLong_sell_four :
    EntryFollowsSign 10 6 100 300 (updatePosition (some tenLong) .short 4 300 1).entryPrice := by
  have hsell := entryFollowsSign_iff tenLong .short 4 300 1 (by decide)
  refine hsell.mpr ⟨?_, ?_, ?_, ?_⟩
  · decide
  · decide
  · decide
  · decide

/-- Selling fifteen of them leaves five short, entered at the price of the ten long. -/
theorem not_entryFollowsSign_tenLong_sell_fifteen :
    FitsI128 (sizeAfter tenLong .short 15) ∧
      ¬ EntryFollowsSign tenLong.size.toInt (sizeAfter tenLong .short 15) tenLong.entryPrice 300
        (updatePosition (some tenLong) .short 15 300 1).entryPrice := by
  refine ⟨by decide, fun h => ?_⟩
  have hentry := h.taken (.inr (.inr ⟨by decide, by decide⟩))
  revert hentry
  decide

end Sample

end Pevm.PerpDex
