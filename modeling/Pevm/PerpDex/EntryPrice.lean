import Pevm.PerpDex.Position

/-!
# How exact the averaged entry price is

A fill in the direction of the position averages two prices by three divisions that round down.
While no product wraps, what they lose stays below two units of the last decimal of a price for
each unit of size.
-/
namespace Pevm.PerpDex
open Wrapping

section Averaged
variable (pos : PositionData) (side : Side) (filledSize fillPrice : U256) (leverage : U8)

/-- The exact size of position and fill together, when both have one direction. -/
def totalSize : ℕ := pos.size.toInt.natAbs + (signedSize filledSize side).toInt.natAbs

/-- The exact value of position and fill, each at its own price, before any division. -/
def totalValue : ℕ :=
  pos.size.toInt.natAbs * pos.entryPrice.toNat +
    (signedSize filledSize side).toInt.natAbs * fillPrice.toNat

/-- The price times the total size falls short of the total value by less than one more unit of
price and two units of notional, and the price lies below the higher one of the two. -/
structure AveragesAccurately (entry : U256) : Prop where
  low : entry.toNat * totalSize pos side filledSize ≤ totalValue pos side filledSize fillPrice
  high : (totalValue pos side filledSize fillPrice : ℤ) - 2 * 10 ^ 18 <
    (entry.toNat + 1) * totalSize pos side filledSize
  below : entry.toNat ≤ max pos.entryPrice.toNat fillPrice.toNat

variable {pos side filledSize fillPrice}

lemma totalSize_pos (hopen : pos.size ≠ 0) : 0 < totalSize pos side filledSize := by
  have hne : pos.size.toInt ≠ 0 := by
    intro hzero
    exact hopen (BitVec.toInt_inj.mp hzero)
  unfold totalSize
  omega

/-- A fill in the same direction adds the sizes up. -/
lemma updatePosition_size_of_same_sign
    (hsame : pos.size.toInt.sign = (signedSize filledSize side).toInt.sign)
    (hfits : FitsI128 (totalSize pos side filledSize)) :
    (updatePosition (some pos) side filledSize fillPrice leverage).size.toInt.natAbs =
      totalSize pos side filledSize := by
  have hsum : FitsI128 (pos.size.toInt + (signedSize filledSize side).toInt) := by
    have hsigns := (sign_eq_iff _ _).mp hsame
    unfold FitsI128 totalSize at *
    omega
  have hsize : (updatePosition (some pos) side filledSize fillPrice leverage).size.toInt =
      pos.size.toInt + (signedSize filledSize side).toInt := by
    rw [updatePosition_size_toInt]
    exact (bmod_eq_self_iff _).mpr hsum
  have hsigns := (sign_eq_iff _ _).mp hsame
  rw [hsize]
  unfold totalSize
  omega

/-- The averaged entry price is accurate, for long and for short positions, as long as the fill is
on the side of an open position, the new size fits an `i128` and the total value a word. -/
theorem entryPrice_averagesAccurately (hopen : pos.size ≠ 0)
    (hsame : pos.size.toInt.sign = (signedSize filledSize side).toInt.sign)
    (hfits : FitsI128 (totalSize pos side filledSize))
    (hvalue : totalValue pos side filledSize fillPrice < 2 ^ 256) :
    AveragesAccurately pos side filledSize fillPrice
      (updatePosition (some pos) side filledSize fillPrice leverage).entryPrice := by
  have hpos : 0 < totalSize pos side filledSize := totalSize_pos hopen
  have hsize : (updatePosition (some pos) side filledSize fillPrice leverage).size.toInt.natAbs =
      totalSize pos side filledSize := updatePosition_size_of_same_sign leverage hsame hfits
  have hopen' : (updatePosition (some pos) side filledSize fillPrice leverage).size ≠ 0 := by
    intro hzero
    rw [hzero] at hsize
    have hz : (0 : I128).toInt.natAbs = 0 := by decide
    omega
  have hentry := entryPrice_of_same_sign pos side filledSize fillPrice leverage hsame hopen'
  rw [hsize] at hentry
  -- both notionals, and their sum in units of the precision, stay below the value
  have hexact : wrappedAverage (2 ^ 256) (10 ^ 18)
      (pos.size.toInt.natAbs * pos.entryPrice.toNat)
      ((signedSize filledSize side).toInt.natAbs * fillPrice.toNat)
      (totalSize pos side filledSize) = average (10 ^ 18)
        (pos.size.toInt.natAbs * pos.entryPrice.toNat)
        ((signedSize filledSize side).toInt.natAbs * fillPrice.toNat)
        (totalSize pos side filledSize) := by
    have hbound : 10 ^ 18 + totalSize pos side filledSize ≤ 2 ^ 256 := by
      unfold FitsI128 at hfits
      omega
    apply (wrappedAverage_eq_iff (by norm_num) hpos hbound _ _).mpr
    unfold totalValue at hvalue
    have hold := Nat.div_mul_le_self (pos.size.toInt.natAbs * pos.entryPrice.toNat) (10 ^ 18)
    have hnew := Nat.div_mul_le_self
      ((signedSize filledSize side).toInt.natAbs * fillPrice.toNat) (10 ^ 18)
    refine ⟨by omega, by omega, ?_⟩
    rw [Nat.add_mul]
    omega
  rw [hexact] at hentry
  constructor
  · rw [hentry]
    exact average_mul_le
  · have hlt := lt_succ_average_mul (d := 10 ^ 18)
      (p := pos.size.toInt.natAbs * pos.entryPrice.toNat)
      (q := (signedSize filledSize side).toInt.natAbs * fillPrice.toNat) (by norm_num) hpos
    rw [← hentry] at hlt
    have hcast : ((totalValue pos side filledSize fillPrice : ℕ) : ℤ) <
        ((((updatePosition (some pos) side filledSize fillPrice leverage).entryPrice.toNat + 1) *
          totalSize pos side filledSize + 2 * 10 ^ 18 : ℕ) : ℤ) := by
      exact_mod_cast hlt
    push_cast at hcast
    omega
  · rw [hentry]
    exact average_le hpos

/-- Three units bought at a price of 100 and seven more at 201. -/
theorem entryPrice_averagesAccurately_tenLong :
    AveragesAccurately ⟨3 * 10 ^ 18, 100, 1, 0, 0, 0⟩ .long (7 * 10 ^ 18) 201
      (updatePosition (some ⟨3 * 10 ^ 18, 100, 1, 0, 0, 0⟩) .long (7 * 10 ^ 18) 201 1).entryPrice :=
  entryPrice_averagesAccurately 1 (by decide) (by decide) (by decide) (by decide)

end Averaged

end Pevm.PerpDex
