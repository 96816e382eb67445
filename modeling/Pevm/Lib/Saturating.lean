import Mathlib.Data.BitVec
import Mathlib.Tactic

/-!
# Saturating words

Unsigned arithmetic that stops at the ends of the range. Each operation is the one on
numbers while the numbers stay in the range.
-/
namespace Saturating
variable {w : ℕ} {a b : BitVec w}

/-- The sum, or the greatest value where it does not fit. -/
def saturatingAdd (a b : BitVec w) : BitVec w :=
  if a.toNat + b.toNat < 2 ^ w then a + b else BitVec.allOnes w

/-- The difference, or zero where it would be negative. -/
def saturatingSub (a b : BitVec w) : BitVec w := if b ≤ a then a - b else 0

/-- The product, or the greatest value where it does not fit. -/
def saturatingMul (a b : BitVec w) : BitVec w :=
  if a.toNat * b.toNat < 2 ^ w then a * b else BitVec.allOnes w

def absDiff (a b : BitVec w) : BitVec w := if b ≤ a then a - b else b - a

theorem saturatingAdd_toNat (a b : BitVec w) :
    (saturatingAdd a b).toNat = min (a.toNat + b.toNat) (2 ^ w - 1) := by
  unfold saturatingAdd
  split_ifs with h
  · rw [BitVec.toNat_add_of_lt h]
    omega
  · rw [BitVec.toNat_allOnes]
    omega

theorem saturatingSub_toNat (a b : BitVec w) :
    (saturatingSub a b).toNat = a.toNat - b.toNat := by
  unfold saturatingSub
  split_ifs with h
  · rw [BitVec.toNat_sub_of_le h]
  · have hlt : a.toNat < b.toNat := BitVec.lt_def.mp (BitVec.not_le.mp h)
    rw [BitVec.ofNat_eq_ofNat, BitVec.toNat_ofNat, Nat.zero_mod]
    omega

@[simp] theorem saturatingAdd_zero_left (a : BitVec w) : saturatingAdd 0 a = a := by
  have ha := a.isLt
  apply BitVec.eq_of_toNat_eq
  rw [saturatingAdd_toNat, BitVec.ofNat_eq_ofNat, BitVec.toNat_ofNat, Nat.zero_mod]
  omega

/-- What was taken from the largest word can be taken from it again. -/
theorem saturatingSub_allOnes_sub (a : BitVec w) :
    saturatingSub (BitVec.allOnes w) (BitVec.allOnes w - a) = a := by
  have ha := a.isLt
  have hle : a ≤ BitVec.allOnes w := by
    rw [BitVec.le_def, BitVec.toNat_allOnes]
    omega
  apply BitVec.eq_of_toNat_eq
  rw [saturatingSub_toNat, BitVec.toNat_sub_of_le hle, BitVec.toNat_allOnes]
  omega

theorem saturatingMul_toNat (a b : BitVec w) :
    (saturatingMul a b).toNat = min (a.toNat * b.toNat) (2 ^ w - 1) := by
  unfold saturatingMul
  split_ifs with h
  · rw [BitVec.toNat_mul, Nat.mod_eq_of_lt h]
    omega
  · rw [BitVec.toNat_allOnes]
    omega

theorem absDiff_toNat (a b : BitVec w) :
    (absDiff a b).toNat = (a.toNat - b.toNat) + (b.toNat - a.toNat) := by
  unfold absDiff
  split_ifs with h
  · have hle : b.toNat ≤ a.toNat := BitVec.le_def.mp h
    rw [BitVec.toNat_sub_of_le h]
    omega
  · have hlt : a < b := BitVec.not_le.mp h
    have hlt' : a.toNat < b.toNat := BitVec.lt_def.mp hlt
    rw [BitVec.toNat_sub_of_le (BitVec.le_of_lt hlt)]
    omega

end Saturating
