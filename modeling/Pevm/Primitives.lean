import Mathlib.Data.BitVec
import Mathlib.Tactic

/-!
# Machine words

Fixed-width words of the source are bit vectors, so `+`, `-` and `*` wrap as they
do in a release build and in `U256`. A signed word is read through `toInt`.
-/
namespace Pevm

abbrev U8 := BitVec 8
abbrev U16 := BitVec 16
abbrev U64 := BitVec 64
abbrev U128 := BitVec 128
abbrev U256 := BitVec 256
abbrev I128 := BitVec 128
abbrev Address := BitVec 160
abbrev B256 := BitVec 256

/-- `usize` is 64 bits wide; its sum wraps. -/
def usizeAdd (a b : ℕ) : ℕ := (a + b) % 2 ^ 64

def usizeMul (a b : ℕ) : ℕ := (a * b) % 2 ^ 64

theorem usizeAdd_eq {a b : ℕ} (h : a + b < 2 ^ 64) : usizeAdd a b = a + b :=
  Nat.mod_eq_of_lt h

theorem usizeMul_eq {a b : ℕ} (h : a * b < 2 ^ 64) : usizeMul a b = a * b :=
  Nat.mod_eq_of_lt h

/-- The largest number of bytes a Rust allocation can hold. -/
def isizeMax : ℕ := 2 ^ 63 - 1

end Pevm
