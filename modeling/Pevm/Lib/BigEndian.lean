import Mathlib.Data.BitVec
import Mathlib.Tactic

/-!
# Big-endian byte strings

Fixed-width big-endian numbers, and the two checked accesses (one byte, one range)
that a hand-written decoder makes. A decoder's position is described by what is
left of the input, `data.drop o = field ++ rest`, so each access has one rule that
reads the field and one that moves the position behind it.
-/
namespace BigEndian

/-- Eight bits. -/
abbrev Byte := BitVec 8

/-- The low `n` bytes of `v`, most significant first; what lies above them is dropped. -/
def toBytes : ℕ → ℕ → List Byte
  | 0, _ => []
  | n + 1, v => BitVec.ofNat 8 (v / 256 ^ n) :: toBytes n v

/-- The number that a list of bytes stands for, most significant first. -/
def ofBytes (bs : List Byte) : ℕ :=
  bs.foldl (fun acc b => 256 * acc + b.toNat) 0

@[simp] theorem toBytes_length (n v : ℕ) : (toBytes n v).length = n := by
  induction n with
  | zero => rfl
  | succ n ih => simp [toBytes, ih]

lemma foldl_toBytes (n v acc : ℕ) :
    (toBytes n v).foldl (fun acc b => 256 * acc + b.toNat) acc =
      acc * 256 ^ n + v % 256 ^ n := by
  induction n generalizing acc with
  | zero => simp [toBytes, Nat.mod_one]
  | succ n ih =>
    have hb : (BitVec.ofNat 8 (v / 256 ^ n)).toNat = v / 256 ^ n % 256 := by simp
    have hsplit : v % 256 ^ (n + 1) = v % 256 ^ n + 256 ^ n * (v / 256 ^ n % 256) := by
      rw [pow_succ, Nat.mod_mul]
    rw [toBytes, List.foldl_cons, ih, hb, hsplit]
    ring

theorem ofBytes_toBytes (n v : ℕ) : ofBytes (toBytes n v) = v % 256 ^ n := by
  simpa [ofBytes] using foldl_toBytes n v 0

/-- A word of at most `n` bytes is recovered from its `n` bytes. -/
theorem ofNat_ofBytes_toBytes {w : ℕ} (n : ℕ) (hw : w ≤ 8 * n) (x : BitVec w) :
    BitVec.ofNat w (ofBytes (toBytes n x.toNat)) = x := by
  have hx : x.toNat < 256 ^ n := by
    calc x.toNat < 2 ^ w := x.isLt
      _ ≤ 2 ^ (8 * n) := Nat.pow_le_pow_right (by norm_num) hw
      _ = 256 ^ n := by rw [pow_mul]; norm_num
  rw [ofBytes_toBytes, Nat.mod_eq_of_lt hx, BitVec.ofNat_toNat, BitVec.setWidth_eq]

/-- Two words of at most `n` bytes with the same bytes are equal. -/
theorem toBytes_inj {w : ℕ} (n : ℕ) (hw : w ≤ 8 * n) {x y : BitVec w}
    (h : toBytes n x.toNat = toBytes n y.toNat) : x = y := by
  rw [← ofNat_ofBytes_toBytes n hw x, h, ofNat_ofBytes_toBytes n hw y]

lemma foldl_lt (bs : List Byte) (acc : ℕ) :
    bs.foldl (fun acc b => 256 * acc + b.toNat) acc < (acc + 1) * 256 ^ bs.length := by
  induction bs generalizing acc with
  | nil => simp
  | cons b bs ih =>
    rw [List.foldl_cons, List.length_cons, pow_succ]
    have hb : b.toNat < 256 := b.isLt
    calc bs.foldl (fun acc b => 256 * acc + b.toNat) (256 * acc + b.toNat)
        < (256 * acc + b.toNat + 1) * 256 ^ bs.length := ih _
      _ ≤ ((acc + 1) * 256) * 256 ^ bs.length := Nat.mul_le_mul_right _ (by omega)
      _ = (acc + 1) * (256 ^ bs.length * 256) := by ring

theorem ofBytes_lt (bs : List Byte) : ofBytes bs < 256 ^ bs.length := by
  simpa [ofBytes] using foldl_lt bs 0

section Access
variable {ε : Type*} (oob : ε) (data : List Byte)

/-- Access to one byte of the data; outside the data it fails with `oob`. -/
def byteAt (i : ℕ) : Except ε Byte :=
  match data[i]? with
  | some b => .ok b
  | none => .error oob

/-- Access to the bytes from `lo` up to `hi`; a range that is not inside the data, or that ends
before it begins, fails with `oob`. -/
def range (lo hi : ℕ) : Except ε (List Byte) :=
  if lo ≤ hi ∧ hi ≤ data.length then .ok ((data.drop lo).take (hi - lo)) else .error oob

variable {data} {o : ℕ}

lemma drop_add_length {field rest : List Byte} (h : data.drop o = field ++ rest) :
    data.drop (o + field.length) = rest := by
  rw [← List.drop_drop, h, List.drop_left]

lemma length_of_drop {bs : List Byte} (h : data.drop o = bs) (hne : bs ≠ []) :
    o + bs.length = data.length := by
  have hl := congrArg List.length h
  have hpos := List.length_pos_iff.mpr hne
  rw [List.length_drop] at hl
  omega

theorem byteAt_of_drop {b : Byte} {rest : List Byte} (h : data.drop o = b :: rest) :
    byteAt oob data o = .ok b := by
  have hb : data[o]? = some b := by
    have hh := congrArg (fun l => l[0]?) h
    simpa using hh
  simp [byteAt, hb]

theorem range_of_drop {field rest : List Byte} (h : data.drop o = field ++ rest)
    (hne : field ≠ []) : range oob data o (o + field.length) = .ok field := by
  have hl := length_of_drop h (by simp [hne])
  have hin : o ≤ o + field.length ∧ o + field.length ≤ data.length := by
    rw [List.length_append] at hl
    omega
  rw [range, if_pos hin, h, Nat.add_sub_cancel_left, List.take_left]

end Access

end BigEndian
