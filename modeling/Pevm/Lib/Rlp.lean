import Pevm.Lib.BigEndian
import Pevm.Lib.PrefixCode

/-!
# RLP keys

The keys under which the entries of a list are put into a trie are the RLP encodings of their
indices. A number is encoded as a string without leading zeros: a single byte below `0x80` stands
for itself, and any other string has its length before it. Zero is the empty string.
-/
namespace Rlp
open BigEndian

/-- How many bytes a positive number takes when it is written without leading zeros. -/
def width (n : ℕ) : ℕ := Nat.log 256 n + 1

/-- The RLP encoding of a number of at most 55 bytes: small numbers are their own encoding, others
have a header with their width. -/
def encode (n : ℕ) : List Byte :=
  if n = 0 then [BitVec.ofNat 8 0x80]
  else if n < 0x80 then [BitVec.ofNat 8 n]
  else BitVec.ofNat 8 (0x80 + width n) :: toBytes (width n) n

/-- The two halves of every byte, the higher one first, as the steps of a path. -/
def nibbles : List Byte → List (BitVec 4)
  | [] => []
  | b :: bs => b.extractLsb' 4 4 :: b.extractLsb' 0 4 :: nibbles bs

/-- A key precedes another that is above it and does not go on from it, as a trie builder asks of
its leaves. -/
def Precedes {α : Type*} [LT α] (a b : List α) : Prop := a < b ∧ ¬ a <+: b

instance {α : Type*} [LT α] [DecidableEq α] [DecidableLT α] (a b : List α) :
    Decidable (Precedes a b) :=
  inferInstanceAs (Decidable (_ ∧ _))

/-- The entries of a list in the order of the encodings of their indices: zero comes after the
indices that are single bytes. -/
def keyOrder {α : Type*} (xs : List α) : List α :=
  (xs.take 0x80).drop 1 ++ xs.take 1 ++ xs.drop 0x80

section Order
variable {m n : ℕ}

lemma lt_width (n : ℕ) : n < 256 ^ width n := Nat.lt_pow_succ_log_self (by norm_num) n

lemma width_pos : 0 < width n := Nat.succ_pos _

lemma width_mono (h : m ≤ n) : width m ≤ width n :=
  Nat.succ_le_succ (Nat.log_mono_right h)

lemma width_le {k : ℕ} (hn : n ≠ 0) (h : n < 256 ^ k) : width n ≤ k :=
  Nat.log_lt_of_lt_pow hn h

lemma ofNat_lt_ofNat {x y : ℕ} : BitVec.ofNat 8 x < BitVec.ofNat 8 y ↔ x % 256 < y % 256 := by
  rw [BitVec.lt_def, BitVec.toNat_ofNat, BitVec.toNat_ofNat]

lemma ofNat_eq_ofNat {x y : ℕ} : BitVec.ofNat 8 x = BitVec.ofNat 8 y ↔ x % 256 = y % 256 := by
  rw [← BitVec.toNat_inj, BitVec.toNat_ofNat, BitVec.toNat_ofNat]

/-- Strings of one length are in the order of their numbers. -/
lemma toBytes_lt_toBytes {k x y : ℕ} (h : x % 256 ^ k < y % 256 ^ k) :
    toBytes k x < toBytes k y := by
  induction k with
  | zero => simp [Nat.mod_one] at h
  | succ k ih =>
    rw [toBytes, toBytes, List.cons_lt_cons_iff, ofNat_lt_ofNat, ofNat_eq_ofNat]
    rw [pow_succ, Nat.mod_mul, Nat.mod_mul] at h
    have hx : x % 256 ^ k < 256 ^ k := Nat.mod_lt _ (by positivity)
    have hy : y % 256 ^ k < 256 ^ k := Nat.mod_lt _ (by positivity)
    rcases lt_trichotomy (x / 256 ^ k % 256) (y / 256 ^ k % 256) with hlt | heq | hgt
    · exact .inl hlt
    · rw [heq] at h
      exact .inr ⟨heq, ih (by omega)⟩
    · have hmul : 256 ^ k * (y / 256 ^ k % 256) + 256 ^ k ≤ 256 ^ k * (x / 256 ^ k % 256) := by
        rw [← Nat.mul_succ]
        exact Nat.mul_le_mul_left _ hgt
      omega

lemma encode_of_lt (hm : m ≠ 0) (h : m < 0x80) : encode m = [BitVec.ofNat 8 m] := by
  rw [encode, if_neg hm, if_pos h]

lemma encode_of_le (h : 0x80 ≤ m) :
    encode m = BitVec.ofNat 8 (0x80 + width m) :: toBytes (width m) m := by
  rw [encode, if_neg (by omega), if_neg (by omega)]

lemma encode_lt_encode_of_lt (hm : m ≠ 0) (h : m < n) (hn : n < 0x80) : encode m < encode n := by
  rw [encode_of_lt hm (h.trans hn), encode_of_lt (by omega) hn, List.cons_lt_cons_iff,
    ofNat_lt_ofNat]
  exact .inl (by omega)

lemma encode_lt_encode_zero (hm : m ≠ 0) (h : m < 0x80) : encode m < encode 0 := by
  rw [encode_of_lt hm h, encode, if_pos rfl, List.cons_lt_cons_iff, ofNat_lt_ofNat]
  exact .inl (by omega)

lemma header_mod (hn : n ≠ 0) (h : n < 256 ^ 55) :
    (0x80 + width n) % 256 = 0x80 + width n := by
  have hle := width_le hn h
  omega

lemma encode_zero_lt_encode (h : 0x80 ≤ n) (hn : n < 256 ^ 55) : encode 0 < encode n := by
  have hpos : 0 < width n := width_pos
  rw [encode, if_pos rfl, encode_of_le h, List.cons_lt_cons_iff, ofNat_lt_ofNat,
    header_mod (by omega) hn]
  exact .inl (by omega)

lemma encode_lt_encode_of_le (hm : 0x80 ≤ m) (h : m < n) (hn : n < 256 ^ 55) :
    encode m < encode n := by
  rw [encode_of_le hm, encode_of_le (hm.trans h.le), List.cons_lt_cons_iff, ofNat_lt_ofNat,
    header_mod (by omega) (h.trans hn), header_mod (by omega) hn]
  rcases (width_mono h.le).lt_or_eq with hlt | heq
  · exact .inl (by omega)
  · refine .inr ⟨by rw [heq], ?_⟩
    have hwm := lt_width m
    rw [heq] at hwm ⊢
    apply toBytes_lt_toBytes
    rwa [Nat.mod_eq_of_lt hwm, Nat.mod_eq_of_lt (lt_width n)]

/-- Nibbles are in the order of their bytes. -/
lemma nibbles_lt_nibbles {bs cs : List Byte} (h : bs < cs) : nibbles bs < nibbles cs := by
  induction bs generalizing cs with
  | nil =>
    cases cs with
    | nil => exact absurd h (List.lt_irrefl _)
    | cons c cs => exact List.nil_lt_cons _ _
  | cons b bs ih =>
    cases cs with
    | nil => exact absurd h (List.not_lt_nil _)
    | cons c cs =>
      rw [nibbles, nibbles, List.cons_lt_cons_iff, List.cons_lt_cons_iff]
      rcases List.cons_lt_cons_iff.mp h with hlt | ⟨rfl, hlt⟩
      · rw [BitVec.lt_def] at hlt
        simp only [BitVec.lt_def, ← BitVec.toNat_inj, BitVec.extractLsb'_toNat,
          Nat.shiftRight_eq_div_pow]
        omega
      · exact .inr ⟨rfl, .inr ⟨rfl, ih hlt⟩⟩

end Order

section Prefix
variable {m n : ℕ}

lemma encode_of_single (h : m < 0x80) :
    encode m = [BitVec.ofNat 8 (if m = 0 then 0x80 else m)] := by
  rw [encode]
  split_ifs <;> rfl

lemma head_ne_of_lt_of_le {r s : List Byte} (hm : m < 0x80) (hn : 0x80 ≤ n)
    (hlt : n < 256 ^ 55) : encode m ++ r ≠ encode n ++ s := by
  have hpos : 0 < width n := width_pos
  rw [encode_of_single hm, encode_of_le hn]
  intro heq
  have hhead := ofNat_eq_ofNat.mp (List.cons_eq_cons.mp heq).1
  rw [header_mod (by omega) hlt] at hhead
  split_ifs at hhead <;> omega

/-- The first byte tells a single byte from a longer string, and how long that is. -/
theorem encode_headDetermines : PrefixCode.HeadDetermines {n | n < 256 ^ 55} encode id := by
  intro m (hm : m < 256 ^ 55) n (hn : n < 256 ^ 55) r s heq
  rcases Nat.lt_or_ge m 0x80 with hm' | hm' <;> rcases Nat.lt_or_ge n 0x80 with hn' | hn'
  · rw [encode_of_single hm', encode_of_single hn'] at heq
    obtain ⟨hhead, hrest⟩ := List.cons_eq_cons.mp heq
    rw [ofNat_eq_ofNat] at hhead
    refine ⟨?_, hrest⟩
    change m = n
    split_ifs at hhead <;> omega
  · exact absurd heq (head_ne_of_lt_of_le hm' hn' hn)
  · exact absurd heq.symm (head_ne_of_lt_of_le hn' hm' hm)
  · rw [encode_of_le hm', encode_of_le hn'] at heq
    obtain ⟨hhead, hrest⟩ := List.cons_eq_cons.mp heq
    rw [ofNat_eq_ofNat, header_mod (by omega) hm, header_mod (by omega) hn] at hhead
    have hwidth : width m = width n := by omega
    obtain ⟨hbytes, hrest⟩ := List.append_inj hrest (by simp [hwidth])
    have hnum := congrArg ofBytes hbytes
    rw [ofBytes_toBytes, ofBytes_toBytes, Nat.mod_eq_of_lt (lt_width m),
      Nat.mod_eq_of_lt (lt_width n)] at hnum
    exact ⟨hnum, hrest⟩

/-- No encoding is the beginning of another. -/
lemma eq_of_prefix_encode (hm : m < 256 ^ 55) (hn : n < 256 ^ 55) (h : encode m <+: encode n) :
    m = n := by
  obtain ⟨r, hr⟩ := h
  exact (encode_headDetermines m hm n hn r [] (by rw [hr, List.append_nil])).1

lemma encode_ne_nil (n : ℕ) : encode n ≠ [] := by
  rw [encode]
  split_ifs <;> exact List.cons_ne_nil _ _

lemma nibbles_ne_nil {bs : List Byte} (h : bs ≠ []) : nibbles bs ≠ [] := by
  cases bs with
  | nil => exact absurd rfl h
  | cons b bs => exact List.cons_ne_nil _ _

lemma eq_of_nibbles {b c : Byte} (hhigh : b.extractLsb' 4 4 = c.extractLsb' 4 4)
    (hlow : b.extractLsb' 0 4 = c.extractLsb' 0 4) : b = c := by
  simp only [← BitVec.toNat_inj, BitVec.extractLsb'_toNat, Nat.shiftRight_eq_div_pow] at *
  have hb := b.isLt
  have hc := c.isLt
  omega

lemma prefix_of_nibbles {bs cs : List Byte} (h : nibbles bs <+: nibbles cs) : bs <+: cs := by
  induction bs generalizing cs with
  | nil => exact List.nil_prefix
  | cons b bs ih =>
    cases cs with
    | nil => exact absurd (List.prefix_nil.mp h) (nibbles_ne_nil (List.cons_ne_nil _ _))
    | cons c cs =>
      rw [nibbles, nibbles, List.cons_prefix_cons, List.cons_prefix_cons] at h
      obtain ⟨hhigh, hlow, hrest⟩ := h
      rw [List.cons_prefix_cons]
      exact ⟨eq_of_nibbles hhigh hlow, ih hrest⟩

lemma Precedes.nibbles {bs cs : List Byte} (h : Precedes bs cs) :
    Precedes (nibbles bs) (nibbles cs) :=
  ⟨nibbles_lt_nibbles h.1, fun hprefix => h.2 (prefix_of_nibbles hprefix)⟩

end Prefix

section KeyOrder
variable {α : Type*} {xs : List α}

theorem keyOrder_perm (xs : List α) : (keyOrder xs).Perm xs := by
  have hhead : ((xs.take 0x80).drop 1 ++ xs.take 1).Perm (xs.take 0x80) := by
    have htake : (xs.take 0x80).take 1 = xs.take 1 := by
      rw [List.take_take, Nat.min_eq_left (by norm_num)]
    rw [← htake]
    exact List.perm_append_comm.trans (.of_eq (List.take_append_drop 1 _))
  exact (hhead.append_right _).trans (.of_eq (List.take_append_drop 0x80 xs))

lemma keyOrder_map {β : Type*} (f : α → β) (xs : List α) :
    keyOrder (xs.map f) = (keyOrder xs).map f := by
  simp only [keyOrder, List.map_append, List.map_take, List.map_drop]

lemma encode_keyOrder_range {n : ℕ} (hn : n ≤ 256 ^ 55) :
    (keyOrder (List.range n)).Pairwise fun i j => encode i < encode j := by
  have hsmall : ∀ i ∈ ((List.range n).take 0x80).drop 1, i ≠ 0 ∧ i < 0x80 := by
    intro i hi
    rw [List.take_range, List.mem_drop_iff_getElem] at hi
    obtain ⟨j, hj, rfl⟩ := hi
    rw [List.length_range] at hj
    rw [List.getElem_range]
    omega
  have hzero : ∀ i ∈ (List.range n).take 1, i = 0 := by
    intro i hi
    rw [List.take_range, List.mem_range] at hi
    omega
  have hlarge : ∀ i ∈ (List.range n).drop 0x80, 0x80 ≤ i ∧ i < n := by
    intro i hi
    rw [List.mem_drop_iff_getElem] at hi
    obtain ⟨j, hj, rfl⟩ := hi
    rw [List.length_range] at hj
    rw [List.getElem_range]
    omega
  have hlt : (List.range n).Pairwise (· < ·) := List.pairwise_lt_range
  have hhead := (hlt.sublist (List.take_sublist 0x80 _)).sublist (List.drop_sublist 1 _)
  have htail := hlt.sublist (List.drop_sublist 0x80 _)
  rw [keyOrder, List.pairwise_append, List.pairwise_append]
  refine ⟨⟨?_, ?_, ?_⟩, ?_, ?_⟩
  · refine hhead.imp_of_mem fun {i j} hi hj hij => ?_
    exact encode_lt_encode_of_lt (hsmall i hi).1 hij (hsmall j hj).2
  · rw [List.take_range]
    refine List.Pairwise.imp_of_mem (R := (· < ·)) ?_ List.pairwise_lt_range
    intro i j hi hj hij
    rw [List.mem_range] at hi hj
    omega
  · intro i hi j hj
    rw [hzero j hj]
    exact encode_lt_encode_zero (hsmall i hi).1 (hsmall i hi).2
  · refine htail.imp_of_mem fun {i j} hi hj hij => ?_
    exact encode_lt_encode_of_le (hlarge i hi).1 hij ((hlarge j hj).2.trans_le hn)
  · intro i hi j hj
    obtain ⟨hle, hlt⟩ := hlarge j hj
    rcases List.mem_append.mp hi with hi | hi
    · exact List.lt_trans (encode_lt_encode_zero (hsmall i hi).1 (hsmall i hi).2)
        (encode_zero_lt_encode hle (hlt.trans_le hn))
    · rw [hzero i hi]
      exact encode_zero_lt_encode hle (hlt.trans_le hn)

/-- In the order of the keys every encoding precedes the later ones. -/
theorem pairwise_keyOrder_range {n : ℕ} (hn : n ≤ 256 ^ 55) :
    (keyOrder (List.range n)).Pairwise fun i j => Precedes (encode i) (encode j) := by
  refine (encode_keyOrder_range hn).imp_of_mem fun {i j} hi hj hlt => ⟨hlt, fun hprefix => ?_⟩
  rw [(keyOrder_perm _).mem_iff, List.mem_range] at hi hj
  rw [eq_of_prefix_encode (hi.trans_le hn) (hj.trans_le hn) hprefix] at hlt
  exact List.lt_irrefl _ hlt

end KeyOrder

/-- Entries are compared by their keys, and under one key by their values, as tuples are. -/
def entryLe (a b : List Byte × List Byte) : Bool := decide (a.1 < b.1 ∨ a.1 = b.1 ∧ a.2 ≤ b.2)

section Entries
variable {a b : List Byte × List Byte}

lemma entryLe_iff : entryLe a b = true ↔ a.1 < b.1 ∨ a.1 = b.1 ∧ a.2 ≤ b.2 := decide_eq_true_iff

lemma entryLe_trans (a b c : List Byte × List Byte) (hab : entryLe a b = true)
    (hbc : entryLe b c = true) : entryLe a c = true := by
  rw [entryLe_iff] at *
  rcases hab with hab | ⟨hab, hle⟩
  · rcases hbc with hbc | ⟨hbc, -⟩
    · exact .inl (List.lt_trans hab hbc)
    · exact .inl (hbc ▸ hab)
  · rw [hab]
    exact hbc.imp_right fun ⟨heq, hle'⟩ => ⟨heq, List.le_trans hle hle'⟩

lemma entryLe_total (a b : List Byte × List Byte) : (entryLe a b || entryLe b a) = true := by
  rw [Bool.or_eq_true, entryLe_iff, entryLe_iff]
  by_cases hlt : a.1 < b.1
  · exact .inl (.inl hlt)
  by_cases hgt : b.1 < a.1
  · exact .inr (.inl hgt)
  have heq : a.1 = b.1 := List.le_antisymm (List.not_lt.mp hgt) (List.not_lt.mp hlt)
  rcases List.le_total a.2 b.2 with hle | hle
  · exact .inl (.inr ⟨heq, hle⟩)
  · exact .inr (.inr ⟨heq.symm, hle⟩)

lemma entryLe_antisymm (hab : entryLe a b = true) (hba : entryLe b a = true) : a = b := by
  rw [entryLe_iff] at *
  rcases hab with hab | ⟨heq, hle⟩
  · rcases hba with hba | ⟨heq, -⟩
    · exact absurd hba (List.lt_asymm hab)
    · exact absurd (heq ▸ hab) (List.lt_irrefl _)
  · rcases hba with hba | ⟨-, hle'⟩
    · exact absurd (heq ▸ hba) (List.lt_irrefl _)
    · exact Prod.ext heq (List.le_antisymm hle hle')

/-- The values of a list, each under the encoding of its index. -/
def entries (values : List (List Byte)) : List (List Byte × List Byte) :=
  values.zipIdx.map fun v => (encode v.2, v.1)

theorem pairwise_keyOrder_entries {values : List (List Byte)} (h : values.length ≤ 256 ^ 55) :
    (keyOrder (entries values)).Pairwise fun a b => Precedes a.1 b.1 := by
  have hidx : values.zipIdx.map Prod.snd = List.range values.length := by
    rw [List.zipIdx_map_snd, List.range_eq_range']
  have hpair := pairwise_keyOrder_range h
  rw [← hidx, keyOrder_map, List.pairwise_map] at hpair
  rwa [entries, keyOrder_map, List.pairwise_map]

lemma ne_nil_of_mem_entries {values : List (List Byte)} (h : a ∈ entries values) : a.1 ≠ [] := by
  obtain ⟨v, -, rfl⟩ := List.mem_map.mp h
  exact encode_ne_nil v.2

/-- The sorted entries of a list are in the order of their keys. -/
theorem mergeSort_entries {values : List (List Byte)} (h : values.length ≤ 256 ^ 55) :
    (entries values).mergeSort entryLe = keyOrder (entries values) := by
  have hsorted : ((entries values).mergeSort entryLe).Pairwise fun a b => entryLe a b = true :=
    List.pairwise_mergeSort entryLe_trans entryLe_total _
  have hkeys : (keyOrder (entries values)).Pairwise fun a b => entryLe a b = true :=
    (pairwise_keyOrder_entries h).imp fun hprecedes => entryLe_iff.mpr (.inl hprecedes.1)
  have hperm := (List.mergeSort_perm (entries values) entryLe).trans (keyOrder_perm _).symm
  exact hperm.eq_of_pairwise (fun _ _ _ _ hab hba => entryLe_antisymm hab hba) hsorted hkeys

end Entries

end Rlp
