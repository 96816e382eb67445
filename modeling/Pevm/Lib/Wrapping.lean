import Mathlib.Tactic

/-!
# Fixed-point arithmetic that wraps

A product that is reduced modulo `M` before it is scaled down by a divisor no larger than
`M` is right exactly when it did not wrap: a wrap takes away at least one unit of the
quotient. The same holds for a weighted average of two prices.
-/
namespace Wrapping

lemma div_lt_div_of_add_le {x y d : ℕ} (hd : 0 < d) (h : y + d ≤ x) : y / d < x / d := by
  have hle : (y + d) / d ≤ x / d := Nat.div_le_div_right h
  rw [Nat.add_div_right _ hd] at hle
  omega

lemma mod_add_le {M x : ℕ} (h : M ≤ x) : x % M + M ≤ x := by
  have hrec : x % M = (x - M) % M := Nat.mod_eq_sub_mod h
  have hle := Nat.mod_le (x - M) M
  omega

/-- Scaling down after a wrap loses something, unless nothing wrapped. -/
theorem mod_div_eq_iff {M d : ℕ} (hd : 0 < d) (hM : d ≤ M) (x : ℕ) :
    x % M / d = x / d ↔ x < M := by
  constructor
  · intro heq
    by_contra hge
    have hwrap := mod_add_le (Nat.le_of_not_lt hge)
    have hlt := div_lt_div_of_add_le hd (show x % M + d ≤ x by omega)
    omega
  · intro hlt
    rw [Nat.mod_eq_of_lt hlt]

/-- The average of two notionals over a total size, in units of `d`, with the rounding of the
integer divisions. -/
def average (d p q n : ℕ) : ℕ := (p / d + q / d) * d / n

/-- The same with every product reduced modulo `M`, as an arithmetic that wraps has it. -/
def wrappedAverage (M d p q n : ℕ) : ℕ := (p % M / d + q % M / d) * d % M / n

/-- How much of a notional is lost when it wraps. -/
lemma scaled_mod_le {M d : ℕ} (hd : 0 < d) (x : ℕ) :
    x % M / d * d ≤ x / d * d ∧ (M ≤ x → x % M / d * d + M ≤ x / d * d + d) := by
  have hmod := Nat.mod_le x M
  refine ⟨Nat.mul_le_mul_right _ (Nat.div_le_div_right hmod), fun hge => ?_⟩
  have hwrap := mod_add_le hge
  have hlow : x % M / d * d ≤ x % M := Nat.div_mul_le_self _ _
  have hhigh : x < x / d * d + d := Nat.lt_div_mul_add hd
  omega

/-- The wrapped average is the average exactly when none of its products wraps. -/
theorem wrappedAverage_eq_iff {M d n : ℕ} (hd : 0 < d) (hn : 0 < n) (hM : d + n ≤ M) (p q : ℕ) :
    wrappedAverage M d p q n = average d p q n ↔
      p < M ∧ q < M ∧ (p / d + q / d) * d < M := by
  unfold wrappedAverage average
  constructor
  · intro heq
    by_contra hwraps
    obtain ⟨hp, hpM⟩ := scaled_mod_le (M := M) hd p
    obtain ⟨hq, hqM⟩ := scaled_mod_le (M := M) hd q
    have hlow : (p % M / d + q % M / d) * d % M + n ≤ (p / d + q / d) * d := by
      have hmod := Nat.mod_le ((p % M / d + q % M / d) * d) M
      rw [Nat.add_mul] at hmod ⊢
      rw [Nat.add_mul] at hwraps ⊢
      by_cases hp' : M ≤ p
      · have := hpM hp'
        omega
      by_cases hq' : M ≤ q
      · have := hqM hq'
        omega
      · rw [Nat.mod_eq_of_lt (Nat.lt_of_not_le hp'), Nat.mod_eq_of_lt (Nat.lt_of_not_le hq')]
        have hge : M ≤ p / d * d + q / d * d := by omega
        have hwrap := mod_add_le hge
        omega
    have hlt := div_lt_div_of_add_le hn hlow
    omega
  · intro ⟨hp, hq, hsum⟩
    rw [Nat.mod_eq_of_lt hp, Nat.mod_eq_of_lt hq, Nat.mod_eq_of_lt hsum]

section Accuracy
variable {d p q n : ℕ}

/-- The average does not exceed the exact one. -/
theorem average_mul_le : average d p q n * n ≤ p + q := by
  have hp : p / d * d ≤ p := Nat.div_mul_le_self p d
  have hq : q / d * d ≤ q := Nat.div_mul_le_self q d
  have hn : average d p q n * n ≤ (p / d + q / d) * d := Nat.div_mul_le_self _ n
  rw [Nat.add_mul] at hn
  omega

/-- The next one does, but for what the two notionals lose. -/
theorem lt_succ_average_mul (hd : 0 < d) (hn : 0 < n) :
    p + q < (average d p q n + 1) * n + 2 * d := by
  have hp : p < p / d * d + d := Nat.lt_div_mul_add hd
  have hq : q < q / d * d + d := Nat.lt_div_mul_add hd
  have hlt : (p / d + q / d) * d < (average d p q n + 1) * n := by
    rw [Nat.add_mul _ 1, Nat.one_mul]
    exact Nat.lt_div_mul_add hn
  rw [Nat.add_mul] at hlt
  omega

/-- An average of two prices lies below the higher one. -/
theorem average_le {a b x y : ℕ} (hn : 0 < a + b) :
    average d (a * x) (b * y) (a + b) ≤ max x y := by
  have hx : a * x ≤ a * max x y := Nat.mul_le_mul_left a (Nat.le_max_left x y)
  have hy : b * y ≤ b * max x y := Nat.mul_le_mul_left b (Nat.le_max_right x y)
  have hmul : average d (a * x) (b * y) (a + b) * (a + b) ≤ max x y * (a + b) := by
    calc average d (a * x) (b * y) (a + b) * (a + b)
        ≤ a * x + b * y := average_mul_le
      _ ≤ a * max x y + b * max x y := Nat.add_le_add hx hy
      _ = max x y * (a + b) := by rw [← Nat.add_mul, Nat.mul_comm]
  exact Nat.le_of_mul_le_mul_right hmul hn

end Accuracy

end Wrapping
