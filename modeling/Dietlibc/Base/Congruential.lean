import Mathlib.Tactic

/-!
# Linear congruential sequences

`orbit a c m x` is the sequence from `x` under `x ↦ (a * x + c) % m`. A product modulo
`m = a * q + r` has a form without a product above `m` when `r` is below `q`: `schrage_modEq`
is its residue and `schrage_bounds` its range. The division is the one that rounds to zero.
-/

namespace Congruential

variable {a c m x q r : Int} {n : Nat}

/-- The state after `n` steps. -/
def orbit (a c m x : Int) : Nat → Int
  | 0 => x
  | n + 1 => (a * orbit a c m x n + c) % m

@[simp] theorem orbit_zero : orbit a c m x 0 = x := rfl

@[simp] theorem orbit_succ : orbit a c m x (n + 1) = (a * orbit a c m x n + c) % m := rfl

theorem orbit_bounds (hm : 0 < m) : 0 ≤ orbit a c m x (n + 1) ∧ orbit a c m x (n + 1) < m :=
  ⟨Int.emod_nonneg _ hm.ne', Int.emod_lt_of_pos _ hm⟩

/-- A step can be taken at the front. -/
theorem orbit_step : orbit a c m x (n + 1) = orbit a c m ((a * x + c) % m) n := by
  induction n with
  | zero => rfl
  | succ n ih => rw [orbit_succ, ih, orbit_succ]

/-- Without an addend the sequence is geometric. -/
theorem orbit_geometric : orbit a 0 m x (n + 1) = a ^ (n + 1) * x % m := by
  induction n with
  | zero => rw [orbit_succ, orbit_zero, add_zero, zero_add, pow_one]
  | succ n ih =>
    calc orbit a 0 m x (n + 2) = a * (a ^ (n + 1) * x % m) % m := by rw [orbit_succ, ih, add_zero]
      _ = a ^ (n + 2) * x % m := by rw [Int.mul_emod, Int.emod_emod_of_dvd _ dvd_rfl, ← Int.mul_emod,
        ← mul_assoc, ← pow_succ']

/-- **A geometric sequence reaches zero only from a multiple of the modulus.** -/
theorem geometric_pos_iff (hm : 0 < m) (h : IsCoprime a m) : 0 < a ^ n * x % m ↔ ¬m ∣ x := by
  have hnonneg : 0 ≤ a ^ n * x % m := Int.emod_nonneg _ (by omega)
  have hdvd : m ∣ a ^ n * x ↔ m ∣ x :=
    ⟨fun hd => (h.symm.pow_right).dvd_of_dvd_mul_left hd, fun hd => hd.mul_left _⟩
  rw [← hdvd, Int.dvd_iff_emod_eq_zero]
  omega

/-! ## The product of Schrage -/

theorem schrage_eq (a q r x : Int) :
    a * x.tmod q - r * x.tdiv q = a * x - (a * q + r) * x.tdiv q := by
  have hx := Int.mul_tdiv_add_tmod x q
  linear_combination a * hx

theorem schrage_modEq (a q r x : Int) :
    a * x.tmod q - r * x.tdiv q ≡ a * x [ZMOD (a * q + r)] := by
  rw [schrage_eq]
  exact (Int.modEq_iff_dvd).2 ⟨x.tdiv q, by ring⟩

/-- The two products of a numerator that is not negative. -/
theorem schrage_parts (ha : 0 ≤ a) (hr : 0 ≤ r) (hq : 0 < q) (h0 : 0 ≤ x) (hx : x < (a + 1) * q) :
    (0 ≤ a * x.tmod q ∧ a * x.tmod q ≤ a * (q - 1)) ∧ 0 ≤ r * x.tdiv q ∧ r * x.tdiv q ≤ r * a := by
  have hmod : 0 ≤ x.tmod q ∧ x.tmod q < q := ⟨Int.tmod_nonneg _ h0, Int.tmod_lt_of_pos _ hq⟩
  have hdiv : 0 ≤ x.tdiv q := Int.tdiv_nonneg h0 hq.le
  have hle : x.tdiv q < a + 1 := by
    rw [Int.tdiv_eq_ediv_of_nonneg h0]
    exact Int.ediv_lt_of_lt_mul hq hx
  exact ⟨⟨mul_nonneg ha hmod.1, mul_le_mul_of_nonneg_left (by omega) ha⟩, mul_nonneg hr hdiv,
    mul_le_mul_of_nonneg_left (by omega) hr⟩

/-- **The products stay below the modulus**, and so does their difference. -/
theorem schrage_bounds (ha : 0 ≤ a) (hr : 0 ≤ r) (hq : 0 < q) (hx : |x| < (a + 1) * q) :
    |a * x.tmod q| ≤ a * (q - 1) ∧ |r * x.tdiv q| ≤ r * a ∧
      |a * x.tmod q - r * x.tdiv q| ≤ max (a * (q - 1)) (r * a) := by
  rcases le_total 0 x with h0 | h0
  · rw [abs_of_nonneg h0] at hx
    obtain ⟨⟨h1, h2⟩, h3, h4⟩ := schrage_parts ha hr hq h0 hx
    exact ⟨abs_le.2 ⟨by omega, h2⟩, abs_le.2 ⟨by omega, h4⟩, abs_le.2 ⟨by omega, by omega⟩⟩
  · rw [abs_of_nonpos h0] at hx
    obtain ⟨⟨h1, h2⟩, h3, h4⟩ := schrage_parts ha hr hq (by omega : 0 ≤ -x) hx
    rw [Int.neg_tmod, mul_neg] at h1 h2
    rw [Int.neg_tdiv, mul_neg] at h3 h4
    exact ⟨abs_le.2 ⟨by omega, by omega⟩, abs_le.2 ⟨by omega, by omega⟩,
      abs_le.2 ⟨by omega, by omega⟩⟩

end Congruential
