import Mathlib.Tactic

/-!
# Restoring division

`divide d k n` takes `d * 2 ^ j` off `n` where it goes, for `j` from `k - 1` down to zero. The
places that were taken make up the quotient, as far as `k` places can hold it.
-/

namespace Restoring

variable {d k n : Nat}

/-- The quotient and what is left of `n`. -/
def divide (d : Nat) : Nat → Nat → Nat × Nat
  | 0, n => (0, n)
  | k + 1, n =>
    if d * 2 ^ k ≤ n then ((divide d k (n - d * 2 ^ k)).1 + 2 ^ k, (divide d k (n - d * 2 ^ k)).2)
    else divide d k n

theorem divide_of_le (h : d * 2 ^ k ≤ n) : divide d (k + 1) n =
    ((divide d k (n - d * 2 ^ k)).1 + 2 ^ k, (divide d k (n - d * 2 ^ k)).2) := if_pos h

theorem divide_of_not_le (h : ¬d * 2 ^ k ≤ n) : divide d (k + 1) n = divide d k n := if_neg h

theorem divide_eq (d k n : Nat) : (divide d k n).1 * d + (divide d k n).2 = n := by
  induction k generalizing n with
  | zero => rw [divide, Nat.zero_mul, Nat.zero_add]
  | succ k ih =>
    by_cases hle : d * 2 ^ k ≤ n
    · have hih := ih (n - d * 2 ^ k)
      have hmul : ((divide d k (n - d * 2 ^ k)).1 + 2 ^ k) * d =
          (divide d k (n - d * 2 ^ k)).1 * d + d * 2 ^ k := by ring
      rw [divide_of_le hle, hmul]
      omega
    · rw [divide_of_not_le hle]
      exact ih n

/-- The quotient is the greatest one that `k` places hold. -/
theorem divide_quotient (hd : 0 < d) (k n : Nat) : (divide d k n).1 = min (n / d) (2 ^ k - 1) := by
  induction k generalizing n with
  | zero => exact (Nat.min_zero _).symm
  | succ k ih =>
    have hpos : 0 < 2 ^ k := Nat.two_pow_pos k
    rw [pow_succ]
    by_cases hle : d * 2 ^ k ≤ n
    · have hsub : (n - d * 2 ^ k) / d = n / d - 2 ^ k := Nat.sub_mul_div n d (2 ^ k)
      have hge : 2 ^ k ≤ n / d := (Nat.le_div_iff_mul_le hd).mpr (by rwa [mul_comm])
      rw [divide_of_le hle, ih, hsub]
      omega
    · have hlt : n / d < 2 ^ k := Nat.div_lt_of_lt_mul (not_le.mp hle)
      rw [divide_of_not_le hle, ih]
      omega

/-- What is left is a remainder exactly if `k` places are enough for the quotient. -/
theorem divide_remainder_lt_iff (hd : 0 < d) : (divide d k n).2 < d ↔ n < d * 2 ^ k := by
  have heq := divide_eq d k n
  have hq := divide_quotient hd k n
  have hpos : 0 < 2 ^ k := Nat.two_pow_pos k
  constructor
  · intro hr
    have hdiv : n / d = (divide d k n).1 := by
      have hn : n = (divide d k n).2 + d * (divide d k n).1 := by rw [mul_comm d]; omega
      calc n / d = ((divide d k n).2 + d * (divide d k n).1) / d := congrArg (· / d) hn
        _ = (divide d k n).1 := by rw [Nat.add_mul_div_left _ _ hd, Nat.div_eq_of_lt hr, zero_add]
    rw [mul_comm, ← Nat.div_lt_iff_lt_mul hd]
    omega
  · intro hn
    have hdiv : n / d < 2 ^ k := Nat.div_lt_of_lt_mul hn
    have hq' : (divide d k n).1 = n / d := by omega
    have hmod := Nat.mod_lt n hd
    have hdm := Nat.div_add_mod' n d
    rw [hq'] at heq
    omega

/-- The quotient is zero exactly if the number is below the divisor. -/
theorem divide_quotient_zero_iff (hd : 0 < d) (hk : 0 < k) : (divide d k n).1 = 0 ↔ n < d := by
  have h2 : 2 ≤ 2 ^ k := by
    calc 2 = 2 ^ 1 := rfl
      _ ≤ 2 ^ k := Nat.pow_le_pow_right (by decide) hk
  rw [divide_quotient hd, ← Nat.div_eq_zero_iff_lt hd]
  omega

end Restoring
