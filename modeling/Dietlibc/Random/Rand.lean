import Mathlib.Tactic
import Dietlibc.Base.CInt
import Dietlibc.Base.Congruential

/-!
# rand

`rand_r`, `rand` and `srand`. The products and the difference of `rand_r` are `int`s: one that
overflows is undefined, and the call has no result. `X += M` is an addition of `unsigned int`s.
-/

namespace Dietlibc.Random

open CInt Congruential

/-- `M`, of the type `unsigned int` -/
def M : Int := 2 ^ 31 - 1

def A : Int := 48271

/-- `M/A` -/
def Q : Int := 44488

/-- `M%A` -/
def R : Int := 3399

/-- `rand_r`: the result and the new seed. -/
def randR (seed : UInt32) : Option (Int × UInt32) :=
  let X := conv 32 seed.toNat
  (sval 32 (A * X.tmod Q)).bind fun low => (sval 32 (R * X.tdiv Q)).bind fun high =>
    (sval 32 (low - high)).map fun X =>
      let X := if X < 0 then conv 32 ((X % 2 ^ 32 + M) % 2 ^ 32) else X
      (X, UInt32.ofNat (X % 2 ^ 32).toNat)

def rand (seed : UInt32) : Option (Int × UInt32) := randR seed

def srand (i : UInt32) : UInt32 := if i ≠ 0 then i else 23

/-- The result of call `n + 1` of `rand`. -/
def nthRand : Nat → UInt32 → Option Int
  | 0, seed => (rand seed).map (·.1)
  | n + 1, seed => (rand seed).bind fun r => nthRand n r.2

theorem M_eq : M = 2147483647 := rfl

theorem M_pos : 0 < M := by rw [M_eq]; decide

theorem modulus_eq : A * Q + R = M := by decide

/-- No step of the computation overflows. -/
theorem randR_parts (seed : UInt32) :
    Fits 32 (A * (conv 32 seed.toNat).tmod Q) ∧ Fits 32 (R * (conv 32 seed.toNat).tdiv Q) ∧
      |A * (conv 32 seed.toNat).tmod Q - R * (conv 32 seed.toNat).tdiv Q| < M := by
  have hseed := conv_bounds32 seed.toNat
  have habs : |conv 32 seed.toNat| < (A + 1) * Q := by
    have hAQ : (A + 1) * Q = 2147524736 := rfl
    rw [hAQ, abs_lt]
    omega
  obtain ⟨h1, h2, h3⟩ := schrage_bounds (a := A) (q := Q) (r := R) (by decide) (by decide)
    (by decide) habs
  have hAR : A * (Q - 1) = 2147431977 ∧ R * A = 164073129 := ⟨rfl, rfl⟩
  rw [hAR.1, abs_le] at h1
  rw [hAR.2, abs_le] at h2
  rw [hAR.1, hAR.2, abs_le] at h3
  rw [fits32, fits32, M_eq, abs_lt]
  omega

/-- The addition of the modulus to a negative difference. -/
theorem lift_neg {d x : Int} (h : |d| < M) (hres : d ≡ x [ZMOD M]) :
    (if d < 0 then conv 32 ((d % 2 ^ 32 + M) % 2 ^ 32) else d) = x % M := by
  have hM := M_eq
  rw [hM, abs_lt] at h
  rw [← hres]
  split
  · rw [conv_of_fits (by decide) (fits32.2 (by omega)), hM]
    omega
  · exact (Int.emod_eq_of_lt (by omega) (by omega)).symm

/-- **A call steps the generator**: the seed is read as a signed number. -/
theorem randR_eq (seed : UInt32) :
    randR seed = some (A * conv 32 seed.toNat % M,
      UInt32.ofNat (A * conv 32 seed.toNat % M).toNat) := by
  obtain ⟨h1, h2, h3⟩ := randR_parts seed
  have hres := schrage_modEq A Q R (conv 32 seed.toNat)
  have hM := M_eq
  rw [modulus_eq] at hres
  have hpos := Int.emod_nonneg (A * conv 32 seed.toNat) M_pos.ne'
  have hlt := Int.emod_lt_of_pos (A * conv 32 seed.toNat) M_pos
  have h3' : Fits 32 (A * (conv 32 seed.toNat).tmod Q - R * (conv 32 seed.toNat).tdiv Q) := by
    rw [fits32]
    rw [hM, abs_lt] at h3
    omega
  unfold randR
  dsimp only
  rw [sval_of_fits h1, Option.bind_some, sval_of_fits h2, Option.bind_some, sval_of_fits h3',
    Option.map_some, lift_neg h3 hres, Int.emod_eq_of_lt hpos (by omega)]

/-- The seed that a call leaves is the signed number it returns. -/
theorem conv_next (x : Int) : conv 32 (UInt32.ofNat (x % M).toNat).toNat = x % M := by
  have hM := M_eq
  have hpos := Int.emod_nonneg x M_pos.ne'
  have hlt := Int.emod_lt_of_pos x M_pos
  rw [UInt32.toNat_ofNat_of_lt' (by simp only [UInt32.size]; omega), conv_low (by decide) (by omega)]
  omega

/-- **Call `n + 1` returns `A ^ (n + 1)` times the seed**, without an overflow. -/
theorem nthRand_eq (n : Nat) (seed : UInt32) :
    nthRand n seed = some (A ^ (n + 1) * conv 32 seed.toNat % M) := by
  suffices h : nthRand n seed = some (orbit A 0 M (conv 32 seed.toNat) (n + 1)) by
    rw [h, orbit_geometric]
  induction n generalizing seed with
  | zero =>
    unfold nthRand rand
    rw [randR_eq, orbit_succ, orbit_zero, add_zero]
    rfl
  | succ n ih =>
    unfold nthRand rand
    rw [randR_eq, Option.bind_some, ih, conv_next, ← add_zero (A * conv 32 seed.toNat),
      ← orbit_step]

/-- What call `n + 1` after `srand i` is expected to return. -/
def Follows (i : UInt32) (n : Nat) : Prop :=
  ∃ x, nthRand n (srand i) = some x ∧ x = A ^ (n + 1) * conv 32 (srand i).toNat % M ∧
    1 ≤ x ∧ x ≤ 2 ^ 31 - 2

theorem draw_follows_iff (i : UInt32) (n : Nat) :
    Follows i n ↔ ¬M ∣ conv 32 (srand i).toNat := by
  have hcop : IsCoprime A M := ⟨1899818559, -42704, by norm_num [A, M]⟩
  have hlt := Int.emod_lt_of_pos (A ^ (n + 1) * conv 32 (srand i).toNat) M_pos
  have hM := M_eq
  rw [← geometric_pos_iff (n := n + 1) M_pos hcop]
  constructor
  · rintro ⟨x, -, hx, h, -⟩
    omega
  · intro h
    exact ⟨_, nthRand_eq n _, rfl, by omega, by omega⟩

/-- The seeds that are zero for the generator. -/
theorem dvd_conv_srand (i : UInt32) :
    M ∣ conv 32 (srand i).toNat ↔ i = 0x7fffffff ∨ i = 0x80000001 := by
  rw [← UInt32.toNat_inj, ← UInt32.toNat_inj]
  show _ ↔ i.toNat = 2147483647 ∨ i.toNat = 2147483649
  unfold srand
  split
  · rename_i hi
    have h0 : i.toNat ≠ 0 := fun h => hi (UInt32.toNat_inj.1 h)
    have hlt := i.toNat_lt
    rcases Nat.lt_or_ge i.toNat (2 ^ 31) with hlow | hhigh
    · rw [conv_low (by decide) hlow, M_eq]
      omega
    · rw [conv_high (by decide) hhigh hlt, M_eq]
      omega
  · rename_i hi
    rw [not_not.1 hi]
    decide

/-- **`rand` follows the Lehmer generator for every seed but two**: the two stand for zero, and
the generator stays there. -/
theorem rand_follows_iff (i : UInt32) :
    (∀ n, Follows i n) ↔ i ≠ 0x7fffffff ∧ i ≠ 0x80000001 := by
  rw [← not_or, ← dvd_conv_srand]
  exact ⟨fun h => (draw_follows_iff i 0).1 (h 0), fun h n => (draw_follows_iff i n).2 h⟩

/-- `srand(0x7fffffff)` is followed by zeros only. -/
theorem rand_stuck : ¬∀ (i : UInt32) (n : Nat), Follows i n := by
  intro h
  refine (draw_follows_iff 0x7fffffff 0).1 (h _ 0) ?_
  exact (dvd_conv_srand _).2 (Or.inl rfl)

end Dietlibc.Random
