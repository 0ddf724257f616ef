import Mathlib.Tactic

/-!
# C integers

A value of a C integer type is a Lean `Int` (or `Nat`, for the unsigned types).
`sval w x` is the value of a signed expression of width `w` whose exact value is `x`:
overflow is undefined, so it is `none` outside the range of the type. `conv w x` is the
conversion of `x` to the signed type of width `w`, which reduces modulo `2 ^ w`. Unsigned
arithmetic wraps; `usub` is its subtraction.
-/

namespace CInt

/-- `x` is representable in the signed type of width `w`. -/
def Fits (w : Nat) (x : Int) : Prop := -2 ^ (w - 1) ≤ x ∧ x < 2 ^ (w - 1)

instance (w : Nat) (x : Int) : Decidable (Fits w x) := inferInstanceAs (Decidable (_ ∧ _))

/-- The value of a signed expression, `none` on overflow. -/
def sval (w : Nat) (x : Int) : Option Int := if Fits w x then some x else none

/-- Conversion to the signed type of width `w`. -/
def conv (w : Nat) (x : Int) : Int := Int.bmod x (2 ^ w)

/-- Subtraction in the unsigned type of width `w`. -/
def usub (w a b : Nat) : Nat := (a + 2 ^ w - b) % 2 ^ w

theorem usub_of_le {w a b : Nat} (h : b ≤ a) (ha : a < 2 ^ w) : usub w a b = a - b := by
  unfold usub
  rw [show a + 2 ^ w - b = (a - b) + 2 ^ w by omega, Nat.add_mod_right,
    Nat.mod_eq_of_lt (by omega)]

theorem sval_of_fits {w : Nat} {x : Int} (h : Fits w x) : sval w x = some x := if_pos h

theorem sval_eq_none {w : Nat} {x : Int} (h : ¬ Fits w x) : sval w x = none := if_neg h

theorem fits_of_sval {w : Nat} {x v : Int} (h : sval w x = some v) : Fits w x := by
  by_contra hfit
  rw [sval_eq_none hfit] at h
  cases h

theorem sval_eq_some {w : Nat} {x v : Int} (h : sval w x = some v) : v = x := by
  rw [sval_of_fits (fits_of_sval h)] at h
  exact (Option.some.inj h).symm

theorem conv_of_fits {w : Nat} (hw : 0 < w) {x : Int} (h : Fits w x) : conv w x = x := by
  obtain ⟨v, rfl⟩ : ∃ v, w = v + 1 := ⟨w - 1, by omega⟩
  obtain ⟨h1, h2⟩ := h
  simp only [Nat.add_sub_cancel] at h1 h2
  unfold conv
  apply Int.bmod_eq_of_le
  · push_cast [pow_succ]; omega
  · push_cast [pow_succ]; omega

theorem conv_emod32 (x : Int) : conv 32 x % 2 ^ 32 = x % 2 ^ 32 := Int.bmod_emod

theorem conv_bounds32 (x : Int) : -2147483648 ≤ conv 32 x ∧ conv 32 x ≤ 2147483647 := by
  have hlow : -(((2 ^ 32 : Nat) : Int) / 2) ≤ conv 32 x := Int.le_bmod (by decide)
  have hhigh : conv 32 x < (((2 ^ 32 : Nat) : Int) + 1) / 2 := Int.bmod_lt (by decide)
  have hnat : ((2 ^ 32 : Nat) : Int) = 4294967296 := rfl
  omega

/-- An unsigned value whose highest bit is not set. -/
theorem conv_low {w n : Nat} (hw : 0 < w) (h : n < 2 ^ (w - 1)) : conv w n = n := by
  refine conv_of_fits hw ⟨?_, by exact_mod_cast h⟩
  have hpos : (0 : Int) ≤ 2 ^ (w - 1) := by positivity
  omega

/-- An unsigned value whose highest bit is set. -/
theorem conv_high {w n : Nat} (hw : 0 < w) (h : 2 ^ (w - 1) ≤ n) (h' : n < 2 ^ w) :
    conv w n = (n : Int) - 2 ^ w := by
  have hs : conv w n = conv w ((n : Int) - (2 ^ w : Nat)) := (Int.sub_bmod_right _ _).symm
  obtain ⟨v, rfl⟩ : ∃ v, w = v + 1 := ⟨w - 1, by omega⟩
  rw [Nat.add_sub_cancel] at h
  rw [pow_succ] at h'
  have hlow : (2 : Int) ^ v ≤ n := by exact_mod_cast h
  have hhigh : (n : Int) < 2 ^ v * 2 := by exact_mod_cast h'
  rw [hs, conv_of_fits hw]
  · push_cast
    rfl
  · unfold Fits
    rw [Nat.add_sub_cancel]
    push_cast [pow_succ]
    omega

theorem fits32 {x : Int} : Fits 32 x ↔ -2147483648 ≤ x ∧ x ≤ 2147483647 := by
  unfold Fits; norm_num; omega

theorem fits64 {x : Int} :
    Fits 64 x ↔ -9223372036854775808 ≤ x ∧ x ≤ 9223372036854775807 := by
  unfold Fits; norm_num; omega

/-- A fact about bytes can be checked on the 256 of them. -/
theorem forall_byte {P : UInt8 → Prop} (h : ∀ n < 256, P (UInt8.ofNat n)) (c : UInt8) : P c := by
  have := h c.toNat c.toNat_lt
  rwa [UInt8.ofNat_toNat] at this

end CInt
