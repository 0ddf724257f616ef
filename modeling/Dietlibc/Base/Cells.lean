import Mathlib.Tactic

/-!
# Arrays in bounds

An array is a list, and an index an integer: a pointer may leave the array, but nothing is read or
written there (`none`). `cstring b c` is the string that starts at `c`, up to its terminator.
-/

namespace Cells

variable {α : Type}

/-- `b[i]`. -/
def get (b : List α) (i : Int) : Option α := if 0 ≤ i then b[i.toNat]? else none

/-- `b[i] = x`. -/
def put (b : List α) (i : Int) (x : α) : Option (List α) :=
  if 0 ≤ i ∧ i < b.length then some (b.set i.toNat x) else none

variable {u v w : List α} {a x : α} {i : Int}

theorem get_at (u : List α) (a : α) (v : List α) : get (u ++ a :: v) u.length = some a := by
  unfold get
  rw [if_pos (Int.natCast_nonneg _), Int.toNat_natCast, List.getElem?_append_right (le_refl _),
    Nat.sub_self]
  rfl

/-- The element behind another one. -/
theorem get_after (u : List α) (x a : α) (v : List α) :
    get (u ++ x :: a :: v) (u.length + 1) = some a := by
  have h := get_at (u ++ [x]) a v
  rwa [List.append_assoc, List.length_append, List.length_singleton, Nat.cast_add, Nat.cast_one] at h

theorem get_neg (h : i < 0) (b : List α) : get b i = none := if_neg (not_le.mpr h)

theorem put_at (u : List α) (a : α) (v : List α) (x : α) :
    put (u ++ a :: v) u.length x = some (u ++ x :: v) := by
  unfold put
  rw [if_pos ⟨Int.natCast_nonneg _, by rw [List.length_append, List.length_cons]; omega⟩,
    Int.toNat_natCast, List.set_append_right _ _ (le_refl _), Nat.sub_self]
  rfl

section

variable [OfNat α 0] [DecidableEq α]

/-- The string at `c`. -/
def cstring (b : List α) (c : Nat) : List α := (b.drop c).takeWhile (· ≠ 0)

theorem cstring_at (hv : 0 ∉ v) (u w : List α) : cstring (u ++ (v ++ 0 :: w)) u.length = v := by
  unfold cstring
  rw [List.drop_left, List.takeWhile_append_of_pos fun x hx => ?_, List.takeWhile_cons_of_neg (by simp),
    List.append_nil]
  rw [decide_eq_true_iff]
  exact fun h => hv (h ▸ hx)

theorem cstring_of_drop {b : List α} {c : Nat} (hv : 0 ∉ v) (h : v ++ [0] <+: b.drop c) :
    cstring b c = v := by
  obtain ⟨w, hw⟩ := h
  have hat := cstring_at hv [] w
  rw [cstring, ← hw, List.append_assoc]
  exact hat

/-- The string at the start of the array. -/
theorem cstring_zero (hv : 0 ∉ v) (w : List α) : cstring (v ++ 0 :: w) 0 = v :=
  cstring_at hv [] w

end

end Cells
