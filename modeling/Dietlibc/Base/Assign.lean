import Mathlib.Tactic
import Mathlib.Logic.Function.Basic

/-!
# Loops of assignments

`assign off n g a` is the loop that writes `g j a` to `a[off + j]` for `j` from zero to `n - 1`, with
`a` as it is then. Where no value depends on an element written before, the loop is one assignment.
-/

namespace Assign

open Function

variable {β : Type} {off n i : Nat} {g : Nat → (Nat → β) → β} {a : Nat → β}

/-- `for (j=0; j<n; j++) a[off+j] = g(j)` -/
def assign (off n : Nat) (g : Nat → (Nat → β) → β) (a : Nat → β) : Nat → β :=
  (List.range n).foldl (fun a j => update a (off + j) (g j a)) a

theorem assign_succ (off n : Nat) (g : Nat → (Nat → β) → β) (a : Nat → β) :
    assign off (n + 1) g a = update (assign off n g a) (off + n) (g n (assign off n g a)) := by
  unfold assign
  rw [List.range_succ, List.foldl_append]
  rfl

theorem assign_out (h : ¬(off ≤ i ∧ i < off + n)) : assign off n g a i = a i := by
  induction n with
  | zero => rfl
  | succ n ih => rw [assign_succ, update_of_ne (by omega), ih (by omega)]

/-- The element written at `j`. -/
theorem assign_in {j : Nat} (hj : j < n) : assign off n g a (off + j) = g j (assign off j g a) := by
  induction n with
  | zero => exact absurd hj (Nat.not_lt_zero j)
  | succ n ih =>
    rw [assign_succ]
    rcases Nat.lt_succ_iff_lt_or_eq.mp hj with hlt | rfl
    · rw [update_of_ne (by omega), ih hlt]
    · exact update_self _ _ _

theorem assign_zero {j : Nat} (hj : j < n) : assign 0 n g a j = g j (assign 0 j g a) := by
  have e : assign 0 n g a (0 + j) = g j (assign 0 j g a) := assign_in hj
  rwa [Nat.zero_add] at e

end Assign
