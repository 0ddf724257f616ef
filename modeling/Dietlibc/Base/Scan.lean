import Mathlib.Tactic

/-!
# Scans

`scan f n i` asks `f` about `i`, `i + 1` and so on, `n` times at most: `f` fails, finds something or
passes on. The scan fails with it, ends with what is found, and otherwise passes the end.
-/

namespace Scan

variable {β : Type} {f : Nat → Option (Option β)} {n i : Nat} {b : β}

/-- The loop over `n` numbers from `i` on: `none` is a failure, `some none` the end of the loop. -/
def scan (f : Nat → Option (Option β)) : Nat → Nat → Option (Option β)
  | 0, _ => some none
  | n + 1, i => (f i).bind fun r => r.elim (scan f n (i + 1)) fun b => some (some b)

theorem scan_found (h : f i = some (some b)) : scan f (n + 1) i = some (some b) := by
  rw [scan, h]
  rfl

theorem scan_passed (h : f i = some none) : scan f (n + 1) i = scan f n (i + 1) := by
  rw [scan, h]
  rfl

theorem scan_failed (h : f i = none) : scan f (n + 1) i = none := by
  rw [scan, h]
  rfl

/-- The scan passes the end when it passes every number. -/
theorem scan_end_iff : scan f n i = some none ↔ ∀ k, i ≤ k → k < i + n → f k = some none := by
  induction n generalizing i with
  | zero => exact ⟨fun _ k hk hk' => absurd hk' (by omega), fun _ => rfl⟩
  | succ n ih =>
    constructor
    · intro h k hk hk'
      rcases hf : f i with _ | _ | b
      · rw [scan_failed hf] at h
        cases h
      · rw [scan_passed hf] at h
        rcases Nat.eq_or_lt_of_le hk with rfl | hlt
        · exact hf
        · exact ih.mp h k hlt (by omega)
      · rw [scan_found hf] at h
        cases h
    · intro h
      rw [scan_passed (h i (Nat.le_refl i) (by omega))]
      exact ih.mpr fun k hk hk' => h k (by omega) (by omega)

/-- The scan finds what is found first. -/
theorem scan_found_iff : scan f n i = some (some b) ↔
    ∃ k, i ≤ k ∧ k < i + n ∧ f k = some (some b) ∧ ∀ j, i ≤ j → j < k → f j = some none := by
  induction n generalizing i with
  | zero =>
    constructor
    · intro h
      cases h
    · rintro ⟨k, hk, hk', -⟩
      exact absurd hk' (by omega)
  | succ n ih =>
    constructor
    · intro h
      rcases hf : f i with _ | _ | c
      · rw [scan_failed hf] at h
        cases h
      · rw [scan_passed hf] at h
        obtain ⟨k, hk, hk', hfk, hbefore⟩ := ih.mp h
        refine ⟨k, by omega, by omega, hfk, fun j hj hj' => ?_⟩
        rcases Nat.eq_or_lt_of_le hj with rfl | hlt
        · exact hf
        · exact hbefore j hlt hj'
      · rw [scan_found hf] at h
        exact ⟨i, Nat.le_refl i, by omega, hf.trans h, fun j hj hj' => absurd hj' (by omega)⟩
    · rintro ⟨k, hk, hk', hfk, hbefore⟩
      rcases Nat.eq_or_lt_of_le hk with rfl | hlt
      · exact scan_found hfk
      · rw [scan_passed (hbefore i (Nat.le_refl i) hlt)]
        exact ih.mpr ⟨k, hlt, by omega, hfk, fun j hj hj' => hbefore j (by omega) hj'⟩

end Scan
