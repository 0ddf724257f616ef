import Mathlib.Data.List.Infix

/-!
# The first occurrence of a list in another

`FirstIn h n r`: `r` is the place of the first occurrence of `n` in `h`, `none` if there is none.
-/

namespace Occurrence

variable {α : Type} {a b : α} {h n : List α} {r r' : Option Nat} {k : Nat}

/-- The place of the first occurrence of `n` in `h`. -/
def FirstIn (h n : List α) : Option Nat → Prop
  | none => ∀ k, ¬n <+: h.drop k
  | some k => n <+: h.drop k ∧ k ≤ h.length ∧ ∀ j < k, ¬n <+: h.drop j

theorem firstIn_zero (hn : n <+: h) : FirstIn h n (some 0) :=
  ⟨hn, Nat.zero_le _, fun j hj => absurd hj (Nat.not_lt_zero j)⟩

theorem FirstIn.cons (hr : FirstIn h n r) (hn : ¬n <+: a :: h) :
    FirstIn (a :: h) n (r.map (· + 1)) := by
  cases r with
  | none =>
    rintro (- | k)
    · exact hn
    · exact hr k
  | some k =>
    obtain ⟨hk, hle, hmin⟩ := hr
    refine ⟨hk, Nat.succ_le_succ hle, ?_⟩
    rintro (- | j) hj
    · exact hn
    · exact hmin j (Nat.lt_of_succ_lt_succ hj)

theorem firstIn_nil (hn : n ≠ []) : FirstIn [] n none := by
  intro k hk
  rw [List.drop_nil, List.prefix_nil] at hk
  exact hn hk

theorem exists_firstIn (h n : List α) : ∃ r, FirstIn h n r := by
  induction h with
  | nil =>
    by_cases hn : n = []
    · exact ⟨some 0, firstIn_zero (hn ▸ List.nil_prefix)⟩
    · exact ⟨none, firstIn_nil hn⟩
  | cons a h ih =>
    by_cases hn : n <+: a :: h
    · exact ⟨some 0, firstIn_zero hn⟩
    · obtain ⟨r, hr⟩ := ih
      exact ⟨_, hr.cons hn⟩

theorem FirstIn.unique (hr : FirstIn h n r) (hr' : FirstIn h n r') : r = r' := by
  cases r with
  | none =>
    cases r' with
    | none => rfl
    | some k => exact absurd hr'.1 (hr k)
  | some k =>
    cases r' with
    | none => exact absurd hr.1 (hr' k)
    | some j =>
      rcases Nat.lt_trichotomy k j with hlt | heq | hgt
      · exact absurd hr.1 (hr'.2.2 k hlt)
      · rw [heq]
      · exact absurd hr'.1 (hr.2.2 j hgt)

/-- An occurrence lies in the list. -/
theorem FirstIn.add_le (hr : FirstIn h n (some k)) : k + n.length ≤ h.length := by
  have hlen := hr.1.length_le
  rw [List.length_drop] at hlen
  have := hr.2.1
  omega

/-- An occurrence among the first `m` places is the first one. -/
theorem FirstIn.exists_lt_iff (hr : FirstIn h n r) {m : Nat} :
    (∃ j < m, n <+: h.drop j) ↔ ∃ k, r = some k ∧ k < m := by
  constructor
  · rintro ⟨j, hj, hp⟩
    cases r with
    | none => exact absurd hp (hr j)
    | some k => exact ⟨k, rfl, (not_lt.mp fun hlt => hr.2.2 j hlt hp).trans_lt hj⟩
  · rintro ⟨k, rfl, hk⟩
    exact ⟨k, hk, hr.1⟩

theorem FirstIn.forall_exists_lt_iff (hr : FirstIn h n r) {m : Nat} :
    (∀ k, n <+: h.drop k → ∃ j < m, n <+: h.drop j) ↔ ∀ k, r = some k → k < m := by
  constructor
  · rintro hall k rfl
    obtain ⟨j, hj, hlt⟩ := hr.exists_lt_iff.mp (hall k hr.1)
    exact Option.some.inj hj ▸ hlt
  · intro hall k hp
    obtain ⟨j, hj, -⟩ := hr.exists_lt_iff.mp ⟨k, Nat.lt_succ_self k, hp⟩
    exact hr.exists_lt_iff.mpr ⟨j, hj, hall j hj⟩

/-- It is the first one from any place in front of it. -/
theorem FirstIn.drop (hr : FirstIn h n (some k)) {c : Nat} (hc : c ≤ k) :
    FirstIn (h.drop c) n (some (k - c)) := by
  obtain ⟨hk, hle, hmin⟩ := hr
  refine ⟨?_, by rw [List.length_drop]; omega, fun j hj => ?_⟩
  · rwa [List.drop_drop, Nat.add_sub_cancel' hc]
  · rw [List.drop_drop]
    exact hmin (c + j) (by omega)

end Occurrence
