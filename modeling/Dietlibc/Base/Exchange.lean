import Mathlib.Tactic
import Mathlib.Logic.Equiv.Basic

/-!
# Arrays under exchanges

An array is a function from indices. `Rearranged S a b` says that `b` has the entries of `a` in another
order, and that only those at the indices of `S` moved. `swapPairs i j e` exchanges `i` with `j`, `i + 1`
with `j - 1` and so on, `e` times.
-/

namespace Exchange

variable {α : Type} {S T : Set Nat} {a b c : Nat → α} {i j e n x : Nat}

/-- `b` is `a` with the entries at the indices of `S` in another order. -/
def Rearranged (S : Set Nat) (a b : Nat → α) : Prop :=
  ∃ σ : Equiv.Perm Nat, b = a ∘ σ ∧ ∀ k, k ∉ S → σ k = k

theorem Rearranged.refl (S : Set Nat) (a : Nat → α) : Rearranged S a a :=
  ⟨Equiv.refl _, rfl, fun _ _ => rfl⟩

theorem Rearranged.trans (h : Rearranged S a b) (h' : Rearranged S b c) : Rearranged S a c := by
  obtain ⟨σ, rfl, hσ⟩ := h
  obtain ⟨τ, rfl, hτ⟩ := h'
  refine ⟨τ.trans σ, rfl, fun k hk => ?_⟩
  rw [Equiv.trans_apply, hτ k hk, hσ k hk]

theorem Rearranged.mono (h : Rearranged S a b) (hs : S ⊆ T) : Rearranged T a b := by
  obtain ⟨σ, hb, hσ⟩ := h
  exact ⟨σ, hb, fun k hk => hσ k fun hk' => hk (hs hk')⟩

theorem rearranged_swap (hi : i ∈ S) (hj : j ∈ S) (a : Nat → α) :
    Rearranged S a (a ∘ Equiv.swap i j) := by
  refine ⟨Equiv.swap i j, rfl, fun k hk => Equiv.swap_apply_of_ne_of_ne ?_ ?_⟩
  · rintro rfl
    exact hk hi
  · rintro rfl
    exact hk hj

theorem Rearranged.apply_eq (h : Rearranged S a b) (hx : x ∉ S) : b x = a x := by
  obtain ⟨σ, rfl, hσ⟩ := h
  exact congrArg a (hσ x hx)

/-- What holds of all entries that may move holds of them afterwards. -/
theorem Rearranged.forall_mem {P : α → Prop} (h : Rearranged S a b) (hP : ∀ k ∈ S, P (a k)) :
    ∀ k ∈ S, P (b k) := by
  obtain ⟨σ, rfl, hσ⟩ := h
  intro k hk
  refine hP (σ k) ?_
  by_contra hout
  rw [σ.injective (hσ _ hout)] at hout
  exact hout hk

/-- The entries are the same ones. -/
theorem Rearranged.perm (h : Rearranged S a b) (hs : ∀ k ∈ S, k < n) :
    ((List.range n).map b).Perm ((List.range n).map a) := by
  obtain ⟨σ, rfl, hσ⟩ := h
  have hlt : ∀ k, k < n → σ k < n := by
    intro k hk
    by_contra hout
    have hfix := hσ (σ k) fun hmem => hout (hs _ hmem)
    rw [σ.injective hfix] at hout
    exact hout hk
  have hinj : ((List.range n).map σ).Nodup := List.nodup_range.map σ.injective
  have hsub : ((List.range n).map σ).Subperm (List.range n) := by
    refine hinj.subperm fun y hy => ?_
    obtain ⟨k, hk, rfl⟩ := List.mem_map.mp hy
    exact List.mem_range.mpr (hlt k (List.mem_range.mp hk))
  have hperm := hsub.perm_of_length_le (by rw [List.length_map])
  have := hperm.map a
  rwa [List.map_map] at this

/-! ## Pairs -/

/-- The exchanges of `i` and `j`, `i + 1` and `j - 1`, and so on. -/
def swapPairs : Nat → Nat → Nat → (Nat → α) → Nat → α
  | _, _, 0, a => a
  | i, j, e + 1, a => swapPairs (i + 1) (j - 1) e (a ∘ Equiv.swap i j)

/-- An index in one of the two blocks gets the entry from the mirrored place; one that is in both was
exchanged twice. -/
theorem swapPairs_apply (h : e ≤ j + 1) (a : Nat → α) (x : Nat) :
    swapPairs i j e a x =
      if (i ≤ x ∧ x < i + e) ↔ (j < x + e ∧ x ≤ j) then a x else a (i + j - x) := by
  induction e generalizing i j a with
  | zero => rw [swapPairs, if_pos (by omega)]
  | succ e ih =>
    rcases Nat.eq_zero_or_pos j with rfl | hj
    · have he : e = 0 := by omega
      subst he
      rw [swapPairs, swapPairs]
      simp only [Function.comp_apply, Equiv.swap_apply_def]
      split_ifs
      all_goals first | rfl | (congr 1; omega)
    · rw [swapPairs, ih (by omega)]
      simp only [Function.comp_apply, Equiv.swap_apply_def]
      split_ifs
      all_goals first | rfl | (congr 1; omega)

/-- The low block comes to the high end. -/
theorem swapPairs_low {P : α → Prop} (h : e ≤ j + 1) (hP : ∀ k, i ≤ k → k < i + e → P (a k))
    (hx : j < x + e) (hx' : x ≤ j) : P (swapPairs i j e a x) := by
  rw [swapPairs_apply h]
  split
  · rename_i hiff
    obtain ⟨h1, h2⟩ := hiff.mpr ⟨hx, hx'⟩
    exact hP x h1 h2
  · exact hP _ (by omega) (by omega)

/-- The high block comes to the low end. -/
theorem swapPairs_high {P : α → Prop} (h : e ≤ j + 1) (hP : ∀ k, j < k + e → k ≤ j → P (a k))
    (hx : i ≤ x) (hx' : x < i + e) : P (swapPairs i j e a x) := by
  rw [swapPairs_apply h]
  split
  · rename_i hiff
    obtain ⟨h1, h2⟩ := hiff.mp ⟨hx, hx'⟩
    exact hP x h1 h2
  · exact hP _ (by omega) (by omega)

end Exchange
