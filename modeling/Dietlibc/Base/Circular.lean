import Mathlib.Tactic
import Mathlib.Logic.Function.Basic

/-!
# Circular buffers

A circular buffer of `N` slots is filled at `stop` and emptied at `start`. It is empty when these are
the same, so it has room for `N - 1` elements. `contents` lists them in the order in which they were
put in.
-/

open Function

structure Circular (α : Type) where
  start : Nat
  stop : Nat
  slots : Nat → α

namespace Circular

variable {α : Type} {N i j : Nat} {r r' : Circular α} {x : α}

/-- The slot behind a slot. -/
def bump (N i : Nat) : Nat := if N ≤ i + 1 then 0 else i + 1

/-- An element is put in, if there is room for it. -/
def push (N : Nat) (r : Circular α) (x : α) : Option (Circular α) :=
  if bump N r.stop = r.start then none
  else some { r with slots := update r.slots r.stop x, stop := bump N r.stop }

/-- The element at the start is taken out. -/
def pop (N : Nat) (r : Circular α) : Circular α := { r with start := bump N r.start }

/-- How many elements there are. -/
def count (N : Nat) (r : Circular α) : Nat :=
  if r.start ≤ r.stop then r.stop - r.start else r.stop + N - r.start

/-- The slot of an element. -/
def place (N : Nat) (r : Circular α) (i : Nat) : Nat :=
  if r.start + i < N then r.start + i else r.start + i - N

/-- The elements. -/
def contents (N : Nat) (r : Circular α) : List α :=
  (List.range (r.count N)).map fun i => r.slots (r.place N i)

/-- The ends are slots. -/
def Within (N : Nat) (r : Circular α) : Prop := r.start < N ∧ r.stop < N

@[simp] theorem length_contents : (r.contents N).length = r.count N := by
  rw [contents, List.length_map, List.length_range]

theorem bump_lt (hN : 0 < N) (i : Nat) : bump N i < N := by
  unfold bump
  split <;> omega

theorem contents_eq_nil_iff (h : r.Within N) : r.contents N = [] ↔ r.start = r.stop := by
  obtain ⟨hs, ht⟩ := h
  rw [← List.length_eq_zero_iff, length_contents, count]
  split <;> omega

/-- There is no room for an element exactly if there are `N - 1` elements. -/
theorem push_eq_none_iff (h : r.Within N) : r.push N x = none ↔ r.count N + 1 = N := by
  obtain ⟨hs, ht⟩ := h
  have hb : bump N r.stop = r.start ↔ r.count N + 1 = N := by
    unfold bump count
    split <;> split <;> omega
  unfold push
  rw [← hb]
  split
  · exact iff_of_true rfl ‹_›
  · exact iff_of_false (fun h => nomatch h) ‹_›

theorem push_within (h : r.Within N) (hp : r.push N x = some r') : r'.Within N := by
  unfold push at hp
  split at hp
  · cases hp
  · cases hp
    exact ⟨h.1, bump_lt (by have := h.1; omega) _⟩

/-- What is put in is behind the other elements. -/
theorem contents_push (h : r.Within N) (hp : r.push N x = some r') :
    r'.contents N = r.contents N ++ [x] := by
  obtain ⟨hs, ht⟩ := h
  unfold push at hp
  split at hp
  · cases hp
  · rename_i hne
    cases hp
    have hcount : count N { r with slots := update r.slots r.stop x, stop := bump N r.stop } =
        r.count N + 1 := by
      unfold bump at hne
      unfold count bump
      dsimp only
      split_ifs at hne ⊢ <;> omega
    have hstop : r.place N (r.count N) = r.stop := by
      unfold place count
      split_ifs <;> omega
    unfold contents
    rw [hcount, List.range_succ, List.map_append, List.map_singleton]
    congr 1
    · refine List.map_congr_left fun i hi => update_of_ne ?_ _ _
      rw [List.mem_range] at hi
      unfold count at hi
      unfold place
      dsimp only
      split_ifs at hi ⊢ <;> omega
    · have hlast := (congrArg (update r.slots r.stop x) hstop).trans (update_self r.stop x r.slots)
      exact congrArg (fun y => [y]) hlast

theorem pop_within (h : r.Within N) : (r.pop N).Within N :=
  ⟨bump_lt (by have := h.1; omega) _, h.2⟩

/-- What is taken out was the first element. -/
theorem contents_pop (h : r.Within N) (hne : r.start ≠ r.stop) :
    r.contents N = r.slots r.start :: (r.pop N).contents N := by
  obtain ⟨hs, ht⟩ := h
  have hcount : r.count N = (r.pop N).count N + 1 := by
    unfold count pop bump
    dsimp only
    split_ifs <;> omega
  have hstart : r.place N 0 = r.start := by
    unfold place
    split_ifs <;> omega
  unfold contents
  rw [hcount, List.range_succ_eq_map, List.map_cons, List.map_map, hstart]
  congr 1
  refine List.map_congr_left fun i hi => congrArg r.slots ?_
  rw [List.mem_range] at hi
  have hc : i + 1 < r.count N := by omega
  unfold count at hc
  unfold place pop bump
  dsimp only
  split_ifs at hc ⊢ <;> omega

end Circular
