import Mathlib.Data.Prod.Basic

/-!
# Feistel networks

A round puts the right half on the left, and the left half, combined with a function of the right one
and of the key, on the right. Where the operation that combines cancels itself, the rounds with the
keys in reverse order undo a network between two exchanges of the halves.
-/

namespace Feistel

variable {α κ : Type} (op : α → α → α) (F : κ → α → α)

/-- One round. -/
def round (p : α × α) (k : κ) : α × α := (p.2, op p.1 (F k p.2))

/-- The rounds with these keys. -/
def rounds (ks : List κ) (p : α × α) : α × α := ks.foldl (round op F) p

variable {op F}

theorem rounds_cons (k : κ) (ks : List κ) (p : α × α) :
    rounds op F (k :: ks) p = rounds op F ks (round op F p k) := rfl

theorem rounds_append (ks ks' : List κ) (p : α × α) :
    rounds op F (ks ++ ks') p = rounds op F ks' (rounds op F ks p) := List.foldl_append

theorem round_swap_round (h : ∀ a b, op (op a b) b = a) (k : κ) (p : α × α) :
    round op F (round op F p k).swap k = p.swap := Prod.ext rfl (h p.1 _)

/-- The keys in reverse order lead back. -/
theorem rounds_reverse (h : ∀ a b, op (op a b) b = a) (ks : List κ) (p : α × α) :
    rounds op F ks.reverse (rounds op F ks p).swap = p.swap := by
  induction ks generalizing p with
  | nil => rfl
  | cons k ks ih =>
    rw [List.reverse_cons, rounds_append, rounds_cons k ks p, ih]
    exact round_swap_round h k p

end Feistel
