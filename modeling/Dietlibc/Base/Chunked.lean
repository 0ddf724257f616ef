import Mathlib.Tactic

/-!
# Functions of blocks

`f` takes a state and a block of `n` elements. An accumulator has a state and the elements that wait
for their block to be complete, fewer than `n` of them. It takes one element at a time, so that the
result does not depend on how a list is cut. `folded f n k` takes the first `k` blocks of a list.
-/

namespace Chunked

variable {σ β : Type} {n : Nat}

structure Accum (σ β : Type) (n : Nat) where
  state : σ
  pending : List β
  lt : pending.length < n

@[ext] theorem Accum.ext {a a' : Accum σ β n} (hs : a.state = a'.state) (hp : a.pending = a'.pending) :
    a = a' := by
  cases a
  cases a'
  cases hs
  cases hp
  rfl

/-- An accumulator at the boundary of a block. -/
def Accum.boundary (hn : 0 < n) (s : σ) : Accum σ β n := ⟨s, [], hn⟩

theorem Accum.pos (a : Accum σ β n) : 0 < n := Nat.lt_of_le_of_lt (Nat.zero_le _) a.lt

def push (f : σ → List β → σ) (a : Accum σ β n) (b : β) : Accum σ β n :=
  if h : a.pending.length + 1 < n then ⟨a.state, a.pending ++ [b], by simpa using h⟩
  else .boundary a.pos (f a.state (a.pending ++ [b]))

def absorb (f : σ → List β → σ) (a : Accum σ β n) (l : List β) : Accum σ β n := l.foldl (push f) a

/-- The state after the first `k` blocks of a list. -/
def folded (f : σ → List β → σ) (n : Nat) : Nat → σ → List β → σ
  | 0, s, _ => s
  | k + 1, s, l => folded f n k (f s (l.take n)) (l.drop n)

variable {f : σ → List β → σ}

/-- The last block can be taken at the end. -/
theorem folded_succ (k : Nat) (s : σ) (l : List β) :
    folded f n (k + 1) s l = f (folded f n k s l) ((l.drop (n * k)).take n) := by
  induction k generalizing s l with
  | zero => rfl
  | succ k ih =>
    rw [folded, ih, List.drop_drop, Nat.mul_succ, Nat.add_comm n]
    rfl

@[simp] theorem absorb_nil (a : Accum σ β n) : absorb f a [] = a := rfl

/-- **A list can be absorbed in parts.** -/
theorem absorb_append (a : Accum σ β n) (l l' : List β) :
    absorb f a (l ++ l') = absorb f (absorb f a l) l' := List.foldl_append

theorem absorb_cons (a : Accum σ β n) (b : β) (l : List β) :
    absorb f a (b :: l) = absorb f (push f a b) l := rfl

/-- Elements that do not complete a block wait. -/
theorem absorb_short (a : Accum σ β n) {l : List β} (h : a.pending.length + l.length < n) :
    (absorb f a l).state = a.state ∧ (absorb f a l).pending = a.pending ++ l := by
  induction l generalizing a with
  | nil => exact ⟨rfl, (List.append_nil _).symm⟩
  | cons b l ih =>
    rw [List.length_cons] at h
    have hlt : a.pending.length + 1 < n := by omega
    have hpush : push f a b = ⟨a.state, a.pending ++ [b], by simpa using hlt⟩ := dif_pos hlt
    rw [absorb_cons, hpush]
    obtain ⟨hs, hp⟩ := ih ⟨a.state, a.pending ++ [b], by simpa using hlt⟩
      (by rw [List.length_append, List.length_singleton]; omega)
    exact ⟨hs, hp.trans (List.append_cons _ _ _).symm⟩

/-- The elements that complete a block. -/
theorem absorb_fill (a : Accum σ β n) {l : List β} (h : a.pending.length + l.length = n) :
    absorb f a l = .boundary a.pos (f a.state (a.pending ++ l)) := by
  induction l generalizing a with
  | nil => exact absurd h (Nat.ne_of_lt a.lt)
  | cons b l ih =>
    rw [List.length_cons] at h
    rw [absorb_cons]
    cases l with
    | nil => exact dif_neg (by simp at h; omega)
    | cons b' l =>
      have hlt : a.pending.length + 1 < n := by simp at h; omega
      have hpush : push f a b = ⟨a.state, a.pending ++ [b], by simpa using hlt⟩ := dif_pos hlt
      rw [hpush, ih _ (by rw [List.length_append, List.length_singleton]; omega)]
      simp only [List.append_assoc, List.singleton_append]

/-- **Whole blocks are folded.** -/
theorem absorb_blocks (hn : 0 < n) {k : Nat} (s : σ) {l : List β} (h : n * k ≤ l.length) :
    absorb f (.boundary hn s) l = absorb f (.boundary hn (folded f n k s l)) (l.drop (n * k)) := by
  induction k generalizing s l with
  | zero => rfl
  | succ k ih =>
    rw [Nat.mul_succ] at h
    have hfirst : absorb f (.boundary hn s) (l.take n) = .boundary hn (f s (l.take n)) := by
      refine absorb_fill _ ?_
      rw [List.length_take, Nat.min_eq_left (by omega)]
      exact Nat.zero_add n
    calc absorb f (.boundary hn s) l
        = absorb f (absorb f (.boundary hn s) (l.take n)) (l.drop n) := by
          rw [← absorb_append, List.take_append_drop]
      _ = absorb f (.boundary hn (folded f n k (f s (l.take n)) (l.drop n)))
            ((l.drop n).drop (n * k)) := by
          rw [hfirst, ih (f s (l.take n)) (by rw [List.length_drop]; omega)]
      _ = absorb f (.boundary hn (folded f n (k + 1) s l)) (l.drop (n * (k + 1))) := by
          rw [List.drop_drop, Nat.mul_succ, Nat.add_comm n]
          rfl

theorem length_push (a : Accum σ β n) (b : β) :
    (push f a b).pending.length = (a.pending.length + 1) % n := by
  have hlt := a.lt
  unfold push
  split
  · rename_i h
    rw [Nat.mod_eq_of_lt h]
    exact List.length_append
  · rw [show a.pending.length + 1 = n by omega, Nat.mod_self]
    rfl

theorem length_absorb (a : Accum σ β n) (l : List β) :
    (absorb f a l).pending.length = (a.pending.length + l.length) % n := by
  induction l generalizing a with
  | nil => exact (Nat.mod_eq_of_lt a.lt).symm
  | cons b l ih =>
    rw [absorb_cons, ih, length_push, Nat.mod_add_mod, List.length_cons]
    congr 1
    omega

/-- A list of whole blocks leaves nothing waiting. -/
theorem absorb_whole (hn : 0 < n) (s : σ) {l : List β} (h : l.length % n = 0) :
    absorb f (.boundary hn s) l = .boundary hn (folded f n (l.length / n) s l) := by
  have hlen : n * (l.length / n) = l.length := Nat.mul_div_cancel' (Nat.dvd_of_mod_eq_zero h)
  rw [absorb_blocks hn s hlen.le, hlen, List.drop_length]
  rfl

end Chunked
