import Dietlibc.Base.Links
import Mathlib.Logic.Function.Basic

/-!
# Lists linked both ways

`Chain next prev a l z`: the nodes `l` are linked in order by `next` and back by `prev`, with `a` in
front of the first and `z` behind the last. A chain can be cut and joined anywhere (`chain_append`);
`setEnd` and `setFront` hang an end of it to another node.
-/

namespace TwoWay

open Function

variable {α : Type} {next next' prev prev' : α → α} {a b x y z nil : α} {l m : List α}

/-- `l` is linked both ways, from behind `a` to in front of `z`. -/
def Chain (next prev : α → α) : α → List α → α → Prop
  | _, [], _ => True
  | a, x :: l, z => prev x = a ∧ next x = l.headD z ∧ Chain next prev x l z

theorem chain_append : Chain next prev a (l ++ m) z ↔
    Chain next prev a l (m.headD z) ∧ Chain next prev (l.getLastD a) m z := by
  induction l generalizing a with
  | nil => exact (and_iff_right trivial).symm
  | cons x l ih =>
    have hhead : (l ++ m).headD z = l.headD (m.headD z) := by cases l <;> rfl
    rw [List.cons_append, Chain, Chain, ih, hhead, List.getLastD_cons, and_assoc, and_assoc]

/-- A chain reads the links of its nodes. -/
theorem Chain.frame (h : Chain next prev a l z) (hn : ∀ x ∈ l, next' x = next x)
    (hp : ∀ x ∈ l, prev' x = prev x) : Chain next' prev' a l z := by
  induction l generalizing a with
  | nil => trivial
  | cons x l ih =>
    obtain ⟨hprev, hnext, htail⟩ := h
    obtain ⟨hnx, hnl⟩ := List.forall_mem_cons.mp hn
    obtain ⟨hpx, hpl⟩ := List.forall_mem_cons.mp hp
    exact ⟨hpx.trans hprev, hnx.trans hnext, ih htail hnl hpl⟩

section

variable [DecidableEq α]

/-- A link of another node. -/
theorem Chain.next_out (h : Chain next prev a l z) (hx : x ∉ l) (y : α) :
    Chain (update next x y) prev a l z :=
  h.frame (fun _ hm => update_of_ne (ne_of_mem_of_not_mem hm hx) _ _) fun _ _ => rfl

theorem Chain.prev_out (h : Chain next prev a l z) (hx : x ∉ l) (y : α) :
    Chain next (update prev x y) a l z :=
  h.frame (fun _ _ => rfl) fun _ hm => update_of_ne (ne_of_mem_of_not_mem hm hx) _ _

/-- Another node behind the last one. -/
theorem Chain.setEnd (h : Chain next prev a (l ++ [x]) z) (hx : x ∉ l) (y : α) :
    Chain (update next x y) prev a (l ++ [x]) y := by
  obtain ⟨hinit, hprev, -, -⟩ := chain_append.mp h
  exact chain_append.mpr ⟨hinit.next_out hx y, hprev, update_self _ _ _, trivial⟩

/-- Another node in front of the first one. -/
theorem Chain.setFront (h : Chain next prev a (x :: l) z) (hx : x ∉ l) (y : α) :
    Chain next (update prev x y) y (x :: l) z := by
  obtain ⟨-, hnext, htail⟩ := h
  exact ⟨update_self _ _ _, hnext, htail.prev_out hx y⟩

end

/-- Followed by `next`, a chain with a terminator behind it is a list. -/
theorem Chain.links (h : Chain next prev a l nil) (h0 : nil ∉ l) :
    Links next nil (l.headD nil) l := by
  induction l generalizing a with
  | nil => exact .nil
  | cons x l ih =>
    obtain ⟨-, hnext, htail⟩ := h
    obtain ⟨hx, hl⟩ := not_or.mp (mt List.mem_cons.mpr h0)
    refine .cons (Ne.symm hx) ?_
    rw [List.headD_cons, hnext]
    exact ih htail hl

/-- Along a chain with terminators at both ends, `next` and `prev` are inverse. -/
theorem Chain.inverse (h : Chain next prev nil l nil) (h0 : nil ∉ l) (hx : x ∈ l) (hy : y ∈ l) :
    next x = y ↔ prev y = x := by
  constructor
  · intro hnext
    obtain ⟨l₁, l₂, rfl⟩ := List.append_of_mem hx
    obtain ⟨-, -, hn, htail⟩ := chain_append.mp h
    cases l₂ with
    | nil =>
      have hnil : nil = y := hn.symm.trans hnext
      exact absurd (hnil ▸ hy) h0
    | cons w l₂ => exact (hn.symm.trans hnext) ▸ htail.1
  · intro hprev
    obtain ⟨l₁, l₂, rfl⟩ := List.append_of_mem hy
    obtain ⟨hinit, hp, -⟩ := chain_append.mp h
    rcases List.eq_nil_or_concat' l₁ with rfl | ⟨l₀, w, rfl⟩
    · have hnil : nil = x := hp.symm.trans hprev
      exact absurd (hnil ▸ hx) h0
    · rw [List.getLastD_concat] at hp
      obtain ⟨-, -, hn, -⟩ := chain_append.mp hinit
      rw [← hp.symm.trans hprev]
      exact hn

end TwoWay
