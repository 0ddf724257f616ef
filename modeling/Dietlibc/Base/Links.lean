import Mathlib.Tactic
import Mathlib.Data.List.Nodup

/-!
# Null-terminated linked lists

`Links next nil a l`: following `next` from `a` visits exactly the nodes `l`, in order, and
ends at `nil`. The list is a function of the head (`Links.unique`) and visits no node twice
(`Links.nodup`), so a list of links is acyclic. `Links.frame` moves a list to a `next` that
agrees on its nodes; the remaining lemmas are the edits: a node put in front, a node hung
behind the last one.
-/

variable {α : Type*}

/-- `l` lists the nodes from `a` to the terminator. -/
inductive Links (next : α → α) (nil : α) : α → List α → Prop
  | nil : Links next nil nil []
  | cons {a : α} {l : List α} : a ≠ nil → Links next nil (next a) l → Links next nil a (a :: l)

namespace Links

variable {next next' : α → α} {nil a b : α} {l l' : List α}

theorem head_nil (h : Links next nil nil l) : l = [] := by
  cases h with
  | nil => rfl
  | cons hne _ => exact absurd rfl hne

theorem head_ne (h : Links next nil a l) (hne : a ≠ nil) :
    ∃ t, l = a :: t ∧ Links next nil (next a) t := by
  cases h with
  | nil => exact absurd rfl hne
  | cons _ ht => exact ⟨_, rfl, ht⟩

theorem head_of_nil (h : Links next nil a []) : a = nil := by
  cases h with
  | nil => rfl

theorem uncons (h : Links next nil a (b :: l)) : a = b ∧ Links next nil (next b) l := by
  cases h with
  | cons _ ht => exact ⟨rfl, ht⟩

theorem unique (h : Links next nil a l) (h' : Links next nil a l') : l = l' := by
  induction h generalizing l' with
  | nil => exact (head_nil h').symm
  | cons hne _ ih =>
    obtain ⟨t, rfl, ht⟩ := h'.head_ne hne
    rw [ih ht]

theorem ne_nil (h : Links next nil a l) : ∀ x ∈ l, x ≠ nil := by
  induction h with
  | nil => intro x hx; cases hx
  | cons hne _ ih =>
    intro x hx
    rcases List.mem_cons.mp hx with rfl | hx
    · exact hne
    · exact ih x hx

theorem suffix (h : Links next nil a l) : ∀ x ∈ l, ∃ t, t <:+ l ∧ Links next nil x t := by
  induction h with
  | nil => intro x hx; cases hx
  | @cons a l hne ht ih =>
    intro x hx
    rcases List.mem_cons.mp hx with rfl | hx
    · exact ⟨_, List.suffix_refl _, .cons hne ht⟩
    · obtain ⟨t, hs, hl⟩ := ih x hx
      exact ⟨t, hs.trans (List.suffix_cons _ _), hl⟩

/-- A null-terminated list visits no node twice. -/
theorem nodup (h : Links next nil a l) : l.Nodup := by
  induction h with
  | nil => exact List.nodup_nil
  | @cons a l hne ht ih =>
    refine List.nodup_cons.mpr ⟨fun hm => ?_, ih⟩
    -- a second visit would start the same list again, one node shorter
    obtain ⟨t, hs, hl⟩ := ht.suffix a hm
    have := congrArg List.length (unique hl (.cons hne ht))
    have := hs.length_le
    simp only [List.length_cons] at *
    omega

theorem frame (h : Links next nil a l) (hag : ∀ x ∈ l, next' x = next x) :
    Links next' nil a l := by
  induction h with
  | nil => exact .nil
  | @cons a l hne _ ih =>
    refine .cons hne ?_
    rw [hag a List.mem_cons_self]
    exact ih fun x hx => hag x (List.mem_cons_of_mem _ hx)

/-- A node put in front. -/
theorem push (h : Links next nil a l) (hb : b ≠ nil) (hn : next' b = a)
    (hag : ∀ x ∈ l, next' x = next x) : Links next' nil b (b :: l) :=
  .cons hb (by rw [hn]; exact h.frame hag)

/-- A node hung behind the last one: every link is kept but the last node's. -/
theorem snoc (h : Links next nil a (l ++ [b])) {c : α} (hc : c ≠ nil) (hb : next' b = c)
    (hcn : next' c = nil) (hag : ∀ x ∈ l, next' x = next x) :
    Links next' nil a (l ++ [b, c]) := by
  induction l generalizing a with
  | nil =>
    cases h with
    | cons hne _ =>
      refine .cons hne ?_
      rw [hb]
      refine .cons hc ?_
      rw [hcn]
      exact .nil
  | cons x l ih =>
    cases h with
    | cons hne ht =>
      refine .cons hne ?_
      rw [hag x List.mem_cons_self]
      exact ih ht fun y hy => hag y (List.mem_cons_of_mem _ hy)

end Links
