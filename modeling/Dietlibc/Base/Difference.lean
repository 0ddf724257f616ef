import Mathlib.Data.List.Basic

/-!
# The first difference of two lists

`DifferAt x y p a b`: the two lists agree in `p` and go on with `a` and `b`, which are not the same.
-/

namespace Difference

variable {α : Type} {x y p q : List α} {a b c d : α}

/-- The lists agree in `p`, behind which stand `a` and `b`. -/
def DifferAt (x y p : List α) (a b : α) : Prop :=
  (∃ x', x = p ++ a :: x') ∧ (∃ y', y = p ++ b :: y') ∧ a ≠ b

theorem DifferAt.symm (h : DifferAt x y p a b) : DifferAt y x p b a := ⟨h.2.1, h.1, h.2.2.symm⟩

theorem DifferAt.cons (h : DifferAt x y p a b) (c : α) :
    DifferAt (c :: x) (c :: y) (c :: p) a b := by
  obtain ⟨⟨x', rfl⟩, ⟨y', rfl⟩, hab⟩ := h
  exact ⟨⟨x', rfl⟩, ⟨y', rfl⟩, hab⟩

theorem differAt_heads (h : a ≠ b) (x y : List α) : DifferAt (a :: x) (b :: y) [] a b :=
  ⟨⟨x, rfl⟩, ⟨y, rfl⟩, h⟩

/-- There is one first difference at most. -/
theorem DifferAt.unique (h : DifferAt x y p a b) (h' : DifferAt x y q c d) :
    p = q ∧ a = c ∧ b = d := by
  obtain ⟨⟨x', rfl⟩, ⟨y', rfl⟩, hab⟩ := h
  obtain ⟨⟨x'', hx⟩, ⟨y'', hy⟩, hcd⟩ := h'
  induction p generalizing q with
  | nil =>
    cases q with
    | nil => exact ⟨rfl, (List.cons.inj hx).1, (List.cons.inj hy).1⟩
    | cons e q => exact absurd ((List.cons.inj hx).1.trans (List.cons.inj hy).1.symm) hab
  | cons e p ih =>
    cases q with
    | nil => exact absurd ((List.cons.inj hx).1.symm.trans (List.cons.inj hy).1) hcd
    | cons f q =>
      obtain ⟨hef, hx⟩ := List.cons.inj hx
      obtain ⟨hpq, hac, hbd⟩ := ih hx (List.cons.inj hy).2
      exact ⟨by rw [hpq, hef], hac, hbd⟩

theorem DifferAt.ne (h : DifferAt x y p a b) : x ≠ y := by
  rintro rfl
  obtain ⟨⟨x', rfl⟩, ⟨y', hy⟩, hab⟩ := h
  exact hab (List.cons.inj (List.append_cancel_left hy)).1

theorem DifferAt.append (h : DifferAt x y p a b) (u v : List α) : DifferAt (x ++ u) (y ++ v) p a b := by
  obtain ⟨⟨x', rfl⟩, ⟨y', rfl⟩, hab⟩ := h
  exact ⟨⟨x' ++ u, List.append_assoc _ _ _⟩, ⟨y' ++ v, List.append_assoc _ _ _⟩, hab⟩

theorem DifferAt.append_left (h : DifferAt x y p a b) (u : List α) :
    DifferAt (u ++ x) (u ++ y) (u ++ p) a b := by
  obtain ⟨⟨x', rfl⟩, ⟨y', rfl⟩, hab⟩ := h
  exact ⟨⟨x', (List.append_assoc _ _ _).symm⟩, ⟨y', (List.append_assoc _ _ _).symm⟩, hab⟩

/-- Two lists differ somewhere, or one is a prefix of the other. -/
theorem differ_cases (x y : List α) : x = y ∨ (∃ p a b, DifferAt x y p a b) ∨
    (∃ a r, y = x ++ a :: r) ∨ ∃ a r, x = y ++ a :: r := by
  induction x generalizing y with
  | nil =>
    cases y with
    | nil => exact .inl rfl
    | cons b y => exact .inr (.inr (.inl ⟨b, y, rfl⟩))
  | cons a x ih =>
    cases y with
    | nil => exact .inr (.inr (.inr ⟨a, x, rfl⟩))
    | cons b y =>
      by_cases hab : a = b
      · subst hab
        rcases ih y with rfl | ⟨p, c, d, h⟩ | ⟨c, r, rfl⟩ | ⟨c, r, rfl⟩
        · exact .inl rfl
        · exact .inr (.inl ⟨a :: p, c, d, h.cons a⟩)
        · exact .inr (.inr (.inl ⟨c, r, rfl⟩))
        · exact .inr (.inr (.inr ⟨c, r, rfl⟩))
      · exact .inr (.inl ⟨[], a, b, differAt_heads hab x y⟩)

theorem differAt_end (hc : a ≠ c) (x r u : List α) :
    DifferAt (x ++ c :: u) (x ++ a :: r) x c a := ⟨⟨u, rfl⟩, ⟨r, rfl⟩, hc.symm⟩

/-- With an end mark that is in neither of them, two lists differ somewhere. -/
theorem exists_differAt (hx : c ∉ x) (hy : c ∉ y) (h : x ≠ y) :
    ∃ p a b, DifferAt (x ++ [c]) (y ++ [c]) p a b := by
  rcases differ_cases x y with he | ⟨p, a, b, hd⟩ | ⟨a, r, rfl⟩ | ⟨a, r, rfl⟩
  · exact absurd he h
  · exact ⟨p, a, b, hd.append _ _⟩
  · have hne : a ≠ c := fun he => hy (by rw [he]; simp)
    refine ⟨x, c, a, ?_⟩
    rw [List.append_assoc]
    exact differAt_end hne x (r ++ [c]) []
  · have hne : a ≠ c := fun he => hx (by rw [he]; simp)
    refine ⟨y, a, c, ?_⟩
    rw [List.append_assoc]
    exact (differAt_end hne y (r ++ [c]) []).symm

/-- Of three lists, two differ from one where they agree, or all of them differ in one place. -/
theorem DifferAt.three {z : List α} (h : DifferAt x y p a b) (h' : DifferAt y z q c d) :
    (p = q ∧ b = c) ∨ DifferAt x z p a b ∨ DifferAt x z q c d := by
  obtain ⟨⟨x', rfl⟩, ⟨y', rfl⟩, hab⟩ := h
  obtain ⟨⟨y'', hy⟩, ⟨z', rfl⟩, hcd⟩ := h'
  rcases List.append_eq_append_iff.mp hy with ⟨r, rfl, hr⟩ | ⟨r, rfl, hr⟩
  · cases r with
    | nil => exact .inl ⟨(List.append_nil p).symm, (List.cons.inj hr).1⟩
    | cons e r =>
      obtain ⟨rfl, -⟩ := List.cons.inj hr
      refine .inr (.inl ⟨⟨x', rfl⟩, ⟨r ++ d :: z', ?_⟩, hab⟩)
      rw [List.append_assoc, List.cons_append]
  · cases r with
    | nil => exact .inl ⟨List.append_nil q, (List.cons.inj hr).1.symm⟩
    | cons e r =>
      obtain ⟨rfl, -⟩ := List.cons.inj hr
      refine .inr (.inr ⟨⟨r ++ a :: x', ?_⟩, ⟨z', rfl⟩, hcd⟩)
      rw [List.append_assoc, List.cons_append]

end Difference
