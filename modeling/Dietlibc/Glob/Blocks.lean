import Dietlibc.Glob.Glob

/-!
# The blocks of a `glob_t`

`Live` is the list of the blocks in use. `Holds` says that they are those of a `glob_t`, the vector and
the strings, and the others, and that the vector has the slots it must have. Every part of `glob` keeps
that or comes to a lack of memory: `NoRoom`.
-/

namespace Dietlibc.Glob

open Shell (fnmatch slash period)

variable {e : Env} {w w' : World} {l m F : List Nat} {b n i j : Nat} {g g' g₁ : GlobT}
  {name filename : Name} {flags : Flags} {s : Option Str} {slots : List (Option Str)}

/-! ## Blocks -/

/-- The blocks in use are those of the list. -/
structure Live (w : World) (l : List Nat) : Prop where
  perm : w.live.Perm l
  nodup : l.Nodup
  fresh : ∀ b ∈ l, b < w.next

theorem Live.of_perm (h : Live w l) (hp : l.Perm m) : Live w m :=
  ⟨h.perm.trans hp, hp.nodup_iff.mp h.nodup, fun b hb => h.fresh b (hp.mem_iff.mpr hb)⟩

theorem Live.tick (h : Live w l) : Live w.tick l := ⟨h.perm, h.nodup, h.fresh⟩

theorem malloc_spec (e : Env) (h : Live w l) :
    (w.malloc e).2.lost = w.lost ∧
      (((w.malloc e).1 = none ∧ Live (w.malloc e).2 l) ∨
        ∃ c, (w.malloc e).1 = some c ∧ c ∉ l ∧ Live (w.malloc e).2 (c :: l)) := by
  unfold World.malloc
  split
  · exact ⟨rfl, .inl ⟨rfl, h.tick⟩⟩
  · have hnew : w.next ∉ l := fun hmem => Nat.lt_irrefl _ (h.fresh _ hmem)
    refine ⟨rfl, .inr ⟨w.next, rfl, hnew, h.perm.cons _, List.nodup_cons.mpr ⟨hnew, h.nodup⟩, ?_⟩⟩
    intro b hb
    rcases List.mem_cons.mp hb with rfl | hb
    · exact Nat.lt_succ_self _
    · exact Nat.lt_succ_of_lt (h.fresh b hb)

theorem free_spec (h : Live w (b :: l)) :
    ∃ w', w.free b = .ok w' ∧ w'.lost = w.lost ∧ Live w' l := by
  have hmem : b ∈ w.live := h.perm.mem_iff.mpr List.mem_cons_self
  refine ⟨_, if_pos hmem, rfl, ?_, (List.nodup_cons.mp h.nodup).2,
    fun c hc => h.fresh c (List.mem_cons_of_mem _ hc)⟩
  have := h.perm.erase b
  rwa [List.erase_cons_head] at this

theorem realloc_spec (e : Env) (h : Live w (b :: l)) :
    ∃ r w', w.realloc e (some b) = .ok (r, w') ∧ w'.lost = w.lost ∧
      ((r = none ∧ Live w' (b :: l)) ∨ ∃ c, r = some c ∧ Live w' (c :: l)) := by
  have hmem : b ∈ w.live := h.perm.mem_iff.mpr List.mem_cons_self
  obtain ⟨hlost, hcases⟩ := malloc_spec e h
  unfold World.realloc
  simp only [if_pos hmem]
  generalize w.malloc e = r at hlost hcases
  obtain ⟨r, w₁⟩ := r
  rcases hcases with ⟨hr, hl⟩ | ⟨c, hr, -, hl⟩
  · simp only at hr
    subst hr
    exact ⟨none, w₁, rfl, hlost, .inl ⟨rfl, hl⟩⟩
  · simp only at hr
    subst hr
    obtain ⟨w₂, hfree, hlost', hl'⟩ := free_spec (hl.of_perm (.swap _ _ _))
    simp only [World.free] at hfree
    split at hfree
    · cases hfree
      exact ⟨some c, _, rfl, hlost, .inr ⟨c, rfl, hl'⟩⟩
    · cases hfree

/-- The blocks of the strings. -/
def strIds (entries : List (Option Str)) : List Nat := entries.filterMap (Option.map Str.id)

theorem strIds_append (a c : List (Option Str)) : strIds (a ++ c) = strIds a ++ strIds c :=
  List.filterMap_append

/-- The block of one string against the others. -/
theorem strIds_set {entries : List (Option Str)} {t : Str} (h : entries[i]? = some (some t)) :
    ∃ m, (strIds entries).Perm (t.id :: m) ∧
      ∀ u : Str, (strIds (entries.set i (some u))).Perm (u.id :: m) := by
  induction entries generalizing i with
  | nil => cases h
  | cons s entries ih =>
    rcases i with - | i
    · cases h
      exact ⟨strIds entries, .refl _, fun u => .refl _⟩
    · obtain ⟨m, hm, hset⟩ := ih h
      rcases s with - | s
      · exact ⟨m, hm, hset⟩
      · exact ⟨s.id :: m, (hm.cons _).trans (.swap _ _ _), fun u => ((hset u).cons _).trans (.swap _ _ _)⟩

theorem freeAll_spec {entries : List (Option Str)} (h : Live w (strIds entries ++ l)) :
    ∃ w', freeAll entries w = .ok w' ∧ w'.lost = w.lost ∧ Live w' l := by
  induction entries generalizing w with
  | nil => exact ⟨w, rfl, rfl, h⟩
  | cons s entries ih =>
    rcases s with - | s
    · exact ih h
    · obtain ⟨w₁, hfree, hlost, hl⟩ := free_spec (b := s.id) h
      obtain ⟨w₂, hrun, hlost', hl'⟩ := ih hl
      refine ⟨w₂, ?_, hlost'.trans hlost, hl'⟩
      rw [freeAll, hfree]
      exact hrun

/-! ## A `glob_t` -/

/-- The block of the vector. -/
def vecIds (v : Option Vec) : List Nat := v.elim [] fun v => [v.id]

def GlobT.owned (g : GlobT) : List Nat := vecIds g.pathv ++ strIds g.entries

/-- The vector has a slot for every entry and one with a null pointer behind them. -/
structure Shaped (g : GlobT) : Prop where
  length : ∀ v, g.pathv = some v → v.slots.length = g.offs + g.pathc + 1
  last : ∀ v, g.pathv = some v → v.slots[g.offs + g.pathc]? = some none

/-- The blocks in use are those of `g` and `F`, and no vector was lost. -/
structure Holds (F : List Nat) (g : GlobT) (w : World) : Prop where
  live : Live w (g.owned ++ F)
  shaped : Shaped g
  safe : w.lost = false

/-- `globfree` frees the blocks of a `glob_t`. -/
theorem globfree_spec (h : Live w (g.owned ++ l)) :
    ∃ w', globfree g w = .ok w' ∧ w'.lost = w.lost ∧ Live w' l := by
  rcases hv : g.pathv with - | v
  · refine ⟨w, ?_, rfl, ?_⟩
    · rw [globfree, hv]
    · rw [GlobT.owned, GlobT.entries, hv] at h
      exact h
  · have hlive : Live w (v.id :: (strIds g.entries ++ l)) := by
      rw [GlobT.owned, hv, List.append_assoc] at h
      exact h
    have hmem : v.id ∈ w.live := hlive.perm.mem_iff.mpr List.mem_cons_self
    obtain ⟨w₁, hall, hlost, hl⟩ := freeAll_spec (l := v.id :: l)
      (hlive.of_perm List.perm_middle.symm)
    obtain ⟨w₂, hfree, hlost', hl'⟩ := free_spec hl
    refine ⟨w₂, ?_, hlost'.trans hlost, hl'⟩
    rw [globfree, hv]
    simp only [if_pos hmem, hall]
    exact hfree

/-! ### Slots -/

theorem strIds_replicate : strIds (List.replicate n none) = [] := by
  unfold strIds
  rw [List.filterMap_replicate]
  rfl

theorem length_resize : (resize n slots).length = n := by
  unfold resize
  rw [List.length_append, List.length_take, List.length_replicate]
  omega

theorem length_putEntry : (putEntry i s slots).length = slots.length := by
  unfold putEntry
  rw [List.length_set, List.length_set]

theorem getElem?_putEntry (h : i + 1 < slots.length) :
    (putEntry i s slots)[i + 1]? = some none := by
  unfold putEntry
  rw [List.getElem?_set_self (by rwa [List.length_set])]

theorem entries_set {o c : Nat} :
    ((slots.set (c + o) s).drop o).take c = (slots.drop o).take c := by
  rw [List.drop_set, if_neg (by omega), List.take_set_of_le (by omega)]

/-- The entries with a new one. -/
theorem entries_putEntry {o c : Nat} (h : slots.length = o + c + 2) :
    ((putEntry (o + c) s slots).drop o).take (c + 1) = (slots.drop o).take c ++ [s] := by
  have hlen : (slots.drop o).length = c + 2 := by
    rw [List.length_drop]
    omega
  unfold putEntry
  rw [List.drop_set, if_neg (by omega), List.drop_set, if_neg (by omega),
    show o + c + 1 - o = c + 1 by omega, show o + c - o = c by omega, List.take_set_of_le (Nat.le_refl _),
    List.take_add_one, List.take_set_of_le (Nat.le_refl _), List.getElem?_set_self (by omega)]
  rfl

/-- A longer vector has the strings it had. -/
theorem strIds_resize {o c : Nat} {v : Option Vec} (h : ∀ u, v = some u → o + c ≤ u.slots.length) :
    strIds (((resize (o + c + 2) (v.elim [] Vec.slots)).drop o).take c) =
      strIds (v.elim [] fun u => (u.slots.drop o).take c) := by
  rcases v with - | u
  · unfold resize
    rw [Option.elim_none, Option.elim_none, List.take_nil, List.nil_append, List.drop_replicate,
      List.take_replicate, strIds_replicate]
    rfl
  · have hu := h u rfl
    unfold resize
    rw [Option.elim_some, Option.elim_some, List.drop_append, List.drop_take, List.take_append, List.take_take,
      strIds_append, List.drop_replicate, List.take_replicate, strIds_replicate, List.append_nil,
      Nat.min_eq_left (by omega)]

end Dietlibc.Glob
