import Dietlibc.Glob.Outcome

/-!
# A `glob_t` after a failure

`Usable` is what a caller needs of `pglob` when `glob` returns an error: the vector and the strings are in
use, the entries of before are still there, and `globfree` frees what is to be freed, once. It fails when
a `realloc` of a vector failed, since the old one is forgotten, and when `glob` itself called
`globfree(pglob)` on a vector, since `gl_pathv` still points to it.
-/

namespace Dietlibc.Glob

variable {e : Env} {w w' : World} {l F : List Nat} {n : Nat} {g g' : GlobT} {pattern : Option Name}
  {flags : Flags} {r : Int} {x : Exit} {v : Vec} {b : Nat} {old : List (Option Str)}

/-- `F` are the blocks that are not of `g`, `old` are the entries of before. -/
structure Usable (F : List Nat) (old : List (Option Str)) (g : GlobT) (w : World) : Prop where
  vector : ∀ v, g.pathv = some v → v.id ∈ w.live ∧ v.slots.length = g.offs + g.pathc + 1 ∧
    v.slots[g.offs + g.pathc]? = some none
  strings : ∀ s ∈ g.entries, ∃ t, s = some t ∧ t.id ∈ w.live
  distinct : (strIds g.entries).Nodup
  earlier : old <+: g.entries
  frees : ∃ w', globfree g w = .ok w' ∧ w'.live.Perm F

/-- The entries that `glob` has to leave there. -/
def before (flags : Flags) (g : GlobT) : List (Option Str) := if flags.append then g.entries else []

theorem mem_strIds {t : Str} {entries : List (Option Str)} (h : some t ∈ entries) :
    t.id ∈ strIds entries :=
  List.mem_filterMap.mpr ⟨some t, h, rfl⟩

theorem Holds.usable (h : Holds F g w) (hf : Full g) (ho : old <+: g.entries) : Usable F old g w := by
  have hnodup := h.live.nodup
  rw [GlobT.owned, List.append_assoc] at hnodup
  have hmem : ∀ b ∈ g.owned, b ∈ w.live := fun b hb =>
    h.live.perm.mem_iff.mpr (List.mem_append_left _ hb)
  obtain ⟨w', hfree, -, hl⟩ := globfree_spec h.live
  refine ⟨?_, ?_, hnodup.of_append_right.of_append_left, ho, w', hfree, hl.perm⟩
  · intro v hv
    refine ⟨hmem v.id ?_, h.shaped.length v hv, h.shaped.last v hv⟩
    rw [GlobT.owned, hv]
    exact List.mem_cons_self
  · intro s hs
    obtain ⟨t, rfl⟩ := Option.ne_none_iff_exists'.mp (hf s hs)
    exact ⟨t, rfl, hmem t.id (List.mem_append_right _ (mem_strIds hs))⟩

theorem Holds.usable_of_nil (h : Holds F g w) (hnil : g.entries = []) : Usable F [] g w := by
  refine h.usable ?_ List.nil_prefix
  intro s hmem
  rw [hnil] at hmem
  cases hmem

theorem Kept.usable (hk : Kept flags g g') (hs : Start F flags g w) (h : Holds F g' w') :
    Usable F (before flags g) g' w' := by
  unfold before
  split
  · rename_i ha
    rw [hk.append ha] at h ⊢
    exact h.usable (hs.full ha) (List.prefix_refl _)
  · rename_i ha
    have hnil : g'.entries = [] := by
      rw [entries_eq, hk.pathc (Bool.eq_false_iff.mpr ha)]
      rcases g'.pathv <;> rfl
    exact h.usable_of_nil hnil

/-! ## What is not usable -/

theorem free_length (h : w.free b = .ok w') : w'.live.length + 1 = w.live.length := by
  unfold World.free at h
  split at h
  · rename_i hmem
    cases h
    rw [List.length_erase_of_mem hmem, Nat.sub_add_cancel (List.length_pos_of_mem hmem)]
  · cases h

theorem freeAll_length {entries : List (Option Str)} (h : freeAll entries w = .ok w') :
    w'.live.length ≤ w.live.length := by
  induction entries generalizing w with
  | nil =>
    cases h
    exact Nat.le_refl _
  | cons s entries ih =>
    rcases s with - | s
    · exact ih h
    · rw [freeAll] at h
      rcases hfree : w.free s.id with stop | w₁
      · rw [hfree] at h
        cases h
      · rw [hfree] at h
        have hlen := free_length hfree
        have hle := ih h
        omega

/-- `globfree` of a vector frees a block. -/
theorem globfree_length (h : globfree g w = .ok w') (hv : g.pathv = some v) :
    w'.live.length < w.live.length := by
  rw [globfree, hv] at h
  simp only [] at h
  split at h
  · rcases hall : freeAll g.entries w with stop | w₁
    · rw [hall] at h
      cases h
    · rw [hall] at h
      have hle := freeAll_length hall
      have hlen := free_length h
      omega
  · cases h

/-- Blocks that are lost are never freed. -/
theorem not_usable_of_leak {m : List Nat} (hm : m ≠ []) (h : Live w (g.owned ++ (m ++ F))) :
    ¬ Usable F old g w := by
  intro hu
  obtain ⟨w₁, hfree, hperm⟩ := hu.frees
  obtain ⟨w₂, hfree', -, hl⟩ := globfree_spec h
  rw [hfree] at hfree'
  cases hfree'
  have hlen := (hperm.symm.trans hl.perm).length_eq
  rw [List.length_append] at hlen
  have hpos := List.length_pos_iff.mpr hm
  omega

/-- **A failure leaves `pglob` usable exactly when it lost no vector, freed none, and came to set `pglob`
up if that was not done before.** -/
theorem usable_iff (hs : Start F flags g w) (hrun : glob e n pattern flags g w = .ok (r, x, g', w'))
    (hr : r ≠ 0) : Usable F (before flags g) g' w' ↔
      w'.lost = false ∧ x ≠ .freed true ∧ (x = .early → flags.append = true ∨ g.pathv = none) := by
  have hout : Outcome F flags g w r x g' w' := by
    rcases glob_spec e n pattern hs with hfuel | ⟨_, _, _, _, hrun', hout⟩
    · rw [hrun] at hfuel
      cases hfuel
    · rw [hrun] at hrun'
      cases hrun'
      exact hout
  rcases hout with - | ⟨-, ha, hv⟩ | ⟨-, hx, hh, hk⟩ | ⟨-, hv, hn, hl, -⟩ | ⟨-, hlost, hm, hl⟩
  · exact absurd rfl hr
  · by_cases happ : flags.append = true
    · rw [ha happ]
      refine iff_of_true ?_ ⟨hs.safe, nofun, fun _ => .inl happ⟩
      exact Kept.usable ⟨fun _ => rfl, fun h => absurd happ (by rw [h]; nofun),
        fun h => absurd happ (by rw [h]; nofun)⟩ hs (hs.holds happ)
    · have hlive := hs.live (Bool.eq_false_iff.mpr happ)
      rcases hpv : g.pathv with - | v
      · refine iff_of_true ?_ ⟨hs.safe, nofun, fun _ => .inr rfl⟩
        have hnone := hv.trans hpv
        have hh : Holds F g' w := by
          refine ⟨?_, ⟨fun u hu => ?_, fun u hu => ?_⟩, hs.safe⟩
          · rw [owned_none hnone]
            exact hlive
          · rw [hnone] at hu
            cases hu
          · rw [hnone] at hu
            cases hu
        rw [before, if_neg happ]
        refine hh.usable_of_nil ?_
        rw [entries_eq, hnone]
        rfl
      · refine iff_of_false ?_ fun h => (h.2.2 rfl).elim happ nofun
        intro hu
        obtain ⟨w₁, hfree, hperm⟩ := hu.frees
        have hlt := globfree_length hfree (hv.trans hpv)
        rw [hperm.length_eq, hlive.perm.length_eq] at hlt
        exact Nat.lt_irrefl _ hlt
  · refine iff_of_true (hk.usable hs hh) ⟨hh.safe, ?_, ?_⟩
    · rcases hx with rfl | rfl <;> nofun
    · rcases hx with rfl | rfl <;> nofun
  · refine iff_of_false ?_ fun h => h.2.1 rfl
    exact fun hu => hn (hl.perm.mem_iff.mp (hu.vector _ hv).1)
  · refine iff_of_false (not_usable_of_leak hm hl) ?_
    rw [hlost]
    exact fun h => absurd h.1 nofun

/-! ## An entry to append to -/

def appending (nocheck : Bool) : Flags where
  err := false
  mark := false
  nosort := false
  dooffs := false
  nocheck := nocheck
  append := true
  noescape := false
  period := false
  altdirfunc := false
  onlydir := false
  tilde := false
  tildeCheck := false
  unknown := false

/-- A `glob_t` with one entry. -/
def oneEntry : GlobT where
  pathc := 1
  pathv := some ⟨0, [some ⟨1, [98]⟩, none]⟩
  offs := 0
  flags := appending false

def oneWorld : World := ⟨[0, 1], 2, 0, false⟩

/-- There is one directory, with no names in it. -/
def emptyDir (fails : Nat → Bool) : Env where
  fails := fails
  opendir _ _ := .ok []
  stat _ _ := false
  errfunc := none
  home := none
  getpwnam _ := none

theorem start_oneEntry (nocheck : Bool) : Start [] (appending nocheck) oneEntry oneWorld := by
  refine ⟨fun _ => ⟨⟨.refl _, by decide, by decide⟩, ⟨?_, ?_⟩, rfl⟩, ?_, fun _ => .inr rfl, nofun, rfl⟩
  · intro v hv
    cases hv
    rfl
  · intro v hv
    cases hv
    rfl
  · intro _ s hs
    rcases List.mem_singleton.mp hs with rfl
    nofun

/-- No match for `x`. -/
theorem usable_nomatch : Usable [] oneEntry.entries oneEntry oneWorld.tick :=
  (usable_iff (start_oneEntry false)
    (show glob (emptyDir fun _ => false) 1 (some [120]) (appending false) oneEntry oneWorld =
      .ok (globNomatch, .plain, oneEntry, oneWorld.tick) from rfl)
    (by decide)).mpr ⟨rfl, nofun, nofun⟩

/-- No memory for `x` itself, with `GLOB_NOCHECK`: the entry of before is lost. -/
theorem vector_lost : ¬ ∀ (e : Env) (n : Nat) (pattern : Option Name) (flags : Flags) (g : GlobT)
    (w : World) (F : List Nat) (r : Int) (x : Exit) (g' : GlobT) (w' : World), Start F flags g w →
      glob e n pattern flags g w = .ok (r, x, g', w') → r ≠ 0 → Usable F (before flags g) g' w' := by
  intro h
  have hu := h (emptyDir fun _ => true) 1 (some [120]) (appending true) oneEntry oneWorld []
    globNospace .plain _ _ (start_oneEntry true) rfl (by decide)
  have hlen := hu.earlier.length_le
  exact absurd hlen (by decide)

end Dietlibc.Glob
