import Dietlibc.Glob.Parts

/-!
# What `glob` comes to

`Outcome` lists the ways out of `glob`: with the entries, before `pglob` was set up, with `pglob` as it was
set up, through `globfree(pglob)`, and with a vector lost. `glob_spec` is the induction on the fuel.
-/

namespace Dietlibc.Glob

variable {e : Env} {w w' w₀ : World} {l m F : List Nat} {n j : Nat} {g g' g₀ g₁ dirs : GlobT}
  {filename : Name} {flags : Flags} {v : Vec}

/-- Every entry is a string. -/
def Full (g : GlobT) : Prop := ∀ s ∈ g.entries, s ≠ none

/-- What `glob` starts from: a `glob_t` to append to, or any. -/
structure Start (F : List Nat) (flags : Flags) (g : GlobT) (w : World) : Prop where
  holds : flags.append = true → Holds F g w
  full : flags.append = true → Full g
  offs : flags.append = true → flags.dooffs = true ∨ g.offs = 0
  live : flags.append = false → Live w F
  safe : w.lost = false

/-- `g'` has no entries but those that `glob` is to append to. -/
structure Kept (flags : Flags) (g g' : GlobT) : Prop where
  append : flags.append = true → g' = g
  pathc : flags.append = false → g'.pathc = 0
  pathv : flags.append = false → flags.dooffs = false → g'.pathv = none

inductive Outcome (F : List Nat) (flags : Flags) (g : GlobT) (w : World) :
    Int → Exit → GlobT → World → Prop
  | done {g' : GlobT} {w' : World} : Holds F g' w' → Outcome F flags g w 0 .plain g' w'
  | early {r : Int} {g' : GlobT} : r ≠ 0 → (flags.append = true → g' = g) → g'.pathv = g.pathv →
      Outcome F flags g w r .early g' w
  | kept {r : Int} {x : Exit} {g' : GlobT} {w' : World} : r ≠ 0 → x = .plain ∨ x = .freed false →
      Holds F g' w' → Kept flags g g' → Outcome F flags g w r x g' w'
  | freed {r : Int} {g' : GlobT} {w' : World} {v : Vec} : r ≠ 0 → g'.pathv = some v → v.id ∉ F →
      Live w' F → w'.lost = false → Outcome F flags g w r (.freed true) g' w'
  | lost {r : Int} {x : Exit} {g' : GlobT} {w' : World} {m : List Nat} : r ≠ 0 → w'.lost = true → m ≠ [] →
      Live w' (g'.owned ++ (m ++ F)) → Outcome F flags g w r x g' w'

/-! ## `globfree` -/

theorem owned_none (h : g.pathv = none) : g.owned = [] := by
  rw [GlobT.owned, entries_eq, h]
  rfl

theorem Live.vector_not_mem (h : Live w (g.owned ++ F)) (hv : g.pathv = some v) : v.id ∉ F := by
  have hnodup := h.nodup
  rw [GlobT.owned, hv, List.append_assoc] at hnodup
  intro hmem
  have hmem' : v.id ∈ strIds g.entries ++ F := List.mem_append_right _ hmem
  exact (List.nodup_cons.mp hnodup).1 hmem'

/-- The end of `glob` through `globfree(pglob)`. -/
theorem Live.freed {r : Int} (h : Live w' (g'.owned ++ F)) (hs : w'.lost = false) (hr : r ≠ 0)
    (hv : g'.pathv.isSome = true) :
    ∃ w₁, globfree g' w' = .ok w₁ ∧ Outcome F flags g w r (.freed g'.pathv.isSome) g' w₁ := by
  obtain ⟨w₁, hfree, hlost, hl⟩ := globfree_spec h
  obtain ⟨v, hv'⟩ := Option.isSome_iff_exists.mp hv
  rw [hv]
  exact ⟨w₁, hfree, .freed hr hv' (h.vector_not_mem hv') hl (hlost.trans hs)⟩

/-- `globfree(&dirs)`. -/
theorem Live.freeDirs (h : Live w (l ++ (dirs.owned ++ F))) :
    ∃ w', globfree dirs w = .ok w' ∧ w'.lost = w.lost ∧ Live w' (l ++ F) :=
  globfree_spec (h.of_perm (List.perm_append_comm_assoc _ _ _))

theorem Holds.freeDirs (h : Holds (dirs.owned ++ F) g w) :
    ∃ w', globfree dirs w = .ok w' ∧ Holds F g w' := by
  obtain ⟨w', hfree, hlost, hl⟩ := h.live.freeDirs
  exact ⟨w', hfree, hl, h.shaped, hlost.trans h.safe⟩

theorem Lost.freeDirs (h : Lost (dirs.owned ++ F) g w) :
    ∃ w', globfree dirs w = .ok w' ∧ Lost F g w' := by
  obtain ⟨m, hm, hlive⟩ := h.leak
  obtain ⟨w', hfree, hlost, hl⟩ := hlive.freeDirs
  exact ⟨w', hfree, h.noVector, ⟨m, hm, hl⟩, hlost.trans h.lost⟩

theorem Lost.outcome {r : Int} {x : Exit} (h : Lost F g' w') (hr : r ≠ 0) :
    Outcome F flags g w r x g' w' := by
  obtain ⟨m, hm, hlive⟩ := h.leak
  refine .lost hr h.lost hm ?_
  rw [owned_none h.noVector]
  exact hlive

theorem globfree_none (h : g.pathv = none) : globfree g w = .ok w := by
  rw [globfree, h]

/-! ## The last part -/

theorem finish_spec (e : Env) (h : Holds F g w) (hj : g.offs ≤ j)
    (hk : j ≤ g.offs + g.pathc) (hv : j < g.offs + g.pathc → g.pathv.isSome = true) :
    ∃ r x g' w', finish e flags j g w = .ok (r, x, g', w') ∧ Outcome F flags g₀ w₀ r x g' w' := by
  have hdone : ∀ {g w}, Holds F g w → g.offs ≤ j → j ≤ g.offs + g.pathc →
      Outcome F flags g₀ w₀ 0 .plain (if flags.nosort then g else sortFrom j g) w := by
    intro g w h hj hk
    refine .done ?_
    split
    · exact h
    · exact h.sortFrom hj hk
  unfold finish
  by_cases hm : flags.mark = true
  · obtain ⟨ok, g₁, w₁, hmark, hh, ho, hc, hsome⟩ := markFrom_spec e (k := g.pathc + g.offs - j) h
      (fun hpos => hv (by omega)) hj (by omega)
    simp only [if_pos hm, hmark, bind, Except.bind]
    rcases ok with - | -
    · obtain ⟨w₂, hfree, hout⟩ := hh.live.freed hh.safe (r := globNospace) (by decide) (hsome rfl)
      rw [if_pos rfl, hfree]
      exact ⟨_, _, _, _, rfl, hout⟩
    · exact ⟨_, _, _, _, rfl, hdone hh (by rwa [ho]) (by rwa [ho, hc])⟩
  · simp only [if_neg hm, bind, Except.bind]
    exact ⟨_, _, _, _, rfl, hdone h hj hk⟩

/-- The end of `glob` after `globfree(&dirs)`. -/
theorem finishDirs_spec (e : Env) (h : Holds (dirs.owned ++ F) g w) (hj : g.offs ≤ j)
    (hk : j ≤ g.offs + g.pathc) (hv : j < g.offs + g.pathc → g.pathv.isSome = true) :
    ∃ w₁ r x g' w', globfree dirs w = .ok w₁ ∧ finish e flags j g w₁ = .ok (r, x, g', w') ∧
      Outcome F flags g₀ w₀ r x g' w' := by
  obtain ⟨w₁, hfree, hh⟩ := h.freeDirs
  obtain ⟨r, x, g', w', hrun, hout⟩ := finish_spec e hh hj hk hv
  exact ⟨w₁, r, x, g', w', hfree, hrun, hout⟩

theorem More.finishDirs (e : Env) (hm : More g g₁) (h : Holds (dirs.owned ++ F) g₁ w) :
    ∃ w₁ r x g' w', globfree dirs w = .ok w₁ ∧
      finish e flags (g.pathc + g.offs) g₁ w₁ = .ok (r, x, g', w') ∧
      Outcome F flags g₀ w₀ r x g' w' := by
  have ho := hm.offs
  have hc := hm.pathc
  exact finishDirs_spec e h (by omega) (by omega) fun _ => hm.vector

/-- With the directories at hand. -/
theorem withDirs_spec (e : Env) (filename : Name) (hd : Holds (g.owned ++ F) dirs w)
    (hg : Shaped g) (hkept : Kept flags g₀ g) :
    ∃ r x g' w', withDirs e filename flags dirs g w = .ok (r, x, g', w') ∧
      Outcome F flags g₀ w₀ r x g' w' := by
  have hh : Holds (dirs.owned ++ F) g w :=
    ⟨hd.live.of_perm (List.perm_append_comm_assoc _ _ _), hg, hd.safe⟩
  obtain ⟨r, g₁, w₁, hrun, hcases⟩ := inDirs_spec e filename flags dirs.entries hh
  unfold withDirs
  simp only [hrun, bind, Except.bind]
  by_cases hr : r = 0
  · simp only [hr, ne_eq, not_true_eq_false, if_false]
    rcases hcases with hh₁ | ⟨hh₁, hm⟩ | ⟨hne, -⟩
    · rw [if_pos rfl]
      split
      · obtain ⟨r, g₂, w₂, hadd, hcases⟩ := addDirs_spec e filename dirs.entries hh₁
        simp only [hadd]
        rcases hcases with hh₂ | ⟨hh₂, hm⟩ | hno | ⟨hl, hv, hw⟩
        · obtain ⟨w₃, r, x, g', w', hfree, hfin, hout⟩ := finishDirs_spec e hh₂
            (j := g.pathc + g.offs) (by omega) (by omega) (by omega)
          exact ⟨r, x, g', w', by simp only [hfree, hfin], hout⟩
        · obtain ⟨w₃, r, x, g', w', hfree, hfin, hout⟩ := hm.finishDirs e hh₂
          exact ⟨r, x, g', w', by simp only [hfree, hfin], hout⟩
        · rcases hno with ⟨-, hh₂⟩ | hl
          · obtain ⟨w₃, hfree, hh₃⟩ := hh₂.freeDirs
            simp only [hfree]
            exact ⟨_, _, _, _, rfl, .kept (by decide) (.inl rfl) hh₃ hkept⟩
          · obtain ⟨w₃, hfree, hl₃⟩ := hl.freeDirs
            simp only [hfree]
            exact ⟨_, _, _, _, rfl, hl₃.outcome (by decide)⟩
        · obtain ⟨w₃, hfree, hlost, hl₃⟩ := hl.freeDirs
          obtain ⟨w₄, hfree', hout⟩ := hl₃.freed (hlost.trans hw) (r := globNospace) (by decide) hv
          simp only [hfree, hfree']
          exact ⟨_, _, _, _, rfl, hout⟩
      · obtain ⟨w₂, hfree, hh₂⟩ := hh₁.freeDirs
        simp only [hfree]
        exact ⟨_, _, _, _, rfl, .kept (by decide) (.inl rfl) hh₂ hkept⟩
    · have ho := hm.offs
      have hc := hm.pathc
      rw [if_neg (by omega)]
      obtain ⟨w₂, r, x, g', w', hfree, hfin, hout⟩ := hm.finishDirs e hh₁
      exact ⟨r, x, g', w', by simp only [hfree, hfin], hout⟩
    · exact absurd hr hne
  · simp only [ne_eq, hr, not_false_eq_true, if_true]
    rcases hcases with hh₁ | ⟨hh₁, hm⟩ | ⟨-, hl⟩
    · obtain ⟨w₂, hfree, hh₂⟩ := hh₁.freeDirs
      rw [hfree]
      rcases hv : g.pathv with - | v
      · simp only [globfree_none hv]
        exact ⟨_, _, _, _, rfl, .kept hr (.inr rfl) hh₂ hkept⟩
      · obtain ⟨w₃, hfree', hout⟩ := hh₂.live.freed hh₂.safe hr (by rw [hv]; rfl)
        rw [hv] at hout
        simp only [hfree']
        exact ⟨_, _, _, _, rfl, hout⟩
    · obtain ⟨w₂, hfree, hh₂⟩ := hh₁.freeDirs
      obtain ⟨w₃, hfree', hout⟩ := hh₂.live.freed hh₂.safe hr hm.vector
      simp only [hfree, hfree']
      exact ⟨_, _, _, _, rfl, hout⟩
    · obtain ⟨w₂, hfree, hl₂⟩ := hl.freeDirs
      simp only [hfree, globfree_none hl.noVector]
      exact ⟨_, _, _, _, rfl, hl₂.outcome hr⟩

/-! ## The recursion -/

theorem getElem?_replicate_last : (List.replicate (n + 1) (none : Option Str))[n]? = some none :=
  List.getElem?_replicate_of_lt (Nat.lt_succ_self n)

theorem reserve_spec (e : Env) (h : Start F flags g w) :
    Holds F (reserve e flags g w).2.1 (reserve e flags g w).2.2 ∧
      Kept flags g (reserve e flags g w).2.1 := by
  unfold reserve
  split
  · rename_i ha
    exact ⟨h.holds ha, fun _ => rfl, fun hn => (by rw [ha] at hn; cases hn),
      fun hn => (by rw [ha] at hn; cases hn)⟩
  · rename_i ha
    have hlive := h.live (Bool.eq_false_iff.mpr ha)
    have hbare : ∀ {w'}, Live w' F → w'.lost = false →
        Holds F { g with pathc := 0, pathv := none } w' := fun hl hs => ⟨hl, ⟨nofun, nofun⟩, hs⟩
    split
    · rename_i hd
      obtain ⟨hlost, hcases⟩ := malloc_spec e hlive
      rcases hm : w.malloc e with ⟨r, w₁⟩
      rw [hm] at hlost hcases
      rcases hcases with ⟨rfl, hl⟩ | ⟨c, rfl, -, hl⟩
      · exact ⟨hbare hl (hlost.trans h.safe), fun hn => absurd hn ha, fun _ => rfl, fun _ _ => rfl⟩
      · refine ⟨⟨?_, ⟨?_, ?_⟩, hlost.trans h.safe⟩, fun hn => absurd hn ha, fun _ => rfl,
          fun _ hn => (by rw [hd] at hn; cases hn)⟩
        · exact hl
        · intro v hv
          cases hv
          exact List.length_replicate
        · intro v hv
          cases hv
          exact getElem?_replicate_last
    · exact ⟨hbare hlive h.safe, fun hn => absurd hn ha, fun _ => rfl, fun _ _ => rfl⟩

theorem baseOffs_pathv : (baseOffs flags g).pathv = g.pathv := by
  unfold baseOffs
  split <;> rfl

theorem Start.baseOffs_eq (h : Start F flags g w) (ha : flags.append = true) : baseOffs flags g = g := by
  unfold baseOffs
  split
  · rfl
  · rename_i hd
    rcases h.offs ha with hd' | ho
    · exact absurd hd' hd
    · rw [← ho]

theorem Start.baseOffs (h : Start F flags g w) : Start F flags (baseOffs flags g) w :=
  ⟨fun ha => by rw [h.baseOffs_eq ha]; exact h.holds ha,
    fun ha => by rw [h.baseOffs_eq ha]; exact h.full ha,
    fun ha => by rw [h.baseOffs_eq ha]; exact h.offs ha, h.live, h.safe⟩

theorem Start.mark (h : Start F flags g w) : Start F { flags with mark := true } g w :=
  ⟨h.holds, h.full, h.offs, h.live, h.safe⟩

theorem Outcome.of_mark {r : Int} {x : Exit} (h : Outcome F { flags with mark := true } g w r x g' w') :
    Outcome F flags g w r x g' w' := by
  rcases h with hh | ⟨hr, ha, hv⟩ | ⟨hr, hx, hh, hk⟩ | ⟨hr, hv, hn, hl, hs⟩ | ⟨hr, hs, hm, hl⟩
  · exact .done hh
  · exact .early hr ha hv
  · exact .kept hr hx hh ⟨hk.append, hk.pathc, hk.pathv⟩
  · exact .freed hr hv hn hl hs
  · exact .lost hr hs hm hl

theorem Outcome.of_baseOffs {r : Int} {x : Exit} (h : Outcome F flags (baseOffs flags g) w r x g' w')
    (hs : Start F flags g w) : Outcome F flags g w r x g' w' := by
  rcases h with hh | ⟨hr, ha, hv⟩ | ⟨hr, hx, hh, hk⟩ | ⟨hr, hv, hn, hl, hs⟩ | ⟨hr, hs, hm, hl⟩
  · exact .done hh
  · exact .early hr (fun h => (ha h).trans (hs.baseOffs_eq h)) (hv.trans baseOffs_pathv)
  · exact .kept hr hx hh ⟨fun h => (hk.append h).trans (hs.baseOffs_eq h), hk.pathc, hk.pathv⟩
  · exact .freed hr hv hn hl hs
  · exact .lost hr hs hm hl

theorem Outcome.withFlags {x : Exit} (h : Outcome F flags g w 0 x g' w') (fl : Flags) :
    Outcome F flags g w 0 x { g' with flags := fl } w' := by
  rcases h with hh | ⟨hr, -⟩ | ⟨hr, -⟩ | ⟨hr, -⟩ | ⟨hr, -⟩
  · exact .done (hh.withFlags fl)
  all_goals exact absurd rfl hr

/-- What is left after the directories could not be found. -/
theorem Outcome.of_dirs {r : Int} {x : Exit} {fl : Flags} {g₂ : GlobT} (hr : r ≠ 0)
    (h : Outcome (g₁.owned ++ F) (dirFlags fl) g₂ w r x dirs w') (hh : Holds F g₁ w)
    (hk : Kept flags g g₁) : Outcome F flags g w₀ r .plain g₁ w' := by
  have hkept : Live w' (g₁.owned ++ F) → w'.lost = false → Outcome F flags g w₀ r .plain g₁ w' :=
    fun hl hs => .kept hr (.inl rfl) ⟨hl, hh.shaped, hs⟩ hk
  rcases h with - | - | ⟨-, -, hd, hkd⟩ | ⟨-, -, -, hl, hs⟩ | ⟨-, hs, hm, hl⟩
  · exact absurd rfl hr
  · exact hkept hh.live hh.safe
  · have hl := hd.live
    rw [owned_none (hkd.pathv rfl rfl)] at hl
    exact hkept hl hd.safe
  · exact hkept hl hs
  · rename_i m
    refine .lost hr hs (m := dirs.owned ++ m) (List.append_ne_nil_of_right_ne_nil _ hm) (hl.of_perm ?_)
    rw [← List.append_assoc]
    exact List.perm_append_comm_assoc _ _ _

/-- **`glob` comes to one of the outcomes**, and nothing it does is undefined. -/
theorem glob_spec (e : Env) :
    ∀ (n : Nat) {F : List Nat} (pattern : Option Name) {flags : Flags} {g : GlobT} {w : World},
      Start F flags g w → glob e n pattern flags g w = .error .fuel ∨
        ∃ r x g' w', glob e n pattern flags g w = .ok (r, x, g', w') ∧
          Outcome F flags g w r x g' w' := by
  intro n
  induction n with
  | zero => exact fun {F} _ {flags g w} _ => .inl rfl
  | succ n ih =>
    intro F pattern flags g w h
    rcases pattern with - | pattern
    · exact .inr ⟨-1, .early, g, w, rfl, .early (by decide) (fun _ => rfl) rfl⟩
    · unfold glob
      split
      · exact .inr ⟨-1, .early, g, w, rfl, .early (by decide) (fun _ => rfl) rfl⟩
      · simp only []
        split
        · exact .inr ⟨_, _, _, _, rfl, .early (by decide) h.baseOffs_eq baseOffs_pathv⟩
        · rename_i pattern _
          split
          · -- "pattern/"
            rcases ih (some (splitPath pattern).1) h.baseOffs.mark with hfuel | hrun
            · rw [hfuel]
              exact .inl rfl
            · obtain ⟨r, x, g', w', hrun, hout⟩ := hrun
              simp only [hrun, bind, Except.bind]
              refine .inr ⟨_, _, _, _, rfl, ?_⟩
              have hout' := hout.of_mark.of_baseOffs h
              split
              · rename_i hr
                rw [hr] at hout' ⊢
                exact hout'.withFlags _
              · exact hout'
          · obtain ⟨hh, hkept⟩ := reserve_spec e h.baseOffs
            have hk : Kept flags g (reserve e flags (baseOffs flags g) w).2.1 :=
              ⟨fun ha => (hkept.append ha).trans (h.baseOffs_eq ha), hkept.pathc, hkept.pathv⟩
            rcases hr : reserve e flags (baseOffs flags g) w with ⟨ok, g₁, w₁⟩
            rw [hr] at hh hk
            simp only [] at hh hk ⊢
            rcases ok with - | -
            · exact .inr ⟨_, _, _, _, rfl, .kept (by decide) (.inl rfl) hh hk⟩
            · simp only []
              split
              · obtain ⟨j, g₂, w₂, hrun, hcases⟩ := globInDir_spec e (splitPath pattern).2
                  (some (splitPath pattern).1) flags hh nofun
                simp only [hrun, bind, Except.bind]
                rcases hcases with ⟨hh₂, hm⟩ | ⟨hj, hh₂⟩ | ⟨hj, -, hl⟩
                · have ho := hm.offs
                  have hc := hm.pathc
                  obtain ⟨r, x, g', w', hfin, hout⟩ : ∃ r x g' w', finish e flags
                      (g₁.pathc + g₁.offs) g₂ w₂ = .ok (r, x, g', w') ∧
                      Outcome F flags g w r x g' w' :=
                    finish_spec e hh₂ (by omega) (by omega) fun _ => hm.vector
                  exact .inr ⟨r, x, g', w', hfin, hout⟩
                · rw [if_pos hj]
                  exact .inr ⟨_, _, _, _, rfl, .kept hj (.inl rfl) hh₂ hk⟩
                · rw [if_pos hj]
                  exact .inr ⟨_, _, _, _, rfl, hl.outcome hj⟩
              · have hs : Start (g₁.owned ++ F) (dirFlags flags) ⟨0, none, 0, dirFlags flags⟩ w₁ :=
                  ⟨nofun, nofun, nofun, fun _ => hh.live, hh.safe⟩
                rcases ih (some (splitPath pattern).1) hs with hfuel | hrun
                · rw [hfuel]
                  exact .inl rfl
                · obtain ⟨j, x, dirs, w₂, hrun, hout⟩ := hrun
                  simp only [hrun, bind, Except.bind]
                  by_cases hj : j = 0
                  · rw [if_neg (not_not_intro hj)]
                    subst hj
                    rcases hout with hd | ⟨hne, -⟩ | ⟨hne, -⟩ | ⟨hne, -⟩ | ⟨hne, -⟩
                    · exact .inr (withDirs_spec e _ hd hh.shaped hk)
                    all_goals exact absurd rfl hne
                  · rw [if_pos hj]
                    exact .inr ⟨_, _, _, _, rfl, hout.of_dirs hj hh hk⟩

end Dietlibc.Glob
