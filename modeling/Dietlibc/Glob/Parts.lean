import Dietlibc.Glob.Blocks

/-!
# The parts of `glob`

Each of them keeps `Holds`, or comes to a lack of memory. Memory that is not there for a first vector
changes nothing, and for a longer vector loses the old one with its strings: `NoRoom`.
-/

namespace Dietlibc.Glob

open Shell (fnmatch slash period)

variable {e : Env} {w w' : World} {l m F : List Nat} {b n i j k nfound : Nat} {g g' g₁ : GlobT}
  {name filename pattern directory : Name} {flags : Flags} {s : Option Str} {v : Vec}

/-! ## An entry more -/

/-- The vector is gone, and blocks that it led to are still in use. -/
structure Lost (F : List Nat) (g : GlobT) (w : World) : Prop where
  noVector : g.pathv = none
  leak : ∃ m, m ≠ [] ∧ Live w (m ++ F)
  lost : w.lost = true

/-- What a `realloc` that fails makes of `g`. -/
inductive NoRoom (F : List Nat) (g : GlobT) : GlobT → World → Prop
  | kept {w : World} : g.pathv = none → Holds F g w → NoRoom F g g w
  | lost {g' : GlobT} {w : World} : Lost F g' w → NoRoom F g g' w

/-- `v` is the vector of `g` with a slot more. -/
structure Roomy (F : List Nat) (g : GlobT) (v : Vec) (w : World) : Prop where
  live : Live w (v.id :: (strIds g.entries ++ F))
  length : v.slots.length = g.offs + g.pathc + 2
  entries : strIds ((v.slots.drop g.offs).take g.pathc) = strIds g.entries
  safe : w.lost = false

theorem entries_eq (g : GlobT) :
    g.entries = g.pathv.elim [] fun v => (v.slots.drop g.offs).take g.pathc := by
  unfold GlobT.entries
  rcases g.pathv with - | v <;> rfl

theorem realloc_vector {v : Option Vec} (e : Env) (h : Live w (vecIds v ++ l)) :
    ∃ r w', w.realloc e (v.map Vec.id) = .ok (r, w') ∧ w'.lost = w.lost ∧
      ((r = none ∧ Live w' (vecIds v ++ l)) ∨ ∃ c, r = some c ∧ Live w' (c :: l)) := by
  rcases v with - | v
  · obtain ⟨hlost, hcases⟩ := malloc_spec e h
    refine ⟨_, _, rfl, hlost, ?_⟩
    rcases hcases with ⟨hr, hl⟩ | ⟨c, hr, -, hl⟩
    · exact .inl ⟨hr, hl⟩
    · exact .inr ⟨c, hr, hl⟩
  · exact realloc_spec e h

theorem reallocVec_spec (e : Env) (h : Holds F g w) (hn : n = g.offs + g.pathc + 2) :
    ∃ r w', reallocVec e n g.pathv w = .ok (r, w') ∧
      ((r = none ∧ NoRoom F g { g with pathv := none } w') ∨ ∃ v, r = some v ∧ Roomy F g v w') := by
  have hlive := h.live
  rw [GlobT.owned, List.append_assoc] at hlive
  obtain ⟨r, w₁, hrun, hlost, hcases⟩ := realloc_vector e hlive
  unfold reallocVec
  rw [hrun]
  rcases hcases with ⟨rfl, hl⟩ | ⟨c, rfl, hl⟩
  · refine ⟨none, _, rfl, .inl ⟨rfl, ?_⟩⟩
    rcases hv : g.pathv with - | v
    · have hg : { g with pathv := none } = g := by rw [← hv]
      rw [hg]
      rw [hv] at hl
      refine .kept hv ⟨?_, h.shaped, ?_⟩
      · rw [GlobT.owned, hv, List.append_assoc]
        exact ⟨hl.perm, hl.nodup, hl.fresh⟩
      · rw [hlost, h.safe]
        rfl
    · rw [hv] at hl
      refine .lost ⟨rfl, ⟨v.id :: strIds g.entries, List.cons_ne_nil _ _, hl.perm, hl.nodup, hl.fresh⟩, ?_⟩
      exact Bool.or_true _
  · refine ⟨some _, w₁, rfl, .inr ⟨_, rfl, hl, ?_, ?_, hlost.trans h.safe⟩⟩
    · exact length_resize.trans hn
    · rw [hn, strIds_resize fun u hu => ?_, entries_eq]
      rw [h.shaped.length u hu]
      omega

/-- The vector with an entry more. -/
theorem Roomy.holds (h : Roomy F g v w')
    (hl : Live w (v.id :: (strIds [s] ++ (strIds g.entries ++ F)))) (hw : w.lost = w'.lost)
    (hj : j = g.offs + g.pathc) :
    Holds F { g with pathv := some ⟨v.id, putEntry j s v.slots⟩, pathc := g.pathc + 1 } w := by
  subst hj
  refine ⟨?_, ⟨?_, ?_⟩, hw.trans h.safe⟩
  · have hids : strIds (((putEntry (g.offs + g.pathc) s v.slots).drop g.offs).take (g.pathc + 1)) =
        strIds g.entries ++ strIds [s] := by
      rw [entries_putEntry h.length, strIds_append, h.entries]
    have hown : GlobT.owned { g with
        pathv := some ⟨v.id, putEntry (g.offs + g.pathc) s v.slots⟩, pathc := g.pathc + 1 } =
        v.id :: (strIds g.entries ++ strIds [s]) := congrArg (v.id :: ·) hids
    rw [hown, List.cons_append, List.append_assoc]
    exact hl.of_perm ((List.perm_append_comm_assoc _ _ _).cons _)
  · intro u hu
    cases hu
    exact length_putEntry.trans h.length
  · intro u hu
    cases hu
    exact getElem?_putEntry (by rw [h.length]; omega)

/-- `g'` has entries more than `g`. -/
structure More (g g' : GlobT) : Prop where
  offs : g'.offs = g.offs
  pathc : g.pathc < g'.pathc
  vector : g'.pathv.isSome = true

theorem More.trans (h : More g g₁) (h' : More g₁ g') : More g g' :=
  ⟨h'.offs.trans h.offs, h.pathc.trans h'.pathc, h'.vector⟩

theorem NoRoom.of_more (h : NoRoom F g₁ g' w) (hg : More g g₁) : NoRoom F g g' w := by
  rcases h with ⟨hv, -⟩ | h
  · have := hg.vector
    rw [hv] at this
    cases this
  · exact .lost h

theorem addEntry_spec (e : Env) (name : Name) (h : Holds F g w) :
    ∃ ok g' w', addEntry e name g w = .ok (ok, g', w') ∧
      ((ok = true ∧ Holds F g' w' ∧ More g g') ∨ (ok = false ∧ NoRoom F g g' w')) := by
  obtain ⟨r, w₁, hrun, hcases⟩ := reallocVec_spec e h (n := g.pathc + g.offs + 2) (by omega)
  unfold addEntry
  rw [hrun]
  rcases hcases with ⟨rfl, hno⟩ | ⟨v, rfl, hv⟩
  · exact ⟨false, _, w₁, rfl, .inr ⟨rfl, hno⟩⟩
  · obtain ⟨hlost, hstr⟩ := malloc_spec e hv.live
    rcases hm : w₁.malloc e with ⟨r, w₂⟩
    rw [hm] at hlost hstr
    simp only [bind, Except.bind, hm]
    refine ⟨true, _, _, rfl, .inl ⟨rfl, hv.holds ?_ hlost rfl, rfl, Nat.lt_succ_self _, rfl⟩⟩
    rcases hstr with ⟨rfl, hl⟩ | ⟨c, rfl, -, hl⟩
    · exact hl
    · exact hl.of_perm (.swap _ _ _)

/-! ## Directories -/

/-- What became of `g` while `nfound` grew. -/
inductive Counted (g : GlobT) (nfound : Nat) : GlobT → Nat → Prop
  | same : Counted g nfound g nfound
  | more {g' : GlobT} {n : Nat} : More g g' → nfound < n → Counted g nfound g' n

theorem Counted.of_more (h : Counted g₁ (nfound + 1) g' n) (hg : More g g₁) :
    Counted g nfound g' n := by
  rcases h with - | ⟨hm, hn⟩
  · exact .more hg (Nat.lt_succ_self _)
  · exact .more (hg.trans hm) (by omega)

theorem addMatches_spec (e : Env) (pattern directory : Name) (flags : Flags) (names : List Name) :
    ∀ (nfound : Nat) {g : GlobT} {w : World}, Holds F g w →
      ∃ ok n g' w', addMatches e pattern directory flags names nfound g w = .ok (ok, n, g', w') ∧
        ((ok = true ∧ Holds F g' w' ∧ Counted g nfound g' n) ∨ (ok = false ∧ NoRoom F g g' w')) := by
  induction names with
  | nil => exact fun nfound {g w} h => ⟨true, nfound, g, w, rfl, .inl ⟨rfl, h, .same⟩⟩
  | cons name names ih =>
    intro nfound g w h
    unfold addMatches
    simp only []
    split
    · exact ih nfound h
    · split
      · obtain ⟨ok, g₁, w₁, hadd, hcases⟩ :=
          addEntry_spec e (buildFullname directory name) h
        rw [hadd]
        rcases hcases with ⟨rfl, hh, hg⟩ | ⟨rfl, hno⟩
        · obtain ⟨ok, n, g₂, w₂, hrun, hcases⟩ := ih (nfound + 1) hh
          refine ⟨ok, n, g₂, w₂, hrun, ?_⟩
          rcases hcases with ⟨hok, hh, hc⟩ | ⟨hok, hno⟩
          · exact .inl ⟨hok, hh, hc.of_more hg⟩
          · exact .inr ⟨hok, hno.of_more hg⟩
        · exact ⟨false, nfound, g₁, w₁, rfl, .inr ⟨rfl, hno⟩⟩
      · exact ih nfound h

/-- What `glob_in_dir` comes to: entries more, a result with nothing changed, or a lost vector. -/
inductive Searched (F : List Nat) (g : GlobT) : Int → GlobT → World → Prop
  | found {g' : GlobT} {w : World} : Holds F g' w → More g g' → Searched F g 0 g' w
  | same {r : Int} {w : World} : r ≠ 0 → Holds F g w → Searched F g r g w
  | lost {r : Int} {g' : GlobT} {w : World} :
      r ≠ 0 → r ≠ globNomatch → Lost F g' w → Searched F g r g' w

theorem NoRoom.searched (h : NoRoom F g g' w) : Searched F g globNospace g' w := by
  rcases h with ⟨-, h⟩ | h
  · exact .same (by decide) h
  · exact .lost (by decide) (by decide) h

theorem Holds.withFlags (h : Holds F g w) (flags : Flags) : Holds F { g with flags := flags } w :=
  ⟨h.live, ⟨h.shaped.length, h.shaped.last⟩, h.safe⟩

theorem Holds.tick (h : Holds F g w) : Holds F g w.tick := ⟨h.live.tick, h.shaped, h.safe⟩

theorem afterDir_same {d : Option Name} (e : Env) (pattern : Name) (h : Holds F g w)
    (hd : flags.nocheck = true → d ≠ none) :
    ∃ r g' w', afterDir e pattern d flags 0 g w = .ok (r, g', w') ∧ Searched F g r g' w' := by
  unfold afterDir
  rw [if_neg (by simp)]
  split
  · rename_i hc
    rcases d with - | d
    · exact absurd rfl (hd hc)
    · obtain ⟨ok, g₁, w₁, hadd, hcases⟩ := addEntry_spec e (buildFullname d pattern) h
      simp only [hadd, bind, Except.bind]
      rcases hcases with ⟨rfl, hh, hg⟩ | ⟨rfl, hno⟩
      · exact ⟨0, g₁, w₁, rfl, .found hh hg⟩
      · exact ⟨globNospace, g₁, w₁, rfl, hno.searched⟩
  · exact ⟨globNomatch, g, w, rfl, .same (by decide) h⟩

theorem globInDir_spec (e : Env) (pattern : Name) (d : Option Name) (flags : Flags)
    (h : Holds F g w) (hd : flags.nocheck = true → d ≠ none) :
    ∃ r g' w', globInDir e pattern d flags g w = .ok (r, g', w') ∧ Searched F g r g' w' := by
  unfold globInDir
  split
  · split
    · exact ⟨globAborted, g, w.tick, rfl, .same (by decide) h.tick⟩
    · exact afterDir_same e pattern h.tick hd
  · rename_i names _
    obtain ⟨ok, n, g₁, w₁, hadd, hcases⟩ :=
      addMatches_spec e pattern (d.getD []) flags names 0 h.tick
    simp only [hadd, bind, Except.bind]
    rcases hcases with ⟨rfl, hh, hc⟩ | ⟨rfl, hno⟩
    · rcases hc with - | ⟨hm, hn⟩
      · exact afterDir_same e pattern hh hd
      · refine ⟨0, _, w₁, if_pos (Nat.ne_of_gt hn), .found (hh.withFlags flags) ?_⟩
        exact ⟨hm.offs, hm.pathc, hm.vector⟩
    · exact ⟨globNospace, g₁, w₁, rfl, hno.searched⟩

/-- What the loop over the directories comes to. -/
inductive Walked (F : List Nat) (g : GlobT) : Int → GlobT → World → Prop
  | same {r : Int} {w : World} : Holds F g w → Walked F g r g w
  | more {r : Int} {g' : GlobT} {w : World} : Holds F g' w → More g g' → Walked F g r g' w
  | lost {r : Int} {g' : GlobT} {w : World} : r ≠ 0 → Lost F g' w → Walked F g r g' w

theorem Walked.of_more {r : Int} (h : Walked F g₁ r g' w) (hg : More g g₁) : Walked F g r g' w := by
  rcases h with hh | ⟨hh, hm⟩ | ⟨hr, hl⟩
  · exact .more hh hg
  · exact .more hh (hg.trans hm)
  · exact .lost hr hl

theorem inDirs_spec (e : Env) (filename : Name) (flags : Flags) (dirs : List (Option Str)) :
    ∀ {g : GlobT} {w : World}, Holds F g w →
      ∃ r g' w', inDirs e filename flags dirs g w = .ok (r, g', w') ∧ Walked F g r g' w' := by
  induction dirs with
  | nil => exact fun {g w} h => ⟨0, g, w, rfl, .same h⟩
  | cons d dirs ih =>
    intro g w h
    obtain ⟨r, g₁, w₁, hrun, hcases⟩ := globInDir_spec e filename (d.map Str.text)
      { flags with append := true, nocheck := false } h nofun
    unfold inDirs
    simp only [hrun, bind, Except.bind]
    rcases hcases with ⟨hh, hg⟩ | ⟨hr, hh⟩ | ⟨hr, hr', hl⟩
    · obtain ⟨r, g₂, w₂, hrun, hw⟩ := ih hh
      exact ⟨r, g₂, w₂, hrun, hw.of_more hg⟩
    · split
      · exact ih hh
      · exact ⟨r, g, w₁, rfl, .same hh⟩
    · rw [if_neg (by rw [not_or]; exact ⟨hr, hr'⟩)]
      exact ⟨r, g₁, w₁, rfl, .lost hr hl⟩

/-- The loop for `GLOB_NOCHECK`. -/
inductive AddedTo (F : List Nat) (g : GlobT) : Added → GlobT → World → Prop
  | same {w : World} : Holds F g w → AddedTo F g .all g w
  | more {g' : GlobT} {w : World} : Holds F g' w → More g g' → AddedTo F g .all g' w
  | noVector {g' : GlobT} {w : World} : NoRoom F g g' w → AddedTo F g .noVector g' w
  | noString {g' : GlobT} {w : World} : Live w (g'.owned ++ F) → g'.pathv.isSome = true →
      w.lost = false → AddedTo F g .noString g' w

theorem AddedTo.of_more {r : Added} (h : AddedTo F g₁ r g' w) (hg : More g g₁) :
    AddedTo F g r g' w := by
  rcases h with hh | ⟨hh, hm⟩ | hno | ⟨hl, hv, hw⟩
  · exact .more hh hg
  · exact .more hh (hg.trans hm)
  · exact .noVector (hno.of_more hg)
  · exact .noString hl hv hw

theorem addDirs_spec (e : Env) (filename : Name) (dirs : List (Option Str)) :
    ∀ {g : GlobT} {w : World}, Holds F g w →
      ∃ r g' w', addDirs e filename dirs g w = .ok (r, g', w') ∧ AddedTo F g r g' w' := by
  induction dirs with
  | nil => exact fun {g w} h => ⟨.all, g, w, rfl, .same h⟩
  | cons d dirs ih =>
    intro g w h
    rcases d with - | d
    · exact ih h
    · unfold addDirs
      split
      · exact ih h
      · obtain ⟨r, w₁, hrun, hcases⟩ := reallocVec_spec e h (n := g.pathc + g.offs + 2) (by omega)
        simp only [hrun, bind, Except.bind]
        rcases hcases with ⟨rfl, hno⟩ | ⟨v, rfl, hv⟩
        · exact ⟨.noVector, _, w₁, rfl, .noVector hno⟩
        · obtain ⟨hlost, hstr⟩ := malloc_spec e hv.live
          rcases hm : w₁.malloc e with ⟨r, w₂⟩
          rw [hm] at hlost hstr
          simp only [hm]
          rcases hstr with ⟨rfl, hl⟩ | ⟨c, rfl, -, hl⟩
          · refine ⟨.noString, _, w₂, rfl, .noString ?_ rfl (hlost.trans hv.safe)⟩
            have hids := (congrArg strIds (entries_set (s := none))).trans hv.entries
            have hown : GlobT.owned { g with
                pathv := some ⟨v.id, v.slots.set (g.pathc + g.offs) none⟩ } =
                v.id :: strIds g.entries := congrArg (v.id :: ·) hids
            rw [hown]
            exact hl
          · have hg := hv.holds (s := some ⟨c, buildFullname d.text filename⟩)
              (hl.of_perm (.swap _ _ _)) hlost (Nat.add_comm g.pathc g.offs)
            obtain ⟨r, g₂, w₃, hrun, hw⟩ := ih hg
            exact ⟨r, g₂, w₃, hrun, hw.of_more ⟨rfl, Nat.lt_succ_self _, rfl⟩⟩

/-! ## The end of `glob` -/

/-- One string is moved, or there is no memory for that. -/
theorem realloc_entry {t : Str} (e : Env) (h : Holds F g w) (hv : g.pathv = some v)
    (ht : v.slots.getD i none = some t) (hi : g.offs ≤ i) (hk : i < g.offs + g.pathc) :
    ∃ r w', w.realloc e (some t.id) = .ok (r, w') ∧
      ((r = none ∧ Holds F g w') ∨ ∃ c, r = some c ∧ ∀ text,
        Holds F { g with pathv := some ⟨v.id, v.slots.set i (some ⟨c, text⟩)⟩ } w') := by
  have hlen := h.shaped.length v hv
  have hget : ((v.slots.drop g.offs).take g.pathc)[i - g.offs]? = some (some t) := by
    rw [List.getElem?_take_of_lt (by omega), List.getElem?_drop, show g.offs + (i - g.offs) = i by omega]
    rw [List.getD_eq_getElem?_getD, List.getElem?_eq_getElem (by omega)] at ht
    rw [List.getElem?_eq_getElem (by omega)]
    exact congrArg some ht
  obtain ⟨m, hm, hset⟩ := strIds_set hget
  have hown : g.owned = v.id :: strIds ((v.slots.drop g.offs).take g.pathc) := by
    rw [GlobT.owned, entries_eq, hv]
    rfl
  have hlive := h.live
  rw [hown] at hlive
  obtain ⟨r, w₁, hrun, hlost, hcases⟩ := realloc_spec e
    (hlive.of_perm ((((hm.cons _).trans (.swap _ _ _)).append_right F)))
  refine ⟨r, w₁, hrun, ?_⟩
  rcases hcases with ⟨rfl, hl⟩ | ⟨c, rfl, hl⟩
  · refine .inl ⟨rfl, ?_, h.shaped, hlost.trans h.safe⟩
    rw [hown]
    exact hl.of_perm (((hm.cons _).trans (.swap _ _ _)).append_right F).symm
  · refine .inr ⟨c, rfl, fun text => ⟨?_, ⟨?_, ?_⟩, hlost.trans h.safe⟩⟩
    · have hids : ((v.slots.set i (some ⟨c, text⟩)).drop g.offs).take g.pathc =
          ((v.slots.drop g.offs).take g.pathc).set (i - g.offs) (some ⟨c, text⟩) := by
        rw [List.drop_set, if_neg (by omega), List.take_set]
      have hown' : GlobT.owned { g with pathv := some ⟨v.id, v.slots.set i (some ⟨c, text⟩)⟩ } =
          v.id :: strIds (((v.slots.drop g.offs).take g.pathc).set (i - g.offs) (some ⟨c, text⟩)) :=
        congrArg (v.id :: strIds ·) hids
      rw [hown']
      exact hl.of_perm (((((hset ⟨c, text⟩).cons _).trans (.swap _ _ _)).append_right F)).symm
    · intro u hu
      cases hu
      exact List.length_set.trans hlen
    · intro u hu
      cases hu
      exact (List.getElem?_set_ne (Nat.ne_of_lt hk)).trans (h.shaped.last v hv)

theorem markFrom_spec (e : Env) :
    ∀ {k i : Nat} {g : GlobT} {w : World}, Holds F g w → (0 < k → g.pathv.isSome = true) →
      g.offs ≤ i → i + k ≤ g.offs + g.pathc →
      ∃ ok g' w', markFrom e k i g w = .ok (ok, g', w') ∧ Holds F g' w' ∧ g'.offs = g.offs ∧
        g'.pathc = g.pathc ∧ (ok = false → g'.pathv.isSome = true) := by
  intro k
  induction k with
  | zero => exact fun {i g w} h _ _ _ => ⟨true, g, w, rfl, h, rfl, rfl, nofun⟩
  | succ k ih =>
    intro i g w h hv hi hk
    have hi' : g.offs ≤ i + 1 := Nat.le_succ_of_le hi
    have hk' : i + 1 + k ≤ g.offs + g.pathc := by omega
    have hv' := hv (Nat.succ_pos k)
    obtain ⟨v, hv⟩ := Option.isSome_iff_exists.mp hv'
    unfold markFrom
    simp only [hv]
    split
    · exact ih h (fun _ => hv') hi' hk'
    · rename_i s hs
      split
      · obtain ⟨r, w₁, hrun, hcases⟩ := realloc_entry e h hv hs hi (by omega)
        simp only [hrun, bind, Except.bind]
        rcases hcases with ⟨rfl, hh⟩ | ⟨c, rfl, hh⟩
        · exact ⟨false, g, w₁, rfl, hh, rfl, rfl, fun _ => hv'⟩
        · exact ih (hh _) (fun _ => rfl) hi' hk'
      · exact ih h (fun _ => hv') hi' hk'

/-- The part between `o` and the end of the second of three lists. -/
theorem window {a s d : List (Option Str)} {o c : Nat} (ho : o ≤ a.length)
    (hc : o + c = a.length + s.length) : ((a ++ s ++ d).drop o).take c = a.drop o ++ s := by
  rw [List.append_assoc, List.drop_append_of_le_length ho, ← List.append_assoc]
  refine List.take_left' ?_
  rw [List.length_append, List.length_drop]
  omega

theorem Holds.sortFrom (h : Holds F g w) (hj : g.offs ≤ j) (hk : j ≤ g.offs + g.pathc) :
    Holds F (sortFrom j g) w := by
  rcases hv : g.pathv with - | v
  · have hg : Glob.sortFrom j g = g := by
      rw [Glob.sortFrom, hv, Option.map_none, ← hv]
    rw [hg]
    exact h
  · have hlen := h.shaped.length v hv
    have hlast := h.shaped.last v hv
    obtain ⟨mid, hmid⟩ : ∃ mid, (v.slots.drop j).take (g.pathc + g.offs - j) = mid := ⟨_, rfl⟩
    have hm : mid.length = g.pathc + g.offs - j := by
      rw [← hmid, List.length_take, List.length_drop]
      omega
    have ha : (v.slots.take j).length = j := List.length_take_of_le (by omega)
    have hslots : v.slots = v.slots.take j ++ mid ++ v.slots.drop (g.pathc + g.offs) := by
      rw [← hmid, List.append_assoc, show g.pathc + g.offs = j + (g.pathc + g.offs - j) by omega,
        ← List.drop_drop, show j + (g.pathc + g.offs - j) - j = g.pathc + g.offs - j by omega,
        List.take_append_drop, List.take_append_drop]
    have hs : Glob.sortFrom j g = { g with pathv := some ⟨v.id,
        v.slots.take j ++ mid.mergeSort cmpFunc ++ v.slots.drop (g.pathc + g.offs)⟩ } := by
      rw [Glob.sortFrom, hv, ← hmid]
      rfl
    rw [hs]
    have hx : (v.slots.take j ++ mid.mergeSort cmpFunc).length = g.offs + g.pathc := by
      rw [List.length_append, List.length_mergeSort, ha, hm]
      omega
    refine ⟨?_, ⟨?_, ?_⟩, h.safe⟩
    · have hold : g.owned = v.id :: strIds ((v.slots.take j).drop g.offs ++ mid) := by
        rw [GlobT.owned, entries_eq, hv, Option.elim_some]
        nth_rewrite 1 [hslots]
        rw [window (by omega) (by omega)]
        rfl
      have hwin : ((v.slots.take j ++ mid.mergeSort cmpFunc ++
          v.slots.drop (g.pathc + g.offs)).drop g.offs).take g.pathc =
          (v.slots.take j).drop g.offs ++ mid.mergeSort cmpFunc := by
        refine window (by omega) ?_
        rw [List.length_mergeSort, ha, hm]
        omega
      have hnew : GlobT.owned { g with pathv := some ⟨v.id,
          v.slots.take j ++ mid.mergeSort cmpFunc ++ v.slots.drop (g.pathc + g.offs)⟩ } =
          v.id :: strIds ((v.slots.take j).drop g.offs ++ mid.mergeSort cmpFunc) :=
        congrArg (v.id :: strIds ·) hwin
      have hlive := h.live
      rw [hold] at hlive
      rw [hnew]
      exact hlive.of_perm ((((List.mergeSort_perm mid cmpFunc).symm.append_left _).filterMap _).cons _
        |>.append_right F)
    · intro u hu
      cases hu
      show _ = g.offs + g.pathc + 1
      rw [List.length_append, hx, List.length_drop]
      omega
    · intro u hu
      cases hu
      rw [List.getElem?_append_right (Nat.le_of_eq hx), hx, Nat.sub_self, List.getElem?_drop]
      rw [show g.pathc + g.offs + 0 = g.offs + g.pathc by omega]
      exact hlast

end Dietlibc.Glob
