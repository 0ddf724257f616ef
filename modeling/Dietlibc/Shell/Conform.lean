import Dietlibc.Shell.Bracket

/-!
# `fnmatch` decides its pattern language

On a clean match `fnmatch` returns 0 exactly if the pattern matches the string. The induction is on
the items of the pattern, and for a `*` on the string.
-/

namespace Dietlibc.Shell

variable {flags : Flags} {notfirst : Bool} {before : Option UInt8} {c : UInt8} {s pattern : List UInt8}
  {p : List Item}

/-- `NOTFIRST` and `string[-1]` tell leading periods apart at `s`: behind an empty run at the start
of the string the flag is set too soon, but there is no period then. -/
def Tells (flags : Flags) (notfirst : Bool) (before : Option UInt8) (s : List UInt8) : Prop :=
  (notfirst = false → before = none) ∧
    (notfirst = true → before = none → ¬ (flags.period = true ∧ s.head? = some period))

theorem tells_some (c : UInt8) (s : List UInt8) : Tells flags true (some c) s :=
  ⟨fun h => (by cases h), fun _ h => (by cases h)⟩

theorem leading_iff (h : Tells flags notfirst before (c :: s)) :
    (c = period ∧ flags.period = true ∧
      (¬ notfirst = true ∨ flags.pathname = true ∧ before = some slash)) ↔
    leading flags before c = true := by
  simp only [leading, Bool.and_eq_true, Bool.or_eq_true, decide_eq_true_eq]
  constructor
  · rintro ⟨h1, h2, h3⟩
    refine ⟨⟨h2, h1⟩, h3.imp (fun hn => ?_) (fun h => h)⟩
    exact h.1 (by simpa using hn)
  · rintro ⟨⟨h2, h1⟩, h3⟩
    refine ⟨h1, h2, h3.imp (fun hb hn => ?_) (fun h => h)⟩
    exact h.2 hn hb ⟨h2, by rw [h1]; rfl⟩

/-- The check for a leading period. -/
theorem fnmatch_leading (h : Tells flags notfirst before (c :: s))
    (hl : leading flags before c = true) (hp : pattern.head? ≠ some period) :
    fnmatch flags notfirst before pattern (c :: s) = fnmNomatch := by
  obtain ⟨h1, h2, h3⟩ := (leading_iff h).mpr hl
  rw [fnmatch.eq_def]
  exact if_pos ⟨h1, hp, h2, h3⟩

/-- The check is passed. -/
theorem check_passed (h : Tells flags notfirst before (c :: s))
    (hl : leading flags before c = false ∨ pattern.head? = some period) :
    ¬ (c = period ∧ pattern.head? ≠ some period ∧ flags.period = true ∧
      (¬ notfirst = true ∨ flags.pathname = true ∧ before = some slash)) := by
  rintro ⟨h1, h2, h3, h4⟩
  rcases hl with hl | hl
  · rw [(leading_iff h).mp ⟨h1, h3, h4⟩] at hl
    cases hl
  · exact h2 hl

theorem separates_iff : separates flags c = true ↔ c = slash ∧ flags.pathname = true := by
  simp [separates, and_comm]

/-- Only letters are folded. -/
theorem eq_of_tolower {d : UInt8} (h : tolower c = d) (hd : ¬ (97 ≤ d ∧ d ≤ 122)) : c = d := by
  unfold tolower at h
  split at h
  · rename_i hc
    refine absurd ?_ hd
    have h1 := UInt8.le_iff_toNat_le.mp hc.1
    have h2 := UInt8.le_iff_toNat_le.mp hc.2
    have h3 := congrArg UInt8.toNat h
    rw [UInt8.toNat_add] at h3
    simp only [UInt8.toNat_ofNat, Nat.reducePow, Nat.reduceMod] at h1 h2 h3
    simp only [UInt8.le_iff_toNat_le, UInt8.toNat_ofNat, Nat.reducePow, Nat.reduceMod]
    omega
  · exact h

/-- A character that is no letter is matched by itself only. -/
theorem matchChar_iff {d : UInt8} (hd : tolower d = d) (hd' : ¬ (97 ≤ d ∧ d ≤ 122)) :
    (matchChar d c flags = true ↔ c = d) ∧ (matchChar c d flags = true ↔ c = d) := by
  have hfold : tolower c = d ↔ c = d := by
    refine ⟨fun h => eq_of_tolower h hd', ?_⟩
    rintro rfl
    exact hd
  unfold matchChar
  split
  · simp only [decide_eq_true_eq, hd, hfold, eq_comm (a := d), and_self]
  · simp only [decide_eq_true_eq, eq_comm (a := d), and_self]

/-! ## One item -/

theorem fnmatch_end (h : pattern.head? ≠ some star) (hne : pattern ≠ []) :
    fnmatch flags notfirst before pattern [] = fnmNomatch := by
  obtain ⟨b, ps, rfl⟩ := List.exists_cons_of_ne_nil hne
  have hb : b ≠ star := fun hb => h (by rw [hb]; rfl)
  rw [fnmatch, List.dropWhile_cons_of_neg (by simpa using hb), if_neg (by simp)]

theorem fnmatch_star_end (ps : List UInt8) :
    fnmatch flags notfirst before (star :: ps) [] = fnmatch flags true before ps [] := by
  rw [fnmatch, fnmatch, List.dropWhile_cons_of_pos (by simp)]

section

variable (ht : Tells flags notfirst before (c :: s))
include ht

theorem fnmatch_star (hl : leading flags before c = false) (ps : List UInt8) :
    fnmatch flags notfirst before (star :: ps) (c :: s) =
      if separates flags c = true ∨ fnmatch flags true (some c) (star :: ps) s ≠ 0 then
        fnmatch flags true before ps (c :: s) else 0 := by
  rw [fnmatch, if_neg (check_passed ht (.inl hl)), if_neg (by decide), if_neg (by decide),
    if_pos rfl]
  simp only [separates_iff]

theorem fnmatch_any (hl : leading flags before c = false) (ps : List UInt8) :
    fnmatch flags notfirst before (quest :: ps) (c :: s) =
      if separates flags c = true then fnmNomatch else fnmatch flags true (some c) ps s := by
  rw [fnmatch, if_neg (check_passed ht (.inl hl)), if_neg (by decide), if_neg (by decide),
    if_neg (by decide), if_pos rfl]
  simp only [separates_iff]

theorem fnmatch_esc (hl : leading flags before c = false) (hesc : flags.noescape = false)
    (d : UInt8) (ps : List UInt8) :
    fnmatch flags notfirst before (backslash :: d :: ps) (c :: s) =
      if d = c then fnmatch flags true (some c) ps s else fnmNomatch := by
  rw [fnmatch, if_neg (check_passed ht (.inl hl)), if_neg (by decide), if_pos rfl,
    if_neg (by simp [hesc])]
  simp only [List.head?_cons, Option.some.injEq, List.drop_succ_cons, List.drop_zero]

theorem fnmatch_trail (hl : leading flags before c = false) (hesc : flags.noescape = false) :
    fnmatch flags notfirst before [backslash] (c :: s) = fnmNomatch := by
  rw [fnmatch, if_neg (check_passed ht (.inl hl)), if_neg (by decide), if_pos rfl,
    if_neg (by simp [hesc]), if_neg (by simp)]

theorem fnmatch_lit {d : UInt8} (hd : d ≠ star ∧ d ≠ quest ∧ d ≠ lbracket ∧
      (d = backslash → flags.noescape = true)) (ps : List UInt8) :
    fnmatch flags notfirst before (d :: ps) (c :: s) =
      if (Item.lit d).takes flags before c = true then fnmatch flags true (some c) ps s
      else fnmNomatch := by
  have htakes : (Item.lit d).takes flags before c = matchChar d c flags := rfl
  rw [htakes]
  by_cases hcheck : leading flags before c = true ∧ d ≠ period
  · -- a leading period, and the literal is another character
    have hc := ((leading_iff ht).mpr hcheck.1).1
    rw [fnmatch_leading ht hcheck.1 (by simpa using hcheck.2), if_neg]
    intro hm
    rw [hc] at hm
    exact hcheck.2 ((matchChar_iff (by decide) (by decide)).2.mp hm)
  · have hpass : leading flags before c = false ∨ (d :: ps).head? = some period := by
      rcases not_and_or.mp hcheck with h | h
      · exact .inl (by simpa using h)
      · exact .inr (by simpa using h)
    rw [fnmatch, if_neg (check_passed ht hpass), if_neg hd.2.2.1]
    by_cases hb : d = backslash
    · subst hb
      have hmatch : matchChar backslash c flags = true ↔ c = backslash :=
        (matchChar_iff (by decide) (by decide)).1
      rw [if_pos rfl, if_pos (hd.2.2.2 rfl)]
      simp only [hmatch]
    · rw [if_neg hb, if_neg hd.1, if_neg hd.2.1]

theorem fnmatch_set (hl : leading flags before c = false) {neg : Bool} {ms : List Member}
    {rest : List UInt8} (hms : ms ≠ [] ∧ MembersOk true ms (rbracket :: rest) ∧
      (neg = false → (memberText ms).head? ≠ some bang))
    (hok : separates flags c = false → SetOk flags neg c ms) :
    fnmatch flags notfirst before ((Item.set neg ms).text ++ rest) (c :: s) =
      if (Item.set neg ms).takes flags before c = true then fnmatch flags true (some c) rest s
      else fnmNomatch := by
  obtain ⟨hne, hmem, hbang⟩ := hms
  have htext : (Item.set neg ms).text ++ rest = lbracket ::
      ((if neg then [bang] else []) ++ memberText ms ++ rbracket :: rest) := by
    simp [Item.text]
  have htakes : (Item.set neg ms).takes flags before c =
      (!separates flags c && !leading flags before c && (inSet flags ms c != neg)) := rfl
  rw [htext, fnmatch, if_neg (check_passed ht (.inl hl)), if_pos rfl, htakes, hl]
  simp only [← separates_iff]
  by_cases hsep : separates flags c = true
  · rw [if_pos hsep, hsep]
    simp
  · rw [Bool.not_eq_true] at hsep
    obtain ⟨hany, hskip⟩ := hok hsep
    rw [if_neg (by simp [hsep]), bracketStart_set neg ms _ hbang hne, hsep]
    cases neg with
    | true =>
      dsimp only
      rw [bracketLoop_neg hmem hne, hany]
      cases inSet flags ms c <;> simp
    | false =>
      dsimp only
      rw [bracketLoop_pos hmem (fun _ => hne) (hskip rfl), hany]
      cases inSet flags ms c <;> simp

end

/-! ## Whole patterns -/

theorem patternText_cons (i : Item) (p : List Item) :
    patternText (i :: p) = i.text ++ patternText p := List.flatMap_cons

theorem head_ne {a b : UInt8} (h : b ≠ a) (ps : List UInt8) : (b :: ps).head? ≠ some a :=
  fun he => h (Option.some.inj he)

/-- The end of the string is matched by stars only. -/
theorem item_head {i : Item} (hi : i ≠ .star) (hlit : ∀ d, i = .lit d → d ≠ star)
    (rest : List UInt8) : ∃ b ps, i.text ++ rest = b :: ps ∧ b ≠ star := by
  cases i with
  | star => exact absurd rfl hi
  | any => exact ⟨quest, _, rfl, by decide⟩
  | lit d => exact ⟨d, _, rfl, hlit d rfl⟩
  | esc d => exact ⟨backslash, _, rfl, by decide⟩
  | set neg ms => exact ⟨lbracket, _, rfl, by decide⟩
  | trail => exact ⟨backslash, _, rfl, by decide⟩

/-- What the theorem says at one place of the match. -/
def Agrees (flags : Flags) (p : List Item) (before : Option UInt8) (s : List UInt8) : Prop :=
  ∀ notfirst, Tells flags notfirst before s →
    (fnmatch flags notfirst before (patternText p) s = 0 ↔ patternMatches flags p before s = true)

theorem fnmNomatch_ne : ¬ fnmNomatch = 0 := by decide

/-- A `*` before a pattern on which the two agree. -/
theorem agrees_star (hp : ∀ before s, Clean flags p before s → Agrees flags p before s)
    (hc : Clean flags (.star :: p) before s) : Agrees flags (.star :: p) before s := by
  induction s generalizing before with
  | nil =>
    intro notfirst _
    rw [patternText_cons, Item.text, List.singleton_append, fnmatch_star_end]
    have hnil : Clean flags p before [] := by
      cases p with
      | nil => trivial
      | cons i p => cases i <;> trivial
    exact hp before [] hnil true ⟨fun h => (by cases h), fun _ _ h => (by cases h.2)⟩
  | cons c s ih =>
    intro notfirst ht
    have hspec : patternMatches flags (.star :: p) before (c :: s) =
        (patternMatches flags p before (c :: s) || (!separates flags c && !leading flags before c &&
          patternMatches flags (.star :: p) (some c) s)) := rfl
    rw [patternText_cons, Item.text, List.singleton_append, hspec]
    rw [Clean, cleanStar] at hc
    by_cases hl : leading flags before c = true
    · rw [if_pos hl] at hc
      rw [fnmatch_leading ht hl (head_ne (by decide) _), hc, hl]
      simp [fnmNomatch]
    · rw [if_neg hl] at hc
      rw [Bool.not_eq_true] at hl
      have htells : Tells flags true before (c :: s) := by
        refine ⟨fun h => (by cases h), fun _ hb h => ?_⟩
        rw [leading, hb] at hl
        simp [h.1, Option.some.inj h.2] at hl
      rw [fnmatch_star ht hl]
      by_cases hsep : separates flags c = true
      · rw [if_pos hsep] at hc
        rw [if_pos (.inl hsep), hp before (c :: s) hc true htells, hsep]
        simp
      · rw [if_neg hsep] at hc
        rw [Bool.not_eq_true] at hsep
        have hrun := ih hc.1 true (tells_some c s)
        rw [patternText_cons, Item.text, List.singleton_append] at hrun
        simp only [hsep, hl, Bool.false_eq_true, false_or, Bool.not_false, Bool.true_and]
        by_cases hm : patternMatches flags (.star :: p) (some c) s = true
        · rw [if_neg (not_not.mpr (hrun.mpr hm)), hm]
          simp
        · rw [if_pos (fun h => hm (hrun.mp h))]
          rw [Bool.not_eq_true] at hm
          rw [hp before (c :: s) (hc.2 hm) true htells, hm, Bool.or_false]

/-- An item that takes one character. -/
theorem agrees_item {i : Item} (hstar : i ≠ .star) (hlit : ∀ d, i = .lit d → d ≠ star)
    (h : ∀ c s' notfirst, s = c :: s' → Tells flags notfirst before (c :: s') →
      (fnmatch flags notfirst before (i.text ++ patternText p) (c :: s') = 0 ↔
        i.takes flags before c = true ∧ patternMatches flags p (some c) s' = true)) :
    Agrees flags (i :: p) before s := by
  intro notfirst ht
  rw [patternText_cons]
  cases s with
  | nil =>
    have hspec : patternMatches flags (i :: p) before [] = false := by
      cases i <;> first | rfl | exact absurd rfl hstar
    obtain ⟨b, ps, he, hb⟩ := item_head hstar hlit (patternText p)
    rw [he, fnmatch_end (head_ne hb ps) (by simp), hspec]
    exact iff_of_false fnmNomatch_ne (by simp)
  | cons c s =>
    have hspec : patternMatches flags (i :: p) before (c :: s) =
        (i.takes flags before c && patternMatches flags p (some c) s) := by
      cases i <;> first | rfl | exact absurd rfl hstar
    rw [hspec, Bool.and_eq_true]
    exact h c s notfirst rfl ht

/-- An item behind which the match goes on, or not. -/
theorem ite_agrees {i : Item} (hp : Clean flags p (some c) s → Agrees flags p (some c) s)
    (hc : i.takes flags before c = true → Clean flags p (some c) s) :
    ((if i.takes flags before c = true then fnmatch flags true (some c) (patternText p) s
      else fnmNomatch) = 0) ↔
      i.takes flags before c = true ∧ patternMatches flags p (some c) s = true := by
  by_cases htakes : i.takes flags before c = true
  · rw [if_pos htakes, hp (hc htakes) true (tells_some c s)]
    exact (and_iff_right htakes).symm
  · rw [if_neg htakes]
    exact iff_of_false fnmNomatch_ne fun h => htakes h.1

/-- The end of the pattern. -/
theorem agrees_nil : Agrees flags [] before s := by
  intro notfirst ht
  cases s with
  | nil => exact iff_of_true (by rw [fnmatch.eq_def]; rfl) rfl
  | cons c s =>
    by_cases hl : leading flags before c = true
    · have hcp := ((leading_iff ht).mpr hl).1
      rw [fnmatch_leading ht hl (by simp [patternText])]
      refine iff_of_false fnmNomatch_ne ?_
      have hslash : c ≠ slash := by
        rw [hcp]
        decide
      simp [patternMatches, hslash]
    · rw [Bool.not_eq_true] at hl
      rw [fnmatch.eq_def]
      dsimp only
      rw [if_neg (check_passed ht (.inl hl))]
      simp only [patternText, List.flatMap_nil, patternMatches]
      by_cases hs : c = slash ∧ flags.leadingDir = true
      · rw [if_pos hs]
        simp [hs.1, hs.2]
      · rw [if_neg hs]
        refine iff_of_false fnmNomatch_ne ?_
        simpa [and_comm] using hs

theorem agrees_any (hp : ∀ before s, Clean flags p before s → Agrees flags p before s)
    (hc : Clean flags (.any :: p) before s) : Agrees flags (.any :: p) before s := by
  refine agrees_item (by simp) (by simp) ?_
  rintro c s notfirst rfl ht
  have htakes : Item.any.takes flags before c =
      (!separates flags c && !leading flags before c) := rfl
  by_cases hl : leading flags before c = true
  · rw [Item.text, List.singleton_append, fnmatch_leading ht hl (head_ne (by decide) _), htakes, hl]
    simp [fnmNomatch]
  · rw [Bool.not_eq_true] at hl
    have he := fnmatch_any ht hl (patternText p)
    have hif : (if separates flags c = true then fnmNomatch
        else fnmatch flags true (some c) (patternText p) s) =
        if Item.any.takes flags before c = true then
          fnmatch flags true (some c) (patternText p) s else fnmNomatch := by
      rw [htakes, hl]
      cases separates flags c <;> simp
    rw [Item.text, List.singleton_append, he, hif]
    exact ite_agrees (hp _ _) hc

theorem agrees_lit {d : UInt8} (hp : ∀ before s, Clean flags p before s → Agrees flags p before s)
    (hd : d ≠ star ∧ d ≠ quest ∧ d ≠ lbracket ∧ (d = backslash → flags.noescape = true))
    (hc : Clean flags (.lit d :: p) before s) : Agrees flags (.lit d :: p) before s := by
  refine agrees_item (by simp) (fun d' h => by cases h; exact hd.1) ?_
  rintro c s notfirst rfl ht
  rw [Item.text, List.singleton_append, fnmatch_lit ht hd]
  exact ite_agrees (hp _ _) hc

theorem agrees_esc {d : UInt8} (hp : ∀ before s, Clean flags p before s → Agrees flags p before s)
    (hesc : flags.noescape = false)
    (hc : Clean flags (.esc d :: p) before s) : Agrees flags (.esc d :: p) before s := by
  refine agrees_item (by simp) (by simp) ?_
  rintro c s notfirst rfl ht
  have htakes : (Item.esc d).takes flags before c = decide (d = c) := rfl
  rw [Item.text, htakes, decide_eq_true_eq]
  by_cases hl : leading flags before c = true
  · rw [show [backslash, d] ++ patternText p = backslash :: d :: patternText p from rfl,
      fnmatch_leading ht hl (head_ne (by decide) _)]
    refine iff_of_false fnmNomatch_ne ?_
    rintro ⟨hd, hm⟩
    have hno := hc hd
    rw [if_pos hl, hm] at hno
    cases hno
  · rw [Bool.not_eq_true] at hl
    have he := fnmatch_esc ht hl hesc d (patternText p)
    rw [show [backslash, d] ++ patternText p = backslash :: d :: patternText p from rfl, he]
    have hnext : (Item.esc d).takes flags before c = true → Clean flags p (some c) s := by
      intro htake
      have hclean := hc (by simpa [htakes] using htake)
      rwa [if_neg (by simp [hl])] at hclean
    have hagree := ite_agrees (hp _ _) hnext
    simpa only [htakes, decide_eq_true_eq] using hagree

theorem agrees_set {neg : Bool} {ms : List Member} (hp : ∀ before s, Clean flags p before s → Agrees flags p before s)
    (hms : ms ≠ [] ∧ MembersOk true ms (rbracket :: patternText p) ∧
      (neg = false → (memberText ms).head? ≠ some bang))
    (hc : Clean flags (.set neg ms :: p) before s) : Agrees flags (.set neg ms :: p) before s := by
  refine agrees_item (by simp) (by simp) ?_
  rintro c s notfirst rfl ht
  have htakes : (Item.set neg ms).takes flags before c =
      (!separates flags c && !leading flags before c && (inSet flags ms c != neg)) := rfl
  by_cases hl : leading flags before c = true
  · rw [Item.text, List.cons_append, fnmatch_leading ht hl (head_ne (by decide) _), htakes, hl]
    simp [fnmNomatch]
  · rw [Bool.not_eq_true] at hl
    rw [fnmatch_set ht hl hms (fun hsep => (hc hl hsep).1)]
    refine ite_agrees (hp _ _) ?_
    intro hin
    rw [htakes] at hin
    simp only [Bool.and_eq_true, Bool.not_eq_true', bne_iff_ne, ne_eq] at hin
    exact (hc hl hin.1.1).2 hin.2

theorem agrees_trail (hesc : flags.noescape = false) : Agrees flags [.trail] before s := by
  refine agrees_item (by simp) (by simp) ?_
  rintro c s notfirst rfl ht
  refine iff_of_false ?_ (by simp [Item.takes])
  rw [show Item.trail.text ++ patternText [] = [backslash] from rfl]
  by_cases hl : leading flags before c = true
  · rw [fnmatch_leading ht hl (head_ne (by decide) _)]
    exact fnmNomatch_ne
  · rw [Bool.not_eq_true] at hl
    rw [fnmatch_trail ht hl hesc]
    exact fnmNomatch_ne

/-- **`fnmatch` and the pattern language.** On clean matches they agree. -/
theorem agrees_clean (hok : PatternOk flags p) (hc : Clean flags p before s) :
    Agrees flags p before s := by
  induction p generalizing before s with
  | nil => exact agrees_nil
  | cons i p ih =>
    cases i with
    | star => exact agrees_star (fun _ _ hc => ih hok hc) hc
    | any => exact agrees_any (fun _ _ hc => ih hok hc) hc
    | lit d => exact agrees_lit (fun _ _ hc => ih hok.2 hc) hok.1 hc
    | esc d => exact agrees_esc (fun _ _ hc => ih hok.2 hc) hok.1 hc
    | set neg ms => exact agrees_set (fun _ _ hc => ih hok.2 hc) hok.1 hc
    | trail =>
      obtain ⟨hesc, rfl⟩ := hok
      exact agrees_trail hesc

/-- **Decision of the pattern language.** For every well-formed pattern and every string, if the
match is clean then `fnmatch` returns 0 exactly if the pattern matches the string. -/
theorem fnmatch_decides (flags : Flags) (p : List Item) (hok : PatternOk flags p) (s : List UInt8)
    (hc : Clean flags p none s) :
    fnmatch flags false none (patternText p) s = 0 ↔ patternMatches flags p none s = true :=
  agrees_clean hok hc false ⟨fun _ => rfl, fun h => (by cases h)⟩

/-! ## Examples -/

/-- The pattern `*.c` and the string `a.c`. -/
theorem fnmatch_decides_star :
    fnmatch ⟨false, false, true, false, false⟩ false none [star, period, 99] [97, period, 99] = 0 ↔
      patternMatches ⟨false, false, true, false, false⟩ [.star, .lit period, .lit 99] none
        [97, period, 99] = true := by
  refine fnmatch_decides _ [.star, .lit period, .lit 99] (by simp [PatternOk]; decide)
    [97, period, 99] ?_
  simp [Clean, cleanStar, leading, separates, starMatches, patternMatches, Item.takes]

/-- An escaped leading period, a `*` before a leading period, and a class behind the member that
matches: the patterns match, `fnmatch` says no. -/
theorem fnmatch_misses :
    (patternMatches ⟨false, false, true, false, false⟩ [.esc period, .lit 97] none [period, 97] =
        true ∧
      fnmatch ⟨false, false, true, false, false⟩ false none
        (patternText [.esc period, .lit 97]) [period, 97] = fnmNomatch) ∧
    (patternMatches ⟨false, false, true, false, false⟩ [.star, .lit period, .lit 99] none
        [period, 99] = true ∧
      fnmatch ⟨false, false, true, false, false⟩ false none
        (patternText [.star, .lit period, .lit 99]) [period, 99] = fnmNomatch) ∧
    (PatternOk ⟨false, false, false, false, false⟩ [.set false [.chr 97, .cls .alpha]] ∧
      patternMatches ⟨false, false, false, false, false⟩ [.set false [.chr 97, .cls .alpha]] none
        [97] = true ∧
      fnmatch ⟨false, false, false, false, false⟩ false none
        (patternText [.set false [.chr 97, .cls .alpha]]) [97] = fnmNomatch) := by
  have ht : Tells ⟨false, false, true, false, false⟩ false none [period, 97] :=
    ⟨fun _ => rfl, fun h => (by cases h)⟩
  have ht' : Tells ⟨false, false, true, false, false⟩ false none [period, 99] :=
    ⟨fun _ => rfl, fun h => (by cases h)⟩
  have hok : (Member.chr 97).Ok true ((Member.cls .alpha).text ++ [rbracket]) :=
    ⟨by decide, by decide, fun h => absurd h (by decide)⟩
  refine ⟨⟨by decide, ?_⟩, ⟨by decide, ?_⟩, ?_, by decide, ?_⟩
  · exact fnmatch_leading ht (by decide) (head_ne (by decide) _)
  · exact fnmatch_leading ht' (by decide) (head_ne (by decide) _)
  · refine ⟨⟨by simp, ⟨hok, trivial, trivial⟩, fun _ => by decide⟩, trivial⟩
  · have htext : patternText [.set false [.chr 97, .cls .alpha]] =
        lbracket :: ((Member.chr 97).text ++ ((Member.cls .alpha).text ++ [rbracket])) := rfl
    have hloop : bracketLoop ⟨false, false, false, false, false⟩ false 97
        ((Member.chr 97).text ++ ((Member.cls .alpha).text ++ [rbracket])) true =
        some [rbracket] := by
      rw [bracketLoop_cons false _ hok]
      rfl
    rw [htext, fnmatch, if_neg (by decide), if_pos rfl, if_neg (by decide)]
    rw [show bracketStart ((Member.chr 97).text ++ ((Member.cls .alpha).text ++ [rbracket])) =
      (false, (Member.chr 97).text ++ ((Member.cls .alpha).text ++ [rbracket])) from rfl, hloop]
    exact fnmatch_end (head_ne (by decide) _) (by simp)

end Dietlibc.Shell
