import Dietlibc.Rx.Language
import Dietlibc.Rx.Whole

/-!
# The trees of patterns

The text of a pattern is parsed to a tree whose language is that of the pattern, but for long words
(`regcomp_shown`). The parser puts literals in a row into one atom, so that the pieces of the tree are
not those of the pattern.
-/

namespace Dietlibc.Rx

open Shell (isdigit period lbracket backslash dash rbracket)

variable {fl : Cflags} {a : EreAtom} {b : EreBranch} {k : Repeat} {e s t u p : Ptr} {c d : UInt8}
  {ds l : List UInt8} {n m i : Nat} {q : Bool} {P : UInt8 → Prop}

/-! ## Numbers -/

theorem le_foldl_number (ds : List UInt8) (n : Nat) :
    n ≤ ds.foldl (fun n c => n * 10 + (c.toNat - 48)) n := by
  induction ds generalizing n with
  | nil => exact le_rfl
  | cons c ds ih =>
    have := ih (n * 10 + (c.toNat - 48))
    rw [List.foldl_cons]
    omega

theorem foldl_number (ds : List UInt8) (n : Nat)
    (h : ds.foldl (fun n c => n * 10 + (c.toNat - 48)) n < 2 ^ 32) :
    ds.foldl (fun n c => (n * 10 + (c.toNat - 48)) % 2 ^ 32) n =
      ds.foldl (fun n c => n * 10 + (c.toNat - 48)) n := by
  induction ds generalizing n with
  | nil => rfl
  | cons c ds ih =>
    rw [List.foldl_cons] at h
    have hlt := (le_foldl_number ds (n * 10 + (c.toNat - 48))).trans_lt h
    rw [List.foldl_cons, List.foldl_cons, Nat.mod_eq_of_lt hlt]
    exact ih _ h

theorem IsCount.decimal (h : IsCount ds) (he : e.head?.any isdigit = false) :
    Rx.decimal (ds ++ e) = number ds ∧ (ds ++ e).dropWhile isdigit = e ∧
      (ds ++ e).head?.any isdigit = true := by
  have hnone : e.takeWhile isdigit = [] ∧ e.dropWhile isdigit = e := by
    rcases e with - | ⟨c, e⟩
    · exact ⟨rfl, rfl⟩
    · have hc : isdigit c = false := he
      rw [List.takeWhile_cons, List.dropWhile_cons, hc]
      exact ⟨rfl, rfl⟩
  have hbound := h.bound
  refine ⟨?_, ?_, ?_⟩
  · rw [Rx.decimal, List.takeWhile_append_of_pos h.digits, hnone.1, List.append_nil]
    exact foldl_number ds 0 (lt_of_le_of_lt hbound (by decide))
  · rw [List.dropWhile_append_of_pos h.digits, hnone.2]
  · obtain ⟨c, ds, rfl⟩ := List.exists_cons_of_ne_nil h.nonempty
    exact h.digits c List.mem_cons_self

/-! ## Repetitions -/

/-- No repetition is in front. -/
def NoRepeat (s : Ptr) : Prop := ∀ c ∈ s.head?, c ∉ [Shell.star, plus, Shell.quest, lbrace]

/-- The bounds of a repetition are those of the pattern, or large. -/
structure Repeat.Bounds (k : Repeat) (min max : Nat) : Prop where
  le : min ≤ max
  inside : ∀ j, min ≤ j → j ≤ max → k.Counts j
  low : ∀ j, k.Counts j → min ≤ j
  high : (∀ j, k.Counts j → j ≤ max) ∨ reDupMax ≤ max

theorem repetition_exactly (hd : t.head?.any isdigit = true)
    (hu : t.dropWhile isdigit = rbrace :: e) :
    repetition (lbrace :: t) = some (decimal t, decimal t, e) := by
  show (if t.head?.any isdigit = true then _ else _) = _
  rw [if_pos hd]
  show (if (t.dropWhile isdigit).head? = some comma then _ else _) = _
  have hne : ¬(rbrace :: e).head? = some comma := fun h => absurd (Option.some.inj h) (by decide)
  rw [hu, if_neg hne]
  rfl

theorem repetition_comma (hd : t.head?.any isdigit = true) (hu : t.dropWhile isdigit = comma :: u)
    (hv : u.dropWhile isdigit = rbrace :: e) :
    repetition (lbrace :: t) =
      some (decimal t, if u.head?.any isdigit then decimal u else reDupMax, e) := by
  show (if t.head?.any isdigit = true then _ else _) = _
  rw [if_pos hd]
  show (if (t.dropWhile isdigit).head? = some comma then _ else _) = _
  have hcomma : (comma :: u).head? = some comma := rfl
  rw [hu, if_pos hcomma]
  show (if (u.dropWhile isdigit).head? = some rbrace then _ else _) = _
  have hrbrace : (rbrace :: e).head? = some rbrace := rfl
  rw [hv, if_pos hrbrace]
  show some (decimal t, _, (u.dropWhile isdigit).tail) = _
  rw [hv]
  rfl

theorem not_strayBrace (hc : c ≠ lbrace) : ¬StrayBrace (c :: t) := by
  rintro ⟨u, hu, -⟩
  cases hu
  exact hc rfl

theorem repetition_show (hk : k.Wf) (he : NoRepeat e) :
    ∃ min max, RepeatAt false min max (k.show ++ e) e ∧ k.Bounds min max := by
  have hbrace {ds : List UInt8} (h : IsCount ds) (u : Ptr) (hu : u.head?.any isdigit = false) :
      ¬StrayBrace (lbrace :: (ds ++ u)) := by
    rintro ⟨t, ht, hd⟩
    cases ht
    rw [(h.decimal hu).2.2] at hd
    cases hd
  cases k with
  | once =>
    refine ⟨1, 1, ⟨?_, ?_⟩, le_rfl, fun j h1 h2 => (by omega : j = 1),
      fun j h => (show j = 1 from h).ge, .inl fun j h => (show j = 1 from h).le⟩
    · rcases e with - | ⟨c, e⟩
      · rfl
      · have hc := he c rfl
        simp only [List.mem_cons, List.not_mem_nil, or_false, not_or] at hc
        show repetition (c :: e) = _
        rw [repetition, if_neg hc.1, if_neg hc.2.1, if_neg hc.2.2.1, if_neg hc.2.2.2]
    · rintro - ⟨t, rfl, -⟩
      exact he lbrace rfl (by decide)
  | star =>
    exact ⟨0, reDupMax, ⟨rfl, fun _ => not_strayBrace (by decide)⟩, Nat.zero_le _,
      fun _ _ _ => trivial, fun _ _ => Nat.zero_le _, .inr le_rfl⟩
  | plus =>
    exact ⟨1, reDupMax, ⟨rfl, fun _ => not_strayBrace (by decide)⟩, by decide, fun _ h _ => h,
      fun _ h => h, .inr le_rfl⟩
  | quest =>
    exact ⟨0, 1, ⟨rfl, fun _ => not_strayBrace (by decide)⟩, Nat.zero_le _, fun _ _ h => h,
      fun _ _ => Nat.zero_le _, .inl fun _ h => h⟩
  | exactly ms =>
    have hms : IsCount ms := hk
    have hshow : (Repeat.exactly ms).show ++ e = lbrace :: (ms ++ rbrace :: e) := by
      simp [Repeat.show]
    obtain ⟨hdec, hdrop, hhead⟩ := hms.decimal (e := rbrace :: e) rfl
    refine ⟨number ms, number ms, ⟨?_, fun _ => ?_⟩, le_rfl,
      fun j h1 h2 => (by omega : j = number ms), fun j h => (show j = number ms from h).ge,
      .inl fun j h => (show j = number ms from h).le⟩
    · rw [hshow, repetition_exactly hhead hdrop, hdec]
    · rw [hshow]
      exact hbrace hms _ rfl
  | atLeast ms =>
    have hms : IsCount ms := hk
    have hshow : (Repeat.atLeast ms).show ++ e = lbrace :: (ms ++ comma :: rbrace :: e) := by
      simp [Repeat.show]
    obtain ⟨hdec, hdrop, hhead⟩ := hms.decimal (e := comma :: rbrace :: e) rfl
    refine ⟨number ms, reDupMax, ⟨?_, fun _ => ?_⟩, hms.bound, fun _ h _ => h, fun _ h => h,
      .inr le_rfl⟩
    · rw [hshow, repetition_comma hhead hdrop (u := rbrace :: e) rfl, hdec]
      rfl
    · rw [hshow]
      exact hbrace hms _ rfl
  | between ms ns =>
    obtain ⟨hms, hns, hle⟩ : IsCount ms ∧ IsCount ns ∧ number ms ≤ number ns := hk
    have hshow : (Repeat.between ms ns).show ++ e =
        lbrace :: (ms ++ comma :: (ns ++ rbrace :: e)) := by
      simp [Repeat.show]
    obtain ⟨hdec, hdrop, hhead⟩ := hms.decimal (e := comma :: (ns ++ rbrace :: e)) rfl
    obtain ⟨hdec', hdrop', hhead'⟩ := hns.decimal (e := rbrace :: e) rfl
    refine ⟨number ms, number ns, ⟨?_, fun _ => ?_⟩, hle, fun _ h1 h2 => ⟨h1, h2⟩, fun _ h => h.1,
      .inl fun _ h => h.2⟩
    · rw [hshow, repetition_comma hhead hdrop hdrop', hdec, hdec', if_pos hhead']
    · rw [hshow]
      exact hbrace hms _ rfl

/-! ## Literals in a row -/

/-- How the text of an atom starts. -/
theorem EreAtom.show_head (ha : a.Wf) : ∃ c t, a.show = c :: t ∧
    ((isSpecial c = false ∧ a = .literal false c) ∨
      c ∈ [backslash, period, lbracket, lparen]) := by
  cases a with
  | literal quoted c =>
    cases quoted with
    | false => exact ⟨c, [], rfl, .inl ⟨ha.2, rfl⟩⟩
    | true => exact ⟨backslash, [c], rfl, .inr (by decide)⟩
  | any => exact ⟨period, [], rfl, .inr (by decide)⟩
  | bracket p =>
    obtain ⟨t, ht⟩ := List.head?_eq_some_iff.mp ha.1
    exact ⟨lbracket, t, ht, .inr (by decide)⟩
  | unit => exact ⟨lparen, _, rfl, .inr (by decide)⟩
  | group r => exact ⟨lparen, _, rfl, .inr (by decide)⟩

theorem isSpecial_of_mem (h : c ∈ [backslash, period, lbracket, lparen]) : isSpecial c = true := by
  simp only [List.mem_cons, List.not_mem_nil, or_false] at h
  rcases h with rfl | rfl | rfl | rfl <;> rfl

/-- What is not special is no repetition. -/
theorem noRepeat_cons (h : isSpecial c = false ∨ c ∈ [backslash, period, lbracket, lparen]) (t : Ptr) :
    NoRepeat (c :: t) := by
  intro d hd hmem
  cases hd
  rcases h with h | h
  · simp only [isSpecial, decide_eq_false_iff_not, List.mem_cons, List.not_mem_nil, or_false] at h hmem
    tauto
  · simp only [List.mem_cons, List.not_mem_nil, or_false] at h hmem
    rcases h with rfl | rfl | rfl | rfl <;> revert hmem <;> decide

theorem noRepeat_ends (he : Ends e) : NoRepeat e := by
  intro c hc hmem
  rcases he with rfl | he | he
  · cases hc
  all_goals
    rw [he] at hc
    cases hc
    exact absurd hmem (by decide)

theorem EreBranch.noRepeat (hb : b.Wf) (he : Ends e) : NoRepeat (b.show ++ e) := by
  cases b with
  | nil => exact noRepeat_ends he
  | cons a k b =>
    obtain ⟨c, t, hc, hcase⟩ := a.show_head hb.1
    rw [EreBranch.show, hc]
    exact noRepeat_cons (hcase.imp And.left id) _

theorem repeat_head (hk : k ≠ .once) : ∃ c t, k.show = c :: t ∧
    c ∈ [Shell.star, plus, Shell.quest, lbrace] := by
  cases k with
  | once => exact absurd rfl hk
  | star => exact ⟨_, _, rfl, by decide⟩
  | plus => exact ⟨_, _, rfl, by decide⟩
  | quest => exact ⟨_, _, rfl, by decide⟩
  | exactly m => exact ⟨_, _, rfl, by decide⟩
  | atLeast m => exact ⟨_, _, rfl, by decide⟩
  | between m n => exact ⟨_, _, rfl, by decide⟩

/-- A character in front of none that repeats it is a piece. -/
theorem EreBranch.peel_one (hb : b.Wf) (he : Ends e) (hc : isSpecial c = false)
    (heq : b.show ++ e = c :: t) (ht : NoRepeat t) :
    ∃ b', b = .cons (.literal false c) .once b' ∧ b'.show ++ e = t := by
  cases b with
  | nil =>
    have heq : e = c :: t := heq
    rcases he with rfl | he | he
    · cases heq
    all_goals
      rw [heq] at he
      cases he
      exact absurd hc (by decide)
  | cons a k b =>
    obtain ⟨d, u, hd, hcase⟩ := a.show_head hb.1
    rw [EreBranch.show, hd] at heq
    obtain rfl : d = c := (List.cons.inj heq).1
    rcases hcase with ⟨-, rfl⟩ | hmem
    swap
    · rw [isSpecial_of_mem hmem] at hc
      cases hc
    cases hd
    have heq : k.show ++ b.show ++ e = t := (List.cons.inj heq).2
    by_cases hk : k = .once
    · subst hk
      exact ⟨b, rfl, heq⟩
    · obtain ⟨c', t', hk', hmem⟩ := repeat_head hk
      rw [hk'] at heq
      rw [← heq] at ht
      exact absurd hmem (ht c' rfl)

/-- So are characters in a row. -/
theorem EreBranch.peel (hb : b.Wf) (hall : b.All (EreAtom.Fine fl P)) (he : Ends e)
    (hl : ∀ c ∈ l, isSpecial c = false)
    (heq : b.show ++ e = l ++ t) (ht : NoRepeat t) :
    ∃ b' : EreBranch, b'.Wf ∧ b'.show ++ e = t ∧ b.show = l ++ b'.show ∧
      b.lang = {l} * b'.lang ∧ 0 ∉ l ∧ (∀ c ∈ l, P c) ∧ b'.All (EreAtom.Fine fl P) := by
  induction l generalizing b with
  | nil =>
    refine ⟨b, hb, heq, rfl, ?_, List.not_mem_nil,
      fun c hc => absurd hc List.not_mem_nil, hall⟩
    show b.lang = 1 * b.lang
    rw [one_mul]
  | cons c l ih =>
    have hnext : NoRepeat (l ++ t) := by
      cases l with
      | nil => exact ht
      | cons d l => exact noRepeat_cons (.inl (hl d (by simp))) _
    obtain ⟨b', rfl, hb'⟩ := EreBranch.peel_one hb he (hl c List.mem_cons_self) heq hnext
    obtain ⟨b'', hwf, hshow, htext, hlang, hnul, hP, hall'⟩ :=
      ih hb.2.2 hall.2 (fun d hd => hl d (List.mem_cons_of_mem c hd)) hb'
    refine ⟨b'', hwf, hshow, ?_, ?_, ?_, List.forall_mem_cons.mpr ⟨hall.1, hP⟩, hall'⟩
    · show c :: b'.show = _
      rw [htext]
      rfl
    · rw [EreBranch.lang, repeated_once, hlang, ← mul_assoc, EreAtom.lang, singleton_mul]
      rfl
    · rw [List.mem_cons, not_or]
      exact ⟨hb.1.1.symm, hnul⟩

/-- Where the run of characters ends, if it is an atom. -/
theorem run_split (h : 2 < runLength u) : ∃ l t, u = l ++ t ∧ l ≠ [] ∧ l.length + 1 = runLength u ∧
    (∀ c ∈ l, isSpecial c = false) ∧ NoRepeat t := by
  have hspecial : ∀ c ∈ u.takeWhile fun c => !isSpecial c, isSpecial c = false := by
    intro c hc
    have := List.all_eq_true.mp List.all_takeWhile c hc
    simpa using this
  have htake := (List.takeWhile_append_dropWhile (p := fun c => !isSpecial c) (l := u)).symm
  have hdrop : u.drop (u.takeWhile fun c => !isSpecial c).length =
      u.dropWhile fun c => !isSpecial c := by
    have := congrArg (List.drop (u.takeWhile fun c => !isSpecial c).length) htake
    rwa [List.drop_left] at this
  unfold runLength at h ⊢
  simp only [hdrop] at h ⊢
  by_cases hend : endsRun (u.dropWhile fun c => !isSpecial c) = true
  · rw [if_pos hend] at h ⊢
    obtain ⟨l, c, hl⟩ : ∃ l c, (u.takeWhile fun c => !isSpecial c) = l ++ [c] := by
      rcases List.eq_nil_or_concat (u.takeWhile fun c => !isSpecial c) with hnil | ⟨l, c, hl⟩
      · rw [hnil, List.length_nil] at h
        omega
      · exact ⟨l, c, by rw [hl, List.concat_eq_append]⟩
    have hlen : (u.takeWhile fun c => !isSpecial c).length = l.length + 1 := by
      rw [hl, List.length_append, List.length_singleton]
    refine ⟨l, c :: u.dropWhile fun c => !isSpecial c, ?_, ?_, hlen.symm, fun d hd => ?_, ?_⟩
    · nth_rewrite 1 [htake]
      rw [hl, List.append_assoc, List.singleton_append]
    · rintro rfl
      rw [List.length_nil] at hlen
      omega
    · exact hspecial d (by rw [hl]; exact List.mem_append_left _ hd)
    · exact noRepeat_cons (.inl (hspecial c (by rw [hl]; simp))) _
  · rw [if_neg hend] at h ⊢
    refine ⟨_, _, htake, ?_, rfl, hspecial, fun c hc hmem => hend ?_⟩
    · intro hnil
      rw [hnil, List.length_nil] at h
      omega
    · obtain ⟨t, ht⟩ := List.head?_eq_some_iff.mp hc
      rw [ht]
      exact decide_eq_true hmem

/-! ## Bracket expressions -/

theorem scan_append (h : (scan s).2 = .closed t) (e : Ptr) :
    scan (s ++ e) = ((scan s).1, .closed (t ++ e)) := by
  fun_induction scan s generalizing t with
  | case1 => cases h
  | case2 c d f u hdash r =>
    rename_i ih
    simp only [List.cons_append]
    rw [scan]
    simp only [if_pos hdash]
    by_cases hu : u.head? = some rbracket
    · obtain ⟨u, rfl⟩ := List.head?_eq_some_iff.mp hu
      cases h
      rfl
    · have hr : r = scan u := if_neg hu
      have hne : u ≠ [] := by
        rintro rfl
        rw [hr] at h
        cases h
      have hu' : (u ++ e).head? ≠ some rbracket := by
        rwa [List.head?_append_of_ne_nil u hne]
      rw [hr] at h ⊢
      rw [if_neg hu', ih h]
  | case3 c f u hdash =>
    cases h
    simp only [List.cons_append]
    rw [scan]
    simp only [if_neg hdash, if_true]
  | case4 c d f u hdash hb r =>
    rename_i ih
    have hr : r = scan (d :: f :: u) := rfl
    rw [hr] at h ⊢
    simp only [List.cons_append] at ih ⊢
    rw [scan]
    simp only [if_neg hdash, if_neg hb]
    rw [ih h]
  | case5 => cases h
  | case6 c hdash =>
    cases h
    rcases e with - | ⟨f, u⟩
    · rfl
    · show scan (c :: rbracket :: f :: u) = _
      rw [scan]
      simp only [if_neg fun h : rbracket = dash ∧ f ≠ rbracket => hdash h.1, if_true]
      rfl
  | case7 c d hdash hb r => cases h
  | case8 c => cases h

/-- What is behind a bracket expression does not count. -/
theorem members_append (h : (scan (members p)).2 = .closed t) (e : Ptr) :
    members (p ++ e) = members p ++ e ∧ negated (p ++ e) = negated p := by
  rcases p with - | ⟨c, - | ⟨d, p⟩⟩
  · cases h
  · cases h
  · have hneg : negated (c :: d :: p ++ e) = negated (c :: d :: p) := rfl
    refine ⟨?_, hneg⟩
    unfold members
    rw [hneg]
    split <;> rfl

/-- A bracket expression in the text of a pattern. -/
theorem bracket_shown (hi : fl.icase = false) (hn : fl.newline = false) (hp : p.head? = some lbracket)
    (hclosed : (scan (members p)).2 = .closed []) (hfine : BracketFine fl p) (e : Ptr) :
    ∃ cc, parsebracketed fl (p ++ e) = .ok (some (cc, e)) ∧
      ∀ b, b ≠ 0 → (issetcc cc b.toNat = true ↔ bracketSet p b = true) := by
  obtain ⟨hmem, hneg⟩ := members_append hclosed e
  have hscan : scan (members (p ++ e)) = ((scan (members p)).1, .closed e) := by
    rw [hmem, scan_append hclosed, List.nil_append]
  have hset : bracketSet (p ++ e) = bracketSet p := by
    funext b
    rw [bracketSet, bracketSet, hscan, hneg]
  have hpe : (p ++ e).head? = some lbracket := by
    obtain ⟨t, rfl⟩ := List.head?_eq_some_iff.mp hp
    rfl
  have hfine' : BracketFine fl (p ++ e) := by
    refine ⟨?_, ?_, ?_, ?_, ?_⟩
    · rw [hscan]
      exact fun h => by cases h
    · rw [hscan]
      exact hfine.bits
    · rw [hscan]
      exact fun _ _ => hfine.high _ hclosed
    · rw [hscan]
      exact fun _ _ => hfine.falling _ hclosed
    · intro _ _ h
      rw [hn] at h
      cases h
  have hright := hfine'.right hi hpe
  obtain ⟨cc, -, hparse⟩ := parse_good hi hpe fun b hb => by
    obtain ⟨i, hmem, hbi⟩ := List.mem_flatMap.1 hb
    exact (itemBits_good i).2 (hfine'.bits i hmem) b hbi
  have hok : parsebracketed fl (p ++ e) = .ok (some (cc, e)) := by
    rw [← parsebracketedBy_setcc, hparse setcc (.inl rfl), hscan]
  refine ⟨cc, hok, fun b hb => ?_⟩
  have hchar : Input.char ⟨[b], fl, false, false⟩ 0 ≠ 0 := hb
  have hatom := hright.set cc e hok ⟨[b], fl, false, false⟩ 0 (fun _ => none) rfl hchar
  rw [matchatom_bracket hi hchar, hset] at hatom
  have hno : ¬(Input.char ⟨[b], fl, false, false⟩ 0 = newlineChar ∧ fl.newline = true) := by
    rw [hn]
    exact fun h => Bool.false_ne_true h.2
  rw [issetcc_eq]
  exact ⟨fun h => hatom.1 ⟨hno, h⟩, fun h => (hatom.2 h).2⟩

/-! ## Trees -/

/-- The pieces of a branch are in the text, with a tree. -/
def BranchShown (fl : Cflags) (P : UInt8 → Prop) (b : EreBranch) : Prop :=
  ∀ first e n, Ends e → ∃ t m, BranchAt fl false t first (b.show ++ e) e n m ∧ t.Plain P ∧
    Near t.lang b.lang ∧ (b ≠ .nil → t ≠ .nil)

/-- The branches are. -/
def RegexShown (fl : Cflags) (P : UInt8 → Prop) (r : Ere) : Prop :=
  ∀ e n, (e = [] ∨ e.head? = some rparen) → ∃ t m, RegexAt fl false t (r.show ++ e) e n m ∧
    t ≠ .nil ∧ t.Plain P ∧ Near t.lang r.lang

/-- An atom is there, with an atom of the tree. -/
def AtomShown (fl : Cflags) (P : UInt8 → Prop) (a : EreAtom) (e : Ptr) (n : Nat) : Prop :=
  ∃ t m, AtomAt fl false t (a.show ++ e) e n m ∧ t.Plain P ∧ Near t.lang a.lang

theorem EreBranch.show_head (hb : b.Wf) (hne : b ≠ .nil) : ∃ c t, b.show = c :: t ∧
    c ≠ bar ∧ c ≠ rparen := by
  cases b with
  | nil => exact absurd rfl hne
  | cons a k b =>
    obtain ⟨c, t, hc, hcase⟩ := a.show_head hb.1
    refine ⟨c, t ++ (k.show ++ b.show), by rw [EreBranch.show, hc]; rfl, ?_⟩
    rcases hcase with ⟨hc, -⟩ | hc
    · constructor <;> rintro rfl <;> exact absurd hc (by decide)
    · constructor <;> rintro rfl <;> exact absurd hc (by decide)

/-- All regexes are shown if all branches that are not longer are. -/
theorem regexShown (h : ∀ b : EreBranch, b.show.length ≤ i → b.Wf → b.All (EreAtom.Fine fl P) →
    BranchShown fl P b) : ∀ r : Ere, r.show.length ≤ i → r.Wf → r.All (EreAtom.Fine fl P) →
      RegexShown fl P r
  | .one b, hlen, hwf, hall => fun e n he => by
    have hends : Ends e := he.imp_right .inr
    obtain ⟨t, m, ht, hplain, hnear, hne⟩ := h b hlen hwf.2 hall true e n hends
    refine ⟨.cons t .nil, m, .inl ⟨rfl, ht, fun hnil => absurd hnil (hne hwf.1)⟩,
      fun hnil => (by cases hnil), ⟨hne hwf.1, hplain, trivial⟩, ?_⟩
    rw [Regex.lang, Regex.lang, add_zero]
    exact hnear
  | .alt b r, hlen, hwf, hall => fun e n he => by
    have hlen : b.show.length + (r.show.length + 1) ≤ i := by
      rw [Ere.show, List.length_append, List.length_cons] at hlen
      exact hlen
    obtain ⟨t, k, ht, hplain, hnear, hne⟩ :=
      h b (by omega) hwf.2.1 hall.1 true (bar :: (r.show ++ e)) n (.inr (.inl rfl))
    obtain ⟨t', m, ht', hne', hplain', hnear'⟩ :=
      regexShown h r (by omega) hwf.2.2 hall.2 e k he
    refine ⟨.cons t t', m, .inr ⟨hne', hne hwf.1, r.show ++ e, k, ?_, ht'⟩,
      fun hnil => (by cases hnil), ⟨hne hwf.1, hplain, hplain'⟩,
      hnear.add hnear'⟩
    rw [Ere.show, List.append_assoc]
    exact ht

theorem Ere.show_head (r : Ere) (hr : r.Wf) : ∃ c t, r.show = c :: t ∧ c ≠ rparen := by
  cases r with
  | one b =>
    obtain ⟨c, t, hc, -, hne⟩ := EreBranch.show_head hr.2 hr.1
    exact ⟨c, t, hc, hne⟩
  | alt b r =>
    obtain ⟨c, t, hc, -, hne⟩ := EreBranch.show_head hr.2.1 hr.1
    exact ⟨c, t ++ bar :: r.show, by rw [Ere.show, hc]; rfl, hne⟩

/-- The atoms that are no literals. -/
theorem atomShown (hi : fl.icase = false) (hn : fl.newline = false) (ha : a.Wf)
    (hall : a.All (EreAtom.Fine fl P)) (hlit : ∀ q c, a ≠ .literal q c)
    (hgroup : ∀ r : Ere, a = .group r → RegexShown fl P r) (e : Ptr) (n : Nat) :
    AtomShown fl P a e n := by
  cases a with
  | literal q c => exact absurd rfl (hlit q c)
  | any => exact ⟨.any, n, ⟨rfl, rfl⟩, trivial, Near.refl _⟩
  | bracket p =>
    obtain ⟨cc, hparse, hset⟩ := bracket_shown hi hn ha.1 ha.2 hall e
    refine ⟨.bracket cc, n, ⟨hparse, rfl⟩, trivial, ?_⟩
    have heq : (Atom.bracket cc).lang = (EreAtom.bracket p).lang := by
      ext w
      constructor
      · rintro ⟨b, rfl, hb, h⟩
        exact ⟨b, rfl, hb, (hset b hb).1 h⟩
      · rintro ⟨b, rfl, hb, h⟩
        exact ⟨b, rfl, hb, (hset b hb).2 h⟩
    rw [heq]
    exact Near.refl _
  | unit => exact ⟨.empty (some (n + 1)), n + 1, ⟨rfl, rfl, rfl⟩,
    fun h => (by cases h), Near.refl _⟩
  | group r =>
    obtain ⟨t, m, ht, hne, hplain, hnear⟩ := hgroup r rfl (rparen :: e) (n + 1) (.inr rfl)
    refine ⟨.regex (some (n + 1)) t, m, ⟨rfl, r.show ++ rparen :: e, ?_, ?_, ht⟩,
      ⟨fun h => (by cases h), hne, hplain⟩, hnear⟩
    · rw [EreAtom.show, List.cons_append, List.append_assoc]
      rfl
    · obtain ⟨c, u, hc, hne⟩ := r.show_head ha
      rw [hc]
      exact fun h => hne (Option.some.inj h)

/-- A literal is in the text. -/
theorem literalAt (ha : (EreAtom.literal q c).Wf) (u : Ptr) :
    LiteralAt ((EreAtom.literal q c).show ++ u) c u ∧ c ≠ 0 := by
  cases q with
  | false =>
    refine ⟨.inl ⟨rfl, fun hmem => ?_⟩, ha.1⟩
    have hspecial := ha.2
    simp only [isSpecial, decide_eq_false_iff_not, List.mem_cons, List.not_mem_nil,
      or_false] at hspecial
    simp only [List.mem_cons, List.not_mem_nil, or_false] at hmem
    tauto
  | true => exact ⟨.inr ⟨rfl, ha.2⟩, ha.1⟩

/-- The language of a piece in front of a branch. -/
theorem Near.piece {a' : Atom} {b' : Branch} {min max : Nat} (ha : Near a'.lang a.lang)
    (hk : k.Bounds min max) (hb : Near b'.lang b.lang) :
    Near (Branch.cons a' min max b').lang (EreBranch.cons a k b).lang :=
  (ha.repeated hk.le hk.inside hk.low hk.high).mul hb

theorem branchShown (hi : fl.icase = false) (hn : fl.newline = false) :
    ∀ b : EreBranch, b.show.length ≤ i → b.Wf → b.All (EreAtom.Fine fl P) → BranchShown fl P b := by
  induction i with
  | zero =>
    intro b hlen hwf _ first e n he
    have hnil : b = .nil := by
      by_contra hne
      obtain ⟨c, t, hc, -⟩ := EreBranch.show_head hwf hne
      rw [hc] at hlen
      cases hlen
    subst hnil
    exact ⟨.nil, n, ⟨rfl, rfl⟩, trivial, Near.refl _, fun h => absurd rfl h⟩
  | succ i ih =>
    intro b hlen hwf hall first e n he
    cases b with
    | nil => exact ⟨.nil, n, ⟨rfl, rfl⟩, trivial, Near.refl _, fun h => absurd rfl h⟩
    | cons a k b =>
      obtain ⟨ha, hk, hb⟩ : a.Wf ∧ k.Wf ∧ b.Wf := hwf
      have htext : (EreBranch.cons a k b).show ++ e = a.show ++ (k.show ++ (b.show ++ e)) := by
        simp only [EreBranch.show, List.append_assoc]
      obtain ⟨c, u, hc, -⟩ := a.show_head ha
      have hlen : a.show.length + (k.show.length + b.show.length) ≤ i + 1 := by
        simpa only [EreBranch.show, List.length_append] using hlen
      have hpos : 0 < a.show.length := by rw [hc]; exact Nat.succ_pos _
      obtain ⟨min, max, hrep, hbounds⟩ := repetition_show hk (EreBranch.noRepeat hb he)
      -- an atom, its repetition, and the rest of the branch
      have hpiece (t : Atom) (m : Nat) (hat : AtomAt fl false t (a.show ++ (k.show ++ (b.show ++ e)))
          (k.show ++ (b.show ++ e)) n m) (hplain : t.Plain P) (hnear : Near t.lang a.lang) :
          ∃ t m, BranchAt fl false t first ((EreBranch.cons a k b).show ++ e) e n m ∧ t.Plain P ∧
            Near t.lang (EreBranch.cons a k b).lang ∧
              (EreBranch.cons a k b ≠ .nil → t ≠ .nil) := by
        obtain ⟨t', m', ht', hplain', hnear', -⟩ := ih b (by omega) hb hall.2 false e m he
        refine ⟨.cons t min max t', m', .inr ⟨_, _, m, .inl (htext ▸ hat), hrep, ht'⟩,
          ⟨hplain, hplain'⟩, hnear.piece hbounds hnear', fun _ h => by cases h⟩
      by_cases hlit : ∃ q c, a = .literal q c
      · obtain ⟨q, c, rfl⟩ := hlit
        obtain ⟨hat, hc0⟩ := literalAt ha (k.show ++ (b.show ++ e))
        by_cases hrun : runLength (k.show ++ (b.show ++ e)) ≤ 2
        · refine hpiece (.char c) n ⟨c, hat, hrun, ?_, rfl⟩ ⟨hc0, hall.1⟩ (Near.refl _)
          rw [hi, if_neg Bool.false_ne_true]
        · -- the run takes the next pieces
          have hrun : 2 < runLength (k.show ++ (b.show ++ e)) := by omega
          obtain ⟨l, t, hu, hne, hcount, hspecial, hend⟩ := run_split hrun
          have hk1 : k = .once := by
            by_contra hk1
            obtain ⟨c', t', hk', hmem⟩ := repeat_head hk1
            obtain ⟨d, l, rfl⟩ := List.exists_cons_of_ne_nil hne
            rw [hk'] at hu
            obtain rfl : c' = d := (List.cons.inj hu).1
            have hd := hspecial c' List.mem_cons_self
            simp only [List.mem_cons, List.not_mem_nil, or_false] at hmem
            rcases hmem with rfl | rfl | rfl | rfl <;> exact absurd hd (by decide)
          subst hk1
          obtain ⟨b', hwf, hshow, hb', hlang, hnul, hP, hall'⟩ :=
            EreBranch.peel hb hall.2 he hspecial hu hend
          have hlen' : b.show.length = l.length + b'.show.length := by
            rw [hb', List.length_append]
          obtain ⟨min', max', hrep', hbounds'⟩ := repetition_show (k := .once) trivial hend
          obtain ⟨t', m', ht', hplain', hnear', -⟩ := ih b' (by omega) hwf hall' false e n he
          rw [hshow] at ht'
          refine ⟨.cons (.string (c :: l)) min' max' t', m', .inr ⟨t, t, n, .inl ?_, hrep', ht'⟩,
            ⟨?_, hplain'⟩, ?_, fun _ h => by cases h⟩
          · refine ⟨c, _, htext ▸ hat, hrun, hcount, ?_, rfl⟩
            rw [hu]
            rfl
          · rw [Atom.Plain, List.mem_cons, not_or]
            exact ⟨⟨hc0.symm, hnul⟩, List.forall_mem_cons.mpr ⟨hall.1, hP⟩⟩
          · have heq : (EreBranch.cons (.literal q c) .once b).lang =
                repeated Repeat.once.Counts {c :: l} * b'.lang := by
              rw [EreBranch.lang, hlang, repeated_once, repeated_once, ← mul_assoc, EreAtom.lang,
                singleton_mul]
              rfl
            rw [heq]
            exact ((Near.refl _).repeated hbounds'.le hbounds'.inside hbounds'.low hbounds'.high).mul
              hnear'
      · have hnot : ∀ q c, a ≠ .literal q c := fun q c h => hlit ⟨q, c, h⟩
        obtain ⟨t, m, hat, hplain, hnear⟩ := atomShown hi hn ha hall.1 hnot
          (fun r hr => by
            subst hr
            rw [EreAtom.show, List.length_cons, List.length_append] at hlen
            exact regexShown ih r (by omega) ha hall.1) (k.show ++ (b.show ++ e)) n
        exact hpiece t m hat hplain hnear

/-- The parser gives a pattern a tree of plain atoms, whose language is near that of the pattern. -/
theorem regcomp_shown (hext : fl.extended = true) (hi : fl.icase = false) (hn : fl.newline = false)
    {r : Ere} (hwf : r.Wf) (hall : r.All (EreAtom.Fine fl P)) :
    ∃ t n, regcomp fl r.show = .ok (some (t, [], n)) ∧ t ≠ .nil ∧ t.Plain P ∧ Near t.lang r.lang := by
  obtain ⟨t, n, ht, hne, hplain, hnear⟩ :=
    regexShown (fun b hb => branchShown hi hn b hb) r le_rfl hwf hall [] 0 (.inl rfl)
  rw [List.append_nil] at ht
  exact ⟨t, n, regcomp_complete hext ht, hne, hplain, hnear⟩

end Dietlibc.Rx
