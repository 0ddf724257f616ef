import Dietlibc.Rx.Whole

/-!
# Patterns in another case

`Recased` says that a pattern is another one with letters in another case, but for the ends of ranges.
With `REG_ICASE` the parser makes the same of both, except for the runs of literals that become a
`STRING`: it copies them as they are, and one with an upper-case letter matches nothing. `SameRuns`
says that no run has upper-case letters in one of the patterns only.
-/

namespace Dietlibc.Rx

open Shell (tolower isdigit isupper star dash period quest lbracket backslash rbracket)

/-! ## The patterns -/

mutual

/-- The pattern with letters in another case. -/
inductive Recased : Ptr → Ptr → Prop where
  | nil : Recased [] []
  | char {c c' : UInt8} {t t' : Ptr} (hc : tolower c = tolower c') (hb : c ≠ backslash)
    (hl : c ≠ lbracket) (ht : Recased t t') : Recased (c :: t) (c' :: t')
  | escapeEnd : Recased [backslash] [backslash]
  | escape {d d' : UInt8} {t t' : Ptr} (hd : tolower d = tolower d') (ht : Recased t t') :
    Recased (backslash :: d :: t) (backslash :: d' :: t')
  | bracket {t t' : Ptr} (hn : t.head? ≠ some caret) (ht : MembersRecased t t') :
    Recased (lbracket :: t) (lbracket :: t')
  | negated {t t' : Ptr} (ht : MembersRecased t t') :
    Recased (lbracket :: caret :: t) (lbracket :: caret :: t')

/-- The same from a member of a bracket expression on. The ends of a range stay. -/
inductive MembersRecased : Ptr → Ptr → Prop where
  | nil : MembersRecased [] []
  | member {c c' : UInt8} {t t' : Ptr} (hc : tolower c = tolower c')
    (hr : ∀ e u, t = dash :: e :: u → e = rbracket) (ht : MemberRecased t t') :
    MembersRecased (c :: t) (c' :: t')
  | range {c e : UInt8} {t t' : Ptr} (he : e ≠ rbracket) (ht : MemberRecased t t') :
    MembersRecased (c :: dash :: e :: t) (c :: dash :: e :: t')

/-- The same behind a member. -/
inductive MemberRecased : Ptr → Ptr → Prop where
  | closed {t t' : Ptr} (ht : Recased t t') : MemberRecased (rbracket :: t) (rbracket :: t')
  | more {t t' : Ptr} (hn : t.head? ≠ some rbracket) (ht : MembersRecased t t') :
    MemberRecased t t'

end

/-- Places of two patterns where an atom may start. -/
inductive Starts (fl : Cflags) (p p' : Ptr) : Ptr → Ptr → Prop where
  | here : Starts fl p p' p p'
  | piece {s s' e e' : Ptr} (h : Starts fl p p' s s') (hp : PieceAt fl s e) (hp' : PieceAt fl s' e')
    (hlen : e.length = e'.length) : Starts fl p p' e e'
  | bar {s s' : Ptr} (h : Starts fl p p' (bar :: s) (bar :: s')) : Starts fl p p' s s'
  | group {s s' : Ptr} (h : Starts fl p p' (lparen :: s) (lparen :: s')) : Starts fl p p' s s'

/-- A run of literals that becomes a string has an upper-case letter in both patterns or in none. -/
def SameRuns (fl : Cflags) (p p' : Ptr) : Prop :=
  ∀ s s' c c' t t', Starts fl p p' s s' → LiteralAt s c t → LiteralAt s' c' t' →
    2 < runLength t →
    ((c :: t).take (runLength t)).any isupper = ((c' :: t').take (runLength t')).any isupper

/-! ## Characters -/

variable {s s' t t' : Ptr} {c c' : UInt8}
  {n : Nat}

theorem tolower_toNat (c : UInt8) : (tolower c).toNat =
    if 65 ≤ c.toNat ∧ c.toNat ≤ 90 then c.toNat + 32 else c.toNat := by
  have hiff : (65 ≤ c ∧ c ≤ 90) ↔ 65 ≤ c.toNat ∧ c.toNat ≤ 90 := Iff.rfl
  unfold tolower
  by_cases h : 65 ≤ c.toNat ∧ c.toNat ≤ 90
  · rw [if_pos (hiff.mpr h), if_pos h, UInt8.toNat_add, show (32 : UInt8).toNat = 32 from rfl]
    omega
  · rw [if_neg (hiff.not.mpr h), if_neg h]

theorem tolower_eq_iff : tolower c = tolower c' ↔
    (tolower c).toNat = (tolower c').toNat := UInt8.toNat_inj.symm

/-- A character that is not a letter. -/
def Caseless (c : UInt8) : Prop := ∀ c', tolower c = tolower c' ↔ c' = c

theorem caseless_of (h : c.toNat < 65 ∨ (90 < c.toNat ∧ c.toNat < 97) ∨ 122 < c.toNat) :
    Caseless c := by
  intro c'
  constructor
  · intro heq
    rw [tolower_eq_iff, tolower_toNat, tolower_toNat] at heq
    apply UInt8.toNat_inj.mp
    split at heq <;> split at heq <;> omega
  · rintro rfl
    rfl

theorem eq_of_lower (hc : isupper c = false) (hc' : isupper c' = false)
    (h : tolower c = tolower c') : c = c' := by
  have hle (d : UInt8) (hd : isupper d = false) : (tolower d).toNat = d.toNat := by
    rw [tolower_toNat, if_neg]
    rintro ⟨h1, h2⟩
    have : isupper d = true := by
      simp only [isupper, Bool.and_eq_true, decide_eq_true_eq]
      exact ⟨h1, by rw [UInt8.lt_iff_toNat_lt]; exact Nat.lt_succ_of_le h2⟩
    rw [hd] at this
    cases this
  rw [tolower_eq_iff, hle c hc, hle c' hc'] at h
  exact UInt8.toNat_inj.mp h

theorem isdigit_tolower (h : tolower c = tolower c') : isdigit c = true → c' = c := by
  intro hd
  simp only [isdigit, Bool.and_eq_true, decide_eq_true_eq, UInt8.le_iff_toNat_le,
    UInt8.lt_iff_toNat_lt] at hd
  refine (caseless_of (.inl ?_) c').mp h
  have : (58 : UInt8).toNat = 58 := rfl
  omega

theorem isSpecial_tolower (h : tolower c = tolower c') (hs : isSpecial c = true) : c' = c := by
  simp only [isSpecial, decide_eq_true_eq, List.mem_cons, List.not_mem_nil, or_false] at hs
  refine (caseless_of ?_ c').mp h
  rcases hs with rfl | rfl | rfl | rfl | rfl | rfl | rfl | rfl | rfl | rfl | rfl | rfl <;> decide

/-! ## Pointers -/

mutual

theorem Recased.length_eq : ∀ {s s' : Ptr}, Recased s s' → s.length = s'.length
  | _, _, .nil => rfl
  | _, _, .char _ _ _ ht => congrArg (· + 1) ht.length_eq
  | _, _, .escapeEnd => rfl
  | _, _, .escape _ ht => congrArg (· + 2) ht.length_eq
  | _, _, .bracket _ ht => congrArg (· + 1) ht.length_eq
  | _, _, .negated ht => congrArg (· + 2) ht.length_eq

theorem MembersRecased.length_eq : ∀ {s s' : Ptr}, MembersRecased s s' → s.length = s'.length
  | _, _, .nil => rfl
  | _, _, .member _ _ ht => congrArg (· + 1) ht.length_eq
  | _, _, .range _ ht => congrArg (· + 3) ht.length_eq

theorem MemberRecased.length_eq : ∀ {s s' : Ptr}, MemberRecased s s' → s.length = s'.length
  | _, _, .closed ht => congrArg (· + 1) ht.length_eq
  | _, _, .more _ ht => ht.length_eq

end

theorem Recased.head (h : Recased s s') (hc : Caseless c) :
    s.head? = some c ↔ s'.head? = some c := by
  have hiff {a a' : UInt8} (ha : tolower a = tolower a') : a = c ↔ a' = c := by
    constructor
    · rintro rfl
      exact (hc a').mp ha
    · rintro rfl
      exact (hc a).mp ha.symm
  cases h with
  | nil => exact Iff.rfl
  | char hc' hb hl ht => simpa using hiff hc'
  | escapeEnd | escape hd ht | bracket hn ht | negated ht => simp

theorem Recased.tail (h : Recased s s') (hs : s.head? = some c) (hb : c ≠ backslash)
    (hl : c ≠ lbracket) : Recased s.tail s'.tail := by
  cases h with
  | nil => cases hs
  | char hc hb hl ht => exact ht
  | escapeEnd | escape hd ht => exact absurd (Option.some.inj hs).symm hb
  | bracket hn ht | negated ht => exact absurd (Option.some.inj hs).symm hl

theorem Recased.digits (h : Recased s s') : s.takeWhile isdigit = s'.takeWhile isdigit ∧
    Recased (s.dropWhile isdigit) (s'.dropWhile isdigit) := by
  induction s generalizing s' with
  | nil =>
    cases h
    exact ⟨rfl, .nil⟩
  | cons c t ih =>
    cases h with
    | char hc hb hl ht =>
      next c' t' =>
      by_cases hd : isdigit c = true
      · obtain rfl := isdigit_tolower hc hd
        rw [List.takeWhile_cons_of_pos hd, List.takeWhile_cons_of_pos hd,
          List.dropWhile_cons_of_pos hd, List.dropWhile_cons_of_pos hd]
        exact ⟨congrArg _ (ih ht).1, (ih ht).2⟩
      · have hd' : ¬ isdigit c' = true := fun hd' => hd (isdigit_tolower hc.symm hd' ▸ hd')
        rw [List.takeWhile_cons_of_neg hd, List.takeWhile_cons_of_neg hd',
          List.dropWhile_cons_of_neg hd, List.dropWhile_cons_of_neg hd']
        exact ⟨rfl, .char hc hb hl ht⟩
    | escapeEnd => exact ⟨rfl, .escapeEnd⟩
    | escape hd ht => exact ⟨rfl, .escape hd ht⟩
    | bracket hn ht => exact ⟨rfl, .bracket hn ht⟩
    | negated ht => exact ⟨rfl, .negated ht⟩

theorem Recased.decimal (h : Recased s s') : decimal s = decimal s' := by
  rw [Rx.decimal, Rx.decimal, h.digits.1]

theorem Recased.digit (h : Recased s s') : s.head?.any isdigit = s'.head?.any isdigit := by
  have hiff (s : Ptr) : s.head?.any isdigit = !(s.takeWhile isdigit).isEmpty := by
    cases s with
    | nil => rfl
    | cons c t => by_cases hd : isdigit c = true <;> simp [hd]
  rw [hiff, hiff, h.digits.1]

theorem caseless_rbrace : Caseless rbrace := caseless_of (.inr (.inr (by decide)))

/-- The characters of a repetition have no case. -/
theorem Recased.repeats {c c' : UInt8} {t t' : Ptr} (h : Recased (c :: t) (c' :: t')) :
    (c = star ↔ c' = star) ∧ (c = plus ↔ c' = plus) ∧ (c = quest ↔ c' = quest) ∧
      (c = lbrace ↔ c' = lbrace) := by
  have hiff {d : UInt8} (hd : Caseless d) : c = d ↔ c' = d := by simpa using h.head hd
  exact ⟨hiff (caseless_of (.inl (by decide))), hiff (caseless_of (.inl (by decide))),
    hiff (caseless_of (.inl (by decide))), hiff (caseless_of (.inr (.inr (by decide))))⟩

/-- The repetition behind an atom is the same. -/
theorem Recased.repetition (h : Recased s s') :
    (repetition s = none ∧ repetition s' = none) ∨
      ∃ min max e e', repetition s = some (min, max, e) ∧ repetition s' = some (min, max, e') ∧
        Recased e e' := by
  cases h with
  | nil => exact .inr ⟨1, 1, [], [], rfl, rfl, .nil⟩
  | escapeEnd => exact .inr ⟨1, 1, _, _, rfl, rfl, .escapeEnd⟩
  | escape hd ht => exact .inr ⟨1, 1, _, _, rfl, rfl, .escape hd ht⟩
  | bracket hn ht => exact .inr ⟨1, 1, _, _, rfl, rfl, .bracket hn ht⟩
  | negated ht => exact .inr ⟨1, 1, _, _, rfl, rfl, .negated ht⟩
  | char hc hb hl ht =>
    next c c' t t' =>
    obtain ⟨h1, h2, h3, h4⟩ := (Recased.char hc hb hl ht).repeats
    simp only [Rx.repetition, ← h1, ← h2, ← h3, ← h4]
    by_cases hstar : c = star
    · exact .inr ⟨0, reDupMax, t, t', if_pos hstar, if_pos hstar, ht⟩
    by_cases hplus : c = plus
    · exact .inr ⟨1, reDupMax, t, t', by rw [if_neg hstar, if_pos hplus],
        by rw [if_neg hstar, if_pos hplus], ht⟩
    by_cases hquest : c = quest
    · exact .inr ⟨0, 1, t, t', by rw [if_neg hstar, if_neg hplus, if_pos hquest],
        by rw [if_neg hstar, if_neg hplus, if_pos hquest], ht⟩
    by_cases hbrace : c = lbrace
    · simp only [if_neg hstar, if_neg hplus, if_neg hquest, if_pos hbrace, ← ht.digit, ← ht.decimal]
      obtain ⟨-, hrest⟩ := ht.digits
      have hcomma := hrest.head (c := comma) (caseless_of (.inl (by decide)))
      have hclose := hrest.head caseless_rbrace
      by_cases hdig : t.head?.any isdigit = true
      · simp only [hdig, if_true, ← hcomma, ← hclose]
        by_cases hco : (t.dropWhile isdigit).head? = some comma
        · have hmax := hrest.tail hco (by decide) (by decide)
          obtain ⟨-, hbehind⟩ := hmax.digits
          have hend := hbehind.head caseless_rbrace
          simp only [hco, if_true, ← hmax.digit, ← hmax.decimal, ← hend]
          by_cases he : ((t.dropWhile isdigit).tail.dropWhile isdigit).head? = some rbrace
          · rw [if_pos he, if_pos he]
            exact .inr ⟨_, _, _, _, rfl, rfl, hbehind.tail he (by decide) (by decide)⟩
          · exact .inl ⟨if_neg he, if_neg he⟩
        · simp only [if_neg hco]
          by_cases he : (t.dropWhile isdigit).head? = some rbrace
          · rw [if_pos he, if_pos he]
            exact .inr ⟨_, _, _, _, rfl, rfl, hrest.tail he (by decide) (by decide)⟩
          · exact .inl ⟨if_neg he, if_neg he⟩
      · exact .inr ⟨1, 1, t, t', if_neg hdig, if_neg hdig, ht⟩
    · simp only [if_neg hstar, if_neg hplus, if_neg hquest, if_neg hbrace]
      exact .inr ⟨1, 1, _, _, rfl, rfl, .char hc hb hl ht⟩

/-! ## Runs -/

/-- The characters of a run differ in case, and the patterns go on alike behind it. -/
theorem Recased.run (h : Recased t t') :
    (t.takeWhile fun c => !isSpecial c).length = (t'.takeWhile fun c => !isSpecial c).length ∧
      ∀ n ≤ (t.takeWhile fun c => !isSpecial c).length,
        (t.take n).map tolower = (t'.take n).map tolower ∧ Recased (t.drop n) (t'.drop n) := by
  have hstop {s s' : Ptr} (h : Recased s s') (n : Nat) (hn : n ≤ 0) :
      (s.take n).map tolower = (s'.take n).map tolower ∧ Recased (s.drop n) (s'.drop n) := by
    obtain rfl : n = 0 := by omega
    exact ⟨rfl, h⟩
  induction t generalizing t' with
  | nil =>
    cases h
    exact ⟨rfl, hstop .nil⟩
  | cons c t ih =>
    have hh := h
    cases h with
    | char hc hb hl ht =>
      next c' t' =>
      by_cases hs : isSpecial c = true
      · obtain rfl := isSpecial_tolower hc hs
        simp only [List.takeWhile_cons, hs, Bool.not_true, Bool.false_eq_true, if_false]
        exact ⟨trivial, hstop hh⟩
      · have hs' : ¬ isSpecial c' = true := fun hs' => hs (isSpecial_tolower hc.symm hs' ▸ hs')
        simp only [List.takeWhile_cons, hs, hs', Bool.not_false, if_true, List.length_cons]
        obtain ⟨hlen, hrun⟩ := ih ht
        refine ⟨congrArg (· + 1) hlen, fun n hn => ?_⟩
        rcases n with - | n
        · exact ⟨rfl, hh⟩
        · obtain ⟨hmap, hdrop⟩ := hrun n (by omega)
          exact ⟨by simp only [List.take_succ_cons, List.map_cons, hmap, hc], hdrop⟩
    | escapeEnd | escape hd ht | bracket hn ht | negated ht =>
      exact ⟨rfl, hstop hh⟩

theorem Recased.endsRun (h : Recased s s') : endsRun s = endsRun s' := by
  cases h with
  | nil | escapeEnd | escape hd ht | bracket hn ht | negated ht => rfl
  | char hc hb hl ht =>
    next c c' t t' =>
    obtain ⟨h1, h2, h3, h4⟩ := (Recased.char hc hb hl ht).repeats
    simp only [Rx.endsRun, List.mem_cons, List.not_mem_nil, or_false, h1, h2, h3, h4]

theorem Recased.runLength (h : Recased t t') : runLength t = runLength t' := by
  obtain ⟨hlen, hrun⟩ := h.run
  have hend := (hrun _ le_rfl).2.endsRun
  unfold Rx.runLength
  simp only [← hlen, hend]

theorem runLength_le_run (t : Ptr) :
    runLength t ≤ (t.takeWhile fun c => !isSpecial c).length + 1 := by
  unfold runLength
  simp only
  split <;> omega

/-- Texts that differ in case and have no upper-case letters are the same. -/
theorem eq_of_map_tolower {l l' : List UInt8} (h : l.map tolower = l'.map tolower)
    (hl : l.any isupper = false) (hl' : l'.any isupper = false) : l = l' := by
  induction l generalizing l' with
  | nil => exact (List.map_eq_nil_iff.mp h.symm).symm
  | cons c l ih =>
    rcases l' with - | ⟨c', l'⟩
    · cases h
    · simp only [List.map_cons, List.cons.injEq] at h
      simp only [List.any_cons, Bool.or_eq_false_iff] at hl hl'
      rw [eq_of_lower hl.1 hl'.1 h.1, ih h.2 hl.2 hl'.2]

end Dietlibc.Rx
