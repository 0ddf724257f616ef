import Dietlibc.Rx.Found

/-!
# Whole patterns

What the parser finds is there. `takesWhole_iff`: an accepted extended pattern is in the tree as a whole
exactly if it follows the grammar, and a pattern is rejected if its first piece is malformed. Elsewhere
the rest is dropped. `regcomp_terminates`: the loops of the parser end on every pattern.
-/

namespace Dietlibc.Rx

open Shell (tolower isdigit star dash period quest lbracket backslash rbracket)

variable {fl : Cflags} {slip first : Bool} {a w : Atom} {b : Branch} {r : Regex} {s t e u p : Ptr}
  {c d : UInt8} {n m k min max brackets : Nat} {x y : Cc}
  {rec : Ptr → Nat → Except Stop (Regex × Ptr × Nat)}

/-! ## What is found is there -/

theorem runLength_le (t : Ptr) : runLength t ≤ t.length + 1 := by
  have := (List.takeWhile_sublist (fun c => !isSpecial c) (l := t)).length_le
  unfold runLength
  simp only
  split <;> omega

theorem atomAt_handleChar (h : LiteralAt s c t) (heq : handleChar fl c t = (a, e)) :
    AtomAt fl slip a s e n n := by
  by_cases hrun : runLength t ≤ 2
  · rw [handleChar_char hrun] at heq
    cases heq
    exact ⟨c, h, hrun, rfl, rfl⟩
  · have hrun : 2 < runLength t := by omega
    simp only [handleChar, if_pos hrun] at heq
    cases heq
    refine ⟨c, t, h, hrun, ?_, (List.take_append_drop _ _).symm, rfl⟩
    rw [List.length_take, List.length_cons]
    exact Nat.min_eq_left (runLength_le t)

/-- What the result of `parseatom` says about the pattern. -/
def AtomFound (fl : Cflags) (s : Ptr) (n m : Nat) : Option (Atom × Ptr) → Prop
  | some (a, e) => AtomAt fl true a s e n m ∨ (s = [backslash] ∧ e = [] ∧ m = n)
  | none => Ends s ∨ Malformed fl s

theorem parseGroup_sound (hext : fl.extended = true) {d : Nat} (hrec : Reader fl d rec)
    (hd : t.length < d) {o : Option (Atom × Ptr)} (h : parseGroup rec fl t n = .ok (o, m)) :
    AtomFound fl (lparen :: t) n m o := by
  unfold parseGroup at h
  by_cases hne : t.head? = some rparen
  · simp only [if_pos hne] at h
    cases h
    obtain ⟨e, rfl⟩ := List.head?_eq_some_iff.mp hne
    exact .inl ⟨rfl, rfl, rfl⟩
  · simp only [if_neg hne] at h
    obtain ⟨⟨r, tmp, k⟩, hr, h⟩ := bind_eq_ok.mp h
    obtain ⟨hclosed, hopen⟩ := hrec.sound hd hne hr
    by_cases hclose : closebracket fl tmp = true
    · simp only [if_pos hclose, hext] at h
      have htmp := (closebracket_extended hext tmp).mp hclose
      obtain ⟨e, rfl⟩ := List.head?_eq_some_iff.mp htmp
      cases h
      exact .inl ⟨rfl, t, rfl, hne, hclosed rfl⟩
    · simp only [if_neg hclose, hext] at h
      cases h
      exact .inr (.group hne (hopen fun hs => hclose ((closebracket_extended hext tmp).mpr hs)))

/-- An atom that is found is there. -/
theorem parseatom_sound (hext : fl.extended = true) {d : Nat} (hrec : Reader fl d rec)
    (hd : s.length ≤ d) {o : Option (Atom × Ptr)} (h : parseatom rec fl w s n = .ok (o, m)) :
    AtomFound fl s n m o := by
  have hliteral {c : UInt8} {t : Ptr} (hs : LiteralAt s c t) : AtomFound fl s n m o := by
    rw [parseatom_literal hext hs] at h
    cases h
    exact .inl (atomAt_handleChar hs rfl)
  rcases s with - | ⟨c, t⟩
  · cases h
    exact .inl (.inl rfl)
  by_cases h1 : c = lparen
  · subst h1
    rw [parseatom_group hext] at h
    exact parseGroup_sound hext hrec (by simpa using hd) h
  by_cases h2 : c = rparen
  · subst h2
    rw [parseatom_close hext] at h
    cases h
    exact .inl (.inr (.inr rfl))
  by_cases h3 : c = bar
  · subst h3
    rw [parseatom_bar] at h
    cases h
    exact .inl (.inr (.inl rfl))
  by_cases h4 : c = lbracket
  · subst h4
    rw [parseatom_bracket] at h
    obtain ⟨o', hb, h⟩ := bind_eq_ok.mp h
    cases h
    rcases o' with - | ⟨x, e⟩
    · exact .inr (.bracket hb)
    · exact .inl ⟨hb, rfl⟩
  by_cases h5 : c = period
  · subst h5
    cases h
    exact .inl ⟨rfl, rfl⟩
  by_cases h6 : c = caret
  · subst h6
    cases h
    exact .inl ⟨rfl, rfl⟩
  by_cases h7 : c = dollar
  · subst h7
    cases h
    exact .inl ⟨rfl, rfl⟩
  by_cases h8 : c = backslash
  · subst h8
    rcases t with - | ⟨d, u⟩
    · cases h
      exact .inr ⟨rfl, rfl, rfl⟩
    by_cases hl : d = less
    · subst hl
      cases h
      exact .inl ⟨rfl, rfl⟩
    by_cases hg : d = greater
    · subst hg
      cases h
      exact .inl ⟨rfl, rfl⟩
    exact hliteral (.inr ⟨rfl, hl, hg⟩)
  refine hliteral (.inl ⟨rfl, ?_⟩)
  simp only [IsLiteral, List.mem_cons, List.not_mem_nil, or_false, not_or]
  exact ⟨h1, h2, h3, h4, h5, h6, h7, h8⟩

/-- What the result of `parsepiece` says about the pattern. -/
def PieceFound (fl : Cflags) (s : Ptr) (n m : Nat) : Option ((Atom × Nat × Nat) × Ptr) → Prop
  | some ((a, min, max), e) =>
    ∃ t, (AtomAt fl true a s t n m ∨ (s = [backslash] ∧ t = [] ∧ m = n)) ∧
      RepeatAt true min max t e
  | none => Ends s ∨ Malformed fl s

theorem parsepiece_sound (hext : fl.extended = true) {d : Nat} (hrec : Reader fl d rec)
    (hd : s.length ≤ d) {o : Option ((Atom × Nat × Nat) × Ptr)}
    (h : parsepiece rec fl w s n = .ok (o, m)) : PieceFound fl s n m o := by
  unfold parsepiece at h
  obtain ⟨⟨o', k⟩, hatom, h⟩ := bind_eq_ok.mp h
  have hfound := parseatom_sound hext hrec hd hatom
  rcases o' with - | ⟨a, t⟩
  · cases h
    exact hfound
  rcases hrep : repetition t with - | ⟨min, max, e⟩
  · simp only [Option.bind_eq_bind, Option.bind_some, hrep] at h
    cases h
    rcases hfound with ha | ⟨rfl, rfl, -⟩
    · exact .inr (.bounds ha hrep)
    · cases hrep
  · simp only [Option.bind_eq_bind, Option.bind_some, hrep] at h
    cases h
    exact ⟨t, hfound, hrep, fun h => by cases h⟩

/-- What the result of `parsebranch` says about the pattern: where it stops, the branch ends or there
is a malformed piece. -/
structure BranchFound (fl : Cflags) (first : Bool) (s e : Ptr) (n m : Nat) (b : Branch) : Prop where
  stops : Ends e ∨ Malformed fl e
  pieces : Ends e → BranchAt fl true b first s e n m
  unclosed : Unclosed fl e → Unclosed fl s
  progress : (e = s ∧ (first = true → s.head? ≠ some bar)) ∨ (b ≠ .nil ∧ e.length < s.length)

theorem parsebranch_sound (hext : fl.extended = true) {d fuel : Nat} (hrec : Reader fl d rec)
    (hd : s.length ≤ d) (hb : first = true ∨ s.head? ≠ some bar)
    (h : parsebranch rec fl fuel first w s n = .ok (b, e, m)) :
    BranchFound fl first s e n m b := by
  induction fuel generalizing first s w n m b with
  | zero => cases h
  | succ fuel ih =>
    -- behind a piece
    have hrest {u : Ptr} {a : Atom} {k : Nat} {b : Branch} (hu : u.length < s.length)
        (h : branchRest rec fl fuel a u k = .ok (b, e, m)) :
        BranchFound fl false u e k m b := by
      unfold branchRest at h
      split at h
      · next hbar =>
        cases h
        exact ⟨.inl (.inr (.inl hbar)), fun _ => ⟨rfl, rfl⟩, id, .inl ⟨rfl, fun h => by cases h⟩⟩
      · next hbar => exact ih (by omega) (.inr hbar) h
    by_cases hbar : first = true ∧ s.head? = some bar
    · obtain ⟨rfl, hs⟩ := hbar
      obtain ⟨t, rfl⟩ := List.head?_eq_some_iff.mp hs
      rw [parsebranch_bar] at h
      obtain ⟨⟨b', e', m'⟩, hrun, h⟩ := bind_eq_ok.mp h
      cases h
      have hfound := hrest (by simp) hrun
      refine ⟨hfound.stops, fun he => .inl ⟨rfl, rfl, rfl, rfl, t, rfl, hfound.pieces he⟩,
        fun he => .bar (hfound.unclosed he), .inr ⟨fun h => (by cases h), ?_⟩⟩
      rcases hfound.progress with ⟨rfl, -⟩ | ⟨-, hlt⟩
      · simp
      · simp only [List.length_cons]
        omega
    · have hfirst : first = false ∨ s.head? ≠ some bar := by
        rcases hb with rfl | hs
        · exact .inr fun hs => hbar ⟨rfl, hs⟩
        · exact .inr hs
      rcases hpiece : parsepiece rec fl w s n with f | ⟨o, k⟩
      · rw [parsebranch, if_neg hbar, hpiece] at h
        cases h
      have hfound := parsepiece_sound hext hrec hd hpiece
      rcases o with - | ⟨⟨a, min, max⟩, u⟩
      · rw [parsebranch_none hfirst hpiece] at h
        cases h
        refine ⟨hfound, fun he => ?_, id, .inl ⟨rfl, fun hf => ?_⟩⟩
        swap
        · exact hfirst.resolve_left (by rw [hf]; exact fun h => by cases h)
        rw [parsepiece_ends hext he] at hpiece
        cases hpiece
        exact ⟨rfl, rfl⟩
      · obtain ⟨t, ha, hrep⟩ := hfound
        have hpieceAt : PieceAt fl s u := ⟨a, t, n, k, min, max, ha, hrep⟩
        have hlen := pieceAt_length hpieceAt
        rw [parsebranch_piece hfirst hpiece] at h
        obtain ⟨⟨b', e', m'⟩, hrun, h⟩ := bind_eq_ok.mp h
        cases h
        have hfound := hrest hlen hrun
        refine ⟨hfound.stops, fun he => .inr ⟨t, u, k, ha.imp id fun h => ⟨rfl, h⟩, hrep,
          hfound.pieces he⟩, fun he => .piece hpieceAt (hfound.unclosed he),
          .inr ⟨fun h => (by cases h), ?_⟩⟩
        rcases hfound.progress with ⟨rfl, -⟩ | ⟨-, hlt⟩ <;> omega

theorem regexLoop_stuck (hext : fl.extended = true) {d fuel : Nat} (hrec : Reader fl d rec)
    (hd : t.length ≤ d) (hstuck : t = [] ∨ Malformed fl t) (ht : t.head? ≠ some rparen)
    (h : regexLoop rec fl fuel t k = .ok (r, e, m)) : e = t := by
  cases fuel with
  | zero => cases h
  | succ fuel =>
    obtain ⟨hbar, k', hpiece⟩ : t.head? ≠ some bar ∧
        ∃ k', parsepiece rec fl .unset t k = .ok (none, k') := by
      rcases hstuck with rfl | hstuck
      · exact ⟨fun h => (by cases h), k, parsepiece_ends hext (.inl rfl)⟩
      · exact ⟨malformed_not_bar hstuck, parsepiece_malformed hext hrec hd hstuck k⟩
    rw [regexLoop_stop hext (parsebranch_none (.inr hbar) hpiece) ht] at h
    cases h
    rfl

/-- What the loop returns: at a parenthesis the regex is there, and elsewhere it does not end. -/
theorem regexLoop_sound (hext : fl.extended = true) {d fuel : Nat} (hrec : Reader fl d rec)
    (hd : s.length ≤ d) (h : regexLoop rec fl fuel s n = .ok (r, e, m)) :
    (e.head? = some rparen → RegexAt fl true r s e n m ∧ r ≠ .nil) ∧
      (e.head? ≠ some rparen → Unclosed fl s) := by
  induction fuel generalizing s n r with
  | zero => cases h
  | succ fuel ih =>
    rcases hbranch : parsebranch rec fl (s.length + 1) true .unset s n with f | ⟨b, t, k⟩
    · rw [regexLoop, hbranch] at h
      cases h
    have hfound := parsebranch_sound hext hrec hd (.inl rfl) hbranch
    by_cases hs : s.head? = some rparen
    · -- nothing in front of the parenthesis
      have hnone : parsebranch rec fl (s.length + 1) true .unset s n = .ok (.nil, s, n) :=
        parsebranch_none (.inr (by rw [hs]; decide)) (parsepiece_ends hext (.inr (.inr hs)))
      rw [regexLoop_empty hext hnone hs] at h
      cases h
      refine ⟨fun _ => ⟨.inl ⟨rfl, ⟨rfl, rfl⟩, fun _ hnil => ?_⟩, fun h => by cases h⟩,
        fun hne => absurd hs hne⟩
      rw [hnil] at hs
      cases hs
    rcases hfound.progress with ⟨rfl, hbar⟩ | ⟨hbne, hlt⟩
    · rw [regexLoop_stop hext hbranch hs] at h
      cases h
      refine ⟨fun he => absurd he hs, fun _ => ?_⟩
      rcases hfound.stops with (rfl | hb | hc) | hm
      · exact .done
      · exact absurd hb (hbar rfl)
      · exact absurd hc hs
      · exact .malformed hs hm
    have hts : t ≠ s := fun hts => by
      rw [hts] at hlt
      omega
    by_cases ht : t.head? = some rparen
    · rw [regexLoop_closed hext hbranch hts hs ht] at h
      cases h
      exact ⟨fun _ => ⟨.inl ⟨rfl, hfound.pieces (.inr (.inr ht)), fun hb => absurd hb hbne⟩,
        fun h => by cases h⟩, fun hne => absurd ht hne⟩
    rw [regexLoop_more hext hbranch hts hs ht] at h
    obtain ⟨⟨r', e', m'⟩, hrun, h⟩ := bind_eq_ok.mp h
    cases h
    have hnext := length_next_le t
    obtain ⟨hclosed, hopen⟩ := ih (by omega) hrun
    by_cases hbar : t.head? = some bar
    · obtain ⟨u, rfl⟩ := List.head?_eq_some_iff.mp hbar
      refine ⟨fun he => ?_, fun he => hfound.unclosed (.bar (hopen he))⟩
      obtain ⟨hr, hrne⟩ := hclosed he
      exact ⟨.inr ⟨hrne, hbne, u, k, hfound.pieces (.inr (.inl rfl)), hr⟩, fun h => by cases h⟩
    · -- the branch is stuck, and so is the next one
      rw [if_neg hbar] at hrun hopen
      have hstuck : t = [] ∨ Malformed fl t := by
        rcases hfound.stops with (h | h | h) | h
        · exact .inl h
        · exact absurd h hbar
        · exact absurd h ht
        · exact .inr h
      obtain rfl := regexLoop_stuck hext hrec (by omega) hstuck ht hrun
      exact ⟨fun he => absurd he ht, fun he => hfound.unclosed (hopen he)⟩

/-- The parser of the groups, at any depth. -/
theorem reader (hext : fl.extended = true) (d : Nat) : Reader fl d (parseregex fl d) := by
  induction d with
  | zero =>
    exact ⟨fun h => by omega, fun h => by omega, fun h => by omega⟩
  | succ d ih =>
    have hloop {s : Ptr} {n : Nat} (hne : s ≠ []) (hs : s.head? ≠ some rparen) :
        parseregex fl (d + 1) s n = regexLoop (parseregex fl d) fl (s.length + 1) s n := by
      rw [parseregex, if_neg (by rintro (h | h); exacts [hs h, hne h])]
    have hnil (n : Nat) : parseregex fl (d + 1) [] n = .ok (.nil, [], n) := rfl
    constructor
    · intro slip r s e n m k hlt hs h
      have hne : s ≠ [] := by
        rintro rfl
        have := regexAt_length h
        simp only [List.length_cons, List.length_nil] at this
        omega
      have hr : r ≠ .nil := by
        rintro rfl
        exact hne h.1
      rw [hloop hne hs]
      exact regexLoop_complete hext ih (by omega) (Nat.lt_succ_self _) h hr (.inr rfl) k
    · intro s n hlt h
      by_cases hne : s = []
      · subst hne
        exact ⟨_, _, _, hnil n, fun h => by cases h⟩
      · rw [hloop hne (unclosed_head h)]
        exact regexLoop_unclosed hext ih (by omega) (Nat.lt_succ_self _) h n
    · intro s n r e m hlt hs h
      by_cases hne : s = []
      · subst hne
        rw [hnil] at h
        cases h
        exact ⟨fun h => (by cases h), fun _ => .done⟩
      · rw [hloop hne hs] at h
        obtain ⟨hclosed, hopen⟩ := regexLoop_sound hext ih (by omega) h
        exact ⟨fun he => (hclosed he).1, hopen⟩

/-! ## The claim -/

theorem regexLoop_progress (hext : fl.extended = true) {d fuel : Nat} (hrec : Reader fl d rec)
    (hd : s.length ≤ d) (h : regexLoop rec fl fuel s n = .ok (r, e, m)) :
    (e = s ∧ (s.head? ≠ some rparen → s = [] ∨ Malformed fl s)) ∨ e.length < s.length := by
  induction fuel generalizing s n r with
  | zero => cases h
  | succ fuel ih =>
    rcases hbranch : parsebranch rec fl (s.length + 1) true .unset s n with f | ⟨b, t, k⟩
    · rw [regexLoop, hbranch] at h
      cases h
    have hfound := parsebranch_sound hext hrec hd (.inl rfl) hbranch
    by_cases hs : s.head? = some rparen
    · rw [regexLoop_empty hext hbranch hs] at h
      cases h
      exact .inl ⟨rfl, fun hne => absurd hs hne⟩
    rcases hfound.progress with ⟨rfl, hbar⟩ | ⟨-, hlt⟩
    · rw [regexLoop_stop hext hbranch hs] at h
      cases h
      refine .inl ⟨rfl, fun _ => ?_⟩
      rcases hfound.stops with (h | h | h) | h
      · exact .inl h
      · exact absurd h (hbar rfl)
      · exact absurd h hs
      · exact .inr h
    have hts : t ≠ s := fun hts => by
      rw [hts] at hlt
      omega
    refine .inr ?_
    by_cases ht : t.head? = some rparen
    · rw [regexLoop_closed hext hbranch hts hs ht] at h
      cases h
      exact hlt
    · rw [regexLoop_more hext hbranch hts hs ht] at h
      obtain ⟨⟨r', e', m'⟩, hrun, h⟩ := bind_eq_ok.mp h
      cases h
      have hnext := length_next_le t
      rcases ih (by omega) hrun with ⟨rfl, -⟩ | hlt' <;> omega

theorem parseregex_loop {d : Nat} (hne : s ≠ []) (hs : s.head? ≠ some rparen) :
    parseregex fl (d + 1) s n = regexLoop (parseregex fl d) fl (s.length + 1) s n := by
  rw [parseregex, if_neg (by rintro (h | h); exacts [hs h, hne h])]

theorem regcomp_of_parse (h : parseregex fl (p.length + 1) p 0 = .ok (r, t, n)) :
    regcomp fl p = .ok (if t = p ∧ p ≠ [] then none else some (r, t, n)) := by
  rw [regcomp, h]
  simp only [bind, Except.bind]
  split <;> rfl

/-- A pattern that starts with a malformed piece is rejected. -/
theorem regcomp_malformed (hext : fl.extended = true) (h : Malformed fl p) :
    regcomp fl p = .ok none := by
  have hne := malformed_ne_nil h
  obtain ⟨r, n, hparse⟩ : ∃ r n, parseregex fl (p.length + 1) p 0 = .ok (r, p, n) := by
    by_cases hs : p.head? = some rparen
    · exact ⟨.nil, 0, by rw [parseregex, if_pos (.inl hs)]⟩
    · obtain ⟨k, hpiece⟩ :=
        parsepiece_malformed (w := .unset) hext (reader hext p.length) le_rfl h 0
      rw [parseregex_loop hne hs]
      exact ⟨_, _, regexLoop_stop hext (parsebranch_none (.inr (malformed_not_bar h)) hpiece) hs⟩
  rw [regcomp_of_parse hparse, if_pos ⟨rfl, hne⟩]

/-- Only such a pattern is rejected. -/
theorem malformed_of_regcomp (hext : fl.extended = true) (h : regcomp fl p = .ok none) :
    Malformed fl p := by
  obtain ⟨⟨r, t, n⟩, hparse, -⟩ := bind_eq_ok.mp h
  rw [regcomp_of_parse hparse] at h
  obtain ⟨rfl, hne⟩ : t = p ∧ p ≠ [] := by
    by_contra hcond
    rw [if_neg hcond] at h
    cases h
  by_cases hs : t.head? = some rparen
  · obtain ⟨u, rfl⟩ := List.head?_eq_some_iff.mp hs
    exact .close u
  · rw [parseregex_loop hne hs] at hparse
    rcases regexLoop_progress hext (reader hext _) le_rfl hparse with ⟨-, hm⟩ | hlt
    · exact (hm hs).resolve_left hne
    · omega

/-- A pattern of the grammar is accepted, with its tree. -/
theorem regcomp_complete (hext : fl.extended = true) (h : RegexAt fl false r p [] 0 n) :
    regcomp fl p = .ok (some (r, [], n)) := by
  by_cases hr : r = .nil
  · subst hr
    obtain ⟨rfl, -, rfl⟩ := h
    rfl
  have hstart : p ≠ [] ∧ p.head? ≠ some rparen := by
    cases r with
    | nil => exact absurd rfl hr
    | cons b r =>
      obtain ⟨b', u, k, hb, hbne⟩ : ∃ (b' : Branch) (u : Ptr) (k : Nat),
          BranchAt fl false b' true p u 0 k ∧ b' ≠ .nil := by
        rcases h with ⟨-, hb, hlast⟩ | ⟨-, hbne, u, k, hb, -⟩
        · exact ⟨b, [], n, hb, fun hb => hlast hb rfl⟩
        · exact ⟨b, _, k, hb, hbne⟩
      refine ⟨?_, branchAt_head hb hbne⟩
      rintro rfl
      have := (branchAt_length hb).2 hbne
      simp at this
  obtain ⟨hne, hs⟩ := hstart
  obtain ⟨r', k', hrun, heq⟩ := regexLoop_complete hext (reader hext p.length) le_rfl
    (Nat.lt_succ_self _) h hr (.inl rfl) 0
  obtain ⟨rfl, rfl⟩ := heq rfl rfl
  rw [regcomp_of_parse (t := []) (r := r') (n := k') (by rw [parseregex_loop hne hs, hrun]),
    if_neg (fun h => hne h.1.symm)]

/-! ### Termination -/

theorem setcc_terminates (i : Int) : setcc x i ≠ .error .fuel := by
  unfold setcc
  simp only
  split <;> exact fun h => by cases h

theorem setRange_terminates (i : Int) : setRange fl i n x ≠ .error .fuel := by
  induction n generalizing i x with
  | zero => exact fun h => by cases h
  | succ n ih =>
    intro h
    rcases bind_eq_error h with h | ⟨y, -, h⟩
    · exact setcc_terminates _ h
    · exact ih _ h

theorem bracketLoop_terminates : bracketLoop fl s x ≠ .error .fuel := by
  fun_induction bracketLoop fl s x with
  | case1 => exact fun h => by cases h
  | case2 c t x ih =>
    intro h
    rcases bind_eq_error h with h | ⟨x', -, h⟩
    · exact setcc_terminates _ h
    have ih := ih x'
    rcases t with - | ⟨d, - | ⟨e', u⟩⟩
    · cases h
    · simp only at h ih
      split at h
      · cases h
      split at h
      · cases h
      · exact ih h
    · simp only at h ih
      split at h
      · rcases bind_eq_error h with h | ⟨x'', -, h⟩
        · exact setRange_terminates _ h
        · split at h
          · cases h
          · exact ih.1 x'' h
      · split at h
        · cases h
        · exact ih.2 h

theorem parsebracketed_terminates : parsebracketed fl s ≠ .error .fuel := by
  intro h
  rcases s with - | ⟨c, t⟩
  · cases h
  simp only [parsebracketed] at h
  split at h
  · cases h
  split at h
  · rcases bind_eq_error h with h | ⟨o, -, h⟩
    · exact bracketLoop_terminates h
    · cases h
  · exact bracketLoop_terminates h

theorem parseatom_terminates (hext : fl.extended = true)
    (hrec : ∀ t n, t.length < s.length → rec t n ≠ .error .fuel) :
    parseatom rec fl w s n ≠ .error .fuel := by
  intro h
  rcases s with - | ⟨c, t⟩
  · cases h
  by_cases h1 : c = lparen
  · subst h1
    rw [parseatom_group hext, parseGroup] at h
    simp only at h
    split at h
    · cases h
    · rcases bind_eq_error h with h | ⟨v, -, h⟩
      · exact hrec t (n + 1) (by simp) h
      · split at h <;> cases h
  by_cases h4 : c = lbracket
  · subst h4
    rw [parseatom_bracket] at h
    rcases bind_eq_error h with h | ⟨o, -, h⟩
    · exact parsebracketed_terminates h
    · cases h
  simp only [parseatom, h1, h4, false_and, if_false, hext] at h
  split_ifs at h
  rcases t with - | ⟨d, u⟩
  · cases h
  · simp only at h
    split_ifs at h

theorem parsebranch_terminates (hext : fl.extended = true) {d fuel : Nat} (hrec : Reader fl d rec)
    (hterm : ∀ t n, t.length < d → rec t n ≠ .error .fuel) (hd : s.length ≤ d)
    (hfuel : s.length < fuel) : parsebranch rec fl fuel first w s k ≠ .error .fuel := by
  induction fuel generalizing first w s k with
  | zero => omega
  | succ fuel ih =>
    intro h
    have hrest {a : Atom} {u : Ptr} {k : Nat} (hu : u.length < s.length) :
        branchRest rec fl fuel a u k ≠ .error .fuel := by
      unfold branchRest
      split
      · exact fun h => by cases h
      · exact ih (by omega) (by omega)
    by_cases hbar : first = true ∧ s.head? = some bar
    · obtain ⟨rfl, hs⟩ := hbar
      obtain ⟨t, rfl⟩ := List.head?_eq_some_iff.mp hs
      rw [parsebranch_bar] at h
      rcases bind_eq_error h with h | ⟨v, -, h⟩
      · exact hrest (by simp) h
      · cases h
    have hfirst : first = false ∨ s.head? ≠ some bar := by
      rcases first with - | -
      · exact .inl rfl
      · exact .inr fun hs => hbar ⟨rfl, hs⟩
    rcases hpiece : parsepiece rec fl w s k with f | ⟨o, l⟩
    · rw [parsebranch, if_neg hbar, hpiece] at h
      cases h
      rcases bind_eq_error hpiece with h | ⟨v, -, h⟩
      · exact parseatom_terminates hext (fun t n ht => hterm t n (by omega)) h
      · cases h
    rcases o with - | ⟨⟨a, min, max⟩, u⟩
    · rw [parsebranch_none hfirst hpiece] at h
      cases h
    · obtain ⟨t, ha, hrep⟩ := parsepiece_sound hext hrec hd hpiece
      rw [parsebranch_piece hfirst hpiece] at h
      rcases bind_eq_error h with h | ⟨v, -, h⟩
      · exact hrest (pieceAt_length ⟨a, t, k, l, min, max, ha, hrep⟩) h
      · cases h

theorem regexLoop_terminates (hext : fl.extended = true) {d fuel : Nat} (hrec : Reader fl d rec)
    (hterm : ∀ t n, t.length < d → rec t n ≠ .error .fuel) (hd : s.length ≤ d)
    (hfuel : s.length < fuel) : regexLoop rec fl fuel s k ≠ .error .fuel := by
  induction fuel generalizing s k with
  | zero => omega
  | succ fuel ih =>
    intro h
    rcases hbranch : parsebranch rec fl (s.length + 1) true .unset s k with f | ⟨b, t, l⟩
    · rw [regexLoop, hbranch] at h
      cases h
      exact parsebranch_terminates hext hrec hterm hd (Nat.lt_succ_self _) hbranch
    have hfound := parsebranch_sound hext hrec hd (.inl rfl) hbranch
    by_cases hs : s.head? = some rparen
    · rw [regexLoop_empty hext hbranch hs] at h
      cases h
    rcases hfound.progress with ⟨rfl, -⟩ | ⟨-, hlt⟩
    · rw [regexLoop_stop hext hbranch hs] at h
      cases h
    have hts : t ≠ s := fun hts => by
      rw [hts] at hlt
      omega
    by_cases ht : t.head? = some rparen
    · rw [regexLoop_closed hext hbranch hts hs ht] at h
      cases h
    · rw [regexLoop_more hext hbranch hts hs ht] at h
      have hnext := length_next_le t
      rcases bind_eq_error h with h | ⟨v, -, h⟩
      · exact ih (by omega) (by omega) h
      · cases h

theorem parseregex_terminates (hext : fl.extended = true) (d : Nat) :
    ∀ s n, s.length < d → parseregex fl d s n ≠ .error .fuel := by
  induction d with
  | zero => exact fun s n h => by omega
  | succ d ih =>
    intro s n hlt h
    by_cases hend : s.head? = some rparen ∨ s = []
    · rw [parseregex, if_pos hend] at h
      cases h
    · rw [parseregex, if_neg hend] at h
      exact regexLoop_terminates hext (reader hext d) ih (by omega) (Nat.lt_succ_self _) h

/-- `regcomp` terminates on every pattern. -/
theorem regcomp_terminates (hext : fl.extended = true) (p : Ptr) :
    regcomp fl p ≠ .error .fuel := by
  intro h
  rcases bind_eq_error h with h | ⟨v, -, h⟩
  · exact parseregex_terminates hext _ p 0 (Nat.lt_succ_self _) h
  · simp only at h
    split at h <;> cases h

/-- **Whole patterns**: what `regcomp` accepts is taken as a whole, exactly for the patterns of the
grammar and those whose first piece is malformed. -/
theorem takesWhole_iff (icase nosub newline : Bool) (p : Ptr) :
    TakesWhole ⟨true, icase, nosub, newline⟩ p ↔
      (∃ r n, RegexAt ⟨true, icase, nosub, newline⟩ false r p [] 0 n) ∨
        Malformed ⟨true, icase, nosub, newline⟩ p := by
  constructor
  · rintro ⟨out, h, hall⟩
    rcases out with - | ⟨r, t, n⟩
    · exact .inr (malformed_of_regcomp rfl h)
    · exact .inl ⟨r, n, (hall r t n rfl).2⟩
  · rintro (⟨r, n, h⟩ | h)
    · refine ⟨_, regcomp_complete rfl h, fun r' t n' heq => ?_⟩
      cases heq
      exact ⟨rfl, h⟩
    · exact ⟨none, regcomp_malformed rfl h, fun r t n heq => by cases heq⟩

/-- In `ab(` the parenthesis is dropped. -/
theorem parenthesis_dropped : ¬ TakesWhole ⟨true, false, false, false⟩ [97, 98, lparen] := by
  rintro ⟨out, h, hall⟩
  have hcomp : (regcomp ⟨true, false, false, false⟩ [97, 98, lparen]).toOption.map
      (fun o => o.map fun v => v.2.1) = some (some [lparen]) := by decide
  rw [h] at hcomp
  rcases out with - | ⟨r, t, n⟩
  · exact absurd hcomp (by decide)
  · have ht : t = [lparen] := Option.some.inj (Option.some.inj hcomp)
    rw [(hall r t n rfl).1] at ht
    cases ht

end Dietlibc.Rx
