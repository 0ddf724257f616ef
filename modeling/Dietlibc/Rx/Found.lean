import Dietlibc.Rx.Grammar

/-!
# What the parser finds

The parser finds every piece of the grammar that is there, and nothing at a malformed one. `Reader` is
what is known of the parser of the groups; the lemmas about atoms, pieces, branches and regexes carry
it up one level of parentheses.
-/

namespace Dietlibc.Rx

open Shell (tolower isdigit star dash period quest lbracket backslash rbracket)

variable {fl : Cflags} {slip first : Bool} {a w : Atom} {b : Branch} {r : Regex} {s t e u p : Ptr}
  {c d : UInt8} {n m k min max brackets : Nat} {x y : Cc}
  {rec : Ptr → Nat → Except Stop (Regex × Ptr × Nat)}

/-! ## Lengths -/

theorem length_dropWhile_le (q : UInt8 → Bool) (s : Ptr) : (s.dropWhile q).length ≤ s.length :=
  (List.dropWhile_sublist q).length_le

theorem repetition_length (h : repetition s = some (min, max, e)) : e.length ≤ s.length := by
  rcases s with - | ⟨c, t⟩
  · cases h
    exact le_rfl
  have h1 := length_dropWhile_le isdigit t
  have h2 := length_dropWhile_le isdigit (t.dropWhile isdigit).tail
  simp only [repetition] at h
  simp only [List.length_tail] at h2
  split_ifs at h <;> cases h <;> simp only [List.length_cons, List.length_tail] <;> omega

theorem bracketLoop_length (h : bracketLoop fl s x = .ok (some (y, e))) : e.length < s.length := by
  fun_induction bracketLoop fl s x with
  | case1 => cases h
  | case2 c t x ih =>
    obtain ⟨x', -, h⟩ := bind_eq_ok.mp h
    have ih := ih x'
    match t with
    | [] => cases h
    | [d] =>
      simp only at h ih
      split_ifs at h with hdash hend
      · cases h
        simp
      · have := ih h
        simp only [List.length_cons] at this ⊢
        omega
    | d :: e' :: u =>
      simp only at h ih
      split at h
      · obtain ⟨x'', -, h⟩ := bind_eq_ok.mp h
        split at h
        · cases h
          simp only [List.length_cons, List.length_tail]
          omega
        · have := ih.1 x'' h
          simp only [List.length_cons]
          omega
      · split at h
        · cases h
          simp only [List.length_cons]
          omega
        · have := ih.2 h
          simp only [List.length_cons] at this ⊢
          omega

theorem parsebracketed_length (h : parsebracketed fl s = .ok (some (x, e))) :
    e.length < s.length := by
  rcases s with - | ⟨c, t⟩
  · cases h
  simp only [parsebracketed] at h
  split at h
  · cases h
  split at h
  · obtain ⟨o, ho, h⟩ := bind_eq_ok.mp h
    rcases o with - | ⟨x', e'⟩
    · cases h
    cases h
    have := bracketLoop_length ho
    simp only [List.length_tail, List.length_cons] at this ⊢
    omega
  · have := bracketLoop_length h
    simp only [List.length_cons]
    omega

mutual

theorem atomAt_length {a : Atom} {s e : Ptr} {n m : Nat} (h : AtomAt fl slip a s e n m) :
    e.length < s.length := by
  cases a with
  | unset => exact h.elim
  | bar => exact h.elim
  | backref => exact h.elim
  | empty bnum =>
    obtain ⟨rfl, -⟩ := h
    simp
  | regex bnum r =>
    obtain ⟨-, t, rfl, -, hr⟩ := h
    have := regexAt_length hr
    simp only [List.length_cons] at this ⊢
    omega
  | bracket x => exact parsebracketed_length h.1
  | any => rw [h.1]; simp
  | lineStart => rw [h.1]; simp
  | lineEnd => rw [h.1]; simp
  | wordStart => rw [h.1]; simp
  | wordEnd => rw [h.1]; simp
  | char c =>
    obtain ⟨d, ⟨rfl, -⟩ | ⟨rfl, -⟩, -⟩ := h <;> simp
  | string l =>
    obtain ⟨d, t, hd, hrun, hl, heq, -⟩ := h
    have := congrArg List.length heq
    simp only [List.length_cons, List.length_append] at this
    obtain ⟨rfl, -⟩ | ⟨rfl, -⟩ := hd <;> simp only [List.length_cons] <;> omega

theorem branchAt_length {b : Branch} {first : Bool} {s e : Ptr} {n m : Nat}
    (h : BranchAt fl slip b first s e n m) :
    e.length ≤ s.length ∧ (b ≠ .nil → e.length < s.length) := by
  cases b with
  | nil =>
    obtain ⟨rfl, -⟩ := h
    exact ⟨le_rfl, fun hne => absurd rfl hne⟩
  | cons a min max b =>
    have hlt : e.length < s.length := by
      rcases h with ⟨-, -, -, -, t, rfl, hb⟩ | ⟨t, u, k, hatom, hrep, hb⟩
      · have := (branchAt_length hb).1
        simp only [List.length_cons]
        omega
      · have := (branchAt_length hb).1
        have := repetition_length hrep.1
        rcases hatom with hatom | ⟨-, rfl, rfl, -⟩
        · have := atomAt_length hatom
          omega
        · simp only [List.length_cons, List.length_nil] at *
          omega
    exact ⟨hlt.le, fun _ => hlt⟩

theorem regexAt_length {r : Regex} {s e : Ptr} {n m : Nat} (h : RegexAt fl slip r s e n m) :
    e.length ≤ s.length := by
  cases r with
  | nil =>
    obtain ⟨rfl, rfl, -⟩ := h
    exact le_rfl
  | cons b r =>
    rcases h with ⟨-, hb, -⟩ | ⟨-, -, u, k, hb, hr⟩
    · exact (branchAt_length hb).1
    · have := (branchAt_length hb).1
      have := regexAt_length hr
      simp only [List.length_cons] at *
      omega

end

/-! ## What is there is found -/

theorem head?_ne (h : c ≠ d) : (c :: t).head? ≠ some d := fun he => h (Option.some.inj he)

/-- What the parser of the groups does on patterns shorter than `d`. -/
structure Reader (fl : Cflags) (d : Nat) (rec : Ptr → Nat → Except Stop (Regex × Ptr × Nat)) :
    Prop where
  complete : ∀ {slip r s e n m k}, s.length < d → s.head? ≠ some rparen →
    RegexAt fl slip r s (rparen :: e) n m →
    ∃ r' k', rec s k = .ok (r', rparen :: e, k') ∧ (slip = false → k = n → r' = r ∧ k' = m)
  unclosed : ∀ {s n}, s.length < d → Unclosed fl s →
    ∃ r e m, rec s n = .ok (r, e, m) ∧ e.head? ≠ some rparen
  sound : ∀ {s n r e m}, s.length < d → s.head? ≠ some rparen → rec s n = .ok (r, e, m) →
    (e.head? = some rparen → RegexAt fl true r s e n m) ∧
      (e.head? ≠ some rparen → Unclosed fl s)

theorem closebracket_extended (hext : fl.extended = true) (s : Ptr) :
    closebracket fl s = true ↔ s.head? = some rparen := by
  simp [closebracket, hext]

theorem parseatom_literal (hext : fl.extended = true) (h : LiteralAt s c t) :
    parseatom rec fl w s n = .ok (some (handleChar fl c t), n) := by
  rcases h with ⟨rfl, hc⟩ | ⟨rfl, hl, hg⟩
  · simp only [IsLiteral, List.mem_cons, List.not_mem_nil, or_false, not_or] at hc
    obtain ⟨h1, h2, h3, h4, h5, h6, h7, h8⟩ := hc
    simp only [parseatom, h1, h2, h3, h4, h5, h6, h7, h8, false_and, false_or, if_false]
  · simp only [parseatom, hext, hl, hg, if_false, if_true]
    rfl

theorem handleChar_char (h : runLength t ≤ 2) :
    handleChar fl c t = (.char (if fl.icase then tolower c else c), t) := by
  rw [handleChar]
  exact if_neg (by omega)

theorem handleChar_string {l : List UInt8} (h : 2 < runLength t) (hl : l.length = runLength t)
    (heq : c :: t = l ++ e) : handleChar fl c t = (.string l, e) := by
  rw [handleChar]
  simp only [if_pos h]
  rw [heq, ← hl, List.take_left, List.drop_left]

theorem parseatom_group (hext : fl.extended = true) :
    parseatom rec fl w (lparen :: t) n = parseGroup rec fl t n := by
  simp [parseatom, hext]

theorem parseGroup_closed (hext : fl.extended = true) (hne : t.head? ≠ some rparen)
    (h : rec t (n + 1) = .ok (r, rparen :: e, m)) :
    parseGroup rec fl t n = .ok (some (.regex (some (n + 1)) r, e), m) := by
  have hclose : closebracket fl (rparen :: e) = true := (closebracket_extended hext _).mpr rfl
  rw [parseGroup]
  simp only [if_neg hne, h]
  rw [bind_eq_ok]
  exact ⟨_, rfl, by simp only [hclose, if_true, hext]; rfl⟩

theorem parseGroup_open (hext : fl.extended = true) (hne : t.head? ≠ some rparen)
    (h : rec t (n + 1) = .ok (r, e, m)) (he : e.head? ≠ some rparen) :
    parseGroup rec fl t n = .ok (none, m) := by
  have hclose : ¬ closebracket fl e = true := fun hc => he ((closebracket_extended hext _).mp hc)
  rw [parseGroup]
  simp only [if_neg hne, h]
  rw [bind_eq_ok]
  exact ⟨_, rfl, by simp only [if_neg hclose, hext]; rfl⟩

theorem parsebracketed_head {o : Cc × Ptr} (h : parsebracketed fl s = .ok (some o)) :
    ∃ t, s = lbracket :: t := by
  rcases s with - | ⟨c, t⟩
  · cases h
  simp only [parsebracketed] at h
  split at h
  · cases h
  · next hc =>
    rw [not_not.mp hc]
    exact ⟨t, rfl⟩

theorem parseatom_bracket : parseatom rec fl w (lbracket :: t) n =
    parsebracketed fl (lbracket :: t) >>=
      fun o => .ok (o.map fun (x, t) => (.bracket x, t), n) := by
  simp only [parseatom, show ¬ (lbracket = lparen ∧ fl.extended = true) from fun h => absurd h.1 (by decide),
    show ¬ ((lbracket = rparen ∧ fl.extended = true) ∨ lbracket = bar) by
      rintro (⟨h, -⟩ | h) <;> exact absurd h (by decide), if_false, if_true]

/-- An atom is found, whatever groups were counted before. -/
theorem parseatom_complete (hext : fl.extended = true) {d : Nat} (hrec : Reader fl d rec)
    (hd : s.length ≤ d) (h : AtomAt fl slip a s e n m) (k : Nat) :
    ∃ a' k', parseatom rec fl w s k = .ok (some (a', e), k') ∧
      (slip = false → k = n → a' = a ∧ k' = m) := by
  cases a with
  | unset => exact h.elim
  | bar => exact h.elim
  | backref => exact h.elim
  | empty bnum =>
    obtain ⟨rfl, rfl, rfl⟩ := h
    refine ⟨.empty (some (k + 1)), k + 1, ?_, fun _ hk => by rw [hk]; exact ⟨rfl, rfl⟩⟩
    rw [parseatom_group hext]
    rfl
  | regex bnum r =>
    obtain ⟨rfl, t, rfl, hne, hr⟩ := h
    obtain ⟨r', k', hrec, hr'⟩ :=
      hrec.complete (k := k + 1) (by simp only [List.length_cons] at hd; omega) hne hr
    refine ⟨.regex (some (k + 1)) r', k', ?_, fun hs hk => ?_⟩
    · rw [parseatom_group hext, parseGroup_closed hext hne hrec]
    · obtain ⟨rfl, rfl⟩ := hr' hs (by rw [hk])
      rw [hk]
      exact ⟨rfl, rfl⟩
  | bracket x =>
    obtain ⟨hx, rfl⟩ := h
    obtain ⟨t, rfl⟩ := parsebracketed_head hx
    rw [parseatom_bracket, hx]
    exact ⟨_, _, rfl, fun _ hk => ⟨rfl, hk⟩⟩
  | any =>
    obtain ⟨rfl, rfl⟩ := h
    exact ⟨_, _, rfl, fun _ hk => ⟨rfl, hk⟩⟩
  | lineStart =>
    obtain ⟨rfl, rfl⟩ := h
    exact ⟨_, _, rfl, fun _ hk => ⟨rfl, hk⟩⟩
  | lineEnd =>
    obtain ⟨rfl, rfl⟩ := h
    exact ⟨_, _, rfl, fun _ hk => ⟨rfl, hk⟩⟩
  | wordStart =>
    obtain ⟨rfl, rfl⟩ := h
    exact ⟨_, _, rfl, fun _ hk => ⟨rfl, hk⟩⟩
  | wordEnd =>
    obtain ⟨rfl, rfl⟩ := h
    exact ⟨_, _, rfl, fun _ hk => ⟨rfl, hk⟩⟩
  | char c =>
    obtain ⟨d, hd, hrun, rfl, rfl⟩ := h
    rw [parseatom_literal hext hd, handleChar_char hrun]
    exact ⟨_, _, rfl, fun _ hk => ⟨rfl, hk⟩⟩
  | string l =>
    obtain ⟨d, t, hd, hrun, hl, heq, rfl⟩ := h
    rw [parseatom_literal hext hd, handleChar_string hrun hl heq]
    exact ⟨_, _, rfl, fun _ hk => ⟨rfl, hk⟩⟩

theorem parsepiece_some (h : parseatom rec fl w s n = .ok (some (a, t), m))
    (hrep : repetition t = some (min, max, e)) :
    parsepiece rec fl w s n = .ok (some ((a, min, max), e), m) := by
  rw [parsepiece, bind_eq_ok]
  exact ⟨_, h, by simp only [Option.bind_eq_bind, Option.bind_some, hrep]; rfl⟩

theorem parsepiece_none (h : parseatom rec fl w s n = .ok (none, m)) :
    parsepiece rec fl w s n = .ok (none, m) := by
  rw [parsepiece, bind_eq_ok]
  exact ⟨_, h, rfl⟩

theorem parsepiece_bounds (h : parseatom rec fl w s n = .ok (some (a, t), m))
    (hrep : repetition t = none) : parsepiece rec fl w s n = .ok (none, m) := by
  rw [parsepiece, bind_eq_ok]
  exact ⟨_, h, by simp only [Option.bind_eq_bind, Option.bind_some, hrep]; rfl⟩

theorem parseatom_bar : parseatom rec fl w (bar :: t) n = .ok (none, n) := by
  simp only [parseatom, show ¬ (bar = lparen ∧ fl.extended = true) from
    fun h => absurd h.1 (by decide), if_false, or_true, if_true]

theorem parseatom_close (hext : fl.extended = true) :
    parseatom rec fl w (rparen :: t) n = .ok (none, n) := by
  simp only [parseatom, show ¬ rparen = lparen by decide, hext, if_false, and_true, true_or,
    if_true]

/-- A piece is found. -/
theorem parsepiece_complete (hext : fl.extended = true) {d : Nat} (hrec : Reader fl d rec)
    (hd : s.length ≤ d)
    (ha : AtomAt fl slip a s t n m ∨ (slip = true ∧ s = [backslash] ∧ t = [] ∧ m = n))
    (hrep : RepeatAt slip min max t e) (k : Nat) :
    ∃ a' k', parsepiece rec fl w s k = .ok (some ((a', min, max), e), k') ∧
      (slip = false → k = n → a' = a ∧ k' = m) := by
  rcases ha with ha | ⟨rfl, rfl, rfl, rfl⟩
  · obtain ⟨a', k', h, ha'⟩ := parseatom_complete (w := w) hext hrec hd ha k
    exact ⟨a', k', parsepiece_some h hrep.1, ha'⟩
  · exact ⟨w.stale, k, parsepiece_some rfl hrep.1, fun h => by cases h⟩

/-- Nothing is found at a malformed piece. -/
theorem parsepiece_malformed (hext : fl.extended = true) {d : Nat} (hrec : Reader fl d rec)
    (hd : s.length ≤ d) (h : Malformed fl s) (k : Nat) :
    ∃ k', parsepiece rec fl w s k = .ok (none, k') := by
  cases h with
  | close t => exact ⟨k, parsepiece_none (parseatom_close hext)⟩
  | group hne h =>
    obtain ⟨r, e, m, hr, he⟩ := hrec.unclosed (n := k + 1) (by
      simp only [List.length_cons] at hd
      omega) h
    refine ⟨m, parsepiece_none ?_⟩
    rw [parseatom_group hext, parseGroup_open hext hne hr he]
  | bracket h => exact ⟨k, parsepiece_none (by rw [parseatom_bracket, h]; rfl)⟩
  | bounds ha h =>
    obtain ⟨a', k', hatom, -⟩ := parseatom_complete (w := w) hext hrec hd ha k
    exact ⟨k', parsepiece_bounds hatom h⟩

/-! ### Branches -/

/-- Where a branch ends. -/
def Ends (e : Ptr) : Prop := e = [] ∨ e.head? = some bar ∨ e.head? = some rparen

theorem parsepiece_ends (hext : fl.extended = true) (h : Ends e) :
    parsepiece rec fl w e n = .ok (none, n) := by
  refine parsepiece_none ?_
  rcases h with rfl | h | h
  · rfl
  · obtain ⟨t, rfl⟩ := List.head?_eq_some_iff.mp h
    exact parseatom_bar
  · obtain ⟨t, rfl⟩ := List.head?_eq_some_iff.mp h
    exact parseatom_close hext

theorem not_ends (hbar : c ≠ bar) (hclose : c ≠ rparen) : ¬ Ends (c :: t) := by
  rintro (h | h | h)
  · cases h
  · exact hbar (Option.some.inj h)
  · exact hclose (Option.some.inj h)

/-- No atom starts where a branch ends. -/
theorem atomAt_not_ends (h : AtomAt fl slip a s e n m) : ¬ Ends s := by
  have hliteral {c : UInt8} {t : Ptr} (hd : LiteralAt s c t) : ¬ Ends s := by
    rcases hd with ⟨rfl, hc⟩ | ⟨rfl, -⟩
    · simp only [IsLiteral, List.mem_cons, List.not_mem_nil, or_false, not_or] at hc
      exact not_ends hc.2.2.1 hc.2.1
    · exact not_ends (by decide) (by decide)
  cases a with
  | unset => exact h.elim
  | bar => exact h.elim
  | backref => exact h.elim
  | empty bnum =>
    obtain ⟨rfl, -⟩ := h
    exact not_ends (by decide) (by decide)
  | regex bnum r =>
    obtain ⟨-, t, rfl, -⟩ := h
    exact not_ends (by decide) (by decide)
  | bracket x =>
    obtain ⟨t, rfl⟩ := parsebracketed_head h.1
    exact not_ends (by decide) (by decide)
  | any =>
    obtain ⟨rfl, -⟩ := h
    exact not_ends (by decide) (by decide)
  | lineStart =>
    obtain ⟨rfl, -⟩ := h
    exact not_ends (by decide) (by decide)
  | lineEnd =>
    obtain ⟨rfl, -⟩ := h
    exact not_ends (by decide) (by decide)
  | wordStart =>
    obtain ⟨rfl, -⟩ := h
    exact not_ends (by decide) (by decide)
  | wordEnd =>
    obtain ⟨rfl, -⟩ := h
    exact not_ends (by decide) (by decide)
  | char c =>
    obtain ⟨d, hd, -⟩ := h
    exact hliteral hd
  | string l =>
    obtain ⟨d, t, hd, -⟩ := h
    exact hliteral hd

/-- A branch that goes on has no piece where it would end. -/
theorem branchAt_ends (h : BranchAt fl slip b false s e n m) (hs : Ends s) :
    b = .nil ∧ s = e ∧ m = n := by
  cases b with
  | nil => exact ⟨rfl, h⟩
  | cons a min max b =>
    rcases h with ⟨hf, -⟩ | ⟨t, u, k, ha | ⟨-, rfl, -⟩, -⟩
    · cases hf
    · exact absurd hs (atomAt_not_ends ha)
    · exact absurd hs (not_ends (by decide) (by decide))

/-- What follows a piece of a branch. -/
def branchRest (rec : Ptr → Nat → Except Stop (Regex × Ptr × Nat)) (fl : Cflags) (fuel : Nat)
    (a : Atom) (u : Ptr) (k : Nat) : Except Stop (Branch × Ptr × Nat) :=
  if u.head? = some bar then .ok (.nil, u, k) else parsebranch rec fl fuel false a u k

theorem parsebranch_bar (fuel k : Nat) : parsebranch rec fl (fuel + 1) true w (bar :: t) k =
    branchRest rec fl fuel .bar t k >>= fun v => .ok (.cons .bar 1 1 v.1, v.2) := by
  rw [parsebranch, branchRest, if_pos ⟨rfl, rfl⟩]
  change (if t.head? = some bar then _ else _) = _
  by_cases ht : t.head? = some bar
  · rw [if_pos ht, if_pos ht]
    rfl
  · rw [if_neg ht, if_neg ht]
    rfl

theorem parsebranch_piece {fuel : Nat} (hb : first = false ∨ s.head? ≠ some bar)
    (h : parsepiece rec fl w s k = .ok (some ((a, min, max), u), n)) :
    parsebranch rec fl (fuel + 1) first w s k =
      branchRest rec fl fuel a u n >>= fun v => .ok (.cons a min max v.1, v.2) := by
  have hcond : ¬ (first = true ∧ s.head? = some bar) := by
    rintro ⟨rfl, hs⟩
    exact hb.elim (fun h => by cases h) (· hs)
  rw [parsebranch, branchRest, if_neg hcond, h]
  by_cases hu : u.head? = some bar
  · simp only [bind, Except.bind, if_pos hu]
    rfl
  · simp only [bind, Except.bind, if_neg hu]
    rfl

theorem parsebranch_none {fuel : Nat} (hb : first = false ∨ s.head? ≠ some bar)
    (h : parsepiece rec fl w s k = .ok (none, n)) :
    parsebranch rec fl (fuel + 1) first w s k = .ok (.nil, s, n) := by
  have hcond : ¬ (first = true ∧ s.head? = some bar) := by
    rintro ⟨rfl, hs⟩
    exact hb.elim (fun h => by cases h) (· hs)
  rw [parsebranch, if_neg hcond, h]
  rfl

/-- The pieces of a branch are found. -/
theorem parsebranch_complete (hext : fl.extended = true) {d fuel : Nat} (hrec : Reader fl d rec)
    (hd : s.length ≤ d) (hfuel : s.length < fuel) (h : BranchAt fl slip b first s e n m)
    (he : Ends e) (hb : b ≠ .nil ∨ first = false ∨ s.head? ≠ some bar) (k : Nat) :
    ∃ b' k', parsebranch rec fl fuel first w s k = .ok (b', e, k') ∧ (b' = .nil ↔ b = .nil) ∧
      (slip = false → k = n → b' = b ∧ k' = m) := by
  induction fuel generalizing b first s n m w k with
  | zero => omega
  | succ fuel ih =>
    -- the pieces behind the first one
    have hrest {b : Branch} {u : Ptr} {n : Nat} (a : Atom) (k : Nat) (hu : u.length < s.length)
        (hb : BranchAt fl slip b false u e n m) :
        ∃ b' k', branchRest rec fl fuel a u k = .ok (b', e, k') ∧
          (slip = false → k = n → b' = b ∧ k' = m) := by
      unfold branchRest
      split
      · next hbar =>
        obtain ⟨rfl, rfl, rfl⟩ := branchAt_ends hb (.inr (.inl hbar))
        exact ⟨_, _, rfl, fun _ hk => ⟨rfl, hk⟩⟩
      · obtain ⟨b', k', h, -, h'⟩ := ih (w := a) (by omega) (by omega) hb (.inr (.inl rfl)) k
        exact ⟨b', k', h, h'⟩
    cases b with
    | nil =>
      obtain ⟨rfl, rfl⟩ := h
      have hb := hb.resolve_left (fun h => h rfl)
      exact ⟨_, _, parsebranch_none hb (parsepiece_ends hext he), Iff.rfl, fun _ hk => ⟨rfl, hk⟩⟩
    | cons a min max b =>
      rcases h with ⟨rfl, rfl, rfl, rfl, t, rfl, h⟩ | ⟨t, u, l, ha, hrep, h⟩
      · obtain ⟨b', k', hrun, hb'⟩ := hrest .bar k (by simp) h
        refine ⟨.cons .bar 1 1 b', k', ?_, by simp, fun hs hk => ?_⟩
        · rw [parsebranch_bar, hrun]
          rfl
        · obtain ⟨rfl, rfl⟩ := hb' hs hk
          exact ⟨rfl, rfl⟩
      · obtain ⟨a', l', hpiece, ha'⟩ := parsepiece_complete (w := w) hext hrec hd ha hrep k
        have hu : u.length < s.length := by
          have := repetition_length hrep.1
          rcases ha with ha | ⟨-, rfl, rfl, -⟩
          · have := atomAt_length ha
            omega
          · simp only [List.length_nil, List.length_cons] at *
            omega
        have hfirst : first = false ∨ s.head? ≠ some bar := by
          refine .inr fun hs => ?_
          rcases ha with ha | ⟨-, rfl, -⟩
          · exact atomAt_not_ends ha (.inr (.inl hs))
          · exact absurd hs (by decide)
        obtain ⟨b', k', hrun, hb'⟩ := hrest a' l' hu h
        refine ⟨.cons a' min max b', k', ?_, by simp, fun hs hk => ?_⟩
        · rw [parsebranch_piece hfirst hpiece, hrun]
          rfl
        · obtain ⟨rfl, rfl⟩ := ha' hs hk
          obtain ⟨rfl, rfl⟩ := hb' hs rfl
          exact ⟨rfl, rfl⟩

/-! ### The whole regex -/

theorem regexLoop_stop {fuel : Nat} (hext : fl.extended = true)
    (h : parsebranch rec fl (s.length + 1) true .unset s k = .ok (b, s, n))
    (hs : s.head? ≠ some rparen) : regexLoop rec fl (fuel + 1) s k = .ok (.nil, s, n) := by
  have hclose : closebracket fl s = false := by
    simpa using (closebracket_extended hext s).not.mpr hs
  rw [regexLoop, h]
  simp only [bind, Except.bind, hclose, Bool.not_false, and_self, if_true]
  rfl

theorem regexLoop_empty {fuel : Nat} (hext : fl.extended = true)
    (h : parsebranch rec fl (s.length + 1) true .unset s k = .ok (b, t, n))
    (hs : s.head? = some rparen) : regexLoop rec fl (fuel + 1) s k = .ok (.cons .nil .nil, s, n) := by
  have hclose : closebracket fl s = true := (closebracket_extended hext s).mpr hs
  rw [regexLoop, h]
  simp only [bind, Except.bind, hclose, Bool.not_true, Bool.false_eq_true, and_false, if_false,
    if_true]
  rfl

theorem regexLoop_closed {fuel : Nat} (hext : fl.extended = true)
    (h : parsebranch rec fl (s.length + 1) true .unset s k = .ok (b, t, n)) (hne : t ≠ s)
    (hs : s.head? ≠ some rparen) (ht : t.head? = some rparen) :
    regexLoop rec fl (fuel + 1) s k = .ok (.cons b .nil, t, n) := by
  have hclose : closebracket fl s = false := by
    simpa using (closebracket_extended hext s).not.mpr hs
  have hclose' : closebracket fl t = true := (closebracket_extended hext t).mpr ht
  rw [regexLoop, h]
  simp only [bind, Except.bind, hclose, hclose', hne, false_and, if_false, Bool.false_eq_true,
    if_true]
  rfl

theorem regexLoop_more {fuel : Nat} (hext : fl.extended = true)
    (h : parsebranch rec fl (s.length + 1) true .unset s k = .ok (b, t, n)) (hne : t ≠ s)
    (hs : s.head? ≠ some rparen) (ht : t.head? ≠ some rparen) :
    regexLoop rec fl (fuel + 1) s k =
      regexLoop rec fl fuel (if t.head? = some bar then t.tail else t) n >>=
        fun v => .ok (.cons b v.1, v.2) := by
  have hclose : closebracket fl s = false := by
    simpa using (closebracket_extended hext s).not.mpr hs
  have hclose' : closebracket fl t = false := by
    simpa using (closebracket_extended hext t).not.mpr ht
  rw [regexLoop, h]
  simp only [bind, Except.bind, hclose, hclose', hne, false_and, if_false, Bool.false_eq_true]
  rfl

/-- At the end of the pattern the loop stops. -/
theorem regexLoop_nil {fuel : Nat} (hext : fl.extended = true) :
    regexLoop rec fl (fuel + 1) [] k = .ok (.nil, [], k) := by
  refine regexLoop_stop (b := .nil) hext ?_ (by decide)
  exact parsebranch_none (.inr (by decide)) (parsepiece_ends hext (.inl rfl))

theorem branchAt_head (h : BranchAt fl slip b first s e n m) (hb : b ≠ .nil) :
    s.head? ≠ some rparen := by
  cases b with
  | nil => exact absurd rfl hb
  | cons a min max b =>
    rcases h with ⟨-, -, -, -, t, rfl, -⟩ | ⟨t, u, k, ha | ⟨-, rfl, -⟩, -⟩
    · exact head?_ne (by decide)
    · exact fun h => atomAt_not_ends ha (.inr (.inr h))
    · exact fun h => absurd h (by decide)

/-- The branches are found. -/
theorem regexLoop_complete (hext : fl.extended = true) {d fuel : Nat} (hrec : Reader fl d rec)
    (hd : s.length ≤ d) (hfuel : s.length < fuel) (h : RegexAt fl slip r s e n m)
    (hr : r ≠ .nil) (he : e = [] ∨ e.head? = some rparen) (k : Nat) :
    ∃ r' k', regexLoop rec fl fuel s k = .ok (r', e, k') ∧
      (slip = false → k = n → r' = r ∧ k' = m) := by
  induction fuel generalizing r s n m k with
  | zero => omega
  | succ fuel ih =>
    cases r with
    | nil => exact absurd rfl hr
    | cons b r =>
      rcases h with ⟨rfl, hb, hlast⟩ | ⟨hr', hbne, u, l, hb, h⟩
      · have hends : Ends e := he.imp id .inr
        by_cases hbne : b = .nil
        · -- nothing between a bar and the parenthesis
          subst hbne
          obtain ⟨rfl, rfl⟩ := hb
          have hclose : s.head? = some rparen := he.resolve_left (hlast rfl)
          refine ⟨_, _, regexLoop_empty hext (parsebranch_none (.inr ?_)
            (parsepiece_ends hext hends)) hclose, fun _ hk => ⟨rfl, hk⟩⟩
          rw [hclose]
          decide
        · obtain ⟨b', k', hrun, hb', heq⟩ :=
            parsebranch_complete (w := .unset) hext hrec hd (Nat.lt_succ_self _) hb hends
              (.inl hbne) k
          have hlt := (branchAt_length hb).2 hbne
          have hne : e ≠ s := fun h => by
            rw [h] at hlt
            omega
          have hhead := branchAt_head hb hbne
          refine ⟨.cons b' .nil, k', ?_, fun hs hk => ?_⟩
          · rcases he with rfl | he
            · obtain ⟨fuel, rfl⟩ : ∃ f, fuel = f + 1 := ⟨fuel - 1, by omega⟩
              rw [regexLoop_more hext hrun hne hhead (by decide)]
              change regexLoop rec fl (fuel + 1) [] k' >>= _ = _
              rw [regexLoop_nil hext]
              rfl
            · exact regexLoop_closed hext hrun hne hhead he
          · obtain ⟨rfl, rfl⟩ := heq hs hk
            exact ⟨rfl, rfl⟩
      · obtain ⟨b', k', hrun, hb', heq⟩ :=
          parsebranch_complete (w := .unset) hext hrec hd (Nat.lt_succ_self _) hb
            (.inr (.inl rfl)) (.inl hbne) k
        have hlt := (branchAt_length hb).2 hbne
        have hne : bar :: u ≠ s := fun h => by
          rw [h] at hlt
          omega
        have hhead := branchAt_head hb hbne
        simp only [List.length_cons] at hlt
        obtain ⟨r', k'', hrun', heq'⟩ := ih (by omega) (by omega) h hr' k'
        refine ⟨.cons b' r', k'', ?_, fun hs hk => ?_⟩
        · rw [regexLoop_more hext hrun hne hhead (head?_ne (by decide))]
          change regexLoop rec fl fuel u k' >>= _ = _
          rw [hrun']
          rfl
        · obtain ⟨rfl, rfl⟩ := heq hs hk
          obtain ⟨rfl, rfl⟩ := heq' hs rfl
          exact ⟨rfl, rfl⟩

/-! ## Patterns that do not end a group -/

theorem pieceAt_length (h : PieceAt fl s e) : e.length < s.length := by
  obtain ⟨a, t, n, m, min, max, ha, hrep⟩ := h
  have := repetition_length hrep.1
  rcases ha with ha | ⟨rfl, rfl, -⟩
  · have := atomAt_length ha
    omega
  · simp only [List.length_nil, List.length_cons] at *
    omega

theorem pieceAt_not_ends (h : PieceAt fl s e) : ¬ Ends s := by
  obtain ⟨a, t, n, m, min, max, ha | ⟨rfl, -⟩, -⟩ := h
  · exact atomAt_not_ends ha
  · exact not_ends (by decide) (by decide)

theorem malformed_ne_nil (h : Malformed fl s) : s ≠ [] := by
  cases h with
  | close => exact List.cons_ne_nil _ _
  | group => exact List.cons_ne_nil _ _
  | bracket => exact List.cons_ne_nil _ _
  | bounds ha => exact fun hs => atomAt_not_ends ha (.inl hs)

theorem malformed_not_bar (h : Malformed fl s) : s.head? ≠ some bar := by
  cases h with
  | close => exact head?_ne (by decide)
  | group => exact head?_ne (by decide)
  | bracket => exact head?_ne (by decide)
  | bounds ha => exact fun hs => atomAt_not_ends ha (.inr (.inl hs))

theorem unclosed_bar (h : Unclosed fl (bar :: u)) : Unclosed fl u := by
  cases h with
  | malformed _ h => exact absurd rfl (malformed_not_bar h)
  | bar h => exact h
  | piece hp => exact absurd (.inr (.inl rfl)) (pieceAt_not_ends hp)

theorem unclosed_head (h : Unclosed fl s) : s.head? ≠ some rparen := by
  cases h with
  | done => exact fun h => by cases h
  | malformed hne => exact hne
  | bar => exact head?_ne (by decide)
  | piece hp => exact fun hs => pieceAt_not_ends hp (.inr (.inr hs))

/-- Where a branch stops if the group it is in is not closed. -/
def Stuck (fl : Cflags) (t : Ptr) : Prop :=
  t = [] ∨ (Malformed fl t ∧ t.head? ≠ some rparen) ∨ ∃ u, t = bar :: u ∧ Unclosed fl u

theorem parsebranch_unclosed (hext : fl.extended = true) {d fuel : Nat} (hrec : Reader fl d rec)
    (hd : s.length ≤ d) (hfuel : s.length < fuel) (h : Unclosed fl s)
    (hb : first = true ∨ s.head? ≠ some bar) (k : Nat) :
    ∃ b t k', parsebranch rec fl fuel first w s k = .ok (b, t, k') ∧ Stuck fl t ∧
      (t = s ∨ t.length < s.length) := by
  induction fuel generalizing first s w k with
  | zero => omega
  | succ fuel ih =>
    -- behind a piece
    have hrest {u : Ptr} (a : Atom) (k : Nat) (hu : u.length < s.length) (h : Unclosed fl u) :
        ∃ b t k', branchRest rec fl fuel a u k = .ok (b, t, k') ∧ Stuck fl t ∧
          t.length < s.length := by
      unfold branchRest
      split
      · next hbar =>
        obtain ⟨v, rfl⟩ := List.head?_eq_some_iff.mp hbar
        exact ⟨_, _, _, rfl, .inr (.inr ⟨v, rfl, unclosed_bar h⟩), hu⟩
      · next hbar =>
        obtain ⟨b, t, k', hrun, hstuck, hle⟩ :=
          ih (w := a) (by omega) (by omega) h (.inr hbar) k
        refine ⟨b, t, k', hrun, hstuck, ?_⟩
        rcases hle with rfl | hlt <;> omega
    cases h with
    | done =>
      exact ⟨_, _, _, parsebranch_none (.inr (fun h => by cases h)) (parsepiece_ends hext (.inl rfl)),
        .inl rfl, .inl rfl⟩
    | malformed hne h =>
      obtain ⟨k', hpiece⟩ := parsepiece_malformed (w := w) hext hrec hd h k
      exact ⟨_, _, _, parsebranch_none (.inr (malformed_not_bar h)) hpiece, .inr (.inl ⟨h, hne⟩),
        .inl rfl⟩
    | @bar u h =>
      obtain rfl : first = true := hb.resolve_right fun h => h rfl
      obtain ⟨b, t, k', hrun, hstuck, hlt⟩ := hrest .bar k (by simp) h
      refine ⟨.cons .bar 1 1 b, t, k', ?_, hstuck, .inr hlt⟩
      rw [parsebranch_bar, hrun]
      rfl
    | @piece _ u hp h =>
      have hlen := pieceAt_length hp
      have hends := pieceAt_not_ends hp
      obtain ⟨a, v, n, m, min, max, ha, hrep⟩ := hp
      obtain ⟨a', l, hpiece, -⟩ := parsepiece_complete (w := w) hext hrec hd
        (ha.imp id fun h => ⟨rfl, h⟩) hrep k
      obtain ⟨b, t, k', hrun, hstuck, hlt⟩ := hrest a' l hlen h
      refine ⟨.cons a' min max b, t, k', ?_, hstuck, .inr hlt⟩
      rw [parsebranch_piece (.inr fun hs => hends (.inr (.inl hs))) hpiece, hrun]
      rfl

theorem stuck_head (h : Stuck fl t) : t.head? ≠ some rparen := by
  rcases h with rfl | ⟨-, h⟩ | ⟨u, rfl, -⟩
  · exact fun h => by cases h
  · exact h
  · exact head?_ne (by decide)

/-- What is read where a branch was stuck does not end the group either. -/
theorem stuck_next (h : Stuck fl t) : Unclosed fl (if t.head? = some bar then t.tail else t) := by
  rcases h with rfl | ⟨h, hne⟩ | ⟨u, rfl, h⟩
  · exact .done
  · rw [if_neg (malformed_not_bar h)]
    exact .malformed hne h
  · exact h

theorem length_next_le (t : Ptr) : (if t.head? = some bar then t.tail else t).length ≤ t.length := by
  split
  · rw [List.length_tail]
    omega
  · exact le_rfl

theorem regexLoop_unclosed (hext : fl.extended = true) {d fuel : Nat} (hrec : Reader fl d rec)
    (hd : s.length ≤ d) (hfuel : s.length < fuel) (h : Unclosed fl s) (k : Nat) :
    ∃ r e k', regexLoop rec fl fuel s k = .ok (r, e, k') ∧ e.head? ≠ some rparen := by
  induction fuel generalizing s k with
  | zero => omega
  | succ fuel ih =>
    have hhead := unclosed_head h
    obtain ⟨b, t, k', hrun, hstuck, hle⟩ :=
      parsebranch_unclosed (w := .unset) hext hrec hd (Nat.lt_succ_self _) h (.inl rfl) k
    by_cases hts : t = s
    · subst hts
      exact ⟨_, _, _, regexLoop_stop hext hrun hhead, hhead⟩
    · have hlt := hle.resolve_left hts
      have hnext := length_next_le t
      obtain ⟨r, e, k'', hrun', he⟩ := ih (by omega) (by omega) (stuck_next hstuck) k'
      refine ⟨.cons b r, e, k'', ?_, he⟩
      rw [regexLoop_more hext hrun hts hhead (stuck_head hstuck), hrun']
      rfl

end Dietlibc.Rx
