import Dietlibc.Rx.Walks

/-!
# The places of the groups

The run that reports is to give up no place, and to note every group that is copied: then `pmatch` is
right (`submatches_right`). The parser makes trees as the walks need them (`regcomp_fit`).
-/

namespace Dietlibc.Rx

open Shell (lbracket)

/-! ## The trees of extended patterns -/

section

variable {fl : Cflags} {rec : Ptr → Nat → Except Stop (Regex × Ptr × Nat)} {old a : Atom} {s t e : Ptr}
  {c : UInt8} {n m : Nat}

/-- What the parser of the groups returns. -/
def GivesFit (rec : Ptr → Nat → Except Stop (Regex × Ptr × Nat)) : Prop :=
  ∀ s n r e m, rec s n = .ok (r, e, m) → r.Fit

theorem Atom.Fit.stale (h : a.Fit) : a.stale.Fit := by
  cases a with
  | regex bnum r => exact h
  | bar => trivial
  | backref => exact h.elim
  | _ => trivial

theorem handleChar_fit (h : handleChar fl c t = (a, e)) : a.Fit := by
  unfold handleChar at h
  dsimp only at h
  split at h <;> cases h <;> trivial

theorem parseatom_fit (hext : fl.extended = true) (hrec : GivesFit rec) (hold : old.stale.Fit)
    (h : parseatom rec fl old s n = .ok (some (a, e), m)) : a.Fit := by
  rcases s with - | ⟨c, t⟩
  · cases h
  by_cases h1 : c = lparen
  · subst h1
    rw [parseatom_group hext, parseGroup] at h
    dsimp only at h
    split at h
    · cases h
      trivial
    · obtain ⟨⟨r, tmp, k⟩, hr, h⟩ := bind_eq_ok.mp h
      dsimp only at h
      split at h
      · cases h
        exact hrec _ _ _ _ _ hr
      · cases h
  by_cases h4 : c = lbracket
  · subst h4
    rw [parseatom_bracket] at h
    obtain ⟨- | ⟨x, u⟩, -, h⟩ := bind_eq_ok.mp h
    · cases h
    · cases h
      trivial
  have hchar {d : UInt8} {u : Ptr} {k : Nat}
      (h : (Except.ok (some (handleChar fl d u), k) : Except Stop (Found Atom)) =
        .ok (some (a, e), m)) : a.Fit := handleChar_fit (Option.some.inj (found_inj h))
  simp only [parseatom, h1, h4, false_and, if_false, hext] at h
  split_ifs at h
  · cases h
  · cases h
    trivial
  · cases h
    trivial
  · cases h
    trivial
  · rcases t with - | ⟨d, u⟩
    · cases h
      exact hold
    · dsimp only at h
      split_ifs at h
      · cases h
        trivial
      · cases h
        trivial
      · exact hchar h
  · exact hchar h

theorem parsepiece_fit (hext : fl.extended = true) (hrec : GivesFit rec) (hold : old.stale.Fit)
    {min max : Nat} (h : parsepiece rec fl old s n = .ok (some ((a, min, max), e), m)) : a.Fit := by
  unfold parsepiece at h
  obtain ⟨⟨- | ⟨a', u⟩, k⟩, ho, h⟩ := bind_eq_ok.mp h
  · cases found_inj h
  · have hfit := parseatom_fit hext hrec hold ho
    have h := found_inj h
    rcases hrep : repetition u with - | ⟨min', max', e'⟩
    · simp [hrep] at h
    · simp only [Option.bind_eq_bind, Option.bind_some, hrep] at h
      cases h
      exact hfit

theorem parsebranch_fit (hext : fl.extended = true) (hrec : GivesFit rec) {fuel : Nat} :
    ∀ {first : Bool} {old : Atom} {s e : Ptr} {n m : Nat} {b : Branch}, old.stale.Fit →
      parsebranch rec fl fuel first old s n = .ok (b, e, m) → b.Fit first := by
  induction fuel with
  | zero => exact fun _ h => by cases h
  | succ fuel ih =>
    intro first old s e n m b hold h
    -- behind a piece
    have hrest {a : Atom} {u : Ptr} {k min max : Nat} (hstale : a.stale.Fit)
        (ha : a.Fit ∨ (first = true ∧ a = .bar ∧ min = 1 ∧ max = 1))
        (h : branchRest rec fl fuel a u k >>= (fun v =>
          (.ok (.cons a min max v.1, v.2) : Except Stop (Branch × Ptr × Nat))) = .ok (b, e, m)) :
        b.Fit first := by
      obtain ⟨⟨b', e', m'⟩, hb, h⟩ := bind_eq_ok.mp h
      cases h
      refine ⟨ha, ?_⟩
      unfold branchRest at hb
      split at hb
      · cases hb
        trivial
      · exact ih hstale hb
    by_cases hbar : first = true ∧ s.head? = some bar
    · obtain ⟨hfirst, hs⟩ := hbar
      obtain ⟨t, rfl⟩ := List.head?_eq_some_iff.1 hs
      rw [hfirst, parsebranch_bar] at h
      exact hrest (show Atom.bar.stale.Fit from trivial) (.inr ⟨hfirst, rfl, rfl, rfl⟩) h
    · have hbar' : first = false ∨ s.head? ≠ some bar := by
        by_cases hf : first = true
        · exact .inr fun h => hbar ⟨hf, h⟩
        · exact .inl (by simpa using hf)
      rcases hp : parsepiece rec fl old s n with e' | ⟨- | ⟨⟨a, min, max⟩, u⟩, k⟩
      · rw [parsebranch, if_neg hbar, hp] at h
        cases h
      · rw [parsebranch_none hbar' hp] at h
        cases h
        trivial
      · rw [parsebranch_piece hbar' hp] at h
        have hfit := parsepiece_fit hext hrec hold hp
        exact hrest hfit.stale (.inl hfit) h

theorem regexLoop_fit (hext : fl.extended = true) (hrec : GivesFit rec) {fuel : Nat} :
    ∀ {s e : Ptr} {n m : Nat} {r : Regex}, regexLoop rec fl fuel s n = .ok (r, e, m) → r.Fit := by
  induction fuel with
  | zero => exact fun h => by cases h
  | succ fuel ih =>
    intro s e n m r h
    rw [regexLoop] at h
    obtain ⟨⟨b, tmp, k⟩, hb, h⟩ := bind_eq_ok.mp h
    have hfit := parsebranch_fit hext hrec (show Atom.unset.stale.Fit from trivial) hb
    dsimp only at h
    split at h
    · cases h
      trivial
    split at h
    · cases h
      exact ⟨trivial, trivial⟩
    split at h
    · cases h
      exact ⟨hfit, trivial⟩
    · obtain ⟨⟨r', e', m'⟩, hr, h⟩ := bind_eq_ok.mp h
      cases h
      exact ⟨hfit, ih hr⟩

theorem parseregex_fit (hext : fl.extended = true) (d : Nat) : GivesFit (parseregex fl d) := by
  induction d with
  | zero =>
    intro s n r e m h
    cases h
  | succ d ih =>
    intro s n r e m h
    rw [parseregex] at h
    split at h
    · cases h
      trivial
    · exact regexLoop_fit hext ih h

/-- The tree of an extended pattern. -/
theorem regcomp_fit {p : Ptr} {r : Regex} (hext : fl.extended = true)
    (h : regcomp fl p = .ok (some (r, t, n))) : r.Fit := by
  obtain ⟨⟨r', t', n'⟩, hr, h⟩ := bind_eq_ok.mp h
  dsimp only at h
  split at h
  · cases h
  · cases h
    exact parseregex_fit hext _ p 0 r t n hr

end

/-! ## `regexec` -/

/-- The loop of `regexec`: the second run has an empty array, gives up no place, and has to note the
groups that are copied. -/
def execLoopNoted (x : Input) (r : Regex) (earlyabort : Bool) (nmatch : Nat) :
    Nat → Nat → Bool → Marks → Except Stop Unit
  | n, ofs, notbol, l => do
    match ← matchregex { x with notbol } r ofs 0 l with
    | (some _, _) =>
      match ← matchregexKept placesKept { x with notbol } r ofs 0 (fun _ => none) with
      | (some _, l) => check (∀ i < nmatch, i ≠ 0 → l i ≠ none)
      | (none, _) => .error breach
    | (none, l) =>
      match n with
      | 0 => return ()
      | n + 1 =>
        if earlyabort then return () else execLoopNoted x r earlyabort nmatch n (ofs + 1) true l

/-- `regexec`, up to the copy. -/
def regexecNoted (x : Input) (r : Regex) (nmatch : Nat) : Except Stop Unit := do
  let earlyabort ← if x.fl.newline then .ok false else allLineStart r
  execLoopNoted x r earlyabort nmatch x.text.length 0 x.notbol (fun _ => none)

/-- `pmatch` is right: there is a match with the places of the groups in it; what is reported of a
group is its place in the match, or -1 if it took no part. -/
def SubmatchesRight (x : Input) (r : Regex) (nmatch : Nat) : Prop :=
  ∀ es, regexec x r nmatch = .ok (some es) → es.length = nmatch ∧
    ∃ so len ps notbol, so + len ≤ x.text.length ∧ r.whole { x with notbol } so len ps ∧
      (0 < nmatch → es[0]? = some (.span so (so + len))) ∧
      ∀ i < nmatch, i ≠ 0 → (es[i]? = some .minusOne ∧ ∀ p ∈ ps, p.group ≠ i) ∨
        ∃ p ∈ ps, p.group = i ∧ es[i]? = some (.span p.so p.eo) ∧
          so ≤ p.so ∧ p.so ≤ p.eo ∧ p.eo ≤ so + len

section

variable {x : Input} {r : Regex} {nmatch : Nat}

theorem of_check {p : Prop} [Decidable p] (h : check p = .ok ()) : p := by
  by_contra hp
  rw [check, if_neg hp] at h
  cases h

/-- What the second run leaves, if it noted the groups when it started with an empty array. -/
theorem rerun_noted (hfit : r.Fit) (hnon : r.NonNul) {ofs k : Nat} (hofs : ofs ≤ x.text.length)
    {lc : Marks} (hkept : matchregexKept placesKept x r ofs 0 (fun _ => none) = .ok (some k, lc))
    (hall : ∀ i < nmatch, i ≠ 0 → lc i ≠ none) (l : Marks) :
    ∃ l' ps, matchregex x r ofs 0 l = .ok (some k, l') ∧ ofs + k ≤ x.text.length ∧
      r.whole x ofs k ps ∧ Inside ofs (ofs + k) ps ∧
      ∀ i < nmatch, i ≠ 0 → ∃ p ∈ ps, p.group = i ∧ l' i = some (p.so, p.eo) := by
  have hempty : Agree (fun _ => none) l := fun i v hi => by cases hi
  rcases matchregex_noted hfit hnon hofs hempty with ⟨e, he⟩ | ⟨v, ⟨o, l'⟩, hv, hw, hvw⟩
  · rw [hkept] at he
    cases he
  rw [hkept] at hv
  cases hv
  obtain rfl : some k = o := hvw.same
  obtain ⟨len, ps, hlen, hbound, hwalk, hin, hmarks⟩ := hvw.matched k rfl
  obtain rfl : k = len := by omega
  refine ⟨l', ps, hw, hbound, hwalk, hin, fun i hi h0 => ?_⟩
  obtain ⟨⟨so, eo⟩, hplace⟩ := Option.ne_none_iff_exists'.mp (hall i hi h0)
  have hnoted : note ps (fun _ => none) i = some (so, eo) := by
    rw [← hplace]
    exact congrFun hmarks.symm i
  rcases note_some hnoted with hmem | hno
  · exact ⟨_, hmem, rfl, hvw.agree i _ hplace⟩
  · cases hno

/-- What the loop leaves where no check fails. -/
theorem execLoop_noted (hfit : r.Fit) (hnon : r.NonNul) {earlyabort : Bool} {n ofs : Nat}
    {notbol : Bool} {l : Marks} (hofs : ofs + n ≤ x.text.length)
    (h : execLoopNoted x r earlyabort nmatch n ofs notbol l = .ok ()) {so eo : Nat} {l' : Marks}
    (hrun : execLoop x r earlyabort n ofs notbol l = .ok (some (so, eo, l'))) :
    ∃ len ps notbol, eo = so + len ∧ so + len ≤ x.text.length ∧
      r.whole { x with notbol } so len ps ∧ Inside so (so + len) ps ∧
      ∀ i < nmatch, i ≠ 0 → ∃ p ∈ ps, p.group = i ∧ l' i = some (p.so, p.eo) := by
  induction n generalizing ofs notbol l with
  | zero =>
    rw [execLoopNoted] at h
    rw [execLoop] at hrun
    obtain ⟨⟨- | k, l1⟩, hfirst, h⟩ := bind_eq_ok.mp h
    · rw [hfirst] at hrun
      cases hrun
    · obtain ⟨⟨- | k', lc⟩, hkept, h⟩ := bind_eq_ok.mp h
      · cases h
      obtain ⟨l2, ps, hsecond, hrest⟩ := rerun_noted (x := { x with notbol }) hfit hnon
        (show ofs ≤ x.text.length by omega) hkept (of_check h) l1
      rw [hfirst] at hrun
      change (matchregex _ r ofs 0 l1 >>= _) = _ at hrun
      rw [hsecond] at hrun
      cases hrun
      exact ⟨k', ps, notbol, rfl, hrest⟩
  | succ n ih =>
    rw [execLoopNoted] at h
    rw [execLoop] at hrun
    obtain ⟨⟨- | k, l1⟩, hfirst, h⟩ := bind_eq_ok.mp h
    · rw [hfirst] at hrun
      cases earlyabort with
      | true => cases hrun
      | false => exact ih (by omega) h hrun
    · obtain ⟨⟨- | k', lc⟩, hkept, h⟩ := bind_eq_ok.mp h
      · cases h
      obtain ⟨l2, ps, hsecond, hrest⟩ := rerun_noted (x := { x with notbol }) hfit hnon
        (show ofs ≤ x.text.length by omega) hkept (of_check h) l1
      rw [hfirst] at hrun
      change (matchregex _ r ofs 0 l1 >>= _) = _ at hrun
      rw [hsecond] at hrun
      cases hrun
      exact ⟨k', ps, notbol, rfl, hrest⟩

/-- What `regexec` copies, and the loop with checks that belongs to the run. -/
theorem regexec_entries (hsub : x.fl.nosub = false) (hnoted : regexecNoted x r nmatch = .ok ())
    {es : List Entry} (hes : regexec x r nmatch = .ok (some es)) :
    ∃ earlyabort so eo l,
      execLoopNoted x r earlyabort nmatch x.text.length 0 x.notbol (fun _ => none) = .ok () ∧
      execLoop x r earlyabort x.text.length 0 x.notbol (fun _ => none) = .ok (some (so, eo, l)) ∧
      es.length = nmatch ∧ ∀ i < nmatch, ∀ a b,
        Function.update l 0 (some (so, eo)) i = some (a, b) → es[i]? = some (.span a b) := by
  unfold regexecNoted at hnoted
  unfold regexec at hes
  by_cases hn : x.fl.newline = true
  all_goals
    first
    | rw [if_pos hn] at hnoted hes
    | rw [if_neg hn] at hnoted hes
    obtain ⟨earlyabort, habort, hloop⟩ := bind_eq_ok.mp hnoted
    obtain ⟨e, habort', hes⟩ := bind_eq_ok.mp hes
    obtain rfl : e = earlyabort := Except.ok.inj (habort'.symm.trans habort)
    obtain ⟨- | ⟨so, eo, l⟩, hrun, hes⟩ := bind_eq_ok.mp hes
    · cases hes
    cases hes
    refine ⟨e, so, eo, l, hloop, hrun, by rw [List.length_map, List.length_range],
      fun i hi a b hab => ?_⟩
    rw [List.getElem?_map, List.getElem?_range hi, Option.map_some, hsub, hab,
      if_neg Bool.false_ne_true]

end

end Dietlibc.Rx
