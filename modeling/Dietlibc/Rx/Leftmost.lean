import Dietlibc.Rx.Kept
import Dietlibc.Rx.Shown

/-!
# The match that `regexec` reports

A run that is kept reports a word of the pattern's language (`finds_word`), and where no choice is left
behind it reports the leftmost one (`finds_leftmost`).
-/

namespace Dietlibc.Rx

/-! ## The loop of `regexec` -/

/-- Two runs find the same: a word, from `ofs` on. Where `c` holds, there is none further left. -/
def SameFind (x : Input) (c : Prop) (L : Language UInt8) (ofs : Nat) :
    Option (Nat × Nat × Marks) → Option (Nat × Nat × Marks) → Prop
  | none, none => c → ∀ i, ofs ≤ i → ∀ len, ¬x.Word L i len
  | some (so, eo, _), some (so', eo', _) => so = so' ∧ eo = eo' ∧
      (∃ len, eo = so + len ∧ x.Word L so len) ∧ (c → ∀ i, ofs ≤ i → i < so → ∀ len, ¬x.Word L i len)
  | _, _ => False

/-- No check fails in the run. -/
def Undisturbed (ch : Checks) (x : Input) (r : Regex) : Prop :=
  execLoopKept ch x r false x.text.length 0 x.notbol (fun _ => none) ≠ .error breach

section

variable {x : Input} {ch : Checks} {c : Prop} {r : Regex} {ofs n nmatch : Nat}
  {l l' : Marks}

/-- The second run of the matcher, for the groups, finds the same again. -/
theorem rerun_kept {m m' : Matcher} {L : Language UInt8} {k : Nat} {l1 l1' : Marks}
    (h : ∀ l l', Kept (SameRight x c L ofs 0) (m ofs 0 l) (m' ofs 0 l'))
    (hfirst : m ofs 0 l = .ok (some k, l1)) :
    m ofs 0 l1 = .error breach ∨
      ∃ l2 l2', m ofs 0 l1 = .ok (some k, l2) ∧ m' ofs 0 l1' = .ok (some k, l2') := by
  have hplain : ∃ l2', m' ofs 0 l1' = .ok (some k, l2') := by
    rcases h l l1' with hb | ⟨v, ⟨o, l2'⟩, hv, hw, heq, -⟩
    · rw [hfirst] at hb
      cases hb
    · rw [hfirst] at hv
      cases hv
      obtain rfl : some k = o := heq
      exact ⟨l2', hw⟩
  obtain ⟨l2', hplain⟩ := hplain
  rcases h l1 l1' with hb | ⟨⟨o, l2⟩, w, hv, hw, heq, -⟩
  · exact .inl hb
  · rw [hplain] at hw
    cases hw
    obtain rfl : o = some k := heq
    exact .inr ⟨l2, l2', hv, hplain⟩

/-- Where the first run has found a word, the loop ends with it. -/
theorem found_kept {m m' : Matcher} {L : Language UInt8} {k : Nat} {l1 l1' : Marks}
    (h : ∀ l l', Kept (SameRight x c L ofs 0) (m ofs 0 l) (m' ofs 0 l'))
    (hfirst : m ofs 0 l = .ok (some k, l1)) (hright : Right x c L ofs 0 (some k)) :
    Kept (SameFind x c L ofs)
      (m ofs 0 l1 >>= fun v => match v with
        | (some matched, l) => .ok (some (ofs, ofs + matched, l))
        | (none, l) => .ok (some (ofs, ofs - 1, l)))
      (m' ofs 0 l1' >>= fun v => match v with
        | (some matched, l) => .ok (some (ofs, ofs + matched, l))
        | (none, l) => .ok (some (ofs, ofs - 1, l))) := by
  rcases rerun_kept h hfirst with hb | ⟨l2, l2', h2, h2'⟩
  · rw [hb]
    exact .inl rfl
  rw [h2, h2']
  obtain ⟨len, hlen, hword⟩ := hright.sound k rfl
  obtain rfl : k = len := by omega
  exact .ok ⟨rfl, rfl, ⟨k, rfl, hword⟩, fun _ i hge hlt => by omega⟩

theorem SameFind.back {L : Language UInt8} {v w : Option (Nat × Nat × Marks)}
    (h : SameFind x c L (ofs + 1) v w) (hmiss : c → ∀ len, ¬x.Word L ofs len) :
    SameFind x c L ofs v w := by
  -- nothing at `ofs`, and nothing behind it
  have hall {p : Nat → Prop} (hc : c) (hrest : ∀ i, ofs + 1 ≤ i → p i → ∀ len, ¬x.Word L i len)
      (i : Nat) (hge : ofs ≤ i) (hi : p i) : ∀ len, ¬x.Word L i len := by
    rcases Nat.eq_or_lt_of_le hge with rfl | hlt
    · exact hmiss hc
    · exact hrest i hlt hi
  rcases v with - | ⟨so, eo, l⟩ <;> rcases w with - | ⟨so', eo', l'⟩
  · exact fun hc i hge => hall (p := fun _ => True) hc (fun i hge _ => h hc i hge) i hge trivial
  · exact h.elim
  · exact h.elim
  · exact ⟨h.1, h.2.1, h.2.2.1, fun hc => hall hc (h.2.2.2 hc)⟩

/-- The matcher at one place. -/
theorem runs_kept (hi : x.fl.icase = false) (hn : x.fl.newline = false) (htake : Enough ch)
    (hexact : c → Exact x ch)
    (hr : r ≠ .nil) (hplain : r.Plain (Findable x c)) (notbol : Bool) (hofs : ofs ≤ x.text.length)
    (l l' : Marks) :
    Kept (SameRight x c r.lang ofs 0) (matchregexKept ch { x with notbol } r ofs 0 l)
      (matchregex { x with notbol } r ofs 0 l') :=
  (matchregex_kept (x := { x with notbol }) hi hn htake hexact hr hplain l l' hofs).imp
    fun _ _ h => ⟨h.1, h.2.sound, h.2.complete⟩

theorem execLoop_kept (hi : x.fl.icase = false) (hn : x.fl.newline = false)
    (htake : Enough ch) (hexact : c → Exact x ch) (hr : r ≠ .nil) (hplain : r.Plain (Findable x c))
    (notbol : Bool) (l l' : Marks) (hofs : ofs + n = x.text.length) :
    Kept (SameFind x c r.lang ofs) (execLoopKept ch x r false n ofs notbol l)
      (execLoop x r false n ofs notbol l') := by
  induction n generalizing ofs notbol l l' with
  | zero =>
    have hrun := runs_kept hi hn htake hexact hr hplain notbol (show ofs ≤ x.text.length by omega)
    rw [execLoopKept, execLoop]
    rcases hrun l l' with hb | ⟨⟨o, l1⟩, ⟨o', l1'⟩, hv, hw, heq, hright⟩
    · rw [hb]
      exact .inl rfl
    obtain rfl : o = o' := heq
    rw [hv, hw]
    cases o with
    | none =>
      refine .ok fun hc i hi len hword => ?_
      have hin := hword.1
      obtain rfl : i = ofs := by omega
      exact hright.complete hc rfl len hword
    | some k => exact found_kept hrun hv hright
  | succ n ih =>
    have hrun := runs_kept hi hn htake hexact hr hplain notbol (show ofs ≤ x.text.length by omega)
    rw [execLoopKept, execLoop]
    rcases hrun l l' with hb | ⟨⟨o, l1⟩, ⟨o', l1'⟩, hv, hw, heq, hright⟩
    · rw [hb]
      exact .inl rfl
    obtain rfl : o = o' := heq
    rw [hv, hw]
    cases o with
    | none =>
      refine (ih true l1 l1' (by omega)).imp fun v w hvw => hvw.back fun hc =>
        hright.complete hc rfl
    | some k => exact found_kept hrun hv hright

/-- In a plain tree no branch starts with `^`. -/
theorem allLineStart_plain {P : UInt8 → Prop} (hr : r ≠ .nil) (hplain : r.Plain P) :
    allLineStart r = .ok false := by
  rcases r with - | ⟨- | ⟨a, min, max, b⟩, r⟩
  · exact absurd rfl hr
  · exact absurd rfl hplain.1
  · cases a with
    | unset | lineStart => exact hplain.2.1.1.elim
    | _ => rfl

/-- What `regexec` returns in a run that is kept. -/
theorem regexec_kept (hi : x.fl.icase = false) (hn : x.fl.newline = false) (hs : x.fl.nosub = false)
    (htake : Enough ch) (hexact : c → Exact x ch) (hr : r ≠ .nil) (hplain : r.Plain (Findable x c))
    (hkept : Undisturbed ch x r) (hm : 0 < nmatch) :
    (∃ so len es, regexec x r nmatch = .ok (some (.span so (so + len) :: es)) ∧
        x.Word r.lang so len ∧ (c → ∀ i < so, ∀ len, ¬x.Word r.lang i len)) ∨
      (regexec x r nmatch = .ok none ∧ (c → ∀ i len, ¬x.Word r.lang i len)) := by
  have hloop := execLoop_kept hi hn htake hexact hr hplain x.notbol (fun _ => none) (fun _ => none)
    (Nat.zero_add _)
  obtain ⟨v, w, -, hw, hvw⟩ := hloop.resolve_left hkept
  have hreport : ∃ f, regexec x r nmatch =
        execLoop x r false x.text.length 0 x.notbol (fun _ => none) >>= f ∧ f none = .ok none ∧
        ∀ so eo l, ∃ es, f (some (so, eo, l)) = .ok (some (.span so eo :: es)) := by
    unfold regexec
    rw [hn, if_neg Bool.false_ne_true, allLineStart_plain hr hplain]
    refine ⟨_, rfl, rfl, fun so eo l => ?_⟩
    obtain ⟨m, rfl⟩ : ∃ m, nmatch = m + 1 := ⟨nmatch - 1, by omega⟩
    dsimp only
    rw [List.range_succ_eq_map, List.map_cons, hs, if_neg Bool.false_ne_true, Function.update_self]
    exact ⟨_, rfl⟩
  obtain ⟨f, hexec, hnone, hsome⟩ := hreport
  rw [hexec, hw]
  rcases v with - | ⟨so, eo, l⟩ <;> rcases w with - | ⟨so', eo', l'⟩
  · exact .inr ⟨hnone, fun hc i => hvw hc i (Nat.zero_le i)⟩
  · exact hvw.elim
  · exact hvw.elim
  · obtain ⟨rfl, rfl, ⟨len, rfl, hword⟩, hleft⟩ := hvw
    obtain ⟨es, hes⟩ := hsome so (so + len) l'
    exact .inl ⟨so, len, es, hes, hword, fun hc i hlt => hleft hc i (Nat.zero_le i) hlt⟩

end

/-! ## Patterns -/

/-- `REG_EXTENDED` -/
abbrev extendedOnly : Cflags := ⟨true, false, false, false⟩

/-- What `regexec` reports for a pattern is a part of the text that is a word of its language. -/
def FindsWord (p : Ere) (x : Input) (nmatch : Nat) : Prop :=
  ∀ t e n, regcomp x.fl p.show = .ok (some (t, e, n)) →
    ∀ es, regexec x t nmatch = .ok (some es) →
      ∃ so eo, es.head? = some (.span so eo) ∧ so ≤ eo ∧ eo ≤ x.text.length ∧
        (x.text.drop so).take (eo - so) ∈ p.lang

/-- `regexec` reports the leftmost place of a word, and a mismatch if there is no word. -/
def FindsLeftmost (p : Ere) (x : Input) (nmatch : Nat) : Prop :=
  ∀ t e n, regcomp x.fl p.show = .ok (some (t, e, n)) →
    ((∃ i len, x.Word p.lang i len) →
      ∃ so eo es, regexec x t nmatch = .ok (some (.span so eo :: es)) ∧
        (∃ len, x.Word p.lang so len) ∧ ∀ i len, x.Word p.lang i len → so ≤ i) ∧
    ((¬∃ i len, x.Word p.lang i len) → regexec x t nmatch = .ok none)

/-- The rest of a pattern is to match behind as many repetitions as the lower bound says. -/
def lowerBounds : Checks := ⟨fun _ _ _ => true, fun _ min _ left => min ≤ left.length⟩

/-- No repetition lets the rest match behind fewer atoms than its lower bound says. -/
def KeepsBounds (p : Ere) (x : Input) : Prop :=
  ∀ t e n, regcomp x.fl p.show = .ok (some (t, e, n)) → Undisturbed lowerBounds x t

open Classical in
/-- Whether an atom of the tree has just one length at a place. -/
noncomputable def onlyLength (x : Input) (a : Atom) (ofs len : Nat) : Bool :=
  decide (∀ len', x.Word a.lang ofs len' → len' = len)

/-- That, and the rest never fails behind an atom that has another length at its place. -/
def KeepsChoices (p : Ere) (x : Input) : Prop :=
  ∀ t e n, regcomp x.fl p.show = .ok (some (t, e, n)) →
    Undisturbed { lowerBounds with mayFail := onlyLength x } x t

section

variable {p : Ere} {x : Input} {nmatch : Nat}

theorem lowerBounds_enough {may : Atom → Nat → Nat → Bool} :
    Enough { lowerBounds with mayFail := may } := fun _ _ _ _ h => of_decide_eq_true h

/-- The tree of a pattern, and what `regexec` does with it. -/
theorem run_kept {ch : Checks} {c : Prop} (hfl : x.fl = extendedOnly) (hp : p.Wf)
    (hfine : p.All (EreAtom.Fine x.fl (Findable x c))) (htake : Enough ch) (hexact : c → Exact x ch)
    (hm : 0 < nmatch) {t : Regex} {e : Ptr} {n : Nat}
    (h : regcomp x.fl p.show = .ok (some (t, e, n))) (hkept : Undisturbed ch x t) :
    Near t.lang p.lang ∧
      ((∃ so len es, regexec x t nmatch = .ok (some (.span so (so + len) :: es)) ∧
          x.Word t.lang so len ∧ (c → ∀ i < so, ∀ len, ¬x.Word t.lang i len)) ∨
        (regexec x t nmatch = .ok none ∧ (c → ∀ i len, ¬x.Word t.lang i len))) := by
  have hext : x.fl.extended = true := by rw [hfl]
  have hi : x.fl.icase = false := by rw [hfl]
  have hn : x.fl.newline = false := by rw [hfl]
  have hs : x.fl.nosub = false := by rw [hfl]
  obtain ⟨t', n', h', hne, hplain, hnear⟩ := regcomp_shown hext hi hn hp hfine
  rw [h'] at h
  cases h
  exact ⟨hnear, regexec_kept hi hn hs htake hexact hne hplain hkept hm⟩

/-- `a+b` -/
def plusPattern : Ere :=
  .one (.cons (.literal false 97) .plus (.cons (.literal false 98) .once .nil))

/-- `a+ab` -/
def slipPattern : Ere :=
  .one (.cons (.literal false 97) .plus
    (.cons (.literal false 97) .once (.cons (.literal false 98) .once .nil)))

theorem onlyLength_exact : Exact x { lowerBounds with mayFail := onlyLength x } := fun _ _ _ h =>
  @of_decide_eq_true _ (Classical.propDecidable _) h

/-- In a short text the words of a tree are those of its pattern. -/
theorem Near.word {T E : Language UInt8} (h : Near T E) (hlen : x.text.length < reDupMax)
    {i len : Nat} : x.Word T i len ↔ x.Word E i len := by
  refine ⟨fun hw => ⟨hw.1, h.sound _ hw.2⟩, fun hw => ⟨hw.1, h.short _ hw.2 ?_⟩⟩
  rw [List.length_take, List.length_drop]
  omega

/-- `(b|q)c`, for a branch `q` -/
def groupPattern (q : EreBranch) : Ere :=
  .one (.cons (.group (.alt (.cons (.literal false 97) .once .nil) (.one q))) .once
    (.cons (.literal false 99) .once .nil))

end

end Dietlibc.Rx
