import Dietlibc.Rx.Match
import Dietlibc.Rx.Icase

/-!
# Matching without case

With `REG_ICASE` the matcher sees the text in lower case only, and trees that differ in strings with
upper-case letters are the same to it: such a string matches nothing. So the case of pattern and text is
of no matter, as long as no run of literals has upper-case letters in one of the patterns only.
-/

namespace Dietlibc.Rx

open Shell (tolower isupper isalpha isdigit isalnum)

/-- The claim about two patterns: what is accepted in one case is accepted in the other, and the two
regexes do the same on texts that differ in case only. -/
def CaseBlind (fl : Cflags) (p p' : Ptr) : Prop :=
  ∀ r t n, regcomp fl p = .ok (some (r, t, n)) →
    ∃ r' t' n', regcomp fl p' = .ok (some (r', t', n')) ∧
      ∀ (text text' : List UInt8) (notbol noteol : Bool) (nmatch : Nat),
        text.map tolower = text'.map tolower →
        regexec ⟨text, fl, notbol, noteol⟩ r nmatch = regexec ⟨text', fl, notbol, noteol⟩ r' nmatch

/-! ## Texts -/

/-- The same text but for case, with the same flags, one of them `REG_ICASE`. -/
structure SameText (x x' : Input) : Prop where
  text : x.text.map tolower = x'.text.map tolower
  fl : x.fl = x'.fl
  icase : x.fl.icase = true
  notbol : x.notbol = x'.notbol
  noteol : x.noteol = x'.noteol

variable {x x' : Input} {c : UInt8} {l l' : List UInt8} {a a' : Atom} {b b' : Branch}
  {r r' : Regex}

theorem SameText.char (h : SameText x x') (ofs : Nat) :
    tolower (x.char ofs) = tolower (x'.char ofs) := by
  have hget (l : List UInt8) : tolower (l.getD ofs 0) = (l.map tolower).getD ofs (tolower 0) := by
    rw [List.getD_eq_getElem?_getD, List.getD_eq_getElem?_getD, List.getElem?_map]
    rcases l[ofs]? with - | b <;> rfl
  rw [Input.char, Input.char, hget, hget, h.text]

theorem SameText.char_eq (h : SameText x x') (hc : Caseless c) (ofs : Nat) :
    x.char ofs = c ↔ x'.char ofs = c := by
  have heq := h.char ofs
  constructor
  · rintro rfl
    exact (hc _).mp heq
  · rintro rfl
    exact (hc _).mp heq.symm

theorem SameText.fold (h : SameText x x') (ofs : Nat) : x.fold ofs = x'.fold ofs := by
  rw [Input.fold, Input.fold, ← h.fl, if_pos h.icase, if_pos h.icase, h.char]

theorem isalpha_iff (c : UInt8) : isalpha c = true ↔
    (65 ≤ c.toNat ∧ c.toNat ≤ 90) ∨ (97 ≤ c.toNat ∧ c.toNat ≤ 122) := by
  have hor : ∀ n < 256, (97 ≤ n ||| 32 ∧ n ||| 32 < 123) ↔
      ((65 ≤ n ∧ n ≤ 90) ∨ (97 ≤ n ∧ n ≤ 122)) := by decide +kernel
  rw [← hor _ c.toNat_lt]
  simp only [isalpha, Bool.and_eq_true, decide_eq_true_eq, UInt8.le_iff_toNat_le,
    UInt8.lt_iff_toNat_lt, UInt8.toNat_or]
  exact Iff.rfl

theorem isalnum_tolower (c : UInt8) : isalnum (tolower c) = isalnum c := by
  have hnat := tolower_toNat c
  split at hnat
  · next h =>
    have h1 : isalpha c = true := (isalpha_iff c).mpr (.inl h)
    have h2 : isalpha (tolower c) = true := (isalpha_iff _).mpr (.inr (by omega))
    rw [isalnum, isalnum, h1, h2]
    rfl
  · rw [UInt8.toNat_inj.mp hnat]

theorem SameText.isalnum (h : SameText x x') (ofs : Nat) :
    isalnum (x.char ofs) = isalnum (x'.char ofs) := by
  rw [← isalnum_tolower, h.char, isalnum_tolower]

/-! ## Atoms -/

theorem SameText.matchString (h : SameText x x') (ofs : Nat) (l : List UInt8) :
    matchString x ofs l = matchString x' ofs l := by
  induction l generalizing ofs with
  | nil => rfl
  | cons c l ih => rw [Rx.matchString, Rx.matchString, h.fold, ih]

/-- A string with an upper-case letter matches nothing. -/
theorem matchString_dead (hi : x.fl.icase = true) (hl : l.any isupper = true) (ofs : Nat) :
    matchString x ofs l = false := by
  induction l generalizing ofs with
  | nil => cases hl
  | cons c l ih =>
    rw [List.any_cons, Bool.or_eq_true] at hl
    rw [matchString]
    rcases hl with hc | hl
    · have hne : ¬ ((x.fold ofs).toNat : Int) = schar c := by
        intro heq
        rw [Input.fold, if_pos hi, tolower_toNat] at heq
        simp only [isupper, Bool.and_eq_true, decide_eq_true_eq, UInt8.le_iff_toNat_le,
          UInt8.lt_iff_toNat_lt] at hc
        have h65 : (65 : UInt8).toNat = 65 := rfl
        have h91 : (91 : UInt8).toNat = 91 := rfl
        rw [schar_eq] at heq
        split at heq <;> split at heq <;> omega
      simp [hne]
    · simp [ih hl]

theorem SameText.atomLength (h : SameText x x') (ofs : Nat) (a : Atom) :
    atomLength x ofs a = atomLength x' ofs a := by
  have hnl := h.char_eq (c := newlineChar) (caseless_of (.inl (by decide)))
  have hz := h.char_eq (c := 0) (caseless_of (.inl (by decide)))
  cases a <;> simp only [Rx.atomLength, hnl, hz, h.fl, h.fold, h.notbol, h.noteol, h.isalnum,
    h.matchString, ne_eq]

/-! ## The tree -/

mutual

/-- Atoms that are the same but for dead strings do the same. -/
theorem SameText.matchatom (h : SameText x x') : ∀ {a a' : Atom}, SameAtom a a' →
    matchatom x a = matchatom x' a'
  | a, _, .single hs => by
    funext next ofs plus l
    have hlen := h.atomLength ofs a
    cases a with
    | regex | backref => cases hs
    | unset | bar | empty => rfl
    | _ => simp only [Rx.matchatom, hlen]
  | .string s, .string s', .dead hs hs' => by
    funext next ofs plus l
    have hi' : x'.fl.icase = true := h.fl ▸ h.icase
    simp only [Rx.matchatom, Rx.atomLength, matchString_dead h.icase hs, matchString_dead hi' hs']
    rfl
  | .regex bnum r, .regex _ r', .regex hr => by
    funext next ofs plus l
    have hm := h.matchbranches hr
    simp only [Rx.matchatom, hm]
    cases hr <;> rfl

theorem SameText.nextOf (h : SameText x x') : ∀ {b b' : Branch}, SameBranch b b' →
    nextOf x b = nextOf x' b'
  | _, _, .nil => rfl
  | .cons a min max b, .cons a' _ _ b', .cons ha hb => by
    rw [Rx.nextOf, Rx.nextOf, h.matchatom ha, h.nextOf hb]

theorem SameText.matchbranch (h : SameText x x') : ∀ {b b' : Branch}, SameBranch b b' →
    matchbranch x b = matchbranch x' b'
  | _, _, .nil => rfl
  | .cons a min max b, .cons a' _ _ b', .cons ha hb => by
    funext ofs plus l
    rw [Rx.matchbranch, Rx.matchbranch, h.matchatom ha, h.nextOf hb]

theorem SameText.matchbranches (h : SameText x x') : ∀ {r r' : Regex}, SameRegex r r' →
    matchbranches x r = matchbranches x' r'
  | _, _, .nil => rfl
  | .cons b r, .cons b' r', .cons hb hr => by
    funext ofs plus l
    rw [Rx.matchbranches, Rx.matchbranches, h.matchbranch hb, h.matchbranches hr]

end

/-! ## `regexec` -/

theorem SameText.matchregex (h : SameText x x') (hr : SameRegex r r') :
    matchregex x r = matchregex x' r' := by
  funext ofs plus l
  rw [Rx.matchregex, Rx.matchregex, h.matchbranches hr]
  cases hr <;> rfl

theorem SameRegex.allLineStart : ∀ {r r' : Regex}, SameRegex r r' →
    allLineStart r = allLineStart r'
  | _, _, .nil => rfl
  | .cons b r, .cons b' r', .cons hb hr => by
    have ih := hr.allLineStart
    cases hb with
    | nil => rfl
    | cons ha hb =>
      cases ha with
      | single hs =>
        next a _ _ _ _ =>
        cases a with
        | regex | backref => cases hs
        | lineStart => exact ih
        | _ => rfl
      | dead => rfl
      | regex hr => rfl

theorem SameText.execLoop (h : SameText x x') (hr : SameRegex r r') (earlyabort : Bool) (n : Nat) :
    ∀ ofs notbol l, execLoop x r earlyabort n ofs notbol l =
      execLoop x' r' earlyabort n ofs notbol l := by
  have hm (notbol : Bool) :
      Rx.matchregex { x with notbol := notbol } r = Rx.matchregex { x' with notbol := notbol } r' :=
    SameText.matchregex ⟨h.text, h.fl, h.icase, rfl, h.noteol⟩ hr
  induction n with
  | zero =>
    intro ofs notbol l
    rw [Rx.execLoop, Rx.execLoop, hm]
  | succ n ih =>
    intro ofs notbol l
    rw [Rx.execLoop, Rx.execLoop, hm]
    simp only [ih]

theorem SameText.regexec (h : SameText x x') (hr : SameRegex r r') (nmatch : Nat) :
    regexec x r nmatch = regexec x' r' nmatch := by
  have hlen : x.text.length = x'.text.length := by
    simpa using congrArg List.length h.text
  simp only [Rx.regexec, h.fl, hr.allLineStart, hlen, h.notbol, h.execLoop hr]

end Dietlibc.Rx
