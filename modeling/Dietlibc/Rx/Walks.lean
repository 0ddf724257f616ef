import Dietlibc.Rx.Kept

/-!
# Matches with their groups

The matcher notes the place of a group as soon as the group matches, and does not take it back when the
rest fails. A walk is a match together with the places of the groups it goes through (`Regex.walk`).
Where no place is given up, what is in the array are the places of the walk (`matchregex_noted`).
-/

namespace Dietlibc.Rx

/-! ## Walks -/

/-- Where a group matched. -/
structure Place where
  group : Nat
  so : Nat
  eo : Nat

/-- The places are noted in turn. -/
def note (ps : List Place) (l : Marks) : Marks :=
  ps.foldl (fun l p => Function.update l p.group (some (p.so, p.eo))) l

/-- So many characters at a place, with the places of the groups. -/
abbrev Walk := Nat → Nat → List Place → Prop

/-- Nowhere. -/
def Walk.stay : Walk := fun _ len ps => len = 0 ∧ ps = []

/-- One walk behind another. -/
def Walk.seq (V W : Walk) : Walk := fun ofs len ps =>
  ∃ len' ps' len'' ps'', V ofs len' ps' ∧ W (ofs + len') len'' ps'' ∧ len = len' + len'' ∧
    ps = ps' ++ ps''

/-- A walk so many times. -/
def Walk.times (W : Walk) : Nat → Walk
  | 0 => Walk.stay
  | n + 1 => (W.times n).seq W

/-- The place of a group. -/
def placeOf (bnum : Option Nat) (so eo : Nat) : List Place :=
  (bnum.map fun n => ⟨n, so, eo⟩).toList

mutual

/-- How an atom matches. The empty one in front of a bar does not go on to the next. -/
def Atom.walk (x : Input) : Atom → Walk
  | .bar | .backref _ => fun _ _ _ => False
  | .empty bnum => fun ofs len ps => len = 0 ∧ ps = placeOf bnum ofs ofs
  | .regex bnum r => fun ofs len ps => ∃ qs, ((r = .nil ∧ len = 0 ∧ qs = []) ∨ r.walk x ofs len qs) ∧
      ps = qs ++ placeOf bnum ofs (ofs + len)
  | a => fun ofs len ps => atomLength x ofs a = some len ∧ ps = []

/-- How a branch matches. The lower bounds do not matter for the places. -/
def Branch.walk (x : Input) : Branch → Walk
  | .nil => Walk.stay
  | .cons a _ max b => fun ofs len ps => (a = .bar ∧ Walk.stay ofs len ps) ∨
      ∃ k, k ≤ max ∧ ((a.walk x).times k).seq (b.walk x) ofs len ps

/-- How a regex matches. -/
def Regex.walk (x : Input) : Regex → Walk
  | .nil => fun _ _ _ => False
  | .cons b r => fun ofs len ps => b.walk x ofs len ps ∨ r.walk x ofs len ps

end

section

variable {V W : Walk} {ps qs : List Place} {l : Marks} {ofs len n : Nat}

theorem note_append : note (ps ++ qs) l = note qs (note ps l) := List.foldl_append

/-- What is in the array was noted. -/
theorem note_some {i so eo : Nat} (h : note ps l i = some (so, eo)) :
    ⟨i, so, eo⟩ ∈ ps ∨ l i = some (so, eo) := by
  induction ps generalizing l with
  | nil => exact .inr h
  | cons p ps ih =>
    rcases ih h with hmem | hl
    · exact .inl (List.mem_cons_of_mem p hmem)
    · dsimp only at hl
      by_cases hp : i = p.group
      · subst hp
        rw [Function.update_self] at hl
        cases hl
        exact .inl List.mem_cons_self
      · rw [Function.update_of_ne hp] at hl
        exact .inr hl

/-- The places are between two places of the text. -/
def Inside (so eo : Nat) (ps : List Place) : Prop := ∀ p ∈ ps, so ≤ p.so ∧ p.so ≤ p.eo ∧ p.eo ≤ eo

theorem Inside.nil (so eo : Nat) : Inside so eo [] :=
  fun _ hp => absurd hp List.not_mem_nil

theorem Inside.append {m : Nat} (h : Inside ofs (ofs + len) ps)
    (h' : Inside (ofs + len) (ofs + len + m) qs) : Inside ofs (ofs + len + m) (ps ++ qs) := by
  intro p hp
  rcases List.mem_append.mp hp with hp | hp
  · have := h p hp
    omega
  · have := h' p hp
    omega

/-- A walk through no group. -/
def Walk.Quiet (W : Walk) : Prop := ∀ ofs len ps, W ofs len ps → ps = []

theorem Walk.Quiet.times (h : W.Quiet) (n : Nat) : (W.times n).Quiet := by
  induction n with
  | zero => exact fun ofs len ps hw => hw.2
  | succ n ih =>
    rintro ofs len ps ⟨len', ps', len'', ps'', hw, hw', -, rfl⟩
    rw [ih _ _ _ hw, h _ _ _ hw']
    rfl

end

/-! ## The checks -/

/-- Whether an atom notes a place. -/
def Atom.notes : Atom → Bool
  | .empty bnum => bnum.isSome
  | .regex _ _ => true
  | _ => false

/-- No place is to be given up. -/
def placesKept : Checks := ⟨fun a _ _ => !a.notes, fun a _ all left => !a.notes || left = all⟩

mutual

/-- A tree of an extended pattern: no group is matched again, and a bar is in front of a branch. -/
def Atom.Fit : Atom → Prop
  | .bar | .backref _ => False
  | .regex _ r => r.Fit
  | _ => True

def Branch.Fit : Branch → Bool → Prop
  | .nil, _ => True
  | .cons a min max b, first => (a.Fit ∨ (first = true ∧ a = .bar ∧ min = 1 ∧ max = 1)) ∧ b.Fit false

def Regex.Fit : Regex → Prop
  | .nil => True
  | .cons b r => b.Fit true ∧ r.Fit

end

theorem quiet_of_notes {x : Input} {a : Atom} (h : a.notes = false) : (a.walk x).Quiet := by
  intro ofs len ps hw
  cases a with
  | bar | backref => exact hw.elim
  | regex bnum r => cases h
  | empty bnum =>
    cases bnum with
    | none => exact hw.2
    | some n => cases h
  | _ => exact hw.2

/-! ## Runs with checks -/

/-- A run ends with an error, or two runs end well and alike. -/
def Passed {α β : Type} (R : α → β → Prop) (a : Except Stop α) (b : Except Stop β) : Prop :=
  (∃ e, a = .error e) ∨ ∃ v w, a = .ok v ∧ b = .ok w ∧ R v w

section

variable {α β α' β' : Type} {R S : α → β → Prop} {T : α' → β' → Prop} {a : Except Stop α}
  {b : Except Stop β} {v : α} {w : β}

theorem Passed.error (e : Stop) : Passed R (.error e) b := .inl ⟨e, rfl⟩

theorem Passed.ok (h : R v w) : Passed R (.ok v) (.ok w) := .inr ⟨v, w, rfl, rfl, h⟩

theorem Passed.imp (h : Passed R a b) (hS : ∀ v w, R v w → S v w) : Passed S a b :=
  h.imp_right fun ⟨v, w, ha, hb, hR⟩ => ⟨v, w, ha, hb, hS v w hR⟩

theorem Passed.bind {f : α → Except Stop α'} {g : β → Except Stop β'} (h : Passed R a b)
    (hf : ∀ v w, R v w → Passed T (f v) (g w)) : Passed T (a >>= f) (b >>= g) := by
  rcases h with ⟨e, rfl⟩ | ⟨v, w, rfl, rfl, hR⟩
  · exact .error e
  · exact hf v w hR

end

theorem Passed.orBreach {R S : Option Nat × Marks → Option Nat × Marks → Prop} {a b : Result}
    {may : Bool} (h : Passed R a b) (hS : ∀ v w, R v w → (v.1 = none → may = true) → S v w) :
    Passed S (orBreach may a) b := by
  rcases h with ⟨e, rfl⟩ | ⟨⟨- | k, l⟩, w, rfl, rfl, hR⟩
  · exact .error e
  · cases may with
    | false => exact .error breach
    | true => exact .inr ⟨_, w, rfl, rfl, hS _ w hR fun _ => rfl⟩
  · exact .inr ⟨_, w, rfl, rfl, hS _ w hR fun h => by cases h⟩

/-- What one array has, the other has. -/
def Agree (lc l : Marks) : Prop := ∀ i v, lc i = some v → l i = some v

theorem Agree.update {lc l : Marks} (h : Agree lc l) (n : Nat) (v : Option (Nat × Nat)) :
    Agree (Function.update lc n v) (Function.update l n v) := by
  intro i w hi
  by_cases hin : i = n
  · subst hin
    rw [Function.update_self] at hi ⊢
    exact hi
  · rw [Function.update_of_ne hin] at hi ⊢
    exact h i w hi

/-- The runs return the same, after a walk whose places were noted, or after nothing. -/
structure Noted (x : Input) (W : Walk) (ofs plus : Nat) (lc : Marks) (v w : Option Nat × Marks) :
    Prop where
  same : v.1 = w.1
  agree : Agree v.2 w.2
  failed : v.1 = none → v.2 = lc
  matched : ∀ k ∈ v.1, ∃ len ps, k = plus + len ∧ ofs + len ≤ x.text.length ∧ W ofs len ps ∧
    Inside ofs (ofs + len) ps ∧ v.2 = note ps lc

/-- Match functions with checks. -/
def PassedMatcher (x : Input) (W : Walk) (m m' : Matcher) : Prop :=
  ∀ ofs plus lc l, ofs ≤ x.text.length → Agree lc l →
    Passed (Noted x W ofs plus lc) (m ofs plus lc) (m' ofs plus l)

/-- The same for where they go on. -/
def PassedNext (x : Input) (W : Walk) : Option Matcher → Option Matcher → Prop
  | none, none => W = Walk.stay
  | some m, some m' => PassedMatcher x W m m'
  | _, _ => False

section

variable {x : Input} {V W : Walk} {ofs plus len max : Nat} {lc l : Marks} {ps : List Place}
  {next next' : Option Matcher} {v w : Option Nat × Marks} {os : List Nat} {take : List Nat → Bool}

theorem Noted.missed (h : Agree lc l) : Noted x W ofs plus lc (none, lc) (none, l) :=
  ⟨rfl, h, fun _ => rfl, fun _ hk => by cases hk⟩

theorem PassedNext.goOn (h : PassedNext x W next next') (hofs : ofs + len ≤ x.text.length)
    (hl : Agree lc l) : Passed (Noted x W (ofs + len) (plus + len) lc) (goOn next len ofs plus lc)
      (goOn next' len ofs plus l) := by
  rcases next with - | m <;> rcases next' with - | m'
  · obtain rfl : W = Walk.stay := h
    refine .ok ⟨rfl, hl, fun hno => (by cases hno), fun k hk => ?_⟩
    cases hk
    exact ⟨0, [], rfl, hofs, ⟨rfl, rfl⟩, .nil _ _, rfl⟩
  · exact h.elim
  · exact h.elim
  · exact h (ofs + len) (plus + len) lc l hofs hl

/-- A walk, and what comes behind it. -/
theorem Noted.seq (h : Noted x W (ofs + len) (plus + len) (note ps lc) v w) (hV : V ofs len ps)
    (hin : Inside ofs (ofs + len) ps) (hnone : v.1 = none → ps = []) :
    Noted x (V.seq W) ofs plus lc v w := by
  refine ⟨h.same, h.agree, fun hno => ?_, fun k hk => ?_⟩
  · rw [h.failed hno, hnone hno]
    rfl
  · obtain ⟨len', ps', rfl, hlen, hW, hin', hmarks⟩ := h.matched k hk
    refine ⟨len + len', ps ++ ps', by omega, by omega, ⟨len, ps, len', ps', hV, hW, rfl, rfl⟩, ?_, ?_⟩
    · rw [← Nat.add_assoc]
      exact hin.append hin'
    · rw [hmarks, note_append]

/-! ## Pieces -/

/-- The offsets that count, the last one first, are walks in a row. -/
def Walks (x : Input) (V : Walk) (ofs : Nat) (os : List Nat) : Prop :=
  ∀ os', os' <:+ os → ∃ ps, V.times os'.length ofs os'.sum ps ∧ Inside ofs (ofs + os'.sum) ps ∧
    ofs + os'.sum ≤ x.text.length

/-- What the first loop leaves. -/
structure WalkedOn (x : Input) (V : Walk) (ofs max : Nat) (lc : Marks)
    (v w : List Nat × Nat × Marks) : Prop where
  same : v.1 = w.1
  sum : v.2.1 = v.1.sum
  sum' : w.2.1 = v.1.sum
  agree : Agree v.2.2 w.2.2
  bound : v.1.length ≤ max
  walks : Walks x V ofs v.1
  whole : ∃ ps, V.times v.1.length ofs v.1.sum ps ∧ Inside ofs (ofs + v.1.sum) ps ∧
    v.2.2 = note ps lc

theorem greedy_noted {atom atom' : Nat → Marks → Result}
    (hatom : ∀ m lc l, ofs + m ≤ x.text.length → Agree lc l →
      Passed (Noted x V (ofs + m) 0 lc) (atom m lc) (atom' m l))
    {n : Nat} (hn : n + os.length = max) {lc' : Marks} (hl : Agree lc' l) (hrows : Walks x V ofs os)
    (hwhole : V.times os.length ofs os.sum ps) (hin : Inside ofs (ofs + os.sum) ps)
    (hmarks : lc' = note ps lc) :
    Passed (WalkedOn x V ofs max lc) (greedy atom n os.sum os lc') (greedy atom' n os.sum os l) := by
  induction n generalizing os ps lc' l with
  | zero =>
    have hle : os.length ≤ max := by omega
    exact .ok ⟨rfl, rfl, rfl, hl, hle, hrows, ps, hwhole, hin, hmarks⟩
  | succ n ih =>
    obtain ⟨-, -, -, hofs⟩ := hrows os List.suffix_rfl
    rw [greedy, greedy]
    refine (hatom os.sum lc' l hofs hl).bind fun v w hvw => ?_
    obtain ⟨o, l1⟩ := v
    obtain ⟨o', l1'⟩ := w
    obtain rfl : o = o' := hvw.same
    cases o with
    | none =>
      have hle : os.length ≤ max := by omega
      refine .ok ⟨rfl, rfl, rfl, hvw.agree, hle, hrows, ps, hwhole, hin, ?_⟩
      exact (hvw.failed rfl).trans hmarks
    | some tmp =>
      obtain ⟨len, qs, hlen, hbound, hV, hin', hmarks'⟩ := hvw.matched tmp rfl
      obtain rfl : tmp = len := by omega
      have hsum : os.sum + tmp = (tmp :: os).sum := by rw [List.sum_cons]; omega
      have hmarks'' : l1 = note (ps ++ qs) lc := by
        rw [note_append, ← hmarks]
        exact hmarks'
      have hwhole' : V.times (tmp :: os).length ofs (tmp :: os).sum (ps ++ qs) :=
        ⟨os.sum, ps, tmp, qs, hwhole, hV, hsum.symm, rfl⟩
      have hin'' : Inside ofs (ofs + (tmp :: os).sum) (ps ++ qs) := by
        rw [← hsum, ← Nat.add_assoc]
        exact hin.append hin'
      show Passed _ (greedy atom n (os.sum + tmp) (tmp :: os) l1)
        (greedy atom' n (os.sum + tmp) (tmp :: os) l1')
      rw [hsum]
      refine ih (by rw [List.length_cons]; omega) hvw.agree (fun os' hsuf => ?_) hwhole' hin'' hmarks''
      rcases List.suffix_cons_iff.mp hsuf with rfl | hsuf
      · exact ⟨ps ++ qs, hwhole', hin'', by omega⟩
      · exact hrows os' hsuf

/-- A piece, and what comes behind it. -/
def Walk.upTo (V : Walk) (max : Nat) (W : Walk) : Walk :=
  fun ofs len ps => ∃ k, k ≤ max ∧ (V.times k).seq W ofs len ps

/-- The second loop: the places of what is left are in the array, `lc'`. -/
theorem backOff_noted {rest rest' : Nat → Marks → Result} {lc' : Marks}
    (hrest : ∀ m lc l, ofs + m ≤ x.text.length → Agree lc l →
      Passed (Noted x W (ofs + m) (plus + m) lc) (rest m lc) (rest' m l))
    (hmax : os.length ≤ max) (hin : ofs + os.sum ≤ x.text.length)
    (hrows : ∀ left, left <:+ os → take left = true → ∃ ps, V.times left.length ofs left.sum ps ∧
      Inside ofs (ofs + left.sum) ps ∧ lc' = note ps lc) (hl : Agree lc' l) :
    Passed (fun v w => v.1 = w.1 ∧ Agree v.2 w.2 ∧ (v.1 = none → v.2 = lc') ∧
        (v.1 ≠ none → Noted x (V.upTo max W) ofs plus lc v w))
      (backOffKept rest take os os.sum lc') (backOff rest' os os.sum l) := by
  -- where the rest is taken
  have htaken {os : List Nat} {v w : Option Nat × Marks} (hmax : os.length ≤ max)
      (hrow : ∃ ps, V.times os.length ofs os.sum ps ∧ Inside ofs (ofs + os.sum) ps ∧ lc' = note ps lc)
      (h : Noted x W (ofs + os.sum) (plus + os.sum) lc' v w) (hv : v.1 ≠ none) :
      Noted x (V.upTo max W) ofs plus lc v w := by
    obtain ⟨ps, hps, hinside, rfl⟩ := hrow
    have hseq := h.seq hps hinside fun hno => absurd hno hv
    refine ⟨hseq.same, hseq.agree, hseq.failed, fun k hk => ?_⟩
    obtain ⟨len, qs, hlen, hbound, hW, hrest⟩ := hseq.matched k hk
    exact ⟨len, qs, hlen, hbound, ⟨os.length, hmax, hW⟩, hrest⟩
  induction os generalizing l with
  | nil =>
    rw [backOffKept, backOff]
    rcases hrest _ lc' l hin hl with ⟨e, he⟩ | ⟨⟨o, l1⟩, ⟨o', l1'⟩, hv, hw, h⟩
    · rw [he]
      exact .error e
    obtain rfl : o = o' := h.same
    rw [hv, hw]
    cases o with
    | none => exact .ok ⟨rfl, h.agree, fun _ => h.failed rfl, fun hno => absurd rfl hno⟩
    | some k =>
      show Passed _ (if take [] = true then .ok (some k, l1) else .error breach) _
      by_cases hmay : take [] = true
      · rw [if_pos hmay]
        exact .ok ⟨rfl, h.agree, fun hno => (by cases hno),
          htaken hmax (hrows [] List.suffix_rfl hmay) h⟩
      · rw [if_neg hmay]
        exact .error breach
  | cons tmp os ih =>
    rw [backOffKept, backOff]
    refine (hrest _ lc' l hin hl).bind fun v w h => ?_
    obtain ⟨o, l1⟩ := v
    obtain ⟨o', l1'⟩ := w
    obtain rfl : o = o' := h.same
    cases o with
    | none =>
      obtain rfl : l1 = lc' := h.failed rfl
      have hsub : (tmp :: os).sum - tmp = os.sum := by rw [List.sum_cons]; omega
      show Passed _ (backOffKept rest take os ((tmp :: os).sum - tmp) l1)
        (backOff rest' os ((tmp :: os).sum - tmp) l1')
      rw [hsub]
      rw [List.sum_cons] at hin
      rw [List.length_cons] at hmax
      exact ih (by omega) (by omega)
        (fun left hsuf => hrows left (List.suffix_cons_iff.mpr (.inr hsuf))) h.agree
    | some k =>
      show Passed _ (if take (tmp :: os) = true then .ok (some k, l1) else .error breach) _
      by_cases hmay : take (tmp :: os) = true
      · rw [if_pos hmay]
        exact .ok ⟨rfl, h.agree, fun hno => (by cases hno),
          htaken hmax (hrows _ List.suffix_rfl hmay) h⟩
      · rw [if_neg hmay]
        exact .error breach

/-- A piece that is not plain: an atom that notes places is not given up again. -/
theorem matchpiece_noted {a : Atom} {atom atom' : Option Matcher → Matcher} {min : Nat}
    (hatom : PassedMatcher x V (atom none) (atom' none)) (hnext : PassedNext x W next next')
    (hquiet : a.notes = false → V.Quiet) (h1 : ¬(max = 1 ∧ min = 1)) :
    PassedMatcher x (V.upTo max W) (matchpieceKept placesKept a atom min max next)
      (matchpiece atom' min max next') := by
  intro ofs plus lc l hofs hl
  rw [matchpieceKept, matchpiece, if_neg h1, if_neg h1]
  have hturns : max + ([] : List Nat).length = max := rfl
  have hstart : Walks x V ofs [] := by
    intro os' hsuf
    rw [List.suffix_nil.mp hsuf]
    exact ⟨[], ⟨rfl, rfl⟩, .nil _ _, hofs⟩
  refine (greedy_noted (fun m lc l hm hl => hatom (ofs + m) 0 lc l hm hl) hturns hl hstart
    (⟨rfl, rfl⟩ : V.times 0 ofs 0 []) (.nil _ _) rfl).bind fun v w hvw => ?_
  obtain ⟨os, m, lc'⟩ := v
  obtain ⟨os', m', l'⟩ := w
  obtain ⟨heq, hm, hm', hagree, hmax, hwalks, ps, hwhole, hin, hmarks⟩ := hvw
  dsimp only at heq hm hm' hagree hmax hwalks hwhole hin hmarks
  subst heq hm hm'
  obtain ⟨-, -, -, hbound⟩ := hwalks os List.suffix_rfl
  -- a row of atoms that note nothing left the array as it was
  have hsilent (h : a.notes = false) : lc' = lc := by
    rw [hmarks, (hquiet h).times _ _ _ _ hwhole]
    rfl
  have hgiven (hmay : allMayFail (placesKept.mayFail a) ofs os = true) : lc' = lc := by
    cases os with
    | nil =>
      obtain ⟨-, rfl⟩ : ([] : List Nat).sum = 0 ∧ ps = [] := hwhole
      exact hmarks
    | cons tmp os =>
      rw [allMayFail, Bool.and_eq_true] at hmay
      exact hsilent (by simpa [placesKept] using hmay.1)
  show Passed _ (orBreach _ (if os.length < min then _ else _)) (if os.length < min then _ else _)
  by_cases hlt : os.length < min
  · rw [if_pos hlt, if_pos hlt]
    refine (Passed.ok (R := fun v w => v = (none, lc') ∧ w = (none, l')) ⟨rfl, rfl⟩).orBreach
      fun v w hvw hmay => ?_
    obtain ⟨rfl, rfl⟩ := hvw
    have hback := hgiven (hmay rfl)
    subst hback
    exact .missed hagree
  · rw [if_neg hlt, if_neg hlt]
    have hrows (left : List Nat) (hsuf : left <:+ os)
        (htake : placesKept.mayTake a min os left = true) :
        ∃ ps, V.times left.length ofs left.sum ps ∧ Inside ofs (ofs + left.sum) ps ∧
          lc' = note ps lc := by
      obtain ⟨qs, hqs, hinside, -⟩ := hwalks left hsuf
      rcases Bool.eq_false_or_eq_true a.notes with hnotes | hnotes
      · obtain rfl : left = os := by simpa [placesKept, hnotes] using htake
        exact ⟨ps, hwhole, hin, hmarks⟩
      · refine ⟨qs, hqs, hinside, ?_⟩
        rw [(hquiet hnotes).times _ _ _ _ hqs]
        exact hsilent hnotes
    refine (backOff_noted (fun m lc l hm hl => hnext.goOn hm hl) hmax hbound hrows hagree).orBreach
      fun v w hvw hmay => ?_
    obtain ⟨hsame, hagree', hfailed, hmatched⟩ := hvw
    by_cases hno : v.1 = none
    · refine ⟨hsame, hagree', fun _ => (hfailed hno).trans (hgiven (hmay hno)), fun k hk => ?_⟩
      rw [hno] at hk
      cases hk
    · exact hmatched hno

end

/-! ## The tree -/

section

variable {x : Input} {V W : Walk} {ofs plus : Nat} {lc l : Marks} {next next' : Option Matcher}
  {a : Atom} {r : Regex}

theorem Agree.setMark {bnum : Option Nat} (h : Agree lc l) (so eo : Nat) :
    Passed (fun lc' l' => Agree lc' l' ∧ lc' = note (placeOf bnum so eo) lc) (setMark bnum so eo lc)
      (setMark bnum so eo l) := by
  cases bnum with
  | none => exact .error _
  | some n => exact .ok ⟨h.update n _, rfl⟩

/-- An atom that does not use the array. -/
theorem plain_noted (hnon : a.NonNul)
    (hwalk : ∀ ofs len, atomLength x ofs a = some len → a.walk x ofs len [])
    (hkept : ∀ next ofs plus l, matchatomKept placesKept x a next ofs plus l =
      match atomLength x ofs a with
      | some len => goOn next len ofs plus l
      | none => .ok (none, l))
    (hmatch : ∀ next ofs plus l, matchatom x a next ofs plus l =
      match atomLength x ofs a with
      | some len => goOn next len ofs plus l
      | none => .ok (none, l))
    (hnext : PassedNext x W next next') :
    PassedMatcher x ((a.walk x).seq W) (matchatomKept placesKept x a next) (matchatom x a next') := by
  intro ofs plus lc l hofs hl
  rw [hkept, hmatch]
  cases hlen : atomLength x ofs a with
  | none => exact .ok (.missed hl)
  | some len =>
    refine (hnext.goOn (atomLength_bound hnon hofs hlen) hl).imp fun v w hvw => ?_
    have hstart : Noted x W (ofs + len) (plus + len) (note [] lc) v w := hvw
    exact hstart.seq (hwalk ofs len hlen) (.nil _ _) fun _ => rfl

/-- Once is a row. -/
theorem upTo_one {len : Nat} {ps : List Place} (h : V.seq W ofs len ps) : V.upTo 1 W ofs len ps := by
  obtain ⟨len', ps', len'', ps'', hV, hW, hlen, hps⟩ := h
  have hV' : V (ofs + 0) len' ps' := hV
  refine ⟨1, le_rfl, len', ps', len'', ps'', ⟨0, [], len', ps', ⟨rfl, rfl⟩, hV', ?_, rfl⟩, hW,
    hlen, hps⟩
  omega

theorem Noted.weaken {v w : Option Nat × Marks} (h : Noted x V ofs plus lc v w)
    (hVW : ∀ ofs len ps, V ofs len ps → W ofs len ps) : Noted x W ofs plus lc v w := by
  refine ⟨h.same, h.agree, h.failed, fun k hk => ?_⟩
  obtain ⟨len, ps, hlen, hbound, hV, hrest⟩ := h.matched k hk
  exact ⟨len, ps, hlen, hbound, hVW _ _ _ hV, hrest⟩

theorem PassedMatcher.last {m m' : Matcher} (h : PassedMatcher x (V.seq Walk.stay) m m') :
    PassedMatcher x V m m' := by
  intro ofs plus lc l hofs hl
  refine (h ofs plus lc l hofs hl).imp fun v w hvw => hvw.weaken fun ofs len ps hw => ?_
  obtain ⟨len', ps', len'', ps'', hV, ⟨rfl, rfl⟩, rfl, rfl⟩ := hw
  rw [List.append_nil]
  exact hV

/-- How a regex matches, without branches too. -/
def Regex.whole (x : Input) (r : Regex) : Walk := fun ofs len ps =>
  (r = .nil ∧ len = 0 ∧ ps = []) ∨ r.walk x ofs len ps

theorem orEmpty_noted {m m' : Matcher} (hofs : ofs ≤ x.text.length) (hl : Agree lc l)
    (h : r ≠ .nil → Passed (Noted x (r.walk x) ofs 0 lc) (m ofs 0 lc) (m' ofs 0 l)) :
    Passed (Noted x (r.whole x) ofs 0 lc) (orEmpty r m ofs 0 lc) (orEmpty r m' ofs 0 l) := by
  by_cases hr : r = .nil
  · subst hr
    refine .ok ⟨rfl, hl, fun hno => (by cases hno), fun k hk => ?_⟩
    cases hk
    exact ⟨0, [], rfl, hofs, .inl ⟨rfl, rfl, rfl⟩, .nil _ _, rfl⟩
  · rw [orEmpty_cons hr, orEmpty_cons hr]
    exact (h hr).imp fun v w hvw => hvw.weaken fun _ _ _ => .inr

mutual

/-- The atoms of a tree. -/
theorem matchatom_noted : ∀ {a : Atom}, a.Fit → a.NonNul →
    ∀ {W : Walk} {next next' : Option Matcher}, PassedNext x W next next' →
      PassedMatcher x ((a.walk x).seq W) (matchatomKept placesKept x a next) (matchatom x a next')
  | .unset, _, _, _, _, _, _ => fun _ _ _ _ _ _ => .error _
  | .bar, ha, _, _, _, _, _ => ha.elim
  | .backref _, ha, _, _, _, _, _ => ha.elim
  | .empty bnum, _, _, W, next, next', hnext => fun ofs plus lc l hofs hl => by
    rw [matchatomKept, matchatom]
    have hofs' : ofs + 0 ≤ x.text.length := hofs
    have hgo {lc' l' : Marks} (hl' : Agree lc' l') (hmarks : lc' = note (placeOf bnum ofs ofs) lc) :
        Passed (Noted x ((Atom.walk x (.empty bnum)).seq W) ofs plus lc)
          (orBreach (placesKept.mayFail (.empty bnum) ofs 0) (goOn next 0 ofs plus lc'))
          (goOn next' 0 ofs plus l') := by
      subst hmarks
      refine (hnext.goOn hofs' hl').orBreach fun v w hvw hmay => ?_
      refine hvw.seq ⟨rfl, rfl⟩ (fun p hp => ?_) fun hno => ?_
      · cases bnum with
        | none => cases hp
        | some n =>
          obtain rfl := List.mem_singleton.mp hp
          exact ⟨le_rfl, le_rfl, le_rfl⟩
      · cases bnum with
        | none => rfl
        | some n => cases hmay hno
    by_cases hb : bnum = none
    · rw [if_pos hb, if_pos hb]
      exact hgo hl (by rw [hb]; rfl)
    · rw [if_neg hb, if_neg hb]
      exact (hl.setMark ofs ofs).bind fun lc' l' hl' => hgo hl'.1 hl'.2
  | .regex bnum r, ha, hnon, W, _, _, hnext => fun ofs plus lc l hofs hl => by
    rw [matchatomKept, matchatom]
    have hregex := orEmpty_noted hofs hl fun _ => matchbranches_noted ha hnon hofs hl
    refine hregex.bind fun v w hvw => ?_
    obtain ⟨o, lc'⟩ := v
    obtain ⟨o', l'⟩ := w
    obtain rfl : o = o' := hvw.same
    cases o with
    | none =>
      obtain rfl : lc' = lc := hvw.failed rfl
      exact .ok (.missed hvw.agree)
    | some len =>
      obtain ⟨len', qs, hlen, hbound, hwalk, hin, hmarks⟩ := hvw.matched len rfl
      obtain rfl : len = len' := by omega
      refine Passed.bind (hvw.agree.setMark ofs (ofs + len)) fun lc'' l'' hl'' => ?_
      have hmarks' : lc'' = note (qs ++ placeOf bnum ofs (ofs + len)) lc := by
        rw [note_append, ← hmarks]
        exact hl''.2
      subst hmarks'
      refine (hnext.goOn hbound hl''.1).orBreach fun v w h hmay => ?_
      refine h.seq ⟨qs, hwalk, rfl⟩ (fun p hp => ?_) fun hno => by cases hmay hno
      rcases List.mem_append.mp hp with hp | hp
      · exact hin p hp
      · cases bnum with
        | none => cases hp
        | some n =>
          obtain rfl := List.mem_singleton.mp hp
          exact ⟨le_rfl, Nat.le_add_right _ _, le_rfl⟩
  | .bracket _, _, hnon, _, _, _, hnext =>
    plain_noted hnon (fun _ _ h => ⟨h, rfl⟩) (fun _ _ _ _ => rfl) (fun _ _ _ _ => rfl) hnext
  | .any, _, hnon, _, _, _, hnext =>
    plain_noted hnon (fun _ _ h => ⟨h, rfl⟩) (fun _ _ _ _ => rfl) (fun _ _ _ _ => rfl) hnext
  | .lineStart, _, hnon, _, _, _, hnext =>
    plain_noted hnon (fun _ _ h => ⟨h, rfl⟩) (fun _ _ _ _ => rfl) (fun _ _ _ _ => rfl) hnext
  | .lineEnd, _, hnon, _, _, _, hnext =>
    plain_noted hnon (fun _ _ h => ⟨h, rfl⟩) (fun _ _ _ _ => rfl) (fun _ _ _ _ => rfl) hnext
  | .wordStart, _, hnon, _, _, _, hnext =>
    plain_noted hnon (fun _ _ h => ⟨h, rfl⟩) (fun _ _ _ _ => rfl) (fun _ _ _ _ => rfl) hnext
  | .wordEnd, _, hnon, _, _, _, hnext =>
    plain_noted hnon (fun _ _ h => ⟨h, rfl⟩) (fun _ _ _ _ => rfl) (fun _ _ _ _ => rfl) hnext
  | .char _, _, hnon, _, _, _, hnext =>
    plain_noted hnon (fun _ _ h => ⟨h, rfl⟩) (fun _ _ _ _ => rfl) (fun _ _ _ _ => rfl) hnext
  | .string _, _, hnon, _, _, _, hnext =>
    plain_noted hnon (fun _ _ h => ⟨h, rfl⟩) (fun _ _ _ _ => rfl) (fun _ _ _ _ => rfl) hnext

theorem nextOf_noted : ∀ {b : Branch}, b.Fit false → b.NonNul →
    PassedNext x (b.walk x) (nextOfKept placesKept x b) (nextOf x b)
  | .nil, _, _ => rfl
  | .cons a min max b, hb, hnon => by
    have ha : a.Fit := hb.1.resolve_right fun h => Bool.false_ne_true h.1
    rw [nextOfKept, nextOf]
    split
    · next h1 =>
      obtain ⟨rfl, rfl⟩ := h1
      intro ofs plus lc l hofs hl
      refine (matchatom_noted ha hnon.1 (nextOf_noted hb.2 hnon.2) ofs plus lc l hofs hl).imp
        fun v w hvw => hvw.weaken fun _ _ _ h => .inr (upTo_one h)
    · next h1 =>
      have hatom := (matchatom_noted ha hnon.1 (show PassedNext x _ none none from rfl)).last
      intro ofs plus lc l hofs hl
      refine (matchpiece_noted hatom (nextOf_noted hb.2 hnon.2) quiet_of_notes
        (fun h => h1 h.symm) ofs plus lc l hofs hl).imp fun v w hvw => hvw.weaken fun _ _ _ => .inr

theorem matchbranch_noted : ∀ {b : Branch}, b.Fit true → b.NonNul → ∀ {ofs : Nat} {lc l : Marks},
    ofs ≤ x.text.length → Agree lc l →
      Passed (Noted x (b.walk x) ofs 0 lc) (matchbranchKept placesKept x b ofs 0 lc)
        (matchbranch x b ofs 0 l)
  | .nil, _, _, _, _, _, hofs, hl => by
    refine .ok ⟨rfl, hl, fun hno => (by cases hno), fun k hk => ?_⟩
    cases hk
    exact ⟨0, [], rfl, hofs, ⟨rfl, rfl⟩, .nil _ _, rfl⟩
  | .cons a min max b, hb, hnon, ofs, lc, l, hofs, hl => by
    rw [matchbranchKept, matchbranch]
    have hpiece : Passed (Noted x ((Branch.cons a min max b).walk x) ofs 0 lc)
        (matchpieceKept placesKept a (matchatomKept placesKept x a) min max
          (nextOfKept placesKept x b) ofs 0 lc)
        (matchpiece (matchatom x a) min max (nextOf x b) ofs 0 l) := by
      rcases hb.1 with ha | ⟨-, rfl, rfl, rfl⟩
      · by_cases h1 : max = 1 ∧ min = 1
        · obtain ⟨rfl, rfl⟩ := h1
          rw [matchpieceKept, matchpiece, if_pos ⟨rfl, rfl⟩, if_pos ⟨rfl, rfl⟩]
          exact (matchatom_noted ha hnon.1 (nextOf_noted hb.2 hnon.2) ofs 0 lc l hofs hl).imp
            fun v w hvw => hvw.weaken fun _ _ _ h => .inr (upTo_one h)
        · have hatom := (matchatom_noted ha hnon.1 (show PassedNext x _ none none from rfl)).last
          exact (matchpiece_noted hatom (nextOf_noted hb.2 hnon.2) quiet_of_notes h1
            ofs 0 lc l hofs hl).imp fun v w hvw => hvw.weaken fun _ _ _ => .inr
      · refine .ok ⟨rfl, hl, fun hno => (by cases hno), fun k hk => ?_⟩
        cases hk
        exact ⟨0, [], rfl, hofs, .inl ⟨rfl, rfl, rfl⟩, .nil _ _, rfl⟩
    refine hpiece.bind fun v w hvw => ?_
    obtain ⟨o, lc'⟩ := v
    obtain ⟨o', l'⟩ := w
    obtain rfl : o = o' := hvw.same
    cases o with
    | none => exact .ok ⟨rfl, hvw.agree, fun _ => hvw.failed rfl, fun k hk => by cases hk⟩
    | some k =>
      show Passed _ (.ok (some (0 + k), lc')) (.ok (some (0 + k), l'))
      rw [Nat.zero_add]
      exact .ok hvw

theorem matchbranches_noted : ∀ {r : Regex}, r.Fit → r.NonNul → ∀ {ofs : Nat} {lc l : Marks},
    ofs ≤ x.text.length → Agree lc l →
      Passed (Noted x (r.walk x) ofs 0 lc) (matchbranchesKept placesKept x r ofs 0 lc)
        (matchbranches x r ofs 0 l)
  | .nil, _, _, _, _, _, _, hl => .ok (.missed hl)
  | .cons b r, hr, hnon, ofs, lc, l, hofs, hl => by
    rw [matchbranchesKept, matchbranches]
    refine (matchbranch_noted hr.1 hnon.1 hofs hl).bind fun v w hvw => ?_
    obtain ⟨o, lc'⟩ := v
    obtain ⟨o', l'⟩ := w
    obtain rfl : o = o' := hvw.same
    cases o with
    | none =>
      obtain rfl : lc' = lc := hvw.failed rfl
      exact (matchbranches_noted hr.2 hnon.2 hofs hvw.agree).imp
        fun v w h => h.weaken fun _ _ _ => .inr
    | some k =>
      show Passed _ (.ok (some (0 + k), lc')) (.ok (some (0 + k), l'))
      rw [Nat.zero_add]
      exact .ok (hvw.weaken fun _ _ _ => .inl)

end

end

theorem matchregex_noted {x : Input} {r : Regex} (hfit : r.Fit) (hnon : r.NonNul) {ofs : Nat}
    {lc l : Marks} (hofs : ofs ≤ x.text.length) (hl : Agree lc l) :
    Passed (Noted x (r.whole x) ofs 0 lc) (matchregexKept placesKept x r ofs 0 lc)
      (matchregex x r ofs 0 l) :=
  orEmpty_noted hofs hl fun _ => matchbranches_noted hfit hnon hofs hl

end Dietlibc.Rx
