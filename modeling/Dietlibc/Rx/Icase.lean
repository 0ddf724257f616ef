import Dietlibc.Rx.Recased

/-!
# The parser without case

Two patterns that differ in case only are parsed in step: the results are found at the same places, the
groups are counted alike, and the trees are the same but for strings with upper-case letters.
-/

namespace Dietlibc.Rx

open Shell (tolower isdigit isupper star dash period quest lbracket backslash rbracket)

variable {fl : Cflags} {first : Bool} {p p' s s' t t' e e' : Ptr} {c c' : UInt8}
  {a a' old old' : Atom} {n d fuel : Nat} {x y : Cc}
  {rec : Ptr → Nat → Except Stop (Regex × Ptr × Nat)}

/-! ## Trees -/

/-- An atom that is neither a group nor a back reference. -/
def Atom.single : Atom → Bool
  | .regex _ _ | .backref _ => false
  | _ => true

mutual

/-- The same atom, but for strings with upper-case letters. -/
inductive SameAtom : Atom → Atom → Prop where
  | single {a : Atom} (h : a.single = true) : SameAtom a a
  | dead {l l' : List UInt8} (h : l.any isupper = true) (h' : l'.any isupper = true) :
    SameAtom (.string l) (.string l')
  | regex {bnum : Option Nat} {r r' : Regex} (h : SameRegex r r') :
    SameAtom (.regex bnum r) (.regex bnum r')

inductive SameBranch : Branch → Branch → Prop where
  | nil : SameBranch .nil .nil
  | cons {a a' : Atom} {min max : Nat} {b b' : Branch} (ha : SameAtom a a') (hb : SameBranch b b') :
    SameBranch (.cons a min max b) (.cons a' min max b')

inductive SameRegex : Regex → Regex → Prop where
  | nil : SameRegex .nil .nil
  | cons {b b' : Branch} {r r' : Regex} (hb : SameBranch b b') (hr : SameRegex r r') :
    SameRegex (.cons b r) (.cons b' r')

end

theorem SameAtom.stale (h : SameAtom a a') : SameAtom a.stale a'.stale := by
  cases h with
  | single h =>
    cases a with
    | regex | backref => cases h
    | _ => exact .single rfl
  | dead h h' => exact .dead h h'
  | regex h => exact .regex h

theorem starts_length (h : Starts fl p p' s s') : s.length ≤ p.length := by
  induction h with
  | here => exact le_rfl
  | piece h hp hp' hlen ih =>
    have := pieceAt_length hp
    omega
  | bar h ih | group h ih =>
    simp only [List.length_cons] at ih
    omega

/-- There is no run in a short pattern. -/
theorem sameRuns_short (h : p.length ≤ 2) : SameRuns fl p p' := by
  intro s s' c c' t t' hs hl hl' hrun
  have hlen := starts_length hs
  have hle := runLength_le t
  have hlt : t.length < s.length := by
    rcases hl with ⟨rfl, -⟩ | ⟨rfl, -⟩ <;> simp
  omega

/-- A literal, or the run that starts with it. -/
theorem Recased.handleChar (hi : fl.icase = true) (hc : tolower c = tolower c')
    (ht : Recased t t')
    (hrun : 2 < Rx.runLength t → ((c :: t).take (Rx.runLength t)).any isupper =
      ((c' :: t').take (Rx.runLength t')).any isupper) :
    SameAtom (handleChar fl c t).1 (handleChar fl c' t').1 ∧
      Recased (handleChar fl c t).2 (handleChar fl c' t').2 := by
  have hlen := ht.runLength
  by_cases h : Rx.runLength t ≤ 2
  · rw [handleChar_char h, handleChar_char (hlen ▸ h)]
    simp only [hi, if_true, hc]
    exact ⟨.single rfl, ht⟩
  have h : 2 < Rx.runLength t := by omega
  have hany := hrun h
  rw [← hlen] at hany
  simp only [Rx.handleChar, if_pos h, ← hlen]
  have hle := runLength_le_run t
  generalize Rx.runLength t = i at h hany hle ⊢
  obtain ⟨i, rfl⟩ : ∃ j, i = j + 1 := ⟨i - 1, by omega⟩
  obtain ⟨hmap, hdrop⟩ := ht.run.2 i (by omega)
  refine ⟨?_, hdrop⟩
  have hmap : ((c :: t).take (i + 1)).map tolower = ((c' :: t').take (i + 1)).map tolower := by
    simp only [List.take_succ_cons, List.map_cons, hmap, hc]
  by_cases hup : ((c :: t).take (i + 1)).any isupper = true
  · exact .dead hup (hany ▸ hup)
  · rw [Bool.not_eq_true] at hup
    rw [eq_of_map_tolower hmap hup (hany ▸ hup)]
    exact .single rfl

/-! ## Runs of the parser -/

/-- Both stop for the same reason, or both end with related results. -/
def Alike {α β : Type} (R : α → β → Prop) : Except Stop α → Except Stop β → Prop
  | .ok v, .ok w => R v w
  | .error f, .error g => f = g
  | _, _ => False

theorem alike_cases {α β : Type} {R : α → β → Prop} {v : Except Stop α} {w : Except Stop β}
    (h : Alike R v w) : (∃ f, v = .error f ∧ w = .error f) ∨
      ∃ i j, v = .ok i ∧ w = .ok j ∧ R i j := by
  rcases v with f | i <;> rcases w with g | j
  · exact .inl ⟨f, rfl, congrArg _ (Eq.symm h)⟩
  · exact h.elim
  · exact h.elim
  · exact .inr ⟨i, j, rfl, rfl, h⟩

theorem alike_bind {α β α' β' : Type} {R : α → β → Prop} {S : α' → β' → Prop} {v : Except Stop α}
    {w : Except Stop β} {f : α → Except Stop α'} {g : β → Except Stop β'} (h : Alike R v w)
    (hf : ∀ i j, R i j → Alike S (f i) (g j)) : Alike S (v >>= f) (w >>= g) := by
  rcases alike_cases h with ⟨e, rfl, rfl⟩ | ⟨i, j, rfl, rfl, hij⟩
  · rfl
  · exact hf i j hij

theorem alike_same {α β α' : Type} {S : α' → β → Prop} (v : Except Stop α)
    {f : α → Except Stop α'} {g : α → Except Stop β} (hf : ∀ i, Alike S (f i) (g i)) :
    Alike S (v >>= f) (v >>= g) := by
  rcases v with e | i
  · rfl
  · exact hf i

/-- What was found, and where the pattern goes on. -/
def SameFound {α : Type} (R : α → α → Prop) : Option (α × Ptr) → Option (α × Ptr) → Prop
  | some (v, e), some (w, e') => R v w ∧ Recased e e'
  | none, none => True
  | _, _ => False

/-! ### Bracket expressions -/

/-- What follows the member `c` of a bracket expression. -/
def bracketRest (fl : Cflags) (c : UInt8) (t : Ptr) (x : Cc) : Except Stop (Option (Cc × Ptr)) :=
  match t with
  | d :: e :: u =>
    if d = dash ∧ e ≠ rbracket then do
      let x ← setRange fl (schar c + 1) (schar e - schar c).toNat x
      if u.head? = some rbracket then .ok (some (x, u.tail)) else bracketLoop fl u x
    else if d = rbracket then .ok (some (x, e :: u)) else bracketLoop fl (d :: e :: u) x
  | [d] =>
    if d = dash then .error .fault
    else if d = rbracket then .ok (some (x, [])) else bracketLoop fl [d] x
  | [] => .ok none

theorem bracketLoop_cons :
    bracketLoop fl (c :: t) x = setcc x (foldInt fl (schar c)) >>= bracketRest fl c t := by
  rw [bracketLoop]
  rfl

theorem bracketRest_closed : bracketRest fl c (rbracket :: t) x = .ok (some (x, t)) := by
  rcases t with - | ⟨e, u⟩
  · rfl
  · rw [bracketRest, if_neg (by rintro ⟨h, -⟩; exact absurd h (by decide)), if_pos rfl]

theorem bracketRest_more (ht : t ≠ []) (hn : t.head? ≠ some rbracket)
    (hr : ∀ e u, t = dash :: e :: u → e = rbracket) (hd : t ≠ [dash]) :
    bracketRest fl c t x = bracketLoop fl t x := by
  rcases t with - | ⟨b, - | ⟨e, u⟩⟩
  · exact absurd rfl ht
  · rw [bracketRest, if_neg (fun h => hd (by rw [h])), if_neg (fun h => hn (by rw [h]; rfl))]
  · rw [bracketRest, if_neg, if_neg (fun h => hn (by rw [h]; rfl))]
    rintro ⟨rfl, he⟩
    exact he (hr e u rfl)

theorem foldInt_recased (hi : fl.icase = true) (hc : tolower c = tolower c') :
    foldInt fl (schar c) = foldInt fl (schar c') := by
  have hfold (c : UInt8) : tolowerInt (schar c) = schar (tolower c) := by
    rw [schar_eq, schar_eq, tolower_toNat]
    have := c.toNat_lt
    unfold tolowerInt
    split <;> split <;> split <;> omega
  simp only [foldInt, hi, if_true]
  rw [hfold, hfold, hc]

theorem MembersRecased.head (h : MembersRecased t t') (hd : Caseless c) :
    t.head? = some c ↔ t'.head? = some c := by
  cases h with
  | nil => exact Iff.rfl
  | member hc hr ht =>
    next b b' u u' =>
    simp only [List.head?_cons, Option.some.injEq]
    constructor
    · rintro rfl
      exact (hd b').mp hc
    · rintro rfl
      exact (hd b).mp hc.symm
  | range he ht => exact Iff.rfl

theorem caseless_rbracket : Caseless rbracket := caseless_of (.inr (.inl (by decide)))

theorem caseless_dash : Caseless dash := caseless_of (.inl (by decide))

/-- The members of a bracket expression are the same. -/
theorem MembersRecased.bracketLoop (hi : fl.icase = true) {k : Nat} :
    ∀ {t t' : Ptr} {x : Cc}, t.length ≤ k → MembersRecased t t' →
      Alike (SameFound Eq) (bracketLoop fl t x) (bracketLoop fl t' x) := by
  induction k with
  | zero =>
    intro t t' x hk h
    obtain rfl := List.length_eq_zero_iff.mp (by omega : t.length = 0)
    cases h
    trivial
  | succ k ih =>
    intro t t' x hk h
    cases h with
    | nil => trivial
    | member hc hr ht =>
      next c c' t t' =>
      rw [bracketLoop_cons, bracketLoop_cons, foldInt_recased hi hc]
      refine alike_same _ fun x => ?_
      cases ht with
      | closed ht =>
        rw [bracketRest_closed, bracketRest_closed]
        exact ⟨rfl, ht⟩
      | more hn ht =>
        have hlen := ht.length_eq
        have hn' : t'.head? ≠ some rbracket := fun h => hn ((ht.head caseless_rbracket).mpr h)
        by_cases hnil : t = []
        · subst hnil
          cases ht
          trivial
        have hnil' : t' ≠ [] := by
          rintro rfl
          exact hnil (List.length_eq_zero_iff.mp hlen)
        by_cases hdash : t = [dash]
        · subst hdash
          obtain ⟨b, rfl⟩ := List.length_eq_one_iff.mp hlen.symm
          obtain rfl := Option.some.inj ((ht.head caseless_dash).mp rfl)
          rfl
        have hdash' : t' ≠ [dash] := by
          rintro rfl
          obtain ⟨b, rfl⟩ := List.length_eq_one_iff.mp hlen
          exact hdash (congrArg (· :: []) (Option.some.inj ((ht.head caseless_dash).mpr rfl)))
        have hr' : ∀ e u, t' = dash :: e :: u → e = rbracket := by
          rintro e u rfl
          cases ht with
          | range he ht => exact hr _ _ rfl
          | member hc hr'' ht =>
            next b v =>
            obtain rfl := (caseless_dash b).mp hc.symm
            cases ht with
            | closed ht => rfl
            | more hn ht =>
              have hlen := ht.length_eq
              rcases v with - | ⟨e', v⟩
              · cases hlen
              · exact absurd (congrArg some (hr _ _ rfl)) hn
        rw [bracketRest_more hnil hn hr hdash, bracketRest_more hnil' hn' hr' hdash']
        exact ih (by simpa using hk) ht
    | range he ht =>
      next c e t t' =>
      rw [bracketLoop_cons, bracketLoop_cons]
      refine alike_same _ fun x => ?_
      simp only [bracketRest, he, ne_eq, not_false_eq_true, and_self, if_true]
      refine alike_same _ fun x => ?_
      cases ht with
      | closed ht => exact ⟨rfl, ht⟩
      | more hn ht =>
        rw [if_neg hn, if_neg (fun h => hn ((ht.head caseless_rbracket).mpr h))]
        simp only [List.length_cons] at hk
        exact ih (by omega) ht

theorem Recased.parsebracketed (hi : fl.icase = true) (h : Recased s s')
    (hs : s.head? = some lbracket) :
    Alike (SameFound Eq) (parsebracketed fl s) (parsebracketed fl s') := by
  cases h with
  | nil => cases hs
  | char hc hb hl ht => exact absurd (Option.some.inj hs) hl
  | escapeEnd => exact absurd (Option.some.inj hs) (by decide)
  | escape hd ht => exact absurd (Option.some.inj hs) (by decide)
  | bracket hn ht =>
    have hn' := (ht.head (caseless_of (c := caret) (.inr (.inl (by decide))))).not.mp hn
    simp only [Rx.parsebracketed, ne_eq, not_true_eq_false, if_false, hn, hn']
    exact ht.bracketLoop hi le_rfl
  | negated ht =>
    simp only [Rx.parsebracketed, ne_eq, not_true_eq_false, if_false, List.head?_cons, if_true,
      List.tail_cons]
    refine alike_bind (ht.bracketLoop hi le_rfl) fun o o' ho => ?_
    rcases o with - | ⟨x, e⟩ <;> rcases o' with - | ⟨y, e'⟩
    · trivial
    · exact ho.elim
    · exact ho.elim
    · exact ⟨congrArg (List.map (~~~ ·)) ho.1, ho.2⟩

/-! ### Atoms and pieces -/

/-- What `parseregex` and `parsebranch` return. -/
structure SameParsed {α : Type} (R : α → α → Prop) (v w : α × Ptr × Nat) : Prop where
  tree : R v.1 w.1
  rest : Recased v.2.1 w.2.1
  brackets : v.2.2 = w.2.2

/-- The parser of the groups on patterns shorter than `d`. -/
def SameGroups (fl : Cflags) (p p' : Ptr) (d : Nat)
    (rec : Ptr → Nat → Except Stop (Regex × Ptr × Nat)) : Prop :=
  ∀ {s s'} n, s.length < d → Starts fl p p' s s' → Recased s s' →
    Alike (SameParsed SameRegex) (rec s n) (rec s' n)

/-- What `parseatom` and `parsepiece` return. -/
def SameAnswer {α : Type} (R : α → α → Prop) (v w : Found α) : Prop :=
  SameFound R v.1 w.1 ∧ v.2 = w.2

theorem Recased.closebracket (hext : fl.extended = true) (h : Recased s s') :
    closebracket fl s = closebracket fl s' := by
  rw [Bool.eq_iff_iff, closebracket_extended hext, closebracket_extended hext]
  exact h.head (caseless_of (.inl (by decide)))

theorem sameParseGroup (hext : fl.extended = true) (hrec : SameGroups fl p p' d rec)
    (hd : t.length < d) (hs : Starts fl p p' t t') (h : Recased t t') :
    Alike (SameAnswer SameAtom) (parseGroup rec fl t n) (parseGroup rec fl t' n) := by
  have hclose := h.head (c := rparen) (caseless_of (.inl (by decide)))
  unfold parseGroup
  by_cases hne : t.head? = some rparen
  · simp only [if_pos hne, if_pos (hclose.mp hne)]
    exact ⟨⟨.single rfl, h.tail hne (by decide) (by decide)⟩, rfl⟩
  simp only [if_neg hne, if_neg (hclose.not.mp hne)]
  refine alike_bind (hrec (n + 1) hd hs h) fun ⟨r, e, m⟩ ⟨r', e', m'⟩ hv => ?_
  obtain rfl : m = m' := hv.brackets
  have hc := hv.rest.closebracket hext
  simp only at hc
  simp only [← hc, hext, if_true]
  by_cases hce : closebracket fl e = true
  · rw [if_pos hce, if_pos hce, List.drop_one, List.drop_one]
    have he := (closebracket_extended hext e).mp hce
    exact ⟨⟨.regex hv.tree, hv.rest.tail he (by decide) (by decide)⟩, rfl⟩
  · rw [if_neg hce, if_neg hce]
    exact ⟨trivial, rfl⟩

/-- The atoms at two such places are the same. -/
theorem sameParseatom (hext : fl.extended = true) (hi : fl.icase = true)
    (hruns : SameRuns fl p p') (hrec : SameGroups fl p p' d rec) (hd : s.length ≤ d)
    (hs : Starts fl p p' s s') (h : Recased s s') (ho : SameAtom old old') :
    Alike (SameAnswer SameAtom) (parseatom rec fl old s n) (parseatom rec fl old' s' n) := by
  have hliteral {c c' : UInt8} {t t' : Ptr} (hc : tolower c = tolower c') (ht : Recased t t')
      (hl : LiteralAt s c t) (hl' : LiteralAt s' c' t') :
      Alike (SameAnswer SameAtom) (parseatom rec fl old s n) (parseatom rec fl old' s' n) := by
    rw [parseatom_literal hext hl, parseatom_literal hext hl']
    exact ⟨ht.handleChar hi hc (hruns s s' c c' t t' hs hl hl'), rfl⟩
  have hbracket {t t' : Ptr} (h : Recased (lbracket :: t) (lbracket :: t')) :
      Alike (SameAnswer SameAtom) (parseatom rec fl old (lbracket :: t) n)
        (parseatom rec fl old' (lbracket :: t') n) := by
    rw [parseatom_bracket, parseatom_bracket]
    refine alike_bind (h.parsebracketed hi rfl) fun o o' ho => ?_
    rcases o with - | ⟨x, e⟩ <;> rcases o' with - | ⟨y, e'⟩
    · exact ⟨trivial, rfl⟩
    · exact ho.elim
    · exact ho.elim
    · obtain ⟨rfl, he⟩ := ho
      exact ⟨⟨.single rfl, he⟩, rfl⟩
  have hh := h
  cases h with
  | nil => exact ⟨trivial, rfl⟩
  | escapeEnd => exact ⟨⟨ho.stale, .nil⟩, rfl⟩
  | bracket hn ht => exact hbracket hh
  | negated ht => exact hbracket hh
  | escape hd' ht =>
    next b b' t t' =>
    by_cases hl : b = less
    · subst hl
      obtain rfl := (caseless_of (.inl (by decide)) b').mp hd'
      exact ⟨⟨.single rfl, ht⟩, rfl⟩
    by_cases hg : b = greater
    · subst hg
      obtain rfl := (caseless_of (.inl (by decide)) b').mp hd'
      exact ⟨⟨.single rfl, ht⟩, rfl⟩
    have hne {x : UInt8} (hx : Caseless x) (h : b ≠ x) : b' ≠ x := by
      rintro rfl
      exact h ((hx b).mp hd'.symm)
    exact hliteral hd' ht (.inr ⟨rfl, hl, hg⟩)
      (.inr ⟨rfl, hne (caseless_of (.inl (by decide))) hl, hne (caseless_of (.inl (by decide))) hg⟩)
  | char hc hb hl ht =>
    next c c' t t' =>
    by_cases hspecial : IsLiteral c
    · refine hliteral hc ht (.inl ⟨rfl, hspecial⟩) (.inl ⟨rfl, fun hc' => hspecial ?_⟩)
      have hc'' : c = c' := by
        refine (caseless_of ?_ c).mp hc.symm
        simp only [List.mem_cons, List.not_mem_nil, or_false] at hc'
        rcases hc' with rfl | rfl | rfl | rfl | rfl | rfl | rfl | rfl <;> decide
      rwa [hc'']
    · simp only [IsLiteral, not_not, List.mem_cons, List.not_mem_nil, or_false] at hspecial
      have hc' : c' = c := by
        refine (caseless_of ?_ c').mp hc
        rcases hspecial with rfl | rfl | rfl | rfl | rfl | rfl | rfl | rfl <;> decide
      subst hc'
      rcases hspecial with rfl | rfl | rfl | rfl | rfl | rfl | rfl | rfl
      · rw [parseatom_group hext, parseatom_group hext]
        exact sameParseGroup hext hrec (by simpa using hd) (.group hs) ht
      · rw [parseatom_close hext, parseatom_close hext]
        exact ⟨trivial, rfl⟩
      · rw [parseatom_bar, parseatom_bar]
        exact ⟨trivial, rfl⟩
      · exact absurd rfl hl
      · exact ⟨⟨.single rfl, ht⟩, rfl⟩
      · exact ⟨⟨.single rfl, ht⟩, rfl⟩
      · exact ⟨⟨.single rfl, ht⟩, rfl⟩
      · exact absurd rfl hb

/-- The atom of a piece, and its bounds. -/
def SamePiece (v w : Atom × Nat × Nat) : Prop := SameAtom v.1 w.1 ∧ v.2 = w.2

theorem sameParsepiece (hext : fl.extended = true) (hi : fl.icase = true)
    (hruns : SameRuns fl p p') (hrec : SameGroups fl p p' d rec) (hd : s.length ≤ d)
    (hs : Starts fl p p' s s') (h : Recased s s') (ho : SameAtom old old') :
    Alike (SameAnswer SamePiece) (parsepiece rec fl old s n) (parsepiece rec fl old' s' n) := by
  unfold parsepiece
  refine alike_bind (sameParseatom hext hi hruns hrec hd hs h ho) fun ⟨o, m⟩ ⟨o', m'⟩ ha => ?_
  obtain ⟨ha, hm⟩ := ha
  rcases o with - | ⟨a, t⟩ <;> rcases o' with - | ⟨a', t'⟩
  · exact ⟨trivial, hm⟩
  · exact ha.elim
  · exact ha.elim
  · obtain ⟨ha, ht⟩ := ha
    rcases ht.repetition with ⟨h, h'⟩ | ⟨min, max, e, e', h, h', he⟩
    · simp only at h h' ⊢
      simp only [Option.bind_eq_bind, Option.bind_some, h, h', Option.bind_none]
      exact ⟨trivial, hm⟩
    · simp only at h h' ⊢
      simp only [Option.bind_eq_bind, Option.bind_some, h, h']
      exact ⟨⟨⟨ha, rfl⟩, he⟩, hm⟩

/-! ### Branches -/

/-- Where a branch ends, an atom may start. -/
def SameBranches (fl : Cflags) (p p' : Ptr) (v w : Branch × Ptr × Nat) : Prop :=
  SameParsed SameBranch v w ∧ Starts fl p p' v.2.1 w.2.1

theorem Recased.bar (h : Recased (bar :: t) s') : ∃ t', s' = bar :: t' ∧ Recased t t' := by
  cases h with
  | char hc hb hl ht =>
    next c' t' =>
    obtain rfl := (caseless_of (.inr (.inr (by decide))) c').mp hc
    exact ⟨t', rfl, ht⟩

theorem sameParsebranch (hext : fl.extended = true) (hi : fl.icase = true)
    (hruns : SameRuns fl p p') (hread : Reader fl d rec) (hrec : SameGroups fl p p' d rec)
    (hd : s.length ≤ d) (hs : Starts fl p p' s s') (h : Recased s s') (ho : SameAtom old old') :
    Alike (SameBranches fl p p') (parsebranch rec fl fuel first old s n)
      (parsebranch rec fl fuel first old' s' n) := by
  induction fuel generalizing first s s' old old' n with
  | zero => rfl
  | succ fuel ih =>
    have hlen := h.length_eq
    have hhead := h.head (c := bar) (caseless_of (.inr (.inr (by decide))))
    -- behind a piece
    have hrest {a a' : Atom} {u u' : Ptr} (k : Nat) (hu : u.length < s.length)
        (hsu : Starts fl p p' u u') (hru : Recased u u') (ha : SameAtom a a') :
        Alike (SameBranches fl p p') (branchRest rec fl fuel a u k)
          (branchRest rec fl fuel a' u' k) := by
      unfold branchRest
      have hiff := hru.head (c := bar) (caseless_of (.inr (.inr (by decide))))
      by_cases hbar : u.head? = some bar
      · rw [if_pos hbar, if_pos (hiff.mp hbar)]
        exact ⟨⟨.nil, hru, rfl⟩, hsu⟩
      · rw [if_neg hbar, if_neg (hiff.not.mp hbar)]
        exact ih (by omega) hsu hru ha
    have hcons {min max : Nat} {a a' : Atom} (ha : SameAtom a a') {v w : Branch × Ptr × Nat}
        (hv : SameBranches fl p p' v w) : Alike (SameBranches fl p p')
          (.ok (.cons a min max v.1, v.2)) (.ok (.cons a' min max w.1, w.2)) :=
      ⟨⟨.cons ha hv.1.tree, hv.1.rest, hv.1.brackets⟩, hv.2⟩
    by_cases hbar : first = true ∧ s.head? = some bar
    · obtain ⟨rfl, hsb⟩ := hbar
      obtain ⟨t, rfl⟩ := List.head?_eq_some_iff.mp hsb
      obtain ⟨t', rfl, ht⟩ := h.bar
      rw [parsebranch_bar, parsebranch_bar]
      exact alike_bind (hrest n (by simp) (.bar hs) ht (.single rfl)) fun v w hv =>
        hcons (.single rfl) hv
    have hfirst : first = false ∨ s.head? ≠ some bar := by
      rcases first with - | -
      · exact .inl rfl
      · exact .inr fun hs => hbar ⟨rfl, hs⟩
    have hfirst' : first = false ∨ s'.head? ≠ some bar := hfirst.imp id hhead.not.mp
    rcases alike_cases (sameParsepiece (n := n) hext hi hruns hrec hd hs h ho) with
      ⟨f, hp, hp'⟩ | ⟨⟨o, m⟩, ⟨o', m'⟩, hp, hp', ho, hm⟩
    · have hbar' : ¬ (first = true ∧ s'.head? = some bar) := fun h => hbar ⟨h.1, hhead.mpr h.2⟩
      rw [parsebranch, parsebranch, if_neg hbar, if_neg hbar', hp, hp']
      rfl
    obtain rfl : m = m' := hm
    rcases o with - | ⟨⟨a, min, max⟩, u⟩ <;> rcases o' with - | ⟨⟨a', min', max'⟩, u'⟩
    · rw [parsebranch_none hfirst hp, parsebranch_none hfirst' hp']
      exact ⟨⟨.nil, h, rfl⟩, hs⟩
    · exact ho.elim
    · exact ho.elim
    · obtain ⟨⟨ha, hmm⟩, hu⟩ := ho
      cases hmm
      obtain ⟨t, hat, hrep⟩ := parsepiece_sound hext hread hd hp
      obtain ⟨t', hat', hrep'⟩ := parsepiece_sound hext hread (hlen ▸ hd) hp'
      have hpiece : PieceAt fl s u := ⟨a, t, n, m, min, max, hat, hrep⟩
      have hpiece' : PieceAt fl s' u' := ⟨a', t', n, m, min, max, hat', hrep'⟩
      rw [parsebranch_piece hfirst hp, parsebranch_piece hfirst' hp']
      exact alike_bind (hrest m (pieceAt_length hpiece) (.piece hs hpiece hpiece' hu.length_eq) hu ha)
        fun v w hv => hcons ha hv

/-! ### The whole regex -/

theorem sameRegexLoop (hext : fl.extended = true) (hi : fl.icase = true)
    (hruns : SameRuns fl p p') (hread : Reader fl d rec) (hrec : SameGroups fl p p' d rec)
    (hd : s.length ≤ d) (hs : Starts fl p p' s s') (h : Recased s s') :
    Alike (SameParsed SameRegex) (regexLoop rec fl fuel s n) (regexLoop rec fl fuel s' n) := by
  induction fuel generalizing s s' n with
  | zero => rfl
  | succ fuel ih =>
    have hlen := h.length_eq
    have hhead := h.head (c := rparen) (caseless_of (.inl (by decide)))
    have hbranch : Alike (SameBranches fl p p') (parsebranch rec fl (s.length + 1) true .unset s n)
        (parsebranch rec fl (s.length + 1) true .unset s' n) :=
      sameParsebranch hext hi hruns hread hrec hd hs h (.single rfl)
    rcases alike_cases hbranch with ⟨f, hb, hb'⟩ | ⟨⟨b, t, m⟩, ⟨b', t', m'⟩, hb, hb', hv, hst⟩
    · rw [hlen] at hb'
      rw [regexLoop, regexLoop, hb, hb']
      rfl
    rw [hlen] at hb'
    obtain rfl : m = m' := hv.brackets
    have ht : Recased t t' := hv.rest
    have hlent := ht.length_eq
    have hfound := parsebranch_sound hext hread hd (.inl rfl) hb
    have hfound' := parsebranch_sound hext hread (hlen ▸ hd) (.inl rfl) hb'
    by_cases hclose : s.head? = some rparen
    · rw [regexLoop_empty hext hb hclose, regexLoop_empty hext hb' (hhead.mp hclose)]
      exact ⟨.cons .nil .nil, h, rfl⟩
    have hclose' := hhead.not.mp hclose
    rcases hfound.progress with ⟨rfl, -⟩ | ⟨-, hlt⟩
    · obtain rfl : t' = s' := by
        rcases hfound'.progress with ⟨he, -⟩ | ⟨-, hlt⟩
        · exact he
        · omega
      rw [regexLoop_stop hext hb hclose, regexLoop_stop hext hb' hclose']
      exact ⟨.nil, h, rfl⟩
    have hts : t ≠ s := fun hts => by
      rw [hts] at hlt
      omega
    have hts' : t' ≠ s' := fun hts => by
      rw [hts] at hlent
      omega
    have hend := ht.head (c := rparen) (caseless_of (.inl (by decide)))
    by_cases hct : t.head? = some rparen
    · rw [regexLoop_closed hext hb hts hclose hct,
        regexLoop_closed hext hb' hts' hclose' (hend.mp hct)]
      exact ⟨.cons hv.tree .nil, ht, rfl⟩
    rw [regexLoop_more hext hb hts hclose hct,
      regexLoop_more hext hb' hts' hclose' (hend.not.mp hct)]
    have hcons (v w : Regex × Ptr × Nat) (hw : SameParsed SameRegex v w) :
        Alike (SameParsed SameRegex) (.ok (.cons b v.1, v.2)) (.ok (.cons b' w.1, w.2)) :=
      ⟨.cons hv.tree hw.tree, hw.rest, hw.brackets⟩
    refine alike_bind ?_ hcons
    have hiff := ht.head (c := bar) (caseless_of (.inr (.inr (by decide))))
    by_cases hbar : t.head? = some bar
    · rw [if_pos hbar, if_pos (hiff.mp hbar)]
      obtain ⟨u, rfl⟩ := List.head?_eq_some_iff.mp hbar
      obtain ⟨u', rfl, hu⟩ := ht.bar
      simp only [List.length_cons] at hlt
      exact ih (by simp only [List.tail_cons]; omega) (.bar hst) hu
    · rw [if_neg hbar, if_neg (hiff.not.mp hbar)]
      exact ih (by omega) hst ht

theorem sameGroups (hext : fl.extended = true) (hi : fl.icase = true) (hruns : SameRuns fl p p')
    (d : Nat) : SameGroups fl p p' d (parseregex fl d) := by
  induction d with
  | zero => exact fun n h => by omega
  | succ d ih =>
    intro s s' n hd hs h
    have hlen := h.length_eq
    have hhead := h.head (c := rparen) (caseless_of (.inl (by decide)))
    have hnil : s = [] ↔ s' = [] := by
      rw [← List.length_eq_zero_iff, ← List.length_eq_zero_iff, hlen]
    by_cases hend : s.head? = some rparen ∨ s = []
    · rw [parseregex, parseregex, if_pos hend, if_pos (hend.imp hhead.mp hnil.mp)]
      exact ⟨.nil, h, rfl⟩
    · rw [parseregex, parseregex, if_neg hend,
        if_neg (fun h => hend (h.imp hhead.mpr hnil.mpr)), hlen]
      exact sameRegexLoop hext hi hruns (reader hext d) ih (by omega) hs h

/-- **The parser does not see case**: a pattern that is accepted is accepted in another case too, with
the same tree. -/
theorem sameRegcomp (hext : fl.extended = true) (hi : fl.icase = true) (hruns : SameRuns fl p p')
    (hp : Recased p p') {r : Regex} (h : regcomp fl p = .ok (some (r, t, n))) :
    ∃ r' t', regcomp fl p' = .ok (some (r', t', n)) ∧ SameRegex r r' := by
  have hlen := hp.length_eq
  have hgroups := sameGroups hext hi hruns (p.length + 1) 0 (Nat.lt_succ_self _) .here hp
  rcases alike_cases hgroups with ⟨f, hf, -⟩ | ⟨⟨r₁, t₁, n₁⟩, ⟨r', t', n'⟩, hparse, hparse', hv⟩
  · rw [regcomp, hf] at h
    cases h
  rw [regcomp_of_parse hparse] at h
  obtain rfl : n₁ = n' := hv.brackets
  have hne : ¬ (t₁ = p ∧ p ≠ []) := by
    intro hcond
    rw [if_pos hcond] at h
    cases h
  rw [if_neg hne] at h
  cases h
  refine ⟨r', t', ?_, hv.tree⟩
  rw [hlen] at hparse'
  rw [regcomp_of_parse hparse', if_neg]
  rintro ⟨rfl, hne'⟩
  have hpne : p ≠ [] := by
    rintro rfl
    exact hne' (List.length_eq_zero_iff.mp hlen.symm)
  have hrest : t.length = t'.length := hv.rest.length_eq
  refine hne ⟨?_, hpne⟩
  by_cases hs : p.head? = some rparen
  · rw [parseregex, if_pos (.inl hs)] at hparse
    cases hparse
    rfl
  · rw [parseregex_loop hpne hs] at hparse
    rcases regexLoop_progress hext (reader hext _) le_rfl hparse with ⟨he, -⟩ | hlt
    · exact he
    · omega

end Dietlibc.Rx
