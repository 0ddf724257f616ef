import Dietlibc.Rx.Found

/-!
# The characters of a tree

The characters and strings of a tree come from the pattern, so that none is the terminator.
-/

namespace Dietlibc.Rx

open Shell (tolower isdigit period lbracket backslash)

mutual

/-- No character of the atom is 0. -/
def Atom.NonNul : Atom → Prop
  | .char c => c ≠ 0
  | .string s => 0 ∉ s
  | .regex _ r => r.NonNul
  | _ => True

def Branch.NonNul : Branch → Prop
  | .nil => True
  | .cons a _ _ b => a.NonNul ∧ b.NonNul

def Regex.NonNul : Regex → Prop
  | .nil => True
  | .cons b r => b.NonNul ∧ r.NonNul

end

variable {fl : Cflags} {s t e : Ptr} {c : UInt8} {a old : Atom} {x y : Cc} {n m : Nat}
  {rec : Ptr → Nat → Except Stop (Regex × Ptr × Nat)}

theorem Atom.NonNul.stale (h : a.NonNul) : a.stale.NonNul := by
  cases a with
  | regex bnum r => exact h
  | char c => exact h
  | string s => exact h
  | _ => trivial

/-! ## Where the parser stops -/

theorem bracketLoop_subset (h : bracketLoop fl s x = .ok (some (y, e))) : e ⊆ s := by
  fun_induction bracketLoop fl s x with
  | case1 => cases h
  | case2 c t x ih =>
    obtain ⟨x', -, h⟩ := bind_eq_ok.mp h
    have ih := ih x'
    rcases t with - | ⟨d, - | ⟨e', u⟩⟩
    · cases h
    · simp only at h ih
      split_ifs at h
      · cases h
        exact List.nil_subset _
      · exact fun z hz => List.mem_cons_of_mem c (ih h hz)
    · simp only at h ih
      split at h
      · obtain ⟨x'', -, h⟩ := bind_eq_ok.mp h
        have hu : u ⊆ c :: d :: e' :: u := fun z hz =>
          List.mem_cons_of_mem _ (List.mem_cons_of_mem _ (List.mem_cons_of_mem _ hz))
        split at h
        · cases h
          exact fun z hz => hu (List.mem_of_mem_tail hz)
        · exact fun z hz => hu (ih.1 x'' h hz)
      · split at h
        · cases h
          exact fun z hz => List.mem_cons_of_mem _ (List.mem_cons_of_mem _ hz)
        · exact fun z hz => List.mem_cons_of_mem c (ih.2 h hz)

theorem parsebracketed_subset (h : parsebracketed fl s = .ok (some (x, e))) : e ⊆ s := by
  rcases s with - | ⟨c, t⟩
  · cases h
  simp only [parsebracketed] at h
  split_ifs at h
  · cases h
  · obtain ⟨r, hr, h⟩ := bind_eq_ok.mp h
    rcases r with - | ⟨y, e'⟩
    · cases h
    · cases h
      exact fun z hz => List.mem_cons_of_mem c (List.mem_of_mem_tail (bracketLoop_subset hr hz))
  · exact fun z hz => List.mem_cons_of_mem c (bracketLoop_subset h hz)

theorem repetition_subset {min max : Nat} (h : repetition s = some (min, max, e)) : e ⊆ s := by
  rcases s with - | ⟨c, t⟩
  · cases h
    exact List.nil_subset _
  have htail {u : Ptr} (hu : u ⊆ t) : u.tail ⊆ c :: t := fun z hz =>
    List.mem_cons_of_mem c (hu (List.mem_of_mem_tail hz))
  have hdrop {u : Ptr} (hu : u ⊆ t) : u.dropWhile isdigit ⊆ t := fun z hz =>
    hu ((List.dropWhile_sublist isdigit).subset hz)
  simp only [repetition] at h
  split_ifs at h <;> cases h
  · exact List.subset_cons_self _ _
  · exact List.subset_cons_self _ _
  · exact List.subset_cons_self _ _
  · exact htail (hdrop fun z hz => hdrop (List.Subset.refl t) (List.mem_of_mem_tail hz))
  · exact htail (hdrop fun z hz => hdrop (List.Subset.refl t) (List.mem_of_mem_tail hz))
  · exact htail (hdrop (List.Subset.refl t))
  · exact List.subset_cons_self _ _
  · exact List.Subset.refl _

/-! ## The characters that are found -/

theorem tolower_ne (h : c ≠ 0) : tolower c ≠ 0 := by
  unfold tolower
  split
  · rename_i hrange
    intro h0
    have h0 := congrArg UInt8.toNat h0
    have h90 := UInt8.le_iff_toNat_le.1 hrange.2
    rw [UInt8.toNat_add] at h0
    have h90 : c.toNat ≤ 90 := h90
    have h32 : (32 : UInt8).toNat = 32 := rfl
    rw [h32, UInt8.toNat_zero] at h0
    omega
  · exact h

theorem handleChar_nonNul (hc : c ≠ 0) (ht : 0 ∉ t) (h : handleChar fl c t = (a, e)) :
    a.NonNul ∧ e ⊆ c :: t := by
  unfold handleChar at h
  dsimp only at h
  split at h
  · cases h
    refine ⟨fun h => ?_, (List.drop_sublist _ _).subset⟩
    rcases List.mem_cons.1 ((List.take_sublist _ _).subset h) with h | h
    · exact hc h.symm
    · exact ht h
  · cases h
    refine ⟨?_, List.subset_cons_self c _⟩
    show (if fl.icase then tolower c else c) ≠ 0
    split
    · exact tolower_ne hc
    · exact hc

theorem found_inj {α : Type} {o o' : Option α} {n m : Nat}
    (h : (Except.ok (o, n) : Except Stop (Option α × Nat)) = .ok (o', m)) : o = o' :=
  congrArg Prod.fst (Except.ok.inj h)

/-- A parser of groups that keeps to the pattern. -/
def Keeps (rec : Ptr → Nat → Except Stop (Regex × Ptr × Nat)) : Prop :=
  ∀ s n r e m, 0 ∉ s → rec s n = .ok (r, e, m) → r.NonNul ∧ e ⊆ s

theorem parseGroup_nonNul (hrec : Keeps rec) (ht : 0 ∉ t)
    (h : parseGroup rec fl t n = .ok (some (a, e), m)) : a.NonNul ∧ e ⊆ lparen :: t := by
  unfold parseGroup at h
  dsimp only at h
  split at h
  · cases h
    exact ⟨trivial, fun z hz => List.mem_cons_of_mem _ (List.mem_of_mem_tail hz)⟩
  · obtain ⟨⟨r, tmp, k⟩, hr, h⟩ := bind_eq_ok.mp h
    obtain ⟨hnon, hsub⟩ := hrec t _ r tmp k ht hr
    dsimp only at h
    split at h
    · cases h
      exact ⟨hnon, fun z hz => List.mem_cons_of_mem _ (hsub ((List.drop_sublist _ _).subset hz))⟩
    · have h := found_inj h
      split at h
      · cases h
      · exact handleChar_nonNul (by decide) ht (Option.some.inj h)

/-- What is behind a backslash. -/
def escape (rec : Ptr → Nat → Except Stop (Regex × Ptr × Nat)) (fl : Cflags) (old : Atom) (n : Nat) :
    Ptr → Except Stop (Found Atom)
  | [] => .ok (some (old.stale, []), n)
  | d :: u =>
    if d = less then .ok (some (.wordStart, u), n)
    else if d = greater then .ok (some (.wordEnd, u), n)
    else if fl.extended then .ok (some (handleChar fl d u), n)
    else if 49 ≤ schar d ∧ schar d ≤ n + 49 then .ok (some (.backref (d.toNat - 48), u), n)
    else if d = lparen then parseGroup rec fl u n
    else if d = rparen then .ok (none, n)
    else .ok (some (handleChar fl d u), n)

theorem escape_nonNul (hrec : Keeps rec) (hold : old.NonNul) (ht : 0 ∉ t)
    (h : escape rec fl old n t = .ok (some (a, e), m)) : a.NonNul ∧ e ⊆ c :: t := by
  rcases t with - | ⟨d, u⟩
  · cases h
    exact ⟨hold.stale, List.nil_subset _⟩
  have hd : d ≠ 0 := fun h => ht (h ▸ List.mem_cons_self)
  have hu : 0 ∉ u := fun h => ht (List.mem_cons_of_mem d h)
  have hsub {v : Ptr} (hv : v ⊆ d :: u) : v ⊆ c :: d :: u := fun z hz => List.mem_cons_of_mem c (hv hz)
  have htail := hsub (List.subset_cons_self d u)
  have hchar (h : (Except.ok (some (handleChar fl d u), n) : Except Stop (Found Atom)) =
      .ok (some (a, e), m)) : a.NonNul ∧ e ⊆ c :: d :: u := by
    obtain ⟨hnon, hrest⟩ := handleChar_nonNul hd hu (Option.some.inj (found_inj h))
    exact ⟨hnon, hsub hrest⟩
  rw [escape] at h
  by_cases h1 : d = less
  · rw [if_pos h1] at h
    cases h
    exact ⟨trivial, htail⟩
  rw [if_neg h1] at h
  by_cases h2 : d = greater
  · rw [if_pos h2] at h
    cases h
    exact ⟨trivial, htail⟩
  rw [if_neg h2] at h
  by_cases h3 : fl.extended = true
  · rw [if_pos h3] at h
    exact hchar h
  rw [if_neg h3] at h
  by_cases h4 : 49 ≤ schar d ∧ schar d ≤ n + 49
  · rw [if_pos h4] at h
    cases h
    exact ⟨trivial, htail⟩
  rw [if_neg h4] at h
  by_cases h5 : d = lparen
  · rw [if_pos h5] at h
    obtain ⟨hnon, hrest⟩ := parseGroup_nonNul hrec hu h
    rw [← h5] at hrest
    exact ⟨hnon, hsub hrest⟩
  rw [if_neg h5] at h
  by_cases h6 : d = rparen
  · rw [if_pos h6] at h
    cases h
  · rw [if_neg h6] at h
    exact hchar h

theorem parseatom_nonNul (hrec : Keeps rec) (hold : old.NonNul) (hs : 0 ∉ s)
    (h : parseatom rec fl old s n = .ok (some (a, e), m)) : a.NonNul ∧ e ⊆ s := by
  rcases s with - | ⟨c, t⟩
  · cases h
  have hc : c ≠ 0 := fun h => hs (h ▸ List.mem_cons_self)
  have ht : 0 ∉ t := fun h => hs (List.mem_cons_of_mem c h)
  have htail : t ⊆ c :: t := List.subset_cons_self c t
  change (if c = lparen ∧ fl.extended then parseGroup rec fl t n else if _ then _ else
    if c = lbracket then _ else if c = period then _ else if c = caret then _ else
    if c = dollar then _ else if c = backslash then _ else _) = _ at h
  by_cases h1 : c = lparen ∧ fl.extended = true
  · rw [if_pos h1] at h
    rw [h1.1]
    exact parseGroup_nonNul hrec ht h
  rw [if_neg h1] at h
  by_cases h2 : (c = rparen ∧ fl.extended = true) ∨ c = bar
  · rw [if_pos h2] at h
    cases h
  rw [if_neg h2] at h
  by_cases h3 : c = lbracket
  · rw [if_pos h3] at h
    obtain ⟨r, hr, h⟩ := bind_eq_ok.mp h
    rcases r with - | ⟨x, u⟩
    · cases h
    · cases h
      exact ⟨trivial, parsebracketed_subset hr⟩
  rw [if_neg h3] at h
  by_cases h4 : c = period
  · rw [if_pos h4] at h
    cases h
    exact ⟨trivial, htail⟩
  rw [if_neg h4] at h
  by_cases h5 : c = caret
  · rw [if_pos h5] at h
    cases h
    exact ⟨trivial, htail⟩
  rw [if_neg h5] at h
  by_cases h6 : c = dollar
  · rw [if_pos h6] at h
    cases h
    exact ⟨trivial, htail⟩
  rw [if_neg h6] at h
  by_cases h7 : c = backslash
  · rw [if_pos h7] at h
    exact escape_nonNul hrec hold ht h
  · rw [if_neg h7] at h
    exact handleChar_nonNul hc ht (Option.some.inj (found_inj h))

theorem parsepiece_nonNul (hrec : Keeps rec) (hold : old.NonNul) (hs : 0 ∉ s) {min max : Nat}
    (h : parsepiece rec fl old s n = .ok (some ((a, min, max), e), m)) : a.NonNul ∧ e ⊆ s := by
  unfold parsepiece at h
  obtain ⟨⟨o, k⟩, ho, h⟩ := bind_eq_ok.mp h
  have h := found_inj h
  rcases o with - | ⟨a', u⟩
  · cases h
  · obtain ⟨hnon, hsub⟩ := parseatom_nonNul hrec hold hs ho
    rcases hrep : repetition u with - | ⟨min', max', e'⟩
    · simp [hrep] at h
    · simp only [Option.bind_eq_bind, Option.bind_some, hrep] at h
      cases h
      exact ⟨hnon, fun z hz => hsub (repetition_subset hrep hz)⟩

/-! ## Branches -/

/-- The pieces of a branch, all at once. -/
theorem branch_nonNul (hrec : Keeps rec) {fuel : Nat} : ∀ {first : Bool} {old : Atom} {s e : Ptr}
    {n m : Nat} {b : Branch}, old.NonNul → 0 ∉ s →
      parsebranch rec fl fuel first old s n = .ok (b, e, m) → b.NonNul ∧ e ⊆ s := by
  induction fuel with
  | zero => exact fun _ _ h => by cases h
  | succ fuel ih =>
    intro first old s e n m b hold hs h
    have hrest {a : Atom} {u : Ptr} {k : Nat} (ha : a.NonNul) (hu : u ⊆ s)
        {min max : Nat} (h : branchRest rec fl fuel a u k >>= (fun v =>
          (.ok (.cons a min max v.1, v.2) : Except Stop (Branch × Ptr × Nat))) = .ok (b, e, m)) :
        b.NonNul ∧ e ⊆ s := by
      obtain ⟨⟨b', e', m'⟩, hb, h⟩ := bind_eq_ok.mp h
      cases h
      unfold branchRest at hb
      split at hb
      · cases hb
        exact ⟨⟨ha, trivial⟩, hu⟩
      · obtain ⟨hnon, hsub⟩ := ih ha (fun h => hs (hu h)) hb
        exact ⟨⟨ha, hnon⟩, fun z hz => hu (hsub hz)⟩
    by_cases hbar : first = true ∧ s.head? = some bar
    · obtain ⟨t, rfl⟩ := List.head?_eq_some_iff.1 hbar.2
      rw [hbar.1, parsebranch_bar] at h
      exact hrest (show Atom.bar.NonNul from trivial) (List.subset_cons_self _ _) h
    · have hbar' : first = false ∨ s.head? ≠ some bar := by
        by_cases hf : first = true
        · exact .inr fun h => hbar ⟨hf, h⟩
        · exact .inl (by simpa using hf)
      rcases hp : parsepiece rec fl old s n with e' | ⟨- | ⟨⟨a, min, max⟩, u⟩, k⟩
      · rw [parsebranch, if_neg hbar, hp] at h
        cases h
      · rw [parsebranch_none hbar' hp] at h
        cases h
        exact ⟨trivial, List.Subset.refl _⟩
      · rw [parsebranch_piece hbar' hp] at h
        obtain ⟨hnon, hsub⟩ := parsepiece_nonNul hrec hold hs hp
        exact hrest hnon hsub h

theorem regexLoop_nonNul (hrec : Keeps rec) {fuel : Nat} : ∀ {s e : Ptr} {n m : Nat} {r : Regex},
    0 ∉ s → regexLoop rec fl fuel s n = .ok (r, e, m) → r.NonNul ∧ e ⊆ s := by
  induction fuel with
  | zero => exact fun _ h => by cases h
  | succ fuel ih =>
    intro s e n m r hs h
    rw [regexLoop] at h
    obtain ⟨⟨b, tmp, k⟩, hb, h⟩ := bind_eq_ok.mp h
    obtain ⟨hnon, hsub⟩ := branch_nonNul hrec (show Atom.unset.NonNul from trivial) hs hb
    dsimp only at h
    split at h
    · cases h
      exact ⟨trivial, List.Subset.refl _⟩
    split at h
    · cases h
      exact ⟨⟨trivial, trivial⟩, List.Subset.refl _⟩
    split at h
    · cases h
      exact ⟨⟨hnon, trivial⟩, hsub⟩
    · obtain ⟨⟨r', e', m'⟩, hr, h⟩ := bind_eq_ok.mp h
      cases h
      have hnext : (if tmp.head? = some bar then tmp.tail else tmp) ⊆ s := by
        split
        · exact fun z hz => hsub (List.mem_of_mem_tail hz)
        · exact hsub
      obtain ⟨hnon', hsub'⟩ := ih (fun h => hs (hnext h)) hr
      exact ⟨⟨hnon, hnon'⟩, fun z hz => hnext (hsub' hz)⟩

theorem parseregex_keeps (d : Nat) : Keeps (parseregex fl d) := by
  induction d with
  | zero =>
    intro s n r e m _ h
    cases h
  | succ d ih =>
    intro s n r e m hs h
    rw [parseregex] at h
    split at h
    · cases h
      exact ⟨trivial, List.Subset.refl _⟩
    · exact regexLoop_nonNul ih hs h

/-- The tree of a pattern. -/
theorem regcomp_nonNul {p : Ptr} (hp : 0 ∉ p) {r : Regex}
    (h : regcomp fl p = .ok (some (r, t, n))) : r.NonNul := by
  obtain ⟨⟨r', t', n'⟩, hr, h⟩ := bind_eq_ok.mp h
  dsimp only at h
  split at h
  · cases h
  · cases h
    exact (parseregex_keeps _ p 0 r t n hp hr).1

end Dietlibc.Rx
