import Dietlibc.Shell.Pattern

/-!
# Bracket expressions

`member` reads one member of a well-formed bracket expression, and `bracketLoop` decides the set,
up to the skip behind a match.
-/

namespace Dietlibc.Shell

variable {flags : Flags} {c : UInt8} {rest : List UInt8} {ms : List Member} {first : Bool}

/-! ## Members -/

theorem charclassLookup_sound {x : List UInt8} {cc : CharClass} (h : charclassLookup x = some cc) :
    cc.name ++ [colon, rbracket] <+: x := by
  unfold charclassLookup at h
  split at h
  · rename_i cc' hfind
    split at h
    · rename_i hclose
      obtain rfl := Option.some.inj h
      have hname := List.find?_some hfind
      obtain ⟨y, rfl⟩ := List.isPrefixOf_iff_prefix.mp hname
      rw [List.drop_left] at hclose
      obtain ⟨z, rfl⟩ := List.isPrefixOf_iff_prefix.mp hclose
      exact ⟨z, by rw [List.append_assoc]⟩
    · cases h
  · cases h

theorem charclassLookup_name (cc : CharClass) (rest : List UInt8) :
    charclassLookup (cc.name ++ [colon, rbracket] ++ rest) = some cc := by
  cases cc <;> rfl

/-- A member is read up to its end. -/
theorem member_text (flags : Flags) (c : UInt8) (m : Member) (h : m.Ok first rest) :
    member flags c (m.text ++ rest) = (m.test flags c, rest) := by
  cases m with
  | chr d =>
    obtain ⟨-, hrange, hclass⟩ := h
    have hcc : (if [lbracket, colon].isPrefixOf (d :: rest) then charclassLookup ((d :: rest).drop 2)
        else none) = none := by
      split
      · rename_i hpre
        obtain ⟨y, hy⟩ := List.isPrefixOf_iff_prefix.mp hpre
        obtain ⟨rfl, rfl⟩ := List.cons.inj hy
        cases hl : charclassLookup y with
        | none => exact hl
        | some cc =>
          refine absurd ?_ (hclass rfl cc)
          obtain ⟨z, rfl⟩ := charclassLookup_sound hl
          exact ⟨z, rfl⟩
      · rfl
    have hget : (d :: rest)[1]? = rest.head? ∧ (d :: rest)[2]? = rest[1]? := by
      cases rest <;> simp
    rw [Member.text, List.singleton_append, member]
    simp only [hcc]
    rw [hget.1, hget.2, if_neg hrange]
    rfl
  | range lo hi =>
    have hcc : ¬ [lbracket, colon].isPrefixOf (lo :: dash :: hi :: rest) = true := by
      rw [List.isPrefixOf_iff_prefix]
      rintro ⟨y, hy⟩
      have := (List.cons.inj (List.cons.inj hy).2).1
      exact absurd this (by decide)
    rw [Member.text, member, show [lo, dash, hi] ++ rest = lo :: dash :: hi :: rest from rfl]
    simp only [if_neg hcc]
    rw [if_pos ⟨rfl, fun hb => h.2 (Option.some.inj hb)⟩]
    rfl
  | cls cc =>
    have htext : Member.text (.cls cc) ++ rest =
        lbracket :: colon :: (cc.name ++ [colon, rbracket] ++ rest) := by
      simp [Member.text]
    have hpre : [lbracket, colon].isPrefixOf
        (lbracket :: colon :: (cc.name ++ [colon, rbracket] ++ rest)) = true := rfl
    rw [htext, member]
    simp only [if_pos hpre, List.drop_succ_cons, List.drop_zero, charclassLookup_name]
    rw [show cc.name.length + 2 = (cc.name ++ [colon, rbracket]).length by simp, List.drop_left]
    rfl

theorem Member.text_cons (m : Member) : ∃ p ps, m.text = p :: ps := by
  cases m with
  | chr c => exact ⟨c, [], rfl⟩
  | range lo hi => exact ⟨lo, _, rfl⟩
  | cls cc => exact ⟨lbracket, _, rfl⟩

/-- A member that is not the first does not start with `]`. -/
theorem Member.head_ne {m : Member} {p : UInt8} {ps : List UInt8} (h : m.Ok first rest)
    (hm : m.text = p :: ps) : ¬ (p = rbracket ∧ ¬ first = true) := by
  rintro ⟨hp, hfirst⟩
  cases m with
  | chr c =>
    obtain ⟨rfl, -⟩ := List.cons.inj hm
    exact hfirst (h.1 hp)
  | range lo hi =>
    obtain ⟨rfl, -⟩ := List.cons.inj hm
    exact hfirst (h.1 hp)
  | cls cc =>
    obtain ⟨rfl, -⟩ := List.cons.inj hm
    exact absurd hp (by decide)

theorem memberText_cons (m : Member) (ms : List Member) :
    memberText (m :: ms) = m.text ++ memberText ms := List.flatMap_cons

/-! ## The loop -/

theorem bracketLoop_cons (neg : Bool) (m : Member) (h : m.Ok first rest) :
    bracketLoop flags neg c (m.text ++ rest) first =
      if (m.test flags c && !neg) || (neg && !m.test flags c && rest.head? = some rbracket) then
        some ((rest.dropWhile (· ≠ rbracket)).drop 1)
      else if m.test flags c && neg then none
      else bracketLoop flags neg c rest false := by
  obtain ⟨p, ps, hm⟩ := m.text_cons
  have hmem := member_text flags c m h
  rw [hm, List.cons_append] at hmem ⊢
  rw [bracketLoop, if_neg (Member.head_ne h hm)]
  simp only [hmem]

theorem bracketLoop_end (neg : Bool) (rest : List UInt8) :
    bracketLoop flags neg c (rbracket :: rest) false = none := by
  rw [bracketLoop, if_pos ⟨rfl, by simp⟩]

/-- Members without classes, none of them the first, have no `]` in their text. -/
theorem no_rbracket (hok : MembersOk false ms rest) (hcls : ∀ cc, .cls cc ∉ ms) :
    ∀ b ∈ memberText ms, b ≠ rbracket := by
  induction ms with
  | nil => simp [memberText]
  | cons m ms ih =>
    obtain ⟨hm, hms⟩ := hok
    rw [memberText_cons]
    intro b hb
    rcases List.mem_append.mp hb with hb | hb
    · rintro rfl
      cases m with
      | chr d =>
        have hd := List.mem_singleton.mp hb
        exact absurd (hm.1 hd.symm) (by simp)
      | range lo hi =>
        simp only [Member.text, List.mem_cons, List.not_mem_nil, or_false] at hb
        rcases hb with hb | hb | hb
        · exact absurd (hm.1 hb.symm) (by simp)
        · exact absurd hb (by decide)
        · exact hm.2 hb.symm
      | cls cc => exact hcls cc List.mem_cons_self
    · exact ih hms (fun cc h => hcls cc (List.mem_cons_of_mem _ h)) b hb

theorem skip_members (hok : MembersOk false ms (rbracket :: rest)) (hcls : ∀ cc, .cls cc ∉ ms) :
    ((memberText ms ++ rbracket :: rest).dropWhile (· ≠ rbracket)).drop 1 = rest := by
  have hno := no_rbracket hok hcls
  rw [List.dropWhile_append_of_pos (by simpa using hno),
    List.dropWhile_cons_of_neg (by simp), List.drop_succ_cons, List.drop_zero]

/-- The set, not negated. -/
theorem bracketLoop_pos (hok : MembersOk first ms (rbracket :: rest))
    (hne : first = true → ms ≠ []) (hskip : skipOk flags c ms) :
    bracketLoop flags false c (memberText ms ++ rbracket :: rest) first =
      if ms.any (·.test flags c) then some rest else none := by
  induction ms generalizing first with
  | nil =>
    cases first with
    | true => exact absurd rfl (hne rfl)
    | false => exact bracketLoop_end false rest
  | cons m ms ih =>
    obtain ⟨hm, hms⟩ := hok
    rw [memberText_cons, List.append_assoc, bracketLoop_cons false m hm, List.any_cons]
    by_cases ht : m.test flags c = true
    · rw [skipOk, if_pos ht] at hskip
      simp only [ht, Bool.not_false, Bool.and_true, Bool.true_or, if_true]
      rw [skip_members hms hskip]
    · rw [skipOk, if_neg ht] at hskip
      rw [Bool.not_eq_true] at ht
      simp only [ht, Bool.false_and, Bool.or_self, Bool.false_eq_true, if_false, Bool.false_or]
      exact ih hms (by simp) hskip

theorem memberText_head (hok : MembersOk false ms (rbracket :: rest)) :
    (memberText ms ++ rbracket :: rest).head? = some rbracket ↔ ms = [] := by
  cases ms with
  | nil => simp [memberText]
  | cons m ms =>
    obtain ⟨p, ps, hm⟩ := m.text_cons
    have hne := Member.head_ne hok.1 hm
    rw [memberText_cons, hm]
    constructor
    · intro h
      exact absurd ⟨Option.some.inj h, by simp⟩ hne
    · intro h
      cases h

/-- The negated set. -/
theorem bracketLoop_neg (hok : MembersOk first ms (rbracket :: rest)) (hne : ms ≠ []) :
    bracketLoop flags true c (memberText ms ++ rbracket :: rest) first =
      if ms.any (·.test flags c) then none else some rest := by
  induction ms generalizing first with
  | nil => exact absurd rfl hne
  | cons m ms ih =>
    obtain ⟨hm, hms⟩ := hok
    rw [memberText_cons, List.append_assoc, bracketLoop_cons true m hm, List.any_cons]
    by_cases ht : m.test flags c = true
    · simp [ht]
    · rw [Bool.not_eq_true] at ht
      by_cases hnil : ms = []
      · subst hnil
        simp [ht, memberText]
      · have hhead : ¬ (memberText ms ++ rbracket :: rest).head? = some rbracket := fun h =>
          hnil ((memberText_head hms).mp h)
        simp only [ht, hhead, decide_false, Bool.and_false, Bool.not_true, Bool.or_self,
          Bool.false_and, Bool.false_eq_true, if_false, Bool.false_or]
        exact ih hms hnil

theorem bracketStart_set (neg : Bool) (ms : List Member) (rest : List UInt8)
    (hms : neg = false → (memberText ms).head? ≠ some bang) (hne : ms ≠ []) :
    bracketStart ((if neg then [bang] else []) ++ memberText ms ++ rest) =
      (neg, memberText ms ++ rest) := by
  cases neg with
  | true => rfl
  | false =>
    obtain ⟨m, ms, rfl⟩ := List.exists_cons_of_ne_nil hne
    obtain ⟨p, ps, hm⟩ := m.text_cons
    have hbang := hms rfl
    rw [memberText_cons, hm] at hbang ⊢
    have hp : p ≠ bang := fun h => hbang (by rw [h]; rfl)
    exact if_neg hp

end Dietlibc.Shell
