import Dietlibc.Shell.Bracket

/-!
# `fnmatch` with its reads

The functions of `fnmatch.c` again, with every read of the pattern and the string: a read behind the
NUL, or of the byte in front of the string, is a fault. A call of `fnmatch` is done, or leads to
another call, and a `*` to one or two.
-/

namespace Dietlibc.Shell

/-! ## Pointers -/

/-- `p[i]` -/
def peek (p : List UInt8) (i : Nat) : Option UInt8 := if i ≤ p.length then some (p.getD i 0) else none

/-- `p+n`, which is outside of the string behind the NUL. -/
def plus (p : List UInt8) (n : Nat) : Option (List UInt8) :=
  if n ≤ p.length then some (p.drop n) else none

/-! ## Bracket expressions -/

/-- `cc`, or none at `invalidclass`. -/
def classAt (pattern : List UInt8) : Option (Option CharClass) := do
  let p0 ← peek pattern 0
  if p0 = lbracket then
    let p1 ← peek pattern 1
    if p1 = colon then (plus pattern 2).map charclassLookup else some none
  else some none

/-- One member of a bracket expression: `res`, and where the next one starts. -/
def memberAt (flags : Flags) (c : UInt8) (pattern : List UInt8) :
    Option (Bool × Option (List UInt8)) := do
  let p0 ← peek pattern 0
  let cc ← classAt pattern
  match cc with
  | some cc => some (classTest flags c cc, plus pattern (cc.name.length + 4))
  | none => do
    let p1 ← peek pattern 1
    if p1 = dash then do
      let p2 ← peek pattern 2
      if p2 ≠ rbracket then some (rangeTest flags c p0 p2, plus pattern 3)
      else some (matchChar p0 c flags, plus pattern 1)
    else some (matchChar p0 c flags, plus pattern 1)

theorem peek_zero (p : UInt8) (ps : List UInt8) : peek (p :: ps) 0 = some p := rfl

theorem peek_one (p : UInt8) (ps : List UInt8) : peek (p :: ps) 1 = some (ps.getD 0 0) :=
  if_pos (Nat.succ_le_succ (Nat.zero_le ps.length))

theorem opens_iff (p : UInt8) (ps : List UInt8) :
    [lbracket, colon].isPrefixOf (p :: ps) = true ↔ p = lbracket ∧ ps.getD 0 0 = colon := by
  cases ps with
  | nil => exact iff_of_false (by simp [List.isPrefixOf]) fun h => absurd h.2 (by decide)
  | cons q qs =>
    simp only [List.isPrefixOf, Bool.and_true, Bool.and_eq_true, beq_iff_eq, List.getD_cons_zero]
    exact ⟨fun h => ⟨h.1.symm, h.2.symm⟩, fun h => ⟨h.1.symm, h.2.symm⟩⟩

/-- The class of a member. -/
theorem classAt_eq (p : UInt8) (ps : List UInt8) :
    classAt (p :: ps) =
      some (if [lbracket, colon].isPrefixOf (p :: ps) then charclassLookup ((p :: ps).drop 2)
        else none) := by
  unfold classAt
  rw [peek_zero, Option.bind_eq_bind, Option.bind_some]
  by_cases hp : p = lbracket
  · rw [if_pos hp, peek_one, Option.bind_some]
    by_cases hc : ps.getD 0 0 = colon
    · have hlen : 2 ≤ (p :: ps).length := by
        cases ps with
        | nil => exact absurd hc (by decide)
        | cons q qs => exact Nat.le_add_left 2 qs.length
      rw [if_pos hc, if_pos ((opens_iff p ps).2 ⟨hp, hc⟩)]
      unfold plus
      rw [if_pos hlen]
      rfl
    · rw [if_neg hc, if_neg (mt (opens_iff p ps).1 fun h => hc h.2)]
  · rw [if_neg hp, if_neg (mt (opens_iff p ps).1 fun h => hp h.1)]

/-- **All reads of a member are in the pattern. What follows it is not, if the pattern ends in the
middle of a range.** -/
theorem memberAt_eq (flags : Flags) (c p : UInt8) (ps : List UInt8) :
    memberAt flags c (p :: ps) = some ((member flags c (p :: ps)).1,
      if ps = [dash] then none else some (member flags c (p :: ps)).2) := by
  have hplus : ∀ n ≤ (p :: ps).length, plus (p :: ps) n = some ((p :: ps).drop n) := fun n hn =>
    if_pos hn
  have hclass := classAt_eq p ps
  unfold memberAt member
  simp only [peek_zero, hclass, Option.bind_eq_bind, Option.bind_some]
  generalize hcc : (if [lbracket, colon].isPrefixOf (p :: ps) then charclassLookup ((p :: ps).drop 2)
    else none) = cc
  rcases cc with _ | cc
  case some =>
    have hopen : [lbracket, colon].isPrefixOf (p :: ps) = true := by
      by_contra hno
      rw [if_neg hno] at hcc
      cases hcc
    have hcolon := ((opens_iff p ps).1 hopen).2
    rw [if_pos hopen] at hcc
    have hlen := (charclassLookup_sound hcc).length_le
    rw [List.length_append, List.length_drop] at hlen
    have hdash : ps ≠ [dash] := by
      rintro rfl
      exact absurd hcolon (by decide)
    dsimp only
    rw [if_neg hdash, hplus _ (by simp only [List.length_cons, List.length_nil] at hlen ⊢; omega)]
  case none =>
    dsimp only
    rw [peek_one, Option.bind_some]
    rcases ps with _ | ⟨q, _ | ⟨r, rs⟩⟩
    · rfl
    · by_cases hq : q = dash
      · rw [hq]
        rfl
      · have hq' : ¬[q] = [dash] := fun h => hq (List.cons.inj h).1
        have hrange : ¬((p :: [q])[1]? = some dash ∧ (p :: [q])[2]? ≠ some rbracket) := fun h =>
          hq (Option.some.inj h.1)
        rw [if_neg hq', if_neg hrange, List.getD_cons_zero, if_neg hq, hplus 1 (by simp)]
        rfl
    · have hopen : ¬q :: r :: rs = [dash] := fun h => by cases (List.cons.inj h).2
      rw [if_neg hopen, List.getD_cons_zero]
      by_cases hq : q = dash
      · have hpeek : peek (p :: q :: r :: rs) 2 = some r := if_pos (by simp)
        rw [if_pos hq, hpeek, Option.bind_some]
        by_cases hr : r = rbracket
        · have hrange : ¬((p :: q :: r :: rs)[1]? = some dash ∧
              (p :: q :: r :: rs)[2]? ≠ some rbracket) := fun h => h.2 (congrArg some hr)
          rw [if_neg (not_not.2 hr), if_neg hrange, hplus 1 (by simp)]
          rfl
        · have hrange : (p :: q :: r :: rs)[1]? = some dash ∧
              (p :: q :: r :: rs)[2]? ≠ some rbracket :=
            ⟨congrArg some hq, fun h => hr (Option.some.inj h)⟩
          rw [if_pos hr, if_pos hrange, hplus 3 (by simp)]
          rfl
      · have hrange : ¬((p :: q :: r :: rs)[1]? = some dash ∧
            (p :: q :: r :: rs)[2]? ≠ some rbracket) := fun h => hq (Option.some.inj h.1)
        rw [if_neg hq, if_neg hrange, hplus 1 (by simp)]
        rfl

/-- `while (*pattern && *pattern!=']') ++pattern;`, and `pattern+!!*pattern`. -/
def skipMembers (rest : Option (List UInt8)) : Option (Option (List UInt8)) :=
  rest.map fun rest => some ((rest.dropWhile (· ≠ rbracket)).drop 1)

theorem memberAt_lt {flags : Flags} {c p : UInt8} {ps rest : List UInt8} {res : Bool}
    (h : memberAt flags c (p :: ps) = some (res, some rest)) : rest.length < (p :: ps).length := by
  rw [memberAt_eq, Option.some.injEq, Prod.mk.injEq] at h
  have hrest := h.2
  split at hrest
  · cases hrest
  · rw [← Option.some.inj hrest]
    exact member_lt flags c p ps

/-- The loop over the members, for the character `c`: where the pattern goes on after a match. -/
def bracketAt (flags : Flags) (neg : Bool) (c : UInt8) (pattern : List UInt8) (first : Bool) :
    Option (Option (List UInt8)) :=
  match pattern with
  | [] => some none
  | p :: ps =>
    if p = rbracket ∧ ¬first then some none
    else
      match _h : memberAt flags c (p :: ps) with
      | none => none
      | some (res, none) =>
        -- `*pattern` is not read behind a character that is in a negated set
        if res && neg then some none else none
      | some (res, some rest) =>
        if (res && !neg) || (neg && !res && rest.headD 0 = rbracket) then skipMembers (some rest)
        else if res && neg then some none
        else bracketAt flags neg c rest false
termination_by pattern.length
decreasing_by exact memberAt_lt _h

/-- The loop comes to a range that the end of the pattern has cut off behind its `-`, and the character
is not one that a negated set excludes by it. -/
def Overruns (flags : Flags) (neg : Bool) (c : UInt8) (pattern : List UInt8) (first : Bool) : Prop :=
  match pattern with
  | [] => False
  | p :: ps =>
    if p = rbracket ∧ ¬first then False
    else
      let res := (member flags c (p :: ps)).1
      let rest := (member flags c (p :: ps)).2
      if ps = [dash] then ¬(res = true ∧ neg = true)
      else if (res && !neg) || (neg && !res && rest.head? = some rbracket) then False
      else if res && neg then False
      else Overruns flags neg c rest false
termination_by pattern.length
decreasing_by exact member_lt _ _ _ _

theorem headD_eq_iff (rest : List UInt8) : rest.headD 0 = rbracket ↔ rest.head? = some rbracket := by
  cases rest with
  | nil => exact iff_of_false (by decide) nofun
  | cons q qs => exact ⟨congrArg some, Option.some.inj⟩

section

variable {flags : Flags} {neg first res : Bool} {c p : UInt8} {ps : List UInt8}

theorem bracketAt_end (h : p = rbracket ∧ ¬first = true) :
    bracketAt flags neg c (p :: ps) first = some none := by
  rw [bracketAt, if_pos h]

theorem bracketAt_open (hend : ¬(p = rbracket ∧ ¬first = true))
    (h : memberAt flags c (p :: ps) = some (res, none)) :
    bracketAt flags neg c (p :: ps) first = if res && neg then some none else none := by
  rw [bracketAt, if_neg hend]
  split <;> (rename_i heq; cases h.symm.trans heq)
  rfl

theorem bracketAt_cons {rest : List UInt8} (hend : ¬(p = rbracket ∧ ¬first = true))
    (h : memberAt flags c (p :: ps) = some (res, some rest)) :
    bracketAt flags neg c (p :: ps) first =
      if (res && !neg) || (neg && !res && rest.headD 0 = rbracket) then skipMembers (some rest)
      else if res && neg then some none
      else bracketAt flags neg c rest false := by
  rw [bracketAt, if_neg hend]
  split <;> (rename_i heq; cases h.symm.trans heq)
  rfl

end

/-- **The loop reads outside of the pattern exactly if it comes to such a range, and does what the
members say otherwise.** -/
theorem bracketAt_spec (flags : Flags) (neg : Bool) (c : UInt8) (pattern : List UInt8) (first : Bool) :
    (Overruns flags neg c pattern first → bracketAt flags neg c pattern first = none) ∧
      (¬Overruns flags neg c pattern first →
        bracketAt flags neg c pattern first = some (bracketLoop flags neg c pattern first)) := by
  induction hn : pattern.length using Nat.strong_induction_on generalizing pattern first with
  | _ n ih =>
    cases pattern with
    | nil =>
      unfold Overruns bracketAt bracketLoop
      exact ⟨False.elim, fun _ => rfl⟩
    | cons p ps =>
      by_cases hend : p = rbracket ∧ ¬first = true
      · unfold Overruns bracketLoop
        rw [bracketAt_end hend, if_pos hend, if_pos hend]
        exact ⟨False.elim, fun _ => rfl⟩
      have hmember := memberAt_eq flags c p ps
      have hlt := member_lt flags c p ps
      unfold Overruns bracketLoop
      rw [if_neg hend, if_neg hend]
      dsimp only
      generalize (member flags c (p :: ps)).1 = res at hmember ⊢
      generalize (member flags c (p :: ps)).2 = rest at hmember hlt ⊢
      by_cases hopen : ps = [dash]
      · rw [if_pos hopen] at hmember
        rw [bracketAt_open hend hmember, if_pos hopen]
        cases res <;> cases neg <;> simp
      · rw [if_neg hopen] at hmember
        rw [bracketAt_cons hend hmember, if_neg hopen]
        simp only [headD_eq_iff]
        by_cases hfound : ((res && !neg) || (neg && !res && rest.head? = some rbracket)) = true
        · rw [if_pos hfound, if_pos hfound, if_pos hfound]
          exact ⟨False.elim, fun _ => rfl⟩
        rw [if_neg hfound, if_neg hfound, if_neg hfound]
        by_cases hout : (res && neg) = true
        · rw [if_pos hout, if_pos hout, if_pos hout]
          exact ⟨False.elim, fun _ => rfl⟩
        · rw [if_neg hout, if_neg hout, if_neg hout]
          exact ih _ (hn ▸ hlt) rest false rfl

theorem member_suffix (flags : Flags) (c p : UInt8) (ps : List UInt8) :
    (member flags c (p :: ps)).2 <:+ ps := by
  unfold member
  dsimp only
  split
  · exact List.drop_suffix _ ps
  · split
    · exact List.drop_suffix 2 ps
    · exact List.suffix_refl ps

theorem bracketAt_suffix {flags : Flags} {neg : Bool} {c : UInt8} {pattern rest : List UInt8}
    {first : Bool} (h : bracketAt flags neg c pattern first = some (some rest)) : rest <:+ pattern := by
  obtain ⟨hover, hgood⟩ := bracketAt_spec flags neg c pattern first
  by_cases ho : Overruns flags neg c pattern first
  · rw [hover ho] at h
    cases h
  rw [hgood ho, Option.some.injEq] at h
  clear hover hgood ho
  induction hn : pattern.length using Nat.strong_induction_on generalizing pattern first with
  | _ n ih =>
    unfold bracketLoop at h
    cases pattern with
    | nil => cases h
    | cons p ps =>
      have hsuffix := (member_suffix flags c p ps).trans (List.suffix_cons p ps)
      have hlt := member_lt flags c p ps
      dsimp only at h
      split at h
      · cases h
      · split at h
        · rw [← Option.some.inj h]
          exact ((List.drop_suffix 1 _).trans (List.dropWhile_suffix _)).trans hsuffix
        · split at h
          · cases h
          · exact (ih _ (hn ▸ hlt) h rfl).trans hsuffix

/-- The pattern ends in the `-` of the range. -/
theorem getLast_of_overruns {flags : Flags} {neg : Bool} {c : UInt8} {pattern : List UInt8}
    {first : Bool} (h : Overruns flags neg c pattern first) : pattern.getLast? = some dash := by
  induction hn : pattern.length using Nat.strong_induction_on generalizing pattern first with
  | _ n ih =>
    unfold Overruns at h
    cases pattern with
    | nil => exact h.elim
    | cons p ps =>
      have hlt := member_lt flags c p ps
      dsimp only at h
      split at h
      · exact h.elim
      · split at h
        · rename_i hopen
          rw [hopen]
          rfl
        · split at h
          · exact h.elim
          · split at h
            · exact h.elim
            · obtain ⟨t, ht⟩ := (member_suffix flags c p ps).trans (List.suffix_cons p ps)
              rw [← ht, List.getLast?_append, ih _ (hn ▸ hlt) h rfl]
              rfl

/-! ## Calls -/

/-- A call of `fnmatch`. `before` is `string[-1]`, or nothing at the start of the string. -/
structure Call where
  notfirst : Bool
  before : Option UInt8
  pattern : List UInt8
  string : List UInt8

/-- What a call comes to: a value, the value of another call, or that of the first of two calls, if it is
0, and of the second one otherwise. -/
inductive Body where
  | done (value : Nat)
  | tail (call : Call)
  | star (first second : Call)
  | fault

section

variable (flags : Flags)

/-- `switch (*pattern)`, at the character `c` of the string. -/
def switchBody (before : Option UInt8) (pattern : List UInt8) (c : UInt8) (s : List UInt8) : Body :=
  match pattern with
  | [] => .done (if c = slash ∧ flags.leadingDir then 0 else fnmNomatch)
  | p :: ps =>
    if p = lbracket then
      if c = slash ∧ flags.pathname then .done fnmNomatch
      else
        match bracketAt flags (bracketStart ps).1 c (bracketStart ps).2 true with
        | none => .fault
        | some none => .done fnmNomatch
        | some (some rest) => .tail ⟨true, some c, rest, s⟩
    else if p = backslash then
      if flags.noescape then
        if c = backslash then .tail ⟨true, some c, ps, s⟩ else .done fnmNomatch
      else
        match peek (p :: ps) 1 with
        | none => .fault
        | some p1 =>
          if c = p1 then
            match plus (p :: ps) 2 with
            | none => .fault
            | some rest => .tail ⟨true, some c, rest, s⟩
          else .done fnmNomatch
    else if p = star then
      if c = slash ∧ flags.pathname then .tail ⟨true, before, ps, c :: s⟩
      else .star ⟨true, some c, p :: ps, s⟩ ⟨true, before, ps, c :: s⟩
    else if p = quest then
      if c = slash ∧ flags.pathname then .done fnmNomatch else .tail ⟨true, some c, ps, s⟩
    else if matchChar p c flags then .tail ⟨true, some c, ps, s⟩
    else .done fnmNomatch

/-- The body of `fnmatch`. -/
def body (call : Call) : Body :=
  match call.string with
  | [] => .done (if call.pattern.dropWhile (· = star) = [] then 0 else fnmNomatch)
  | c :: s =>
    if c = period ∧ call.pattern.head? ≠ some period ∧ flags.period then
      if ¬call.notfirst then .done fnmNomatch
      else if flags.pathname then
        match call.before with
        | none => .fault
        | some b =>
          if b = slash then .done fnmNomatch else switchBody flags call.before call.pattern c s
      else switchBody flags call.before call.pattern c s
    else switchBody flags call.before call.pattern c s

end

/-- Less of the string is left, or as much of it and less of the pattern. -/
def Call.Less (a b : Call) : Prop :=
  Prod.Lex (· < ·) (· < ·) (a.string.length, a.pattern.length) (b.string.length, b.pattern.length)

/-- The calls that a call leads to. -/
def Body.All (P : Call → Prop) : Body → Prop
  | .done _ | .fault => True
  | .tail call => P call
  | .star first second => P first ∧ P second

theorem bracketStart_suffix (ps : List UInt8) : (bracketStart ps).2 <:+ ps := by
  unfold bracketStart
  split
  · split
    · exact List.suffix_cons _ _
    · exact List.suffix_refl _
  · exact List.suffix_refl _

theorem plus_suffix {p rest : List UInt8} {n : Nat} (h : plus p n = some rest) : rest <:+ p := by
  unfold plus at h
  split at h
  · rw [← Option.some.inj h]
    exact List.drop_suffix n p
  · cases h

section

variable {flags : Flags} {P : Call → Prop}

theorem switchBody_all {before : Option UInt8} {pattern : List UInt8} {c : UInt8} {s : List UInt8}
    (hnext : ∀ rest, rest <:+ pattern → P ⟨true, some c, rest, s⟩)
    (hstay : ∀ ps, pattern = star :: ps → P ⟨true, before, ps, c :: s⟩) :
    (switchBody flags before pattern c s).All P := by
  cases pattern with
  | nil => trivial
  | cons p ps =>
    have hps : P ⟨true, some c, ps, s⟩ := hnext ps (List.suffix_cons p ps)
    unfold switchBody
    dsimp only
    split
    · split
      · trivial
      · split
        · trivial
        · trivial
        · rename_i hrest
          exact hnext _ ((bracketAt_suffix hrest).trans
            ((bracketStart_suffix ps).trans (List.suffix_cons p ps)))
    · split
      · split
        · split
          · exact hps
          · trivial
        · split
          · trivial
          · split
            · split
              · trivial
              · rename_i hrest
                exact hnext _ (plus_suffix hrest)
            · trivial
      · split
        · rename_i hstar
          have hagain := hstay ps (by rw [hstar])
          split
          · exact hagain
          · exact ⟨hnext _ (List.suffix_refl _), hagain⟩
        · split
          · split
            · trivial
            · exact hps
          · split
            · exact hps
            · trivial

/-- A call leads to calls at the next character, and at a `*` to a call at the same character, if it is
no period that the call does not match. -/
theorem body_all {call : Call}
    (hnext : ∀ c s, call.string = c :: s → ∀ rest, rest <:+ call.pattern →
      P ⟨true, some c, rest, s⟩)
    (hstay : ∀ c s, call.string = c :: s → ∀ ps, call.pattern = star :: ps →
      (c = period → flags.period = true → call.notfirst = true) →
        P ⟨true, call.before, ps, call.string⟩) :
    (body flags call).All P := by
  obtain ⟨notfirst, before, pattern, string⟩ := call
  cases string with
  | nil => trivial
  | cons c s =>
    have hswitch : (∀ ps, pattern = star :: ps → c = period → flags.period = true →
        notfirst = true) → (switchBody flags before pattern c s).All P := fun hfirst =>
      switchBody_all (hnext c s rfl) fun ps hps => hstay c s rfl ps hps (hfirst ps hps)
    unfold body
    dsimp only
    split
    · split
      · trivial
      · rename_i hfirst
        have hswitch := hswitch fun _ _ _ _ => not_not.1 hfirst
        split
        · split
          · trivial
          · split
            · trivial
            · exact hswitch
        · exact hswitch
    · rename_i hperiod
      refine hswitch fun ps hps hc hflag => absurd ⟨hc, ?_, hflag⟩ hperiod
      rw [hps]
      exact fun heq => absurd (Option.some.inj heq) (by decide)

theorem body_less (flags : Flags) (call : Call) : (body flags call).All (·.Less call) := by
  refine body_all (fun c s hs rest _ => ?_) fun c s _ ps hps _ => ?_
  · unfold Call.Less
    rw [hs]
    exact .left _ _ (Nat.lt_succ_self _)
  · unfold Call.Less
    rw [hps]
    exact .right _ (Nat.lt_succ_self _)

end

instance : WellFoundedRelation Call where
  rel := Call.Less
  wf := InvImage.wf (fun call : Call => (call.string.length, call.pattern.length))
    (Prod.lex Nat.lt_wfRel Nat.lt_wfRel).wf

/-- `fnmatch`, or nothing if it reads outside of its arguments. -/
def fnmatchAt (flags : Flags) (call : Call) : Option Nat :=
  match _hbody : body flags call with
  | .done value => some value
  | .tail call' => fnmatchAt flags call'
  | .star first second =>
    match fnmatchAt flags first with
    | none => none
    | some value => if value ≠ 0 then fnmatchAt flags second else some 0
  | .fault => none
termination_by call
decreasing_by
  all_goals have hless := body_less flags call; rw [_hbody] at hless
  · exact hless
  · exact hless.1
  · exact hless.2

/-! ## What is read -/

/-- The byte in front of the string is read, or a member of a bracket expression is cut off by the end
of the pattern. -/
def Stuck (flags : Flags) (call : Call) : Prop :=
  ∃ c s, call.string = c :: s ∧
    (c = period ∧ call.pattern.head? ≠ some period ∧ flags.period = true ∧ call.notfirst = true ∧
        flags.pathname = true ∧ call.before = none ∨
      ∃ ps, call.pattern = lbracket :: ps ∧
        ¬(c = period ∧ flags.period = true ∧
          (call.notfirst = false ∨ flags.pathname = true ∧ call.before = some slash)) ∧
        ¬(c = slash ∧ flags.pathname = true) ∧
          Overruns flags (bracketStart ps).1 c (bracketStart ps).2 true)

/-- One call leads to another one in the run. -/
inductive Leads (flags : Flags) (call : Call) : Call → Prop where
  | tail {call' : Call} (h : body flags call = .tail call') : Leads flags call call'
  | first {first second : Call} (h : body flags call = .star first second) : Leads flags call first
  | second {first second : Call} {value : Nat} (h : body flags call = .star first second)
      (hvalue : fnmatchAt flags first = some value) (hne : value ≠ 0) : Leads flags call second

/-- A string has no NUL in it. -/
def NonNul (s : List UInt8) : Prop := ∀ c ∈ s, c ≠ 0

theorem nonNul_of_all {s : List UInt8} (h : s.all (· != 0) = true) : NonNul s := fun c hc =>
  bne_iff_ne.1 (List.all_eq_true.1 h c hc)

theorem switchBody_fault_iff (flags : Flags) (before : Option UInt8) (pattern : List UInt8) {c : UInt8}
    (s : List UInt8) (hc : c ≠ 0) :
    switchBody flags before pattern c s = .fault ↔ ∃ ps, pattern = lbracket :: ps ∧
      ¬(c = slash ∧ flags.pathname = true) ∧
        Overruns flags (bracketStart ps).1 c (bracketStart ps).2 true := by
  cases pattern with
  | nil => exact iff_of_false nofun fun ⟨ps, h, _⟩ => by cases h
  | cons p ps =>
    have hcons : (∃ ps', p :: ps = lbracket :: ps' ∧ ¬(c = slash ∧ flags.pathname = true) ∧
        Overruns flags (bracketStart ps').1 c (bracketStart ps').2 true) ↔
        p = lbracket ∧ ¬(c = slash ∧ flags.pathname = true) ∧
          Overruns flags (bracketStart ps).1 c (bracketStart ps).2 true := by
      constructor
      · rintro ⟨ps', h, hrest⟩
        cases h
        exact ⟨rfl, hrest⟩
      · rintro ⟨rfl, hrest⟩
        exact ⟨ps, rfl, hrest⟩
    rw [hcons]
    unfold switchBody
    dsimp only
    by_cases hp : p = lbracket
    · obtain ⟨hover, hgood⟩ :=
        bracketAt_spec flags (bracketStart ps).1 c (bracketStart ps).2 true
      rw [if_pos hp]
      by_cases hslash : c = slash ∧ flags.pathname = true
      · rw [if_pos hslash]
        exact iff_of_false nofun fun h => h.2.1 hslash
      rw [if_neg hslash]
      by_cases ho : Overruns flags (bracketStart ps).1 c (bracketStart ps).2 true
      · rw [hover ho]
        exact iff_of_true rfl ⟨hp, hslash, ho⟩
      · rw [hgood ho]
        refine iff_of_false ?_ fun h => ho h.2.2
        cases bracketLoop flags (bracketStart ps).1 c (bracketStart ps).2 true <;> exact nofun
    · rw [if_neg hp]
      refine iff_of_false ?_ fun h => hp h.1
      rw [peek_one]
      have hplus : c = ps.getD 0 0 → plus (p :: ps) 2 = some ((p :: ps).drop 2) := fun h => by
        refine if_pos ?_
        cases ps with
        | nil => exact absurd h hc
        | cons q qs => exact Nat.le_add_left 2 qs.length
      split
      · split
        · split <;> exact nofun
        · dsimp only
          split
          · rename_i h
            rw [hplus h]
            exact nofun
          · exact nofun
      · split
        · split <;> exact nofun
        · split
          · split <;> exact nofun
          · split <;> exact nofun

/-- **A call reads outside of its arguments itself exactly if it is stuck.** -/
theorem body_fault_iff (flags : Flags) {call : Call} (hs : NonNul call.string) :
    body flags call = .fault ↔ Stuck flags call := by
  obtain ⟨notfirst, before, pattern, string⟩ := call
  cases string with
  | nil => exact iff_of_false nofun fun ⟨c, s, h, _⟩ => by cases h
  | cons c s =>
    have hswitch := switchBody_fault_iff flags before pattern s (hs c List.mem_cons_self)
    have hstuck : Stuck flags ⟨notfirst, before, pattern, c :: s⟩ ↔
        (c = period ∧ pattern.head? ≠ some period ∧ flags.period = true ∧ notfirst = true ∧
          flags.pathname = true ∧ before = none) ∨
        (¬(c = period ∧ flags.period = true ∧
          (notfirst = false ∨ flags.pathname = true ∧ before = some slash)) ∧
            switchBody flags before pattern c s = .fault) := by
      rw [hswitch]
      constructor
      · rintro ⟨c', s', h, hor⟩
        cases h
        exact hor.imp_right fun ⟨ps, hp, hperiod, hrest⟩ => ⟨hperiod, ps, hp, hrest⟩
      · intro hor
        exact ⟨c, s, rfl, hor.imp_right fun ⟨hperiod, ps, hp, hrest⟩ => ⟨ps, hp, hperiod, hrest⟩⟩
    rw [hstuck]
    unfold body
    dsimp only
    by_cases hperiod : c = period ∧ pattern.head? ≠ some period ∧ flags.period = true
    · obtain ⟨hc, hhead, hflag⟩ := hperiod
      rw [if_pos ⟨hc, hhead, hflag⟩]
      cases notfirst with
      | false =>
        rw [if_pos (by decide)]
        refine iff_of_false nofun ?_
        rintro (h | h)
        · exact absurd h.2.2.2.1 (by decide)
        · exact h.1 ⟨hc, hflag, .inl rfl⟩
      | true =>
        rw [if_neg (by decide)]
        by_cases hpath : flags.pathname = true
        · rw [if_pos hpath]
          cases before with
          | none => exact iff_of_true rfl (.inl ⟨hc, hhead, hflag, rfl, hpath, rfl⟩)
          | some b =>
            dsimp only
            by_cases hb : b = slash
            · rw [if_pos hb]
              refine iff_of_false nofun ?_
              rintro (h | h)
              · cases h.2.2.2.2.2
              · exact h.1 ⟨hc, hflag, .inr ⟨hpath, congrArg some hb⟩⟩
            · rw [if_neg hb]
              refine ⟨fun h => .inr ⟨?_, h⟩, ?_⟩
              · rintro ⟨-, -, h | h⟩
                · cases h
                · exact hb (Option.some.inj h.2)
              · rintro (h | h)
                · cases h.2.2.2.2.2
                · exact h.2
        · rw [if_neg hpath]
          refine ⟨fun h => .inr ⟨?_, h⟩, ?_⟩
          · rintro ⟨-, -, h | h⟩
            · cases h
            · exact hpath h.1
          · rintro (h | h)
            · exact absurd h.2.2.2.2.1 hpath
            · exact h.2
    · rw [if_neg hperiod]
      refine ⟨fun h => .inr ⟨?_, h⟩, ?_⟩
      · obtain ⟨ps, rfl, -⟩ := hswitch.1 h
        exact fun h => hperiod ⟨h.1, fun heq => absurd (Option.some.inj heq) (by decide), h.2.1⟩
      · rintro (h | h)
        · exact absurd ⟨h.1, h.2.1, h.2.2.1⟩ hperiod
        · exact h.2

/-- What the calls that a body leads to come to. -/
def Body.result (flags : Flags) : Body → Option Nat
  | .done value => some value
  | .tail call => fnmatchAt flags call
  | .star first second =>
    (fnmatchAt flags first).bind fun value => if value ≠ 0 then fnmatchAt flags second else some 0
  | .fault => none

theorem result_star (flags : Flags) (first second : Call) :
    (Body.star first second).result flags = (fnmatchAt flags first).bind fun value =>
      if value ≠ 0 then fnmatchAt flags second else some 0 := rfl

theorem fnmatchAt_eq (flags : Flags) (call : Call) :
    fnmatchAt flags call = (body flags call).result flags := by
  rw [fnmatchAt.eq_def]
  split
  · rename_i hbody
    rw [hbody]
    rfl
  · rename_i hbody
    rw [hbody]
    rfl
  · rename_i first second hbody
    rw [hbody, result_star]
    cases fnmatchAt flags first <;> rfl
  · rename_i hbody
    rw [hbody]
    rfl

/-! ## The values -/

/-- The value of `fnmatch`, without regard to its reads. -/
def Call.value (flags : Flags) (call : Call) : Nat :=
  fnmatch flags call.notfirst call.before call.pattern call.string

/-- The value that a body comes to. -/
def Body.value (flags : Flags) : Body → Nat
  | .done value => value
  | .tail call => call.value flags
  | .star first second => if first.value flags ≠ 0 then second.value flags else 0
  | .fault => 0

/-- What the character `c` of a string comes to, behind the test for a leading period. -/
theorem fnmatch_switch {flags : Flags} {before : Option UInt8} {notfirst : Bool}
    {pattern : List UInt8} {c : UInt8} {s : List UInt8} (hc : c ≠ 0)
    (hperiod : ¬(c = period ∧ pattern.head? ≠ some period ∧ flags.period = true ∧
      (¬notfirst = true ∨ flags.pathname = true ∧ before = some slash)))
    (hfault : switchBody flags before pattern c s ≠ .fault) :
    fnmatch flags notfirst before pattern (c :: s) =
      (switchBody flags before pattern c s).value flags := by
  rw [fnmatch.eq_def]
  dsimp only
  rw [if_neg hperiod]
  cases pattern with
  | nil => rfl
  | cons p ps =>
    dsimp only
    unfold switchBody at hfault ⊢
    dsimp only at hfault ⊢
    by_cases hp : p = lbracket
    · rw [if_pos hp] at hfault ⊢
      rw [if_pos hp]
      by_cases hslash : c = slash ∧ flags.pathname = true
      · rw [if_pos hslash, if_pos hslash]
        rfl
      rw [if_neg hslash] at hfault ⊢
      rw [if_neg hslash]
      obtain ⟨hover, hgood⟩ :=
        bracketAt_spec flags (bracketStart ps).1 c (bracketStart ps).2 true
      by_cases ho : Overruns flags (bracketStart ps).1 c (bracketStart ps).2 true
      · rw [hover ho] at hfault
        exact absurd rfl hfault
      · rw [hgood ho]
        cases bracketLoop flags (bracketStart ps).1 c (bracketStart ps).2 true <;> rfl
    rw [if_neg hp, if_neg hp]
    clear hfault
    by_cases hescape : p = backslash
    · rw [if_pos hescape, if_pos hescape, peek_one]
      by_cases hno : flags.noescape = true
      · rw [if_pos hno, if_pos hno]
        split <;> rfl
      rw [if_neg hno, if_neg hno]
      dsimp only
      cases ps with
      | nil =>
        rw [if_neg (show ¬([] : List UInt8).head? = some c from nofun), List.getD_nil, if_neg hc]
        rfl
      | cons q qs =>
        rw [List.head?_cons, List.getD_cons_zero]
        by_cases hq : c = q
        · have hplus : plus (p :: q :: qs) 2 = some qs := if_pos (Nat.le_add_left 2 qs.length)
          rw [if_pos hq, if_pos (congrArg some hq.symm), hplus]
          rfl
        · rw [if_neg hq, if_neg fun h => hq (Option.some.inj h).symm]
          rfl
    rw [if_neg hescape, if_neg hescape]
    by_cases hstar : p = star
    · rw [if_pos hstar, if_pos hstar]
      by_cases hslash : c = slash ∧ flags.pathname = true
      · rw [if_pos hslash, if_pos (.inl hslash)]
        rfl
      · rw [if_neg hslash]
        simp only [hslash, false_or]
        rfl
    rw [if_neg hstar, if_neg hstar]
    split
    · split <;> rfl
    · split <;> rfl

/-- **A call that reads in its arguments has the value that its body comes to.** -/
theorem value_eq {flags : Flags} {call : Call} (hs : NonNul call.string)
    (h : body flags call ≠ .fault) : call.value flags = (body flags call).value flags := by
  obtain ⟨notfirst, before, pattern, string⟩ := call
  unfold Call.value
  cases string with
  | nil =>
    rw [fnmatch.eq_def]
    rfl
  | cons c s =>
    have hc : c ≠ 0 := hs c List.mem_cons_self
    unfold body at h ⊢
    dsimp only at h ⊢
    by_cases hperiod : c = period ∧ pattern.head? ≠ some period ∧ flags.period = true
    · rw [if_pos hperiod] at h ⊢
      by_cases hfirst : ¬notfirst = true
      · rw [if_pos hfirst, fnmatch.eq_def]
        exact if_pos ⟨hperiod.1, hperiod.2.1, hperiod.2.2, .inl hfirst⟩
      rw [if_neg hfirst] at h ⊢
      by_cases hpath : flags.pathname = true
      · rw [if_pos hpath] at h ⊢
        cases before with
        | none => exact absurd rfl h
        | some b =>
          dsimp only at h ⊢
          by_cases hb : b = slash
          · rw [if_pos hb, fnmatch.eq_def]
            exact if_pos ⟨hperiod.1, hperiod.2.1, hperiod.2.2, .inr ⟨hpath, congrArg some hb⟩⟩
          · rw [if_neg hb] at h ⊢
            refine fnmatch_switch hc (fun hno => ?_) h
            exact hno.2.2.2.elim hfirst fun hslash => hb (Option.some.inj hslash.2)
      · rw [if_neg hpath] at h ⊢
        refine fnmatch_switch hc (fun hno => ?_) h
        exact hno.2.2.2.elim hfirst fun hslash => hpath hslash.1
    · rw [if_neg hperiod] at h ⊢
      exact fnmatch_switch hc (fun hno => hperiod ⟨hno.1, hno.2.1, hno.2.2.1⟩) h

/-! ## The claim -/

/-- The calls of a run. -/
def Reaches (flags : Flags) : Call → Call → Prop := Relation.ReflTransGen (Leads flags)

theorem nonNul_body (flags : Flags) {call : Call} (hs : NonNul call.string) :
    (body flags call).All fun call' => NonNul call'.string := by
  refine body_all (fun c s h rest _ => ?_) fun _ _ _ _ _ _ => hs
  exact fun d hd => hs d (h ▸ List.mem_cons_of_mem c hd)

/-- A run that meets no call that is stuck comes to its value, and any other one to none. -/
theorem fnmatchAt_spec (flags : Flags) (call : Call) (hs : NonNul call.string) :
    ((∀ call', Reaches flags call call' → ¬Stuck flags call') →
      fnmatchAt flags call = some (call.value flags)) ∧
    (∀ call', Reaches flags call call' → Stuck flags call' → fnmatchAt flags call = none) := by
  induction call using WellFounded.induction (r := Call.Less) WellFoundedRelation.wf with
  | _ call ih =>
    have hless := body_less flags call
    have hnul := nonNul_body flags hs
    have hstuck := body_fault_iff flags hs
    have hvalue : body flags call ≠ .fault → call.value flags = (body flags call).value flags :=
      value_eq hs
    have hcases : ∀ call', Reaches flags call call' →
        call = call' ∨ ∃ next, Leads flags call next ∧ Reaches flags next call' := fun call' hr =>
      (Relation.ReflTransGen.cases_head hr).imp_right fun ⟨next, h, h'⟩ => ⟨next, h, h'⟩
    cases hbody : body flags call with
    | done value =>
      rw [hbody] at hvalue hstuck
      rw [fnmatchAt_eq, hbody, hvalue nofun]
      refine ⟨fun _ => rfl, fun call' hr hst => ?_⟩
      obtain rfl | ⟨next, hlead, -⟩ := hcases call' hr
      · cases hstuck.2 hst
      · cases hlead with
        | tail h | first h | second h => cases hbody.symm.trans h
    | fault =>
      rw [fnmatchAt_eq, hbody]
      exact ⟨fun h => absurd (hstuck.1 hbody) (h call .refl), fun _ _ _ => rfl⟩
    | tail next =>
      rw [hbody] at hvalue hstuck hless hnul
      obtain ⟨hgood, hbad⟩ := ih next hless hnul
      rw [fnmatchAt_eq, hbody, hvalue nofun]
      refine ⟨fun h => hgood fun call' hr => h call' (.head (.tail hbody) hr), fun call' hr hst => ?_⟩
      obtain rfl | ⟨next', hlead, hr'⟩ := hcases call' hr
      · cases hstuck.2 hst
      · cases hlead with
        | tail h =>
          cases hbody.symm.trans h
          exact hbad call' hr' hst
        | first h | second h => cases hbody.symm.trans h
    | star first second =>
      rw [hbody] at hvalue hstuck hless hnul
      obtain ⟨hgood1, hbad1⟩ := ih first hless.1 hnul.1
      obtain ⟨hgood2, hbad2⟩ := ih second hless.2 hnul.2
      rw [fnmatchAt_eq, hbody, hvalue nofun, result_star]
      constructor
      · intro h
        have hfirst := hgood1 fun call' hr => h call' (.head (.first hbody) hr)
        rw [hfirst, Option.bind_some]
        show _ = some (if first.value flags ≠ 0 then second.value flags else 0)
        by_cases hne : first.value flags ≠ 0
        · rw [if_pos hne, if_pos hne]
          exact hgood2 fun call' hr => h call' (.head (.second hbody hfirst hne) hr)
        · rw [if_neg hne, if_neg hne]
      · intro call' hr hst
        obtain rfl | ⟨next', hlead, hr'⟩ := hcases call' hr
        · cases hstuck.2 hst
        · cases hlead with
          | tail h => cases hbody.symm.trans h
          | first h =>
            cases hbody.symm.trans h
            rw [hbad1 call' hr' hst]
            rfl
          | second h hv hne =>
            cases hbody.symm.trans h
            rw [hv, Option.bind_some, if_pos hne]
            exact hbad2 call' hr' hst

/-- **`fnmatch` comes to its value and reads its arguments only, exactly if no call of its run reads
the byte in front of the string, or comes to a member of a bracket expression that the end of the
pattern has cut off.** -/
theorem fnmatch_reads_iff (flags : Flags) (notfirst : Bool) (pattern string : List UInt8)
    (hs : NonNul string) :
    fnmatchAt flags ⟨notfirst, none, pattern, string⟩ =
        some (fnmatch flags notfirst none pattern string) ↔
      ∀ call, Reaches flags ⟨notfirst, none, pattern, string⟩ call → ¬Stuck flags call := by
  obtain ⟨hgood, hbad⟩ :=
    fnmatchAt_spec flags ⟨notfirst, none, pattern, string⟩ hs
  refine ⟨fun h call hr hst => ?_, hgood⟩
  rw [hbad call hr hst] at h
  cases h

/-- What all calls of a run keep, if the pattern does not end in `-`. -/
def Kept (flags : Flags) (call : Call) : Prop :=
  call.pattern.getLast? ≠ some dash ∧
    (call.before = none → ∀ c s, call.string = c :: s → c = period → flags.period = true →
      call.notfirst = false)

theorem kept_body {flags : Flags} {call : Call} (h : Kept flags call) :
    (body flags call).All (Kept flags) := by
  have hsuffix : ∀ {rest : List UInt8}, rest <:+ call.pattern → rest.getLast? ≠ some dash := by
    rintro rest ⟨t, ht⟩ hlast
    refine h.1 ?_
    rw [← ht, List.getLast?_append, hlast]
    rfl
  refine body_all (fun c s _ rest hrest => ⟨hsuffix hrest, nofun⟩) fun c s hs ps hps hfirst => ?_
  refine ⟨hsuffix (hps ▸ List.suffix_cons star ps), fun hbefore c' s' hs' hc hflag => ?_⟩
  dsimp only at hbefore hs'
  obtain ⟨rfl, rfl⟩ := List.cons.inj (hs.symm.trans hs')
  have hno := h.2 hbefore c s hs hc hflag
  rw [hfirst hc hflag] at hno
  cases hno

theorem not_stuck {flags : Flags} {call : Call} (h : Kept flags call) : ¬Stuck flags call := by
  rintro ⟨c, s, hs, ⟨hc, -, hflag, hfirst, -, hbefore⟩ | ⟨ps, hp, -, -, hover⟩⟩
  · rw [h.2 hbefore c s hs hc hflag] at hfirst
    cases hfirst
  · obtain ⟨t, ht⟩ := (bracketStart_suffix ps).trans (List.suffix_cons lbracket ps)
    refine h.1 ?_
    rw [hp, ← ht, List.getLast?_append, getLast_of_overruns hover]
    rfl

/-- **`fnmatch` reads its arguments only, if the pattern does not end in `-`.** -/
theorem not_stuck_of_last {flags : Flags} {pattern string : List UInt8}
    (hlast : pattern.getLast? ≠ some dash) (call : Call)
    (hr : Reaches flags ⟨false, none, pattern, string⟩ call) : ¬Stuck flags call := by
  refine not_stuck ?_
  induction hr with
  | refl => exact ⟨hlast, fun _ _ _ _ _ _ => rfl⟩
  | tail _ hlead ih =>
    have hall := kept_body ih
    cases hlead with
    | tail h =>
      rw [h] at hall
      exact hall
    | first h =>
      rw [h] at hall
      exact hall.1
    | second h =>
      rw [h] at hall
      exact hall.2

/-- `[a-c]*` and `bx` -/
theorem fnmatch_reads_range :
    fnmatchAt ⟨false, true, true, false, false⟩ ⟨false, none, [91, 97, 45, 99, 93, 42], [98, 120]⟩ =
      some (fnmatch ⟨false, true, true, false, false⟩ false none [91, 97, 45, 99, 93, 42] [98, 120]) :=
  (fnmatch_reads_iff ⟨false, true, true, false, false⟩ false [91, 97, 45, 99, 93, 42] [98, 120]
    (nonNul_of_all rfl)).2 (not_stuck_of_last (by decide))

/-- `[a-` and `b` -/
theorem fnmatch_reads_behind : NonNul [91, 97, 45] ∧ NonNul [98] ∧
    fnmatchAt ⟨false, false, false, false, false⟩ ⟨false, none, [91, 97, 45], [98]⟩ = none := by
  have hover : Overruns ⟨false, false, false, false, false⟩ false 98 [97, 45] true := by
    unfold Overruns
    rw [if_neg (by decide)]
    dsimp only
    rw [if_pos rfl]
    exact fun h => absurd h.2 (by decide)
  have hstuck : Stuck ⟨false, false, false, false, false⟩ ⟨false, none, [91, 97, 45], [98]⟩ :=
    ⟨98, [], rfl, .inr ⟨[97, 45], rfl, by decide, by decide, hover⟩⟩
  refine ⟨nonNul_of_all rfl, nonNul_of_all rfl, ?_⟩
  rw [fnmatchAt_eq, (body_fault_iff _ (nonNul_of_all rfl)).2 hstuck]
  rfl

end Dietlibc.Shell
