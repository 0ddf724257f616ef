import Dietlibc.Time.Parsing

/-!
# `strptime` stays in its input

`Stuck` says of a state that its next turn leaves the input or the format, reads through the null
pointer that a composite directive returned, or overflows. A call whose run meets no such state comes
to its end, in the input; that holds of the calls for composite directives, and so of all calls.
-/

namespace Dietlibc.Time

open CInt Machine
open Lib (text)
open Shell (isblank isdigit tolower)

/-- `s+=2` behind the NUL, no blank for `%Z`, or too many hours. -/
def SimpleStuck (d : Directive) (s : List UInt8) (tm : Tm) : Prop :=
  match d with
  | .ampm => s.length < 2
  | .zone => ∀ c ∈ s, ¬(c = 32 ∨ c = 9)
  | .hour12 => 0 ≤ (getint 2 s).1 ∧ (getint 2 s).1 ≤ 12 ∧
      ¬Fits 32 (tm.tmHour.tdiv 12 * 12 + (getint 2 s).1)
  | _ => False

/-- The calls for composite directives that do not come to their end. -/
abbrev Bad := List UInt8 → Option (List UInt8) → Tm → Prop

def DirectiveStuck (bad : Bad) (d : Directive) (s : Option (List UInt8)) (tm : Tm) : Prop :=
  match d with
  | .composite format => bad format s tm
  | .other => False
  | d =>
    match s with
    | none => True
    | some s => SimpleStuck d s tm

/-- The next turn is a fault. -/
def Stuck (bad : Bad) (st : St) : Prop :=
  match st.format with
  | [] => ¬YearFits st.tm.tmYear
  | c :: format =>
    if c = 32 ∨ c = 9 then st.s = none
    else if c = 37 then
      match format with
      | [] => True
      | d :: _ => DirectiveStuck bad (directiveOf d) st.s st.tm
    else st.s = none

/-- The run meets a state that is stuck. -/
def MeetsStuck (call : Callee) (bad : Bad) : Bad := fun format s tm =>
  ∃ st, Meets (step call) ⟨format, s, tm⟩ st ∧ Stuck bad st

/-- The call for a composite directive meets one. -/
def NestedStuck : Bad := MeetsStuck (fun _ _ _ => none) fun _ _ _ => True

/-- No turn of the call is a fault, nor is one of the calls for composite directives. -/
def Clear (s format : List UInt8) (tm : Tm) : Prop := ¬MeetsStuck nested NestedStuck format (some s) tm

/-- The run comes to a composite directive whose call returns the null pointer. -/
def NestedFails (s format : List UInt8) (tm : Tm) : Prop :=
  ∃ d composite rest o tm1 tm2, Meets (step nested) ⟨format, some s, tm⟩ ⟨37 :: d :: rest, o, tm1⟩ ∧
    directiveOf d = .composite composite ∧ nested composite o tm1 = some (none, tm2)

/-- The call comes to its end, with a pointer into the input or the null pointer, and with the null
pointer if a composite directive failed. -/
def Stays (s format : List UInt8) (tm : Tm) : Prop :=
  ∃ o tm', strptime s format tm = some (o, tm') ∧ (∀ l, o = some l → l <:+ s) ∧
    (NestedFails s format tm → o = none)

/-! ## Reading -/

/-- The fields that are indices or go into `tm_yday`. -/
structure Ranged (tm : Tm) : Prop where
  mon : 0 ≤ tm.tmMon ∧ tm.tmMon < 12
  mday : 0 ≤ tm.tmMday ∧ tm.tmMday ≤ 31

/-- A pointer behind another one in the same string, or the null pointer. -/
def Behind (o' o : Option (List UInt8)) : Prop := ∀ l', o' = some l' → ∃ l, o = some l ∧ l' <:+ l

theorem Behind.refl (o : Option (List UInt8)) : Behind o o := fun l h => ⟨l, h, List.suffix_refl l⟩

theorem Behind.trans {a b c : Option (List UInt8)} (h : Behind a b) (h' : Behind b c) :
    Behind a c := by
  intro l hl
  obtain ⟨m, hm, hs⟩ := h l hl
  obtain ⟨n, hn, hs'⟩ := h' m hm
  exact ⟨n, hn, hs.trans hs'⟩

theorem Behind.none (o : Option (List UInt8)) : Behind none o := fun _ h => nomatch h

theorem Behind.some {s' s : List UInt8} (h : s' <:+ s) : Behind (some s') (some s) := by
  intro l hl
  obtain rfl := Option.some.inj hl
  exact ⟨s, rfl, h⟩

variable {s s' : List UInt8} {tm tm' : Tm} {n i j : Nat}

theorem getintLoop_suffix (n : Nat) (i : Int) (s : List UInt8) : (getintLoop n i s).2 <:+ s := by
  induction n generalizing i s with
  | zero => exact List.suffix_refl s
  | succ n ih =>
    cases s with
    | nil => exact List.suffix_refl _
    | cons d s =>
      unfold getintLoop
      split
      · exact (ih _ s).trans (List.suffix_cons d s)
      · exact List.suffix_refl _

theorem getint_suffix (n : Nat) (s : List UInt8) : (getint n s).2 <:+ s := by
  unfold getint
  split
  · exact getintLoop_suffix n 0 s
  · exact List.suffix_refl s

theorem skipAlpha_suffix (s : List UInt8) : skipAlpha s <:+ s := by
  unfold skipAlpha
  split
  · exact List.suffix_refl _
  · split
    · exact List.suffix_cons _ _
    · exact List.suffix_refl _

theorem skipZone_cases (s : List UInt8) :
    ((∀ c ∈ s, ¬(c = 32 ∨ c = 9)) ∧ skipZone s = none) ∨
      (¬(∀ c ∈ s, ¬(c = 32 ∨ c = 9)) ∧ ∃ s', skipZone s = some s' ∧ s' <:+ s) := by
  induction s with
  | nil => exact .inl ⟨List.forall_mem_nil _, rfl⟩
  | cons c s ih =>
    unfold skipZone
    by_cases hc : c = 32 ∨ c = 9
    · rw [if_pos hc]
      exact .inr ⟨fun h => h c List.mem_cons_self hc, _, rfl, List.suffix_refl _⟩
    · rw [if_neg hc]
      rcases ih with ⟨hs, h⟩ | ⟨hs, s', h, hsuffix⟩
      · exact .inl ⟨List.forall_mem_cons.2 ⟨hc, hs⟩, h⟩
      · exact .inr ⟨fun hall => hs fun d hd => hall d (List.mem_cons_of_mem c hd), s', h,
          hsuffix.trans (List.suffix_cons c s)⟩

theorem advance_of_le (h : n ≤ s.length) : advance n s = some (s.drop n) := if_pos h

theorem tolower_ne_zero {c : UInt8} (h : c ≠ 0) : tolower c ≠ 0 := by
  unfold tolower
  split
  · rename_i hc
    intro hz
    have hle := UInt8.le_iff_toNat_le.1 hc.1
    have hle' := UInt8.le_iff_toNat_le.1 hc.2
    have hsum := congrArg UInt8.toNat hz
    rw [UInt8.toNat_add] at hsum
    simp only [UInt8.reduceToNat] at hle hle' hsum
    omega
  · exact h

/-- A name that is found is in the input. -/
theorem length_of_sameCase {name : List UInt8} (hz : ∀ c ∈ name, c ≠ 0) (hn : n ≤ name.length)
    (h : sameCase n s name = true) : n ≤ s.length := by
  induction n generalizing s name with
  | zero => exact Nat.zero_le _
  | succ n ih =>
    rcases name with _ | ⟨c, name⟩
    · exact absurd hn (Nat.not_succ_le_zero n)
    rw [sameCase, Bool.and_eq_true, Bool.or_eq_true, beq_iff_eq, beq_iff_eq] at h
    obtain ⟨hhead, htail⟩ := h
    have hc : c ≠ 0 := hz c List.mem_cons_self
    rcases s with _ | ⟨d, s⟩
    · exact absurd hhead.symm (tolower_ne_zero hc)
    · rcases htail with hd | htail
      · rw [show d = 0 from hd] at hhead
        exact absurd hhead.symm (tolower_ne_zero hc)
      · exact Nat.succ_le_succ
          (ih (fun e he => hz e (List.mem_cons_of_mem c he)) (Nat.le_of_succ_le_succ hn) htail)

theorem months_spec (h : i < 12) :
    3 ≤ (months.getD i []).length ∧ ∀ c ∈ months.getD i [], c ≠ 0 := by
  have hall : months.all (fun name => decide (3 ≤ name.length) && name.all (· != 0)) = true := by
    decide
  have hlen : i < months.length := h
  have hmem : months.getD i [] ∈ months := by
    rw [List.getD_eq_getElem?_getD, List.getElem?_eq_getElem hlen]
    exact List.getElem_mem hlen
  have hname := List.all_eq_true.1 hall _ hmem
  rw [Bool.and_eq_true, decide_eq_true_eq, List.all_eq_true] at hname
  exact ⟨hname.1, fun c hc => bne_iff_ne.1 (hname.2 c hc)⟩

theorem monthAt_spec (h : monthAt s = some (i, j)) : i < 12 ∧ j ≤ s.length := by
  obtain ⟨k, hk, hfound⟩ := List.exists_of_findSome?_eq_some h
  have hlt : k < 12 := List.mem_range.1 hk
  obtain ⟨hlen, hz⟩ := months_spec hlt
  dsimp only at hfound
  split at hfound
  · rename_i hsame
    cases hfound
    exact ⟨hlt, length_of_sameCase hz le_rfl hsame⟩
  · split at hfound
    · rename_i hsame
      cases hfound
      exact ⟨hlt, length_of_sameCase hz hlen hsame⟩
    · cases hfound

/-! ## Turns -/

/-- A turn that is no fault keeps the fields in range and the pointer in the input. -/
def Turn.Ok (o : Option (List UInt8)) : Turn → Prop
  | .next o' tm => Ranged tm ∧ Behind o' o
  | .null tm => Ranged tm
  | .fault => False

theorem number_ok {max : Nat} {low high : Int} {put : Int → Option Tm} (h : Ranged tm)
    (hput : low ≤ (getint max s).1 → (getint max s).1 ≤ high →
      ∃ tm', put (getint max s).1 = some tm' ∧ Ranged tm') :
    (number max low high s tm put).Ok (some s) := by
  unfold number
  dsimp only
  split
  · exact h
  · rename_i hrange
    obtain ⟨tm', hput, hr⟩ := hput (by omega) (by omega)
    rw [hput]
    exact ⟨hr, .some (getint_suffix max s)⟩

theorem simple_ok (d : Directive) (h : Ranged tm) (hns : ¬SimpleStuck d s tm) :
    (simple d s tm).Ok (some s) := by
  cases d with
  | percent =>
    unfold simple
    dsimp only
    split
    · exact ⟨h, .some (List.tail_suffix s)⟩
    · exact h
  | weekday =>
    exact ⟨h, .some ((skipAlpha_suffix _).trans ((skipAlpha_suffix _).trans (skipAlpha_suffix s)))⟩
  | month =>
    unfold simple
    cases hm : monthAt s with
    | none => exact h
    | some ij =>
      obtain ⟨hi, hj⟩ := monthAt_spec (i := ij.1) (j := ij.2) hm
      dsimp only
      rw [advance_of_le hj]
      exact ⟨⟨⟨Int.natCast_nonneg _, Int.ofNat_lt.2 hi⟩, h.mday⟩, .some (List.drop_suffix _ s)⟩
  | mday =>
    unfold simple
    exact number_ok h fun hlow hhigh => ⟨_, rfl, ⟨h.mon, hlow, hhigh⟩⟩
  | mon =>
    unfold simple
    refine number_ok h fun hlow hhigh => ⟨_, rfl, ⟨?_, h.mday⟩⟩
    dsimp only
    omega
  | hour12 =>
    unfold simple
    refine number_ok h fun hlow hhigh => ?_
    have hfits : Fits 32 (tm.tmHour.tdiv 12 * 12 + (getint 2 s).1) := by
      by_contra hf
      exact hns ⟨hlow, hhigh, hf⟩
    rw [sval_of_fits hfits]
    exact ⟨_, rfl, ⟨h.mon, h.mday⟩⟩
  | century | hour | min | sec | year2 | year =>
    unfold simple
    exact number_ok h fun _ _ => ⟨_, rfl, ⟨h.mon, h.mday⟩⟩
  | week =>
    unfold simple
    exact number_ok h fun _ _ => ⟨_, rfl, h⟩
  | yday => exact ⟨h, .some (getint_suffix 3 s)⟩
  | blank => exact ⟨h, .some (List.dropWhile_suffix _)⟩
  | ampm =>
    have hlen : 2 ≤ s.length := Nat.le_of_not_lt hns
    unfold simple
    dsimp only
    rw [advance_of_le hlen]
    refine ⟨?_, .some (List.drop_suffix 2 s)⟩
    split
    · exact ⟨h.mon, h.mday⟩
    · exact h
  | wday =>
    unfold simple
    dsimp only
    split
    · exact h
    · split
      · exact h
      · exact ⟨h, .some (List.suffix_cons _ _)⟩
  | zone =>
    rcases skipZone_cases s with ⟨hs, -⟩ | ⟨-, s', hskip, hsuffix⟩
    · exact absurd hs hns
    · unfold simple
      dsimp only
      rw [hskip]
      exact ⟨h, .some hsuffix⟩
  | composite _ | other => exact ⟨h, .refl _⟩

theorem simple_fault (d : Directive) (hs : SimpleStuck d s tm) : simple d s tm = .fault := by
  cases d with
  | ampm =>
    have hlen : advance 2 s = none := if_neg (Nat.not_le.2 hs)
    unfold simple
    dsimp only
    rw [hlen]
  | zone =>
    rcases skipZone_cases s with ⟨-, hskip⟩ | ⟨hns, -⟩
    · unfold simple
      dsimp only
      rw [hskip]
    · exact absurd hs hns
  | hour12 =>
    obtain ⟨hlow, hhigh, hf⟩ := hs
    unfold simple number
    dsimp only
    rw [if_neg (by omega), sval_eq_none hf]
    rfl
  | _ => exact hs.elim

/-! ## Calls -/

/-- The calls that are bad are faults, and the others keep the fields in range and the pointer in the
input. -/
def CallSpec (call : Callee) (bad : Bad) : Prop :=
  ∀ format o tm, Ranged tm → (bad format o tm → call format o tm = none) ∧
    (¬bad format o tm → ∃ o' tm', call format o tm = some (o', tm') ∧ Ranged tm' ∧ Behind o' o)

/-- A step that is no fault. -/
def StepOk (o : Option (List UInt8)) : StNext → Prop
  | .again st => Ranged st.tm ∧ Behind st.s o
  | .stop r => Ranged r.2 ∧ Behind r.1 o
  | .fault _ => False

theorem derive_ok (h : Ranged tm) (hy : YearFits tm.tmYear) :
    ∃ tm', derive tm = some tm' ∧ Ranged tm' := by
  have hmon := h.mon
  exact ⟨_, derive_of_fits tm (m := tm.tmMon.toNat) (by omega) (by omega) h.mday hy, ⟨h.mon, h.mday⟩⟩

section

variable {call : Callee} {bad : Bad} {o : Option (List UInt8)} {st : St}

/-- A directive that is not composite reads the input, if it is one. -/
theorem directive_simple (call : Callee) (bad : Bad) (s : List UInt8) (tm : Tm) (d : Directive) :
    (∃ format, d = .composite format) ∨ d = .other ∨
    (directive call d none tm = .fault ∧ DirectiveStuck bad d none tm) ∧
      directive call d (some s) tm = simple d s tm ∧
        DirectiveStuck bad d (some s) tm = SimpleStuck d s tm := by
  cases d with
  | composite format => exact .inl ⟨format, rfl⟩
  | other => exact .inr (.inl rfl)
  | _ => exact .inr (.inr ⟨⟨rfl, trivial⟩, rfl, rfl⟩)

theorem directive_decided (hcall : CallSpec call bad) (h : Ranged tm) (d : Directive) :
    (DirectiveStuck bad d o tm → directive call d o tm = .fault) ∧
      (¬DirectiveStuck bad d o tm → (directive call d o tm).Ok o) := by
  rcases directive_simple call bad (o.getD []) tm d with
    ⟨format, rfl⟩ | rfl | ⟨⟨hnull, hnullStuck⟩, hsome, hsomeStuck⟩
  · obtain ⟨hbad, hgood⟩ := hcall format o tm h
    unfold directive DirectiveStuck
    dsimp only
    refine ⟨fun hs => ?_, fun hs => ?_⟩
    · rw [hbad hs]
    · obtain ⟨o', tm', hret, hok⟩ := hgood hs
      rw [hret]
      exact hok
  · exact ⟨False.elim, fun _ => ⟨h, .refl o⟩⟩
  · cases o with
    | none => exact ⟨fun _ => hnull, fun hs => absurd hnullStuck hs⟩
    | some s =>
      rw [Option.getD_some] at hsome hsomeStuck
      rw [hsome, hsomeStuck]
      exact ⟨simple_fault d, simple_ok d h⟩

/-- **A turn is a fault exactly if the state is stuck.** -/
theorem step_decided (hcall : CallSpec call bad) (h : Ranged st.tm) :
    (Stuck bad st → step call st = .fault ()) ∧ (¬Stuck bad st → StepOk st.s (step call st)) := by
  obtain ⟨format, o, tm⟩ := st
  unfold Stuck step
  dsimp only at h ⊢
  cases format with
  | nil =>
    dsimp only
    by_cases hy : YearFits tm.tmYear
    · obtain ⟨tm', htm, hr⟩ := derive_ok h hy
      rw [htm]
      exact ⟨fun hs => absurd hy hs, fun _ => ⟨hr, .refl o⟩⟩
    · rw [derive_none hy]
      exact ⟨fun _ => rfl, fun hs => absurd hy hs⟩
  | cons c format =>
    dsimp only
    by_cases hblank : c = 32 ∨ c = 9
    · rw [if_pos hblank, if_pos hblank]
      cases o with
      | none => exact ⟨fun _ => rfl, fun hs => absurd rfl hs⟩
      | some s => exact ⟨nofun, fun _ => ⟨h, .some (List.dropWhile_suffix _)⟩⟩
    rw [if_neg hblank, if_neg hblank]
    by_cases hpercent : c = 37
    · rw [if_pos hpercent, if_pos hpercent]
      cases format with
      | nil => exact ⟨fun _ => rfl, fun hs => absurd trivial hs⟩
      | cons d format =>
        obtain ⟨hstuck, hgoes⟩ := directive_decided hcall h (o := o) (directiveOf d)
        dsimp only
        refine ⟨fun hs => by rw [hstuck hs], fun hs => ?_⟩
        have hok := hgoes hs
        cases hd : directive call (directiveOf d) o tm with
        | next o' tm' =>
          rw [hd] at hok
          exact hok
        | null tm' =>
          rw [hd] at hok
          exact ⟨hok, .none o⟩
        | fault =>
          rw [hd] at hok
          exact hok.elim
    rw [if_neg hpercent, if_neg hpercent]
    rcases o with _ | _ | ⟨d, s⟩
    · exact ⟨fun _ => rfl, fun hs => absurd rfl hs⟩
    · exact ⟨nofun, fun _ => ⟨h, .none _⟩⟩
    · refine ⟨nofun, fun _ => ?_⟩
      dsimp only
      split
      · exact ⟨h, .some (List.suffix_cons d s)⟩
      · exact ⟨h, .none _⟩

theorem step_again (hcall : CallSpec call bad) {st' : St} (h : Ranged st.tm)
    (hs : step call st = .again st') : Ranged st'.tm ∧ Behind st'.s st.s := by
  obtain ⟨hstuck, hgoes⟩ := step_decided hcall h
  have hns : ¬Stuck bad st := fun hst => by
    rw [hstuck hst] at hs
    cases hs
  have hok := hgoes hns
  rw [hs] at hok
  exact hok

/-- What a run keeps. -/
def Kept (o : Option (List UInt8)) (st : St) : Prop := Ranged st.tm ∧ Behind st.s o

theorem kept_step (hcall : CallSpec call bad) {st' : St} (h : Kept o st)
    (hs : step call st = .again st') : Kept o st' := by
  obtain ⟨hr, hb⟩ := step_again hcall h.1 hs
  exact ⟨hr, hb.trans h.2⟩

theorem stops_kept (hcall : CallSpec call bad) {r : Answer} (h : Ranged st.tm)
    (hr : Stops (step call) st r) : Ranged r.2 ∧ Behind r.1 st.s := by
  obtain ⟨st', hkept, hstop⟩ := hr.last (I := Kept st.s) (fun _ _ => kept_step hcall) ⟨h, .refl _⟩
  obtain ⟨hstuck, hgoes⟩ := step_decided hcall hkept.1
  have hns : ¬Stuck bad st' := fun hst => by
    rw [hstuck hst] at hstop
    cases hstop
  have hok := hgoes hns
  rw [hstop] at hok
  exact ⟨hok.1, hok.2.trans hkept.2⟩

/-- A run comes to its end exactly if it meets no state that is stuck. -/
theorem stops_iff (hcall : CallSpec call bad) (h : Ranged st.tm) :
    (∃ r, Stops (step call) st r) ↔ ∀ st', Meets (step call) st st' → ¬Stuck bad st' := by
  refine stops_iff_not_stuck (I := fun st => Ranged st.tm)
    (InvImage.wf (fun st : St => st.format.length) Nat.lt_wfRel.wf)
    (fun st st' hr hs => (step_again hcall hr hs).1) (fun st hr hns => ?_) (fun st hr hst r => ?_) h
  · have hok := (step_decided hcall hr).2 hns
    cases hs : step call st with
    | again st' => exact .inr ⟨st', rfl, step_shorter hs⟩
    | stop r => exact .inl ⟨r, rfl⟩
    | fault e =>
      rw [hs] at hok
      exact hok.elim
  · exact not_stops_fault ((step_decided hcall hr).1 hst)

/-- The calls with such calls for composite directives are such calls again. -/
theorem result_spec (hcall : CallSpec call bad) : CallSpec (result call) (MeetsStuck call bad) := by
  intro format o tm h
  have hiff : (∃ r, Stops (step call) ⟨format, o, tm⟩ r) ↔ _ := stops_iff hcall h
  refine ⟨fun ⟨st, hmeets, hstuck⟩ => ?_, fun hgood => ?_⟩
  · cases hres : result call format o tm with
    | none => rfl
    | some r => exact absurd hstuck (hiff.1 ⟨r, result_eq_some_iff.1 hres⟩ st hmeets)
  · obtain ⟨r, hr⟩ := hiff.2 fun st hmeets hstuck => hgood ⟨st, hmeets, hstuck⟩
    obtain ⟨hranged, hbehind⟩ := stops_kept hcall h hr
    exact ⟨r.1, r.2, result_eq_some_iff.2 hr, hranged, hbehind⟩

end

theorem nested_spec : CallSpec nested NestedStuck :=
  result_spec fun _ _ _ _ => ⟨fun _ => rfl, fun h => absurd trivial h⟩

/-- A composite directive that failed leaves the null pointer. -/
theorem null_of_nestedFails {format : List UInt8} {o : Option (List UInt8)} (h : Ranged tm)
    (hr : strptime s format tm = some (o, tm')) (hf : NestedFails s format tm) : o = none := by
  obtain ⟨d, composite, rest, o1, tm1, tm2, hmeets, hd, hret⟩ := hf
  have hkept := hmeets.invariant (I := Kept (some s)) (fun _ _ => kept_step nested_spec) ⟨h, .refl _⟩
  have hstep : step nested ⟨37 :: d :: rest, o1, tm1⟩ = .again ⟨rest, none, tm2⟩ := by
    unfold step
    dsimp only
    rw [if_neg (by decide), if_pos rfl, hd]
    unfold directive
    dsimp only
    rw [hret]
  have hstops := (stops_again hstep).1 (hmeets.stops.1 (result_eq_some_iff.1 hr))
  obtain ⟨-, hbehind⟩ := stops_kept nested_spec (step_again nested_spec hkept.1 hstep).1 hstops
  cases o with
  | none => rfl
  | some l =>
    obtain ⟨l', hl', -⟩ := hbehind l rfl
    cases hl'

/-- **`strptime` stays in its input exactly if its run meets no state that is stuck.** -/
theorem strptime_stays_iff (s format : List UInt8) (tm : Tm) (h : Ranged tm) :
    Stays s format tm ↔ Clear s format tm := by
  obtain ⟨hbad, hgood⟩ := result_spec nested_spec format (some s) tm h
  constructor
  · rintro ⟨o, tm', hret, -⟩ hstuck
    have hfault : strptime s format tm = none := hbad hstuck
    rw [hfault] at hret
    cases hret
  · intro hclear
    obtain ⟨o, tm', hret, -, hbehind⟩ := hgood hclear
    refine ⟨o, tm', hret, fun l hl => ?_, null_of_nestedFails h hret⟩
    obtain ⟨l', hl', hsuffix⟩ := hbehind l hl
    cases hl'
    exact hsuffix

/-- A structure filled with zeros. -/
def zeroed : Tm := ⟨0, 0, 0, 0, 0, 0, 0, 0⟩

theorem ranged_zeroed : Ranged zeroed := ⟨⟨le_rfl, by decide⟩, ⟨le_rfl, by decide⟩⟩

/-- An hour. -/
theorem strptime_stays_hour : Stays (text "12") (text "%H") zeroed := by
  refine (strptime_stays_iff (text "12") (text "%H") zeroed ranged_zeroed).2 ?_
  rintro ⟨st, hmeets, hstuck⟩
  cases hmeets with
  | refl => exact hstuck
  | step h h' =>
    cases h
    cases h' with
    | refl => exact hstuck (yearFits_of_le (by decide) (by decide))
    | step h h' => cases h

theorem not_stays_of_none {s format : List UInt8} (h : strptime s format tm = none) :
    ¬Stays s format tm := by
  rintro ⟨o, tm', hret, -⟩
  rw [h] at hret
  cases hret

/-- `%p` at the last byte, `%Z` without a blank behind the name, a format that ends in `%`, and a
slash behind a composite directive that failed. -/
theorem strptime_leaves : Ranged zeroed ∧ ¬Stays (text "A") (text "%p") zeroed ∧
    ¬Stays (text "GMT") (text "%Z") zeroed ∧ ¬Stays [] (text "%") zeroed ∧
      ¬Stays (text "12") (text "%D/") zeroed :=
  ⟨ranged_zeroed, not_stays_of_none rfl, not_stays_of_none rfl, not_stays_of_none rfl,
    not_stays_of_none rfl⟩

end Dietlibc.Time
