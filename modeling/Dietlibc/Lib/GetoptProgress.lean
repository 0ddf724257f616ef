import Dietlibc.Lib.Getopt

/-!
# Option parsing makes progress

`Before` orders the states of a scan by the element of `argv` and the place in its cluster.
`CallEnd` says what a call can do: it ends the scan, goes on in `argv`, goes on in the cluster, or
is stuck at a long option. `loop_progress_iff` says that the loop over the calls moves on at each
of them and comes to its end exactly when it meets no state that is stuck.
-/

namespace Dietlibc.Lib

variable {a : Args} {g g' : Getopt} {arg long : List UInt8} {i n : Nat} {o : LongOption} {r : Int}

/-- The place in the cluster that `optind` points to. -/
def offset (g : Getopt) : Nat := if g.lastidx = g.optind then g.lastofs else 0

/-- The scan has moved on from `g` to `g'`. -/
def Before (g g' : Getopt) : Prop :=
  g.optind < g'.optind ∨ g.optind = g'.optind ∧ offset g < offset g'

/-- Every call of the loop that does not end it moves on, and the loop comes to its end. -/
def LoopProgress (f : Getopt → Int × Getopt) (g : Getopt) : Prop :=
  (∀ n g', loopState f g n = some g' → (f g').1 ≠ -1 → Before g' (f g').2) ∧
    ∃ n, loopState f g n = none

/-- The counters are within `argv` and its strings. -/
structure Bounded (a : Args) (g : Getopt) : Prop where
  optind : g.optind ≤ a.argv.length + 1
  lastidx : g.lastidx ≤ g.optind
  offset : ∀ arg, a.argv[g.optind]? = some arg → offset g ≤ arg.length

/-! ## Where a call is stuck -/

/-- The option lacks its argument. -/
def LacksArg (a : Args) (long : List UInt8) (g : Getopt) : Prop :=
  ∃ i, longMatch a long = .one i ∧ (a.longopts.getD i ⟨[], 0, none, 0⟩).hasArg = 1 ∧
    61 ∉ long ∧ a.argv[g.optind + 1]? = none

/-- `optstring` starts with `:`, and `argv[optind]` is a long option that is not known, is
ambiguous or lacks its argument. -/
structure LongStuck (a : Args) (arg : List UInt8) (g : Getopt) : Prop where
  mode : charAt a.optstring 0 = colon
  element : a.argv[g.optind]? = some arg
  isLong : charAt arg 0 = dash ∧ charAt arg 1 = dash ∧ charAt arg 2 ≠ 0
  bad : LacksArg a (arg.drop 2) g ∨ ∀ i, longMatch a (arg.drop 2) ≠ .one i

/-- The same for `getopt_long_only`, where one dash is enough for an option that is known. -/
structure LongOnlyStuck (a : Args) (arg : List UInt8) (g : Getopt) : Prop where
  mode : charAt a.optstring 0 = colon
  element : a.argv[g.optind]? = some arg
  isOption : charAt arg 0 = dash ∧ charAt arg 1 ≠ 0 ∧ (charAt arg 1 = dash → charAt arg 2 ≠ 0)
  bad : LacksArg a (if charAt arg 1 = dash then arg.drop 2 else arg.drop 1) g ∨
    charAt arg 1 = dash ∧ ∀ i, longMatch a (arg.drop 2) ≠ .one i

/-! ## What a pass can do -/

inductive PassEnd (a : Args) (stuck : Prop) (g : Getopt) : Option Int × Getopt → Prop where
  | stop (g' : Getopt) : PassEnd a stuck g (some (-1), g')
  | again (g' : Getopt) (hlt : g.optind < a.argv.length) (hnext : g'.optind = g.optind + 1)
      (hlast : g.lastidx ≤ g.optind → g'.lastidx ≤ g.optind) : PassEnd a stuck g (none, g')
  | moved (r : Int) (g' : Getopt) (hlt : g.optind < g'.optind)
      (hle : g'.optind ≤ a.argv.length + 1)
      (hlast : g.lastidx ≤ g.optind → g'.lastidx ≤ g.optind) : PassEnd a stuck g (some r, g')
  | inside (r : Int) (g' : Getopt) (arg : List UInt8) (harg : a.argv[g.optind]? = some arg)
      (hidx : g'.optind = g.optind) (hofs : offset g' = offset g + 1)
      (hlen : offset g' < arg.length) (hlast : g'.lastidx = g'.optind) :
      PassEnd a stuck g (some r, g')
  | stuck (g' : Getopt) (hs : stuck) (hlt : g.optind < a.argv.length)
      (hidx : g'.optind = g.optind) (hlast : g'.lastidx = g.lastidx)
      (hofs : offset g' = offset g) : PassEnd a stuck g (some 58, g')

theorem charAt_lt {s : List UInt8} (h : charAt s i ≠ 0) : i < s.length := by
  by_contra hge
  rw [charAt, List.getD_eq_getElem?_getD, List.getElem?_eq_none (Nat.le_of_not_lt hge)] at h
  exact h rfl

@[simp] theorem enter_optind (g : Getopt) : g.enter.optind = g.optind := by
  unfold Getopt.enter
  split <;> rfl

theorem enter_lastidx (g : Getopt) : g.enter.lastidx = g.optind := by
  unfold Getopt.enter
  split
  · rfl
  · exact not_not.mp ‹_›

theorem enter_lastofs (g : Getopt) : g.enter.lastofs = offset g := by
  unfold Getopt.enter offset
  by_cases h : g.lastidx = g.optind
  · rw [if_neg (not_not.mpr h), if_pos h]
  · rw [if_pos h, if_neg h]

@[simp] theorem getopterror_optind (which : Bool) (g : Getopt) :
    (getopterror a which g).optind = g.optind := by
  unfold getopterror
  split <;> rfl

@[simp] theorem getopterror_lastidx (which : Bool) (g : Getopt) :
    (getopterror a which g).lastidx = g.lastidx := by
  unfold getopterror
  split <;> rfl

theorem shortArg_lastidx {p : Nat} : (shortArg a arg p g).2.lastidx = g.lastidx := by
  unfold shortArg
  split
  · rfl
  · split
    · dsimp only
      split
      · rfl
      · rw [getopterror_lastidx]
    · rfl

theorem lt_of_getElem? (h : a.argv[i]? = some arg) : i < a.argv.length :=
  (List.getElem?_eq_some_iff.mp h).1

/-- An option that expects an argument moves on in `argv`. -/
theorem shortArg_optind (arg : List UInt8) {p : Nat} (h : g.optind < a.argv.length) :
    g.optind < (shortArg a arg p g).2.optind ∧
      (shortArg a arg p g).2.optind ≤ a.argv.length + 1 := by
  unfold shortArg
  split
  · dsimp only
    omega
  · split
    · dsimp only
      split
      · dsimp only
        omega
      · rw [getopterror_optind]
        dsimp only
        omega
    · dsimp only
      omega

/-- A short option never is stuck. -/
theorem shortopt_end (harg : a.argv[g.optind]? = some arg) (stuck : Prop) :
    PassEnd a stuck g (shortopt a arg g) := by
  have hlt := lt_of_getElem? harg
  have hidx := enter_lastidx g
  have hofs := enter_lastofs g
  unfold shortopt
  dsimp only
  split
  · exact .again _ hlt (by simp) fun _ => hidx.le
  · rename_i hc
    split
    · split
      · have hmove := shortArg_optind arg
          (g := { g.enter with optopt := charInt (charAt arg (g.enter.lastofs + 1)) })
          (p := List.idxOf (charAt arg (g.enter.lastofs + 1)) a.optstring)
          (by simpa using hlt)
        refine .moved _ _ (by simpa using hmove.1) hmove.2 fun _ => ?_
        rw [shortArg_lastidx]
        exact hidx.le
      · have hofs' : offset { g.enter with
            optopt := charInt (charAt arg (g.enter.lastofs + 1))
            lastofs := g.enter.lastofs + 1 } = offset g + 1 := by
          rw [offset, if_pos (by simpa using hidx), ← hofs]
        refine .inside _ _ arg harg (by simp) hofs' ?_ ?_
        · rw [hofs', ← hofs]
          exact charAt_lt hc
        · simpa using hidx
    · exact .moved _ _ (by simp) (by simp; omega) fun _ => by simpa using hidx.le

theorem longFound_optind (o : LongOption) (g : Getopt) :
    (longFound o g).2.optind = g.optind + 1 := by
  unfold longFound
  split <;> rfl

theorem longFound_lastidx (o : LongOption) (g : Getopt) :
    (longFound o g).2.lastidx = g.lastidx := by
  unfold longFound
  split <;> rfl

theorem longValue_none : longValue long = none ↔ 61 ∉ long := by
  unfold longValue
  split <;> simp_all

/-- A long option that has been found is stuck if it lacks its argument and `optstring` starts
with `:`. -/
theorem longOption_end {stuck : Prop} (hlt : g.optind < a.argv.length)
    (hs : charAt a.optstring 0 = colon → o.hasArg = 1 → 61 ∉ long →
      a.argv[g.optind + 1]? = none → stuck) :
    PassEnd a stuck g (some (longOption a long i o g).1, (longOption a long i o g).2) := by
  have hfound {g' : Getopt} (h : g'.optind = g.optind ∨ g'.optind = g.optind + 1)
      (hlast : g'.lastidx = g.lastidx) :
      PassEnd a stuck g (some (longFound o g').1, (longFound o g').2) := by
    refine .moved _ _ ?_ ?_ fun hl => ?_
    · rw [longFound_optind]
      omega
    · rw [longFound_optind]
      omega
    · rw [longFound_lastidx, hlast]
      exact hl
  unfold longOption
  dsimp only
  split
  · split
    · exact hfound (.inl rfl) rfl
    · rename_i hv
      split
      · rename_i hlack
        split
        · exact .stuck _ (hs ‹_› hlack.2 (longValue_none.mp hv) hlack.1) hlt rfl rfl rfl
        · exact .moved _ _ (Nat.lt_succ_self _) (by simp; omega) id
      · exact hfound (.inr rfl) rfl
  · exact hfound (.inl rfl) rfl

theorem longUnknown_end {stuck : Prop} (hlt : g.optind < a.argv.length)
    (hs : charAt a.optstring 0 = colon → stuck) :
    PassEnd a stuck g (some (longUnknown a long g).1, (longUnknown a long g).2) := by
  unfold longUnknown
  split
  · exact .stuck _ (hs ‹_›) hlt rfl rfl rfl
  · exact .moved _ _ (Nat.lt_succ_self _) (by simp; omega) id

theorem getoptPass_end (g : Getopt) : PassEnd a False g (getoptPass a g) := by
  unfold getoptPass
  split
  · exact .stop g
  · rename_i arg harg
    split
    · exact .stop g
    · split
      · exact .stop _
      · exact shortopt_end harg False

theorem noOption_false (h : noOption arg = false) : charAt arg 0 = dash ∧ charAt arg 1 ≠ 0 := by
  simpa [noOption] using h

theorem isEnd_false (h : isEnd arg = false) (hd : charAt arg 1 = dash) : charAt arg 2 ≠ 0 := by
  simpa [isEnd, hd] using h

theorem getoptLongPass_end (g : Getopt) :
    PassEnd a (∃ arg, LongStuck a arg g) g (getoptLongPass a g) := by
  unfold getoptLongPass
  split
  · exact .stop g
  · rename_i arg harg
    have hlt := lt_of_getElem? harg
    split
    · exact .moved _ _ (Nat.lt_succ_self _) (by simp; omega) id
    · split
      · exact .stop g
      · split
        · exact .stop _
        · rename_i hno hend
          have hopt := noOption_false (by simpa using hno)
          split
          · rename_i hlong
            have hisLong : charAt arg 0 = dash ∧ charAt arg 1 = dash ∧ charAt arg 2 ≠ 0 :=
              ⟨hopt.1, hlong, isEnd_false (by simpa using hend) hlong⟩
            dsimp only
            split
            · rename_i i hm
              exact longOption_end hlt fun hc h1 hv hn =>
                ⟨arg, hc, harg, hisLong, .inl ⟨i, hm, h1, hv, hn⟩⟩
            · rename_i hm
              exact longUnknown_end hlt fun hc => ⟨arg, hc, harg, hisLong, .inr hm⟩
          · exact shortopt_end harg _

theorem getoptLongOnlyPass_end (g : Getopt) :
    PassEnd a (∃ arg, LongOnlyStuck a arg g) g (getoptLongOnlyPass a g) := by
  unfold getoptLongOnlyPass
  split
  · exact .stop g
  · rename_i arg harg
    have hlt := lt_of_getElem? harg
    split
    · exact .stop g
    · split
      · exact .stop _
      · rename_i hno hend
        have hopt := noOption_false (by simpa using hno)
        have hisOption : charAt arg 0 = dash ∧ charAt arg 1 ≠ 0 ∧
            (charAt arg 1 = dash → charAt arg 2 ≠ 0) :=
          ⟨hopt.1, hopt.2, isEnd_false (by simpa using hend)⟩
        dsimp only
        split
        · rename_i i hm
          exact longOption_end hlt fun hc h1 hv hn =>
            ⟨arg, hc, harg, hisOption, .inl ⟨i, hm, h1, hv, hn⟩⟩
        · rename_i hm
          split
          · rename_i hlong
            rw [if_pos hlong] at hm
            exact longUnknown_end hlt fun hc => ⟨arg, hc, harg, hisOption, .inr ⟨hlong, hm⟩⟩
          · exact shortopt_end harg _

/-! ## What a call can do -/

/-- The end of a call that starts at `g`. -/
inductive CallEnd (a : Args) (stuck : Prop) (g : Getopt) (r : Int) (g' : Getopt) : Prop where
  | stop (h : r = -1)
  | moved (hlt : g.optind < g'.optind) (hle : g'.optind ≤ a.argv.length + 1)
      (hlast : g.lastidx ≤ g.optind → Bounded a g')
  | inside (arg : List UInt8) (harg : a.argv[g.optind]? = some arg) (hidx : g'.optind = g.optind)
      (hofs : offset g' = offset g + 1) (hlen : offset g' < arg.length)
      (hlast : g'.lastidx = g'.optind)
  | stuck (hs : stuck) (hlt : g.optind < a.argv.length) (hidx : g'.optind = g.optind)
      (hlast : g'.lastidx = g.lastidx) (hofs : offset g' = offset g)

theorem bounded_of_lt (hle : g.optind ≤ a.argv.length + 1) (h : g.lastidx < g.optind) :
    Bounded a g := by
  refine ⟨hle, h.le, fun arg _ => ?_⟩
  rw [offset, if_neg h.ne]
  exact Nat.zero_le _

theorem bounded_of_inside (harg : a.argv[g.optind]? = some arg) (hidx : g'.optind = g.optind)
    (hlen : offset g' < arg.length) (hlast : g'.lastidx = g'.optind) : Bounded a g' := by
  have hlt := lt_of_getElem? harg
  refine ⟨by omega, hlast.le, fun arg' harg' => ?_⟩
  rw [hidx, harg] at harg'
  rw [← Option.some.inj harg']
  exact hlen.le

section

variable {pass : Getopt → Option Int × Getopt} {stuck : Getopt → Prop}

/-- The passes behind the first one find `optind` increased. -/
theorem passes_end (hpass : ∀ g, PassEnd a (stuck g) g (pass g))
    (h : a.argv.length < n + g.optind) :
    CallEnd a (stuck g) g (passes pass n g).1 (passes pass n g).2 := by
  induction n generalizing g with
  | zero => exact .stop rfl
  | succ n ih =>
    have hp := hpass g
    rw [passes]
    generalize pass g = p at hp
    cases hp with
    | stop g' => exact .stop rfl
    | moved r g' hlt hle hlast =>
      exact .moved hlt hle fun hl => bounded_of_lt hle (Nat.lt_of_le_of_lt (hlast hl) hlt)
    | inside r g' arg harg hidx hofs hlen hlast => exact .inside arg harg hidx hofs hlen hlast
    | stuck g' hs hlt hidx hlast hofs => exact .stuck hs hlt hidx hlast hofs
    | again g1 hlt hnext hlast1 =>
      dsimp only
      cases ih (g := g1) (by omega) with
      | stop h => exact .stop h
      | moved hlt' hle hlast =>
        exact .moved (by omega) hle fun hl => hlast ((hlast1 hl).trans (by omega))
      | inside arg harg hidx hofs hlen hlast =>
        have hlt' := lt_of_getElem? harg
        exact .moved (by omega) (by omega) fun _ => bounded_of_inside harg hidx hlen hlast
      | stuck hs hlt' hidx hlast hofs =>
        refine .moved (by omega) (by omega) fun hl => bounded_of_lt (by omega) ?_
        have := hlast1 hl
        omega

/-- A call with `optind` 0 starts at 1. -/
theorem call_end (hpass : ∀ g, PassEnd a (stuck g) g (pass g)) (g : Getopt) :
    CallEnd a (g.optind ≠ 0 ∧ stuck g) g (call a pass g).1 (call a pass g).2 := by
  unfold call
  by_cases h0 : g.optind = 0
  · rw [if_pos h0]
    cases passes_end hpass (g := { g with optind := 1, lastidx := 0 }) (n := a.argv.length + 1)
      (by simp) with
    | stop h => exact .stop h
    | moved hlt hle hlast => exact .moved (by simp only at hlt; omega) hle fun _ => hlast (by simp)
    | inside arg harg hidx hofs hlen hlast =>
      have hbounded := bounded_of_inside harg hidx hlen hlast
      simp only at hidx
      exact .moved (by omega) (by omega) fun _ => hbounded
    | stuck hs hlt hidx hlast hofs =>
      simp only at hidx hlast hlt
      exact .moved (by omega) (by omega) fun _ => bounded_of_lt (by omega) (by omega)
  · rw [if_neg h0]
    cases passes_end hpass (g := g) (n := a.argv.length + 1) (by omega) with
    | stop h => exact .stop h
    | moved hlt hle hlast => exact .moved hlt hle hlast
    | inside arg harg hidx hofs hlen hlast => exact .inside arg harg hidx hofs hlen hlast
    | stuck hs hlt hidx hlast hofs => exact .stuck ⟨h0, hs⟩ hlt hidx hlast hofs

/-- The counters stay within `argv` and its strings as long as the scan goes on. -/
theorem CallEnd.bounded {stuck : Prop} (h : CallEnd a stuck g r g') (hr : r ≠ -1)
    (hb : Bounded a g) : Bounded a g' := by
  cases h with
  | stop h => exact absurd h hr
  | moved hlt hle hlast => exact hlast hb.lastidx
  | inside arg harg hidx hofs hlen hlast => exact bounded_of_inside harg hidx hlen hlast
  | stuck hs hlt hidx hlast hofs =>
    refine ⟨by omega, by rw [hlast, hidx]; exact hb.lastidx, fun arg harg => ?_⟩
    rw [hofs]
    exact hb.offset arg (hidx ▸ harg)

/-- A call whose first pass returns is that pass. -/
theorem call_of_pass {g' : Getopt} (h0 : g.optind ≠ 0) (h : pass g = (some r, g')) :
    call a pass g = (r, g') := by
  unfold call
  rw [if_neg h0, passes, h]

end

/-! ## Loops -/

section

variable {f : Getopt → Int × Getopt}

theorem loopState_succ (g : Getopt) (n : Nat) :
    loopState f g (n + 1) = if (f g).1 = -1 then none else loopState f (f g).2 n := by
  induction n with
  | zero => rfl
  | succ n ih =>
    rw [loopState, ih]
    split
    · rfl
    · rfl

/-- A loop whose steps go down in a well-founded order comes to its end. -/
theorem loopState_ends {lt : Getopt → Getopt → Prop} (hwf : WellFounded lt)
    (h : ∀ n g', loopState f g n = some g' → (f g').1 ≠ -1 → lt (f g').2 g') :
    ∃ n, loopState f g n = none := by
  induction g using hwf.induction with
  | _ g ih =>
    by_cases hstop : (f g).1 = -1
    · exact ⟨1, by rw [loopState_succ, if_pos hstop]⟩
    · obtain ⟨n, hn⟩ := ih (f g).2 (h 0 g rfl hstop) fun n g' hg' hne =>
        h (n + 1) g' (by rw [loopState_succ, if_neg hstop, hg']) hne
      exact ⟨n + 1, by rw [loopState_succ, if_neg hstop, hn]⟩

end

/-- What is left of `argv`, and of the cluster. -/
def remaining (a : Args) (g : Getopt) : Nat × Nat :=
  (a.argv.length + 2 - g.optind, (a.argv.getD g.optind []).length - offset g)

/-- The states in the order of what is left. -/
def Less (a : Args) (g' g : Getopt) : Prop :=
  Prod.Lex (· < ·) (· < ·) (remaining a g') (remaining a g)

theorem less_wf (a : Args) : WellFounded (Less a) :=
  InvImage.wf (remaining a) (WellFounded.prod_lex Nat.lt_wfRel.wf Nat.lt_wfRel.wf)

/-- A call that neither ends the scan nor is stuck moves on. -/
theorem CallEnd.progress {stuck : Prop} (h : CallEnd a stuck g r g') (hr : r ≠ -1) (hs : ¬ stuck) :
    Before g g' ∧ Less a g' g := by
  cases h with
  | stop h => exact absurd h hr
  | moved hlt hle hlast => exact ⟨.inl hlt, .left _ _ (by omega)⟩
  | inside arg harg hidx hofs hlen hlast =>
    refine ⟨.inr ⟨hidx.symm, by omega⟩, ?_⟩
    unfold Less remaining
    rw [hidx, List.getD_eq_getElem?_getD, harg, Option.getD_some]
    exact .right _ (by omega)
  | stuck h => exact absurd h hs

/-- **The loop moves on** at each call and ends exactly if it meets no state that is stuck. -/
theorem loop_progress_iff {stuck : Getopt → Prop}
    (hend : ∀ g, CallEnd a (stuck g) g (f g).1 (f g).2)
    (hstuck : ∀ g, stuck g → (f g).1 ≠ -1 ∧ ¬ Before g (f g).2) :
    LoopProgress f g ↔ ∀ n g', loopState f g n = some g' → ¬ stuck g' := by
  constructor
  · intro h n g' hg' hs
    exact (hstuck g' hs).2 (h.1 n g' hg' (hstuck g' hs).1)
  · intro h
    have hprogress n g' (hg' : loopState f g n = some g') (hr : (f g').1 ≠ -1) :=
      (hend g').progress hr (h n g' hg')
    exact ⟨fun n g' hg' hr => (hprogress n g' hg' hr).1,
      loopState_ends (less_wf a) fun n g' hg' hr => (hprogress n g' hg' hr).2⟩

/-! ## The three functions -/

theorem not_before (hidx : g'.optind = g.optind) (hofs : offset g' = offset g) : ¬ Before g g' := by
  rintro (h | ⟨-, h⟩) <;> omega

theorem longOption_stuck (hc : charAt a.optstring 0 = colon) (h1 : o.hasArg = 1) (hv : 61 ∉ long)
    (hn : a.argv[g.optind + 1]? = none) (i : Nat) :
    longOption a long i o g = (58, { g with longindex := some i, optarg := none }) := by
  unfold longOption
  rw [if_pos (by omega), longValue_none.mpr hv]
  dsimp only
  rw [hn, if_pos ⟨rfl, h1⟩, if_pos hc]
  rfl

theorem longUnknown_stuck (hc : charAt a.optstring 0 = colon) : longUnknown a long g = (58, g) := by
  unfold longUnknown
  rw [if_pos hc]
  rfl

theorem getoptLongPass_stuck (h : LongStuck a arg g) :
    ∃ g', getoptLongPass a g = (some 58, g') ∧ g'.optind = g.optind ∧ offset g' = offset g := by
  obtain ⟨h0, h1, h2⟩ := h.isLong
  have hno : noOption arg = false := by simp [noOption, h0, h1, dash]
  have hend : isEnd arg = false := by simp [isEnd, h2]
  unfold getoptLongPass
  rw [h.element]
  dsimp only
  rw [if_neg (fun hh => hh.2 h0), hno, hend, if_neg Bool.false_ne_true, if_neg Bool.false_ne_true,
    if_pos h1]
  rcases h.bad with ⟨i, hm, harg, hv, hn⟩ | hm
  · rw [hm]
    dsimp only
    rw [longOption_stuck h.mode harg hv hn]
    exact ⟨_, rfl, rfl, rfl⟩
  · cases hmatch : longMatch a (arg.drop 2) with
    | one i => exact absurd hmatch (hm i)
    | none =>
      dsimp only
      rw [longUnknown_stuck h.mode]
      exact ⟨g, rfl, rfl, rfl⟩
    | many =>
      dsimp only
      rw [longUnknown_stuck h.mode]
      exact ⟨g, rfl, rfl, rfl⟩

theorem getoptLongOnlyPass_stuck (h : LongOnlyStuck a arg g) :
    ∃ g', getoptLongOnlyPass a g = (some 58, g') ∧ g'.optind = g.optind ∧
      offset g' = offset g := by
  obtain ⟨h0, h1, h2⟩ := h.isOption
  have hno : noOption arg = false := by simp [noOption, h0, h1]
  have hend : isEnd arg = false := by
    by_cases hd : charAt arg 1 = dash
    · simp [isEnd, h2 hd]
    · simp [isEnd, hd]
  unfold getoptLongOnlyPass
  rw [h.element]
  dsimp only
  rw [hno, hend, if_neg Bool.false_ne_true, if_neg Bool.false_ne_true]
  rcases h.bad with ⟨i, hm, harg, hv, hn⟩ | ⟨hd, hm⟩
  · rw [hm]
    dsimp only
    rw [longOption_stuck h.mode harg hv hn]
    exact ⟨_, rfl, rfl, rfl⟩
  · rw [if_pos hd]
    cases hmatch : longMatch a (arg.drop 2) with
    | one i => exact absurd hmatch (hm i)
    | none =>
      dsimp only
      rw [if_pos hd, longUnknown_stuck h.mode]
      exact ⟨g, rfl, rfl, rfl⟩
    | many =>
      dsimp only
      rw [if_pos hd, longUnknown_stuck h.mode]
      exact ⟨g, rfl, rfl, rfl⟩

theorem getopt_progress (a : Args) (g : Getopt) : LoopProgress (getopt a) g :=
  (loop_progress_iff (call_end getoptPass_end) fun _ h => h.2.elim).mpr fun _ _ _ h => h.2

/-- **Option parsing makes progress.** The loop over `getopt` always does; those over the other
two do exactly if they meet no state that is stuck at a long option. -/
theorem options_progress (a : Args) (g : Getopt) :
    LoopProgress (getopt a) g ∧
      (LoopProgress (getoptLong a) g ↔ ∀ n g', loopState (getoptLong a) g n = some g' →
        ¬ (g'.optind ≠ 0 ∧ ∃ arg, LongStuck a arg g')) ∧
      (LoopProgress (getoptLongOnly a) g ↔ ∀ n g', loopState (getoptLongOnly a) g n = some g' →
        ¬ (g'.optind ≠ 0 ∧ ∃ arg, LongOnlyStuck a arg g')) := by
  refine ⟨getopt_progress a g, ?_, ?_⟩
  · refine loop_progress_iff (call_end getoptLongPass_end) fun g h => ?_
    obtain ⟨h0, arg, hs⟩ := h
    obtain ⟨g', hpass, hidx, hofs⟩ := getoptLongPass_stuck hs
    rw [getoptLong, call_of_pass h0 hpass]
    exact ⟨by simp, not_before hidx hofs⟩
  · refine loop_progress_iff (call_end getoptLongOnlyPass_end) fun g h => ?_
    obtain ⟨h0, arg, hs⟩ := h
    obtain ⟨g', hpass, hidx, hofs⟩ := getoptLongOnlyPass_stuck hs
    rw [getoptLongOnly, call_of_pass h0 hpass]
    exact ⟨by simp, not_before hidx hofs⟩

/-- The state at the start of a program. -/
def initialGetopt : Getopt where
  optind := 1
  optarg := none
  optopt := 0
  lastidx := 0
  lastofs := 0
  longindex := none
  flags := fun _ => 0
  stderr := []

/-- `prog --x` with `optstring` `":"` and no long options: the first call returns `:` and leaves
`optind` and the offset as they are. -/
theorem getoptLong_stays :
    let a : Args := ⟨[[112], [45, 45, 120]], [58], [], true⟩
    (getoptLong a initialGetopt).1 = 58 ∧ (getoptLong a initialGetopt).2.optind = 1 ∧
      ¬ LoopProgress (getoptLong a) initialGetopt := by
  refine ⟨by decide, by decide, fun h => ?_⟩
  rcases h.1 0 initialGetopt rfl (by decide) with hlt | ⟨-, hlt⟩
  · exact absurd hlt (by decide)
  · exact absurd hlt (by decide)

end Dietlibc.Lib
