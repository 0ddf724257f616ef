import Mathlib.Data.List.TakeWhile
import Dietlibc.Lib.GetoptProgress

/-!
# `optind` and the end of `argv`

A program calls the three functions in any order. They share `optind`, `optarg` and `optopt`, and
each has a `lastidx` and a `lastofs` of its own. `optind_within` says for which runs each call
leaves `optind` between 1 and `argc`, reads no element behind the null pointer, and leaves `optarg`
in an argument: one step is to be avoided, a long option in the last place that may have an
argument and has none (`Overruns`).
-/

namespace Dietlibc.Lib

/-! ## The elements that are read -/

section

variable (a : Args)

/-- The elements of `argv` that `shortopt` reads besides `argv[optind]`. -/
def shortReads (arg : List UInt8) (g : Getopt) : List Nat :=
  let g := g.enter
  let c := charAt arg (g.lastofs + 1)
  let p := a.optstring.idxOf c
  if c ≠ 0 ∧ c ∈ a.optstring ∧ charAt a.optstring (p + 1) = colon ∧
      ¬ (charAt a.optstring (p + 2) = colon ∨ charAt arg (g.lastofs + 2) ≠ 0) then
    [g.optind + 1]
  else []

/-- The elements that a long option reads besides its own. -/
def longReads (arg : List UInt8) (o : LongOption) (g : Getopt) : List Nat :=
  if 0 < o.hasArg ∧ longValue arg = none then [g.optind + 1] else []

/-- The elements that a pass of `getopt` reads. It compares with `optind>argc`. -/
def getoptReads (g : Getopt) : List Nat :=
  if a.argv.length < g.optind then []
  else
    g.optind ::
      match a.argv[g.optind]? with
      | none => []
      | some arg => if noOption arg then [] else if isEnd arg then [] else shortReads a arg g

/-- The elements that a pass of `getopt_long` reads. It compares with `optind>=argc`. -/
def getoptLongReads (g : Getopt) : List Nat :=
  if a.argv.length ≤ g.optind then []
  else
    g.optind ::
      match a.argv[g.optind]? with
      | none => []
      | some arg =>
        if charAt a.optstring 0 = dash ∧ charAt arg 0 ≠ dash then []
        else if noOption arg then []
        else if isEnd arg then []
        else if charAt arg 1 = dash then
          match longMatch a (arg.drop 2) with
          | .one i => longReads (arg.drop 2) (a.longopts.getD i ⟨[], 0, none, 0⟩) g
          | _ => []
        else shortReads a arg g

/-- The elements that a pass of `getopt_long_only` reads. It compares with `optind>argc`. -/
def getoptLongOnlyReads (g : Getopt) : List Nat :=
  if a.argv.length < g.optind then []
  else
    g.optind ::
      match a.argv[g.optind]? with
      | none => []
      | some arg =>
        if noOption arg then []
        else if isEnd arg then []
        else
          let long := if charAt arg 1 = dash then arg.drop 2 else arg.drop 1
          match longMatch a long with
          | .one i => longReads long (a.longopts.getD i ⟨[], 0, none, 0⟩) g
          | _ => if charAt arg 1 = dash then [] else shortReads a arg g

/-- What the passes of a call read. -/
def passesReads (pass : Getopt → Option Int × Getopt) (reads : Getopt → List Nat) :
    Nat → Getopt → List Nat
  | 0, _ => []
  | n + 1, g =>
    reads g ++
      match pass g with
      | (some _, _) => []
      | (none, g) => passesReads pass reads n g

/-- The state in front of the last pass of a call. -/
def lastPass (pass : Getopt → Option Int × Getopt) : Nat → Getopt → Getopt
  | 0, g => g
  | n + 1, g =>
    match pass g with
    | (some _, _) => g
    | (none, g) => lastPass pass n g

/-- `if (optind==0) { optind=1; lastidx=0; }` -/
def Getopt.started (g : Getopt) : Getopt :=
  if g.optind = 0 then { g with optind := 1, lastidx := 0 } else g

end

/-! ## Calls of the three functions -/

inductive Which where
  | getopt
  | getoptLong
  | getoptLongOnly
  deriving DecidableEq

def Which.pass (a : Args) : Which → Getopt → Option Int × Getopt
  | .getopt => getoptPass a
  | .getoptLong => getoptLongPass a
  | .getoptLongOnly => getoptLongOnlyPass a

def Which.reads (a : Args) : Which → Getopt → List Nat
  | .getopt => getoptReads a
  | .getoptLong => getoptLongReads a
  | .getoptLongOnly => getoptLongOnlyReads a

/-- The variables that are shared, and `lastidx` and `lastofs` of each function. -/
structure Vars where
  shared : Getopt
  last : Which → Nat × Nat

/-- What a function sees. -/
def Vars.view (s : Vars) (w : Which) : Getopt :=
  { s.shared with lastidx := (s.last w).1, lastofs := (s.last w).2 }

/-- A call: the function, and its arguments behind `argv`. -/
structure GetoptCall where
  which : Which
  optstring : List UInt8
  longopts : List LongOption
  opterr : Bool

def GetoptCall.args (argv : List (List UInt8)) (c : GetoptCall) : Args :=
  ⟨argv, c.optstring, c.longopts, c.opterr⟩

/-- The variables after a call. -/
def GetoptCall.after (argv : List (List UInt8)) (c : GetoptCall) (s : Vars) : Vars :=
  let g := (call (c.args argv) (c.which.pass (c.args argv)) (s.view c.which)).2
  ⟨g, Function.update s.last c.which (g.lastidx, g.lastofs)⟩

/-- The elements of `argv` that a call reads. -/
def GetoptCall.reads (argv : List (List UInt8)) (c : GetoptCall) (s : Vars) : List Nat :=
  passesReads (c.which.pass (c.args argv)) (c.which.reads (c.args argv)) (argv.length + 1)
    (s.view c.which).started

/-- The variables at the start of a program, which may set `optind` to 0. -/
def initialVars (reset : Bool) : Vars :=
  ⟨{ initialGetopt with optind := if reset then 0 else 1 }, fun _ => (0, 0)⟩

/-- `optarg` is the null pointer or points into an argument. -/
def InArgv (argv : List (List UInt8)) (optarg : Option (List UInt8)) : Prop :=
  ∀ t, optarg = some t → ∃ k arg n, 1 ≤ k ∧ argv[k]? = some arg ∧ n ≤ arg.length ∧ t = arg.drop n

/-- A call keeps to `argv`. -/
structure CallWithin (argv : List (List UInt8)) (c : GetoptCall) (s : Vars) : Prop where
  lower : 1 ≤ (c.after argv s).shared.optind
  upper : (c.after argv s).shared.optind ≤ argv.length
  reads : ∀ k ∈ c.reads argv s, k ≤ argv.length
  optarg : InArgv argv (c.after argv s).shared.optarg

/-- Every call of a run keeps to `argv`. -/
def Within (argv : List (List UInt8)) : Vars → List GetoptCall → Prop
  | _, [] => True
  | s, c :: cs => CallWithin argv c s ∧ Within argv (c.after argv s) cs

/-- `argv[optind]` is the last argument, and names a long option that may have an argument; there
is no `=`. -/
structure LacksOptional (a : Args) (arg long : List UInt8) (i : Nat) (g : Getopt) : Prop where
  element : a.argv[g.optind]? = some arg
  isOption : noOption arg = false ∧ isEnd arg = false
  isLong : longMatch a long = .one i
  hasArg : 0 < (a.longopts.getD i ⟨[], 0, none, 0⟩).hasArg ∧
    (a.longopts.getD i ⟨[], 0, none, 0⟩).hasArg ≠ 1
  lacks : longValue long = none ∧ a.argv[g.optind + 1]? = none

/-- Where a pass goes too far. -/
def PassOverruns (a : Args) (g : Getopt) : Which → Prop
  | .getopt => False
  | .getoptLong => ∃ arg i, charAt arg 1 = dash ∧ LacksOptional a arg (arg.drop 2) i g
  | .getoptLongOnly =>
    ∃ arg i, LacksOptional a arg (if charAt arg 1 = dash then arg.drop 2 else arg.drop 1) i g

/-- The call comes to a long option in the last place that may have an argument. -/
def GetoptCall.Overruns (argv : List (List UInt8)) (c : GetoptCall) (s : Vars) : Prop :=
  PassOverruns (c.args argv)
    (lastPass (c.which.pass (c.args argv)) (argv.length + 1) (s.view c.which).started) c.which

/-- No call of a run goes too far. -/
def NoOverrun (argv : List (List UInt8)) : Vars → List GetoptCall → Prop
  | _, [] => True
  | s, c :: cs => ¬ c.Overruns argv s ∧ NoOverrun argv (c.after argv s) cs

/-! ## A pass -/

variable {a : Args} {g : Getopt} {arg long : List UInt8} {i n k : Nat} {o : LongOption}
  {argv : List (List UInt8)} {bad : Prop}

/-- What a pass from `g` leaves, and where it goes too far. -/
structure PassWithin (a : Args) (g : Getopt) (bad : Prop) (p : Option Int × Getopt) : Prop where
  lower : g.optind ≤ p.2.optind
  upper : g.optind ≤ a.argv.length → ¬ bad → p.2.optind ≤ a.argv.length
  beyond : bad → p.1 ≠ none ∧ a.argv.length < p.2.optind
  again : p.1 = none → p.2.optind = g.optind + 1
  optarg : 1 ≤ g.optind → InArgv a.argv g.optarg → InArgv a.argv p.2.optarg

theorem inArgv_none : InArgv argv none := nofun

theorem inArgv_drop (hk : 1 ≤ k) (h : argv[k]? = some arg) (hn : n ≤ arg.length) :
    InArgv argv (some (arg.drop n)) := by
  rintro t ⟨⟩
  exact ⟨k, arg, n, hk, h, hn, rfl⟩

theorem inArgv_getElem? (hk : 1 ≤ k) : InArgv argv argv[k]? := by
  intro t h
  exact ⟨k, t, 0, hk, h, Nat.zero_le _, rfl⟩

@[simp] theorem getopterror_optarg (which : Bool) (g : Getopt) :
    (getopterror a which g).optarg = g.optarg := by
  unfold getopterror
  split <;> rfl

@[simp] theorem enter_optarg (g : Getopt) : g.enter.optarg = g.optarg := by
  unfold Getopt.enter
  split <;> rfl

/-- A pass that stays at its element and keeps `optarg`. -/
theorem passWithin_stop (g : Getopt) (hbad : ¬ bad) (r : Int) : PassWithin a g bad (some r, g) :=
  ⟨Nat.le_refl _, fun h _ => h, fun h => absurd h hbad, nofun, fun _ h => h⟩

/-- A pass that goes to the next element. -/
theorem passWithin_next {g' : Getopt} {r : Option Int} (hbad : ¬ bad)
    (hlt : g.optind < a.argv.length) (hidx : g'.optind = g.optind + 1)
    (harg : 1 ≤ g.optind → InArgv a.argv g.optarg → InArgv a.argv g'.optarg) :
    PassWithin a g bad (r, g') := by
  refine ⟨?_, fun _ _ => ?_, fun h => absurd h hbad, fun _ => hidx, harg⟩
  · dsimp only
    omega
  · dsimp only
    omega

/-- The argument of a short option is the rest of its own element, or the next element. -/
theorem shortArg_within {p : Nat} (harg : a.argv[g.optind]? = some arg)
    (hofs : g.lastofs + 1 < arg.length) (h1 : 1 ≤ g.optind) :
    (shortArg a arg p g).2.optind ≤ a.argv.length ∧ InArgv a.argv (shortArg a arg p g).2.optarg := by
  have hlt := lt_of_getElem? harg
  unfold shortArg
  split
  · dsimp only
    refine ⟨by omega, ?_⟩
    split
    · exact inArgv_none
    · exact inArgv_drop h1 harg (by omega)
  · split
    · dsimp only
      split
      · exact ⟨hlt, inArgv_none⟩
      · rw [getopterror_optind, getopterror_optarg]
        exact ⟨hlt, inArgv_none⟩
    · rename_i next hnext
      have := lt_of_getElem? hnext
      dsimp only
      exact ⟨by omega, hnext ▸ inArgv_getElem? (by omega)⟩

theorem shortopt_within (harg : a.argv[g.optind]? = some arg) (h1 : 1 ≤ g.optind) (hbad : ¬ bad) :
    PassWithin a g bad (shortopt a arg g) := by
  have hlt := lt_of_getElem? harg
  unfold shortopt
  dsimp only
  split
  · exact passWithin_next hbad hlt (by simp) fun _ h => by simpa using h
  · rename_i hc
    split
    · split
      · have hin := shortArg_within
          (g := { g.enter with optopt := charInt (charAt arg (g.enter.lastofs + 1)) })
          (p := List.idxOf (charAt arg (g.enter.lastofs + 1)) a.optstring)
          (by simpa using harg) (charAt_lt hc) (by simpa using h1)
        have hmove := shortArg_optind arg
          (g := { g.enter with optopt := charInt (charAt arg (g.enter.lastofs + 1)) })
          (p := List.idxOf (charAt arg (g.enter.lastofs + 1)) a.optstring) (by simpa using hlt)
        refine ⟨?_, fun _ _ => hin.1, fun h => absurd h hbad, nofun, fun _ _ => hin.2⟩
        exact Nat.le_of_lt (by simpa using hmove.1)
      · exact ⟨by simp, fun h _ => by simpa using h, fun h => absurd h hbad, nofun,
          fun _ h => by simpa using h⟩
    · exact passWithin_next hbad hlt (by simp) fun _ h => by simpa using h

theorem longFound_optarg (o : LongOption) (g : Getopt) : (longFound o g).2.optarg = g.optarg := by
  unfold longFound
  split <;> rfl

theorem longKey_lt (h : 61 ∈ long) : (longKey long).length < long.length := by
  have hne : long.dropWhile (· != 61) ≠ [] := by
    intro hnil
    have h61 := List.dropWhile_eq_nil_iff.mp hnil 61 h
    exact absurd h61 (by decide)
  have hlen := congrArg List.length (List.takeWhile_append_dropWhile (p := (· != 61)) (l := long))
  rw [List.length_append] at hlen
  have := List.length_pos_of_ne_nil hne
  unfold longKey
  omega

theorem longValue_some {v : List UInt8} (h : longValue long = some v) :
    ∃ m, m ≤ long.length ∧ v = long.drop m := by
  unfold longValue at h
  split at h
  · rename_i hmem
    exact ⟨_, longKey_lt hmem, (Option.some.inj h).symm⟩
  · cases h

/-- A long option goes too far exactly if it may have an argument and is in the last place without
one. -/
theorem longOption_within (harg : a.argv[g.optind]? = some arg) (hlong : long = arg.drop n)
    (hn : n ≤ arg.length) (i : Nat) (o : LongOption)
    (hbad : bad ↔ (0 < o.hasArg ∧ o.hasArg ≠ 1) ∧ longValue long = none ∧
      a.argv[g.optind + 1]? = none) :
    PassWithin a g bad
      (some (longOption a long i o g).1, (longOption a long i o g).2) := by
  have hlt := lt_of_getElem? harg
  unfold longOption
  dsimp only
  split
  · rename_i hpos
    split
    · rename_i v hv
      refine passWithin_next (fun h => ?_) hlt (longFound_optind _ _) fun h1 _ => ?_
      · rw [hv] at hbad
        exact nomatch (hbad.mp h).2.1
      · rw [longFound_optarg]
        obtain ⟨m, hm, rfl⟩ := longValue_some hv
        rw [hlong, List.drop_drop]
        rw [hlong, List.length_drop] at hm
        exact inArgv_drop h1 harg (by omega)
    · rename_i hv
      split
      · rename_i hlack
        have hnot : ¬ bad := fun h => (hbad.mp h).1.2 hlack.2
        split
        · exact ⟨Nat.le_refl _, fun h _ => h, fun h => absurd h hnot, nofun,
            fun _ _ => inArgv_getElem? (by omega)⟩
        · exact passWithin_next hnot hlt rfl fun _ _ => inArgv_getElem? (by omega)
      · rename_i hlack
        refine ⟨?_, fun _ hnot => ?_, fun h => ⟨Option.some_ne_none _, ?_⟩, nofun, fun _ _ => ?_⟩
        · rw [longFound_optind]
          dsimp only
          omega
        · rw [longFound_optind]
          dsimp only
          by_contra hgt
          have hnone : a.argv[g.optind + 1]? = none := List.getElem?_eq_none (by omega)
          exact hnot (hbad.mpr ⟨⟨hpos, fun h => hlack ⟨hnone, h⟩⟩, hv, hnone⟩)
        · rw [longFound_optind]
          have := List.getElem?_eq_none_iff.mp (hbad.mp h).2.2
          dsimp only
          omega
        · rw [longFound_optarg]
          exact inArgv_getElem? (by omega)
  · rename_i hpos
    exact passWithin_next (fun h => hpos (hbad.mp h).1.1) hlt (longFound_optind _ _)
      fun _ h => by rw [longFound_optarg]; exact h

theorem longUnknown_within (hlt : g.optind < a.argv.length) (hbad : ¬ bad) :
    PassWithin a g bad (some (longUnknown a long g).1, (longUnknown a long g).2) := by
  unfold longUnknown
  split
  · exact passWithin_stop g hbad _
  · exact passWithin_next hbad hlt rfl fun _ h => h

theorem lacksOptional_iff (harg : a.argv[g.optind]? = some arg)
    (hopt : noOption arg = false ∧ isEnd arg = false) (hm : longMatch a long = .one i) :
    LacksOptional a arg long i g ↔
      (0 < (a.longopts.getD i ⟨[], 0, none, 0⟩).hasArg ∧
        (a.longopts.getD i ⟨[], 0, none, 0⟩).hasArg ≠ 1) ∧
      longValue long = none ∧ a.argv[g.optind + 1]? = none :=
  ⟨fun h => ⟨h.hasArg, h.lacks⟩, fun h => ⟨harg, hopt, hm, h.1, h.2⟩⟩

/-- `argv[optind]` is the only element that can go too far, and only as the option it names. -/
theorem LacksOptional.unique {arg' : List UInt8} {j : Nat} (h : LacksOptional a arg' long j g)
    (hm : longMatch a long = .one i) : j = i := by
  have := h.isLong.symm.trans hm
  injection this

theorem LacksOptional.same {arg' : List UInt8} (h : LacksOptional a arg' long i g)
    (harg : a.argv[g.optind]? = some arg) : arg' = arg :=
  Option.some.inj (h.element.symm.trans harg)

theorem getoptPass_within (g : Getopt) (h1 : 1 ≤ g.optind) :
    PassWithin a g (PassOverruns a g .getopt) (getoptPass a g) := by
  unfold getoptPass
  split
  · exact passWithin_stop g id _
  · rename_i arg harg
    split
    · exact passWithin_stop g id _
    · split
      · exact passWithin_next id (lt_of_getElem? harg) rfl fun _ h => h
      · exact shortopt_within harg h1 id

theorem getoptLongPass_within (g : Getopt) (h1 : 1 ≤ g.optind) :
    PassWithin a g (PassOverruns a g .getoptLong) (getoptLongPass a g) := by
  unfold getoptLongPass
  split
  · rename_i harg
    refine passWithin_stop g ?_ _
    rintro ⟨arg, i, -, h⟩
    exact nomatch harg.symm.trans h.element
  · rename_i arg harg
    have hlt := lt_of_getElem? harg
    have hother (h : noOption arg = true ∨ isEnd arg = true ∨ charAt arg 1 ≠ dash) :
        ¬ PassOverruns a g .getoptLong := by
      rintro ⟨arg', i, hdash, hl⟩
      obtain rfl := hl.same harg
      rcases h with h | h | h
      · exact nomatch h.symm.trans hl.isOption.1
      · exact nomatch h.symm.trans hl.isOption.2
      · exact h hdash
    split
    · rename_i hplain
      refine passWithin_next (hother (.inl ?_)) hlt rfl fun _ _ => harg ▸ inArgv_getElem? h1
      simp [noOption, hplain.2]
    · split
      · exact passWithin_stop g (hother (.inl ‹_›)) _
      · split
        · exact passWithin_next (hother (.inr (.inl ‹_›))) hlt rfl fun _ h => h
        · rename_i hno hend
          have hopt : noOption arg = false ∧ isEnd arg = false := by simpa using And.intro hno hend
          split
          · rename_i hdash
            have hover (i : Nat) (hm : longMatch a (arg.drop 2) = .one i) :
                PassOverruns a g .getoptLong ↔ LacksOptional a arg (arg.drop 2) i g := by
              refine ⟨?_, fun h => ⟨arg, i, hdash, h⟩⟩
              rintro ⟨arg', j, -, h⟩
              obtain rfl := h.same harg
              obtain rfl := h.unique hm
              exact h
            dsimp only
            split
            · rename_i i hm
              refine longOption_within harg rfl ?_ i _
                ((hover i hm).trans (lacksOptional_iff harg hopt hm))
              have := charAt_lt (isEnd_false hopt.2 hdash)
              omega
            · rename_i hm
              refine longUnknown_within hlt ?_
              rintro ⟨arg', j, -, h⟩
              obtain rfl := h.same harg
              exact hm j h.isLong
          · exact shortopt_within harg h1 (hother (.inr (.inr ‹_›)))

theorem getoptLongOnlyPass_within (g : Getopt) (h1 : 1 ≤ g.optind) :
    PassWithin a g (PassOverruns a g .getoptLongOnly) (getoptLongOnlyPass a g) := by
  unfold getoptLongOnlyPass
  split
  · rename_i harg
    refine passWithin_stop g ?_ _
    rintro ⟨arg, i, h⟩
    exact nomatch harg.symm.trans h.element
  · rename_i arg harg
    have hlt := lt_of_getElem? harg
    have hother (h : noOption arg = true ∨ isEnd arg = true) :
        ¬ PassOverruns a g .getoptLongOnly := by
      rintro ⟨arg', i, hl⟩
      obtain rfl := hl.same harg
      rcases h with h | h
      · exact nomatch h.symm.trans hl.isOption.1
      · exact nomatch h.symm.trans hl.isOption.2
    split
    · exact passWithin_stop g (hother (.inl ‹_›)) _
    · split
      · exact passWithin_next (hother (.inr ‹_›)) hlt rfl fun _ h => h
      · rename_i hno hend
        have hopt : noOption arg = false ∧ isEnd arg = false := by simpa using And.intro hno hend
        have h01 := noOption_false hopt.1
        have hlen : 2 ≤ arg.length := charAt_lt h01.2
        dsimp only
        split
        · rename_i i hm
          have hover : PassOverruns a g .getoptLongOnly ↔
              LacksOptional a arg (if charAt arg 1 = dash then arg.drop 2 else arg.drop 1) i g := by
            refine ⟨?_, fun h => ⟨arg, i, h⟩⟩
            rintro ⟨arg', j, h⟩
            obtain rfl := h.same harg
            obtain rfl := h.unique hm
            exact h
          refine longOption_within (n := if charAt arg 1 = dash then 2 else 1) harg ?_ ?_ i _
            (hover.trans (lacksOptional_iff harg hopt hm))
          · split <;> rfl
          · split <;> omega
        · rename_i hm
          have hbad : ¬ PassOverruns a g .getoptLongOnly := by
            rintro ⟨arg', j, h⟩
            obtain rfl := h.same harg
            exact hm j h.isLong
          split
          · exact longUnknown_within hlt hbad
          · exact shortopt_within harg h1 hbad

theorem pass_within (w : Which) (g : Getopt) (h1 : 1 ≤ g.optind) :
    PassWithin a g (PassOverruns a g w) (w.pass a g) := by
  cases w with
  | getopt => exact getoptPass_within g h1
  | getoptLong => exact getoptLongPass_within g h1
  | getoptLongOnly => exact getoptLongOnlyPass_within g h1

/-! ## What a pass reads -/

theorem shortReads_le (hlt : g.optind < a.argv.length) : ∀ k ∈ shortReads a arg g, k ≤ a.argv.length := by
  intro k hk
  unfold shortReads at hk
  dsimp only at hk
  split at hk
  · rw [List.mem_singleton, enter_optind] at hk
    omega
  · cases hk

theorem longReads_le (hlt : g.optind < a.argv.length) :
    ∀ k ∈ longReads long o g, k ≤ a.argv.length := by
  intro k hk
  unfold longReads at hk
  split at hk
  · rw [List.mem_singleton] at hk
    omega
  · cases hk

/-- No element behind the null pointer is read. -/
theorem reads_le (w : Which) (g : Getopt) : ∀ k ∈ w.reads a g, k ≤ a.argv.length := by
  have hcons {l : List Nat} (hle : g.optind ≤ a.argv.length)
      (hl : ∀ k ∈ l, k ≤ a.argv.length) : ∀ k ∈ g.optind :: l, k ≤ a.argv.length := by
    intro k hk
    rcases List.mem_cons.mp hk with rfl | hk
    · exact hle
    · exact hl k hk
  have hnil : ∀ k ∈ ([] : List Nat), k ≤ a.argv.length := nofun
  cases w with
  | getopt =>
    change ∀ k ∈ getoptReads a g, _
    unfold getoptReads
    split
    · exact hnil
    · refine hcons (by omega) ?_
      split
      · exact hnil
      · rename_i arg harg
        have hlt := lt_of_getElem? harg
        split
        · exact hnil
        · split
          · exact hnil
          · exact shortReads_le hlt
  | getoptLong =>
    change ∀ k ∈ getoptLongReads a g, _
    unfold getoptLongReads
    split
    · exact hnil
    · refine hcons (by omega) ?_
      split
      · exact hnil
      · rename_i arg harg
        have hlt := lt_of_getElem? harg
        split
        · exact hnil
        · split
          · exact hnil
          · split
            · exact hnil
            · split
              · split
                · exact longReads_le hlt
                · exact hnil
              · exact shortReads_le hlt
  | getoptLongOnly =>
    change ∀ k ∈ getoptLongOnlyReads a g, _
    unfold getoptLongOnlyReads
    split
    · exact hnil
    · refine hcons (by omega) ?_
      split
      · exact hnil
      · rename_i arg harg
        have hlt := lt_of_getElem? harg
        split
        · exact hnil
        · split
          · exact hnil
          · dsimp only
            split
            · exact longReads_le hlt
            · split
              · exact hnil
              · exact shortReads_le hlt

/-! ## A call -/

theorem not_overruns_of_none (w : Which) (h : a.argv[g.optind]? = none) :
    ¬ PassOverruns a g w := by
  cases w with
  | getopt => exact id
  | getoptLong =>
    rintro ⟨arg, i, -, hl⟩
    exact nomatch h.symm.trans hl.element
  | getoptLongOnly =>
    rintro ⟨arg, i, hl⟩
    exact nomatch h.symm.trans hl.element

theorem passes_within (w : Which) (h1 : 1 ≤ g.optind) (hn : a.argv.length < n + g.optind) :
    PassWithin a g (PassOverruns a (lastPass (w.pass a) n g) w)
      (some (passes (w.pass a) n g).1, (passes (w.pass a) n g).2) := by
  induction n generalizing g with
  | zero =>
    have hnone : a.argv[g.optind]? = none := List.getElem?_eq_none (by omega)
    exact passWithin_stop g (not_overruns_of_none w hnone) _
  | succ n ih =>
    have hp := pass_within w g h1 (a := a)
    rw [passes, lastPass]
    generalize w.pass a g = p at hp
    obtain ⟨r | r, g'⟩ := p
    · have hbad : ¬ PassOverruns a g w := fun h => (hp.beyond h).1 rfl
      have hnext : g'.optind = g.optind + 1 := hp.again rfl
      have hg' := ih (g := g') (by omega) (by omega)
      exact ⟨hp.lower.trans hg'.lower, fun hle hnot => hg'.upper (hp.upper hle hbad) hnot,
        hg'.beyond, (absurd · (Option.some_ne_none _)),
        fun _ harg => hg'.optarg (by omega) (hp.optarg h1 harg)⟩
    · exact hp

theorem passesReads_le (w : Which) :
    ∀ k ∈ passesReads (w.pass a) (w.reads a) n g, k ≤ a.argv.length := by
  induction n generalizing g with
  | zero => exact nofun
  | succ n ih =>
    intro k hk
    rw [passesReads] at hk
    rcases List.mem_append.mp hk with hk | hk
    · exact reads_le w g k hk
    · split at hk
      · cases hk
      · exact ih k hk

theorem started_optind (g : Getopt) : g.started.optind = max g.optind 1 := by
  unfold Getopt.started
  split
  · rename_i h
    rw [h]
    rfl
  · omega

@[simp] theorem started_optarg (g : Getopt) : g.started.optarg = g.optarg := by
  unfold Getopt.started
  split <;> rfl

/-- **A call keeps to `argv`** exactly if it does not go too far. -/
theorem callWithin_iff (c : GetoptCall) (s : Vars) (hargc : 1 ≤ argv.length)
    (hidx : s.shared.optind ≤ argv.length) (harg : InArgv argv s.shared.optarg) :
    CallWithin argv c s ↔ ¬ c.Overruns argv s := by
  have hstart := started_optind (s.view c.which)
  have hview : (s.view c.which).optind = s.shared.optind := rfl
  have hp := passes_within (a := c.args argv) (n := argv.length + 1) c.which
    (g := (s.view c.which).started) (by omega) (by change argv.length < _; omega)
  constructor
  · intro h hover
    exact absurd (hp.beyond hover).2 (Nat.not_lt.mpr h.upper)
  · intro h
    refine ⟨?_, hp.upper ?_ h, passesReads_le c.which, hp.optarg ?_ ?_⟩
    · have hlower := hp.lower
      exact le_trans (by omega) hlower
    · change _ ≤ argv.length
      omega
    · omega
    · rw [started_optarg]
      exact harg

theorem within_iff (calls : List GetoptCall) (s : Vars) (hargc : 1 ≤ argv.length)
    (hidx : s.shared.optind ≤ argv.length) (harg : InArgv argv s.shared.optarg) :
    Within argv s calls ↔ NoOverrun argv s calls := by
  induction calls generalizing s with
  | nil => exact Iff.rfl
  | cons c cs ih =>
    have hc := callWithin_iff c s hargc hidx harg
    constructor
    · rintro ⟨h, hs⟩
      exact ⟨hc.mp h, (ih _ h.upper h.optarg).mp hs⟩
    · rintro ⟨h, hs⟩
      have hw := hc.mpr h
      exact ⟨hw, (ih _ hw.upper hw.optarg).mpr hs⟩

/-- **`optind` stays within `argv`**, and so do the reads and `optarg`, in the runs without a call
that goes too far; `argv` has at least one element. -/
theorem optind_within (argv : List (List UInt8)) (reset : Bool) (calls : List GetoptCall) :
    Within argv (initialVars reset) calls ↔
      (calls ≠ [] → 1 ≤ argv.length) ∧ NoOverrun argv (initialVars reset) calls := by
  have hidx : (initialVars reset).shared.optind ≤ 1 := by cases reset <;> decide
  rcases calls with _ | ⟨c, cs⟩
  · exact ⟨fun _ => ⟨nofun, trivial⟩, fun _ => trivial⟩
  · constructor
    · intro h
      have hargc := h.1.lower.trans h.1.upper
      exact ⟨fun _ => hargc, (within_iff _ _ hargc (hidx.trans hargc) inArgv_none).mp h⟩
    · rintro ⟨hargc, h⟩
      have hargc := hargc (List.cons_ne_nil c cs)
      exact (within_iff _ _ hargc (hidx.trans hargc) inArgv_none).mpr h

/-- `prog --opt`, where `opt` may have an argument: `optind` is 3 after the call, and `argc` is
2. -/
theorem optind_beyond :
    let c : GetoptCall := ⟨.getoptLong, [], [⟨[111, 112, 116], 2, none, 120⟩], true⟩
    let argv : List (List UInt8) := [[112], [45, 45, 111, 112, 116]]
    (c.after argv (initialVars false)).shared.optind = 3 ∧
      ¬ Within argv (initialVars false) [c] := by
  refine ⟨by decide, fun h => ?_⟩
  exact absurd h.1.upper (by decide)

end Dietlibc.Lib
