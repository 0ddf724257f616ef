import Mathlib.Tactic

/-!
# Options of a command line

`getopt`, `getopt_long` and `getopt_long_only`. `argv` is the list of the strings in front of its
null pointer, so that `argc` is its length. The variables that the functions keep between two
calls are the fields of `Getopt`. A pass is the code behind the label `again`.

The counters are `int`s in the source. They stay within the lengths of `argv` and of its
strings (`Bounded`), which are taken to fit.
-/

namespace Dietlibc.Lib

/-! ## Strings -/

/-- `s[i]`, with the NUL behind the last byte. -/
def charAt (s : List UInt8) (i : Nat) : UInt8 := s.getD i 0

/-- A `char` as an `int`. -/
def charInt (c : UInt8) : Int := if c.toNat < 128 then c.toNat else c.toNat - 256

/-- The bytes of a text. -/
def text (s : String) : List UInt8 := s.toList.map fun c => UInt8.ofNat c.toNat

/-- `'-'` -/
def dash : UInt8 := 45

/-- `':'` -/
def colon : UInt8 := 58

/-- `'?'` -/
def question : UInt8 := 63

/-! ## State -/

/-- `struct option` -/
structure LongOption where
  name : List UInt8
  hasArg : Int
  flag : Option Nat
  val : Int

/-- `optind`, `optarg`, `optopt`, the static `lastidx` and `lastofs`, `*longindex`, the variables
that the flags of the options point to, and what has been written to descriptor 2. -/
structure Getopt where
  optind : Nat
  optarg : Option (List UInt8)
  optopt : Int
  lastidx : Nat
  lastofs : Nat
  longindex : Option Nat
  flags : Nat → Int
  stderr : List UInt8

/-- The arguments that do not change. -/
structure Args where
  argv : List (List UInt8)
  optstring : List UInt8
  longopts : List LongOption
  opterr : Bool

section

variable (a : Args)

/-- `getopterror` -/
def getopterror (which : Bool) (g : Getopt) : Getopt :=
  if a.opterr then
    { g with stderr := g.stderr ++
        if which then text "Missing argument for `-" ++ [UInt8.ofNat (g.optopt % 256).toNat] ++
          text "'.\n\x00"
        else text "Unknown option `-" ++ [UInt8.ofNat (g.optopt % 256).toNat] ++ text "'.\n\x00" }
  else g

/-! ## Short options -/

/-- `if (lastidx!=optind) { lastidx=optind; lastofs=0; }` -/
def Getopt.enter (g : Getopt) : Getopt :=
  if g.lastidx ≠ g.optind then { g with lastidx := g.optind, lastofs := 0 } else g

/-- An option that expects an argument; `p` is its place in `optstring`. -/
def shortArg (arg : List UInt8) (p : Nat) (g : Getopt) : Int × Getopt :=
  if charAt a.optstring (p + 2) = colon ∨ charAt arg (g.lastofs + 2) ≠ 0 then
    let rest := arg.drop (g.lastofs + 2)
    (g.optopt, { g with optarg := if rest = [] then none else some rest, optind := g.optind + 1 })
  else
    match a.argv[g.optind + 1]? with
    | none =>
      let g := { g with optarg := none, optind := g.optind + 1 }
      (charInt colon, if charAt a.optstring 0 = colon then g else getopterror a true g)
    | some next => (g.optopt, { g with optarg := some next, optind := g.optind + 2 })

/-- The short options of `argv[optind]`. `none` is `goto again`. -/
def shortopt (arg : List UInt8) (g : Getopt) : Option Int × Getopt :=
  let g := g.enter
  let c := charAt arg (g.lastofs + 1)
  let g := { g with optopt := charInt c }
  if c = 0 then (none, { g with optind := g.optind + 1 })
  else if c ∈ a.optstring then
    let p := a.optstring.idxOf c
    if charAt a.optstring (p + 1) = colon then
      let (r, g) := shortArg a arg p g
      (some r, g)
    else (some g.optopt, { g with lastofs := g.lastofs + 1 })
  else (some (charInt question), { getopterror a false g with optind := g.optind + 1 })

/-! ## Long options -/

/-- `match`: the null pointer, an option, or `-1`. -/
inductive Match where
  | none
  | one (i : Nat)
  | many
  deriving DecidableEq

/-- The loop over `longopts`; `key` is the argument up to `max`. -/
def longLoop (key : List UInt8) : Nat → Match → List LongOption → Match
  | _, m, [] => m
  | i, m, o :: os =>
    if key.isPrefixOf o.name then
      if o.name.length = key.length then .one i
      else longLoop key (i + 1) (if m = .none then .one i else .many) os
    else longLoop key (i + 1) m os

/-- The argument up to the `=`. -/
def longKey (arg : List UInt8) : List UInt8 := arg.takeWhile (· != 61)

/-- The option that the argument names. -/
def longMatch (arg : List UInt8) : Match := longLoop (longKey arg) 0 .none a.longopts

/-- What follows the `=`. -/
def longValue (arg : List UInt8) : Option (List UInt8) :=
  if 61 ∈ arg then some (arg.drop ((longKey arg).length + 1)) else none

/-- The end of a long option that has been found. -/
def longFound (o : LongOption) (g : Getopt) : Int × Getopt :=
  match o.flag with
  | some v => (0, { g with optind := g.optind + 1, flags := Function.update g.flags v o.val })
  | none => (o.val, { g with optind := g.optind + 1 })

/-- A long option that has been found. -/
def longOption (arg : List UInt8) (i : Nat) (o : LongOption) (g : Getopt) : Int × Getopt :=
  let g := { g with longindex := some i }
  if 0 < o.hasArg then
    match longValue arg with
    | some v => longFound o { g with optarg := some v }
    | none =>
      let g := { g with optarg := a.argv[g.optind + 1]? }
      if a.argv[g.optind + 1]? = none ∧ o.hasArg = 1 then
        if charAt a.optstring 0 = colon then (charInt colon, g)
        else (charInt question, { g with
          stderr := g.stderr ++ text "argument required: `" ++ longKey arg ++ text "'.\n"
          optind := g.optind + 1 })
      else longFound o { g with optind := g.optind + 1 }
  else longFound o g

/-- A long option that has not been found. -/
def longUnknown (arg : List UInt8) (g : Getopt) : Int × Getopt :=
  if charAt a.optstring 0 = colon then (charInt colon, g)
  else (charInt question, { g with
    stderr := g.stderr ++ text "invalid option `" ++ longKey arg ++ text "'.\n"
    optind := g.optind + 1 })

/-! ## Passes -/

/-- `optind` points to no option, or behind the last one. -/
def noOption (arg : List UInt8) : Bool := charAt arg 0 != dash || charAt arg 1 == 0

/-- The argument is `--`. -/
def isEnd (arg : List UInt8) : Bool := charAt arg 1 == dash && charAt arg 2 == 0

def getoptPass (g : Getopt) : Option Int × Getopt :=
  match a.argv[g.optind]? with
  | none => (some (-1), g)
  | some arg =>
    if noOption arg then (some (-1), g)
    else if isEnd arg then (some (-1), { g with optind := g.optind + 1 })
    else shortopt a arg g

def getoptLongPass (g : Getopt) : Option Int × Getopt :=
  match a.argv[g.optind]? with
  | none => (some (-1), g)
  | some arg =>
    if charAt a.optstring 0 = dash ∧ charAt arg 0 ≠ dash then
      (some 1, { g with optarg := some arg, optind := g.optind + 1 })
    else if noOption arg then (some (-1), g)
    else if isEnd arg then (some (-1), { g with optind := g.optind + 1 })
    else if charAt arg 1 = dash then
      let (r, g) :=
        match longMatch a (arg.drop 2) with
        | .one i => longOption a (arg.drop 2) i (a.longopts.getD i ⟨[], 0, none, 0⟩) g
        | _ => longUnknown a (arg.drop 2) g
      (some r, g)
    else shortopt a arg g

def getoptLongOnlyPass (g : Getopt) : Option Int × Getopt :=
  match a.argv[g.optind]? with
  | none => (some (-1), g)
  | some arg =>
    if noOption arg then (some (-1), g)
    else if isEnd arg then (some (-1), { g with optind := g.optind + 1 })
    else
      let long := if charAt arg 1 = dash then arg.drop 2 else arg.drop 1
      match longMatch a long with
      | .one i =>
        let (r, g) := longOption a long i (a.longopts.getD i ⟨[], 0, none, 0⟩) g
        (some r, g)
      | _ =>
        if charAt arg 1 = dash then
          let (r, g) := longUnknown a long g
          (some r, g)
        else shortopt a arg g

/-! ## Calls -/

/-- The passes of a call, at most `n` of them. -/
def passes (pass : Getopt → Option Int × Getopt) : Nat → Getopt → Int × Getopt
  | 0, g => (-1, g)
  | n + 1, g =>
    match pass g with
    | (some r, g) => (r, g)
    | (none, g) => passes pass n g

/-- A call. Each `goto again` goes to the next element of `argv`. -/
def call (pass : Getopt → Option Int × Getopt) (g : Getopt) : Int × Getopt :=
  passes pass (a.argv.length + 1) (if g.optind = 0 then { g with optind := 1, lastidx := 0 } else g)

def getopt (g : Getopt) : Int × Getopt := call a (getoptPass a) g

def getoptLong (g : Getopt) : Int × Getopt := call a (getoptLongPass a) g

def getoptLongOnly (g : Getopt) : Int × Getopt := call a (getoptLongOnlyPass a) g

end

/-- The state in front of call `n` of the loop that ends with `-1`. -/
def loopState (f : Getopt → Int × Getopt) (g : Getopt) : Nat → Option Getopt
  | 0 => some g
  | n + 1 => (loopState f g n).bind fun g => if (f g).1 = -1 then none else some (f g).2

end Dietlibc.Lib
