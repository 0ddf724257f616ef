import Mathlib.Tactic

/-!
# `fnmatch`

The functions of `fnmatch.c` and those of `ctype` they call. Pattern and string are lists of bytes
without the terminator; a pointer into one is the rest of the list. A `char` is signed, so the
range comparisons of `fnmatch` go through `Int8`.
-/

namespace Dietlibc.Shell

abbrev bang : UInt8 := 33
abbrev star : UInt8 := 42
abbrev dash : UInt8 := 45
abbrev period : UInt8 := 46
abbrev slash : UInt8 := 47
abbrev colon : UInt8 := 58
abbrev quest : UInt8 := 63
abbrev lbracket : UInt8 := 91
abbrev backslash : UInt8 := 92
abbrev rbracket : UInt8 := 93

/-! ## `ctype` -/

def tolower (c : UInt8) : UInt8 := if 65 ≤ c ∧ c ≤ 90 then c + 32 else c

def isalpha (c : UInt8) : Bool := 97 ≤ c ||| 32 && c ||| 32 < 123
def isdigit (c : UInt8) : Bool := 48 ≤ c && c < 58
def isalnum (c : UInt8) : Bool := isalpha c || isdigit c
def isblank (c : UInt8) : Bool := c = 32 || c = 9
def iscntrl (c : UInt8) : Bool := c < 32 || c = 127
def isgraph (c : UInt8) : Bool := 33 ≤ c && c < 127
def islower (c : UInt8) : Bool := 97 ≤ c && c < 123
def isprint (c : UInt8) : Bool := 32 ≤ c &&& 127 && c &&& 127 < 127
def isspace (c : UInt8) : Bool := (9 ≤ c && c < 14) || c = 32
def ispunct (c : UInt8) : Bool := isprint c && !isalnum c && !isspace c
def isupper (c : UInt8) : Bool := 65 ≤ c && c < 91
def isxdigit (c : UInt8) : Bool := isdigit c || (97 ≤ c ||| 32 && c ||| 32 < 103)

/-! ## Character classes -/

/-- An entry of `allclasses`. -/
inductive CharClass where
  | alnum | alpha | blank | cntrl | digit | graph | lower | print | punct | space | upper | xdigit
  deriving DecidableEq

namespace CharClass

def all : List CharClass :=
  [alnum, alpha, blank, cntrl, digit, graph, lower, print, punct, space, upper, xdigit]

/-- The name, `class` of the source. -/
def name : CharClass → List UInt8
  | alnum => [97, 108, 110, 117, 109]
  | alpha => [97, 108, 112, 104, 97]
  | blank => [98, 108, 97, 110, 107]
  | cntrl => [99, 110, 116, 114, 108]
  | digit => [100, 105, 103, 105, 116]
  | graph => [103, 114, 97, 112, 104]
  | lower => [108, 111, 119, 101, 114]
  | print => [112, 114, 105, 110, 116]
  | punct => [112, 117, 110, 99, 116]
  | space => [115, 112, 97, 99, 101]
  | upper => [117, 112, 112, 101, 114]
  | xdigit => [120, 100, 105, 103, 105, 116]

def istype : CharClass → UInt8 → Bool
  | alnum => isalnum
  | alpha => isalpha
  | blank => isblank
  | cntrl => iscntrl
  | digit => isdigit
  | graph => isgraph
  | lower => islower
  | print => isprint
  | punct => ispunct
  | space => isspace
  | upper => isupper
  | xdigit => isxdigit

end CharClass

/-- `charclass_lookup`: the class whose name and `:]` start the pattern. -/
def charclassLookup (pattern : List UInt8) : Option CharClass :=
  match CharClass.all.find? fun cc => cc.name.isPrefixOf pattern with
  | some cc => if [colon, rbracket].isPrefixOf (pattern.drop cc.name.length) then some cc else none
  | none => none

/-! ## Matching -/

/-- The flags of `fnmatch`. -/
structure Flags where
  noescape : Bool
  pathname : Bool
  period : Bool
  leadingDir : Bool
  casefold : Bool
  deriving DecidableEq

def fnmNomatch : Nat := 1

/-- `match` -/
def matchChar (c d : UInt8) (flags : Flags) : Bool :=
  if flags.casefold then tolower c = tolower d else c = d

/-- The test of a character range, with signed characters. -/
def rangeTest (flags : Flags) (c lo hi : UInt8) : Bool :=
  (lo.toInt8 ≤ c.toInt8 && c.toInt8 ≤ hi.toInt8) ||
    (flags.casefold && (tolower lo).toInt8 ≤ (tolower c).toInt8 &&
      (tolower c).toInt8 ≤ (tolower hi).toInt8)

/-- The test of a character class. -/
def classTest (flags : Flags) (c : UInt8) (cc : CharClass) : Bool :=
  if flags.casefold && (cc = .upper || cc = .lower) then islower (tolower c) else cc.istype c

/-- One member of a bracket expression: `res`, and where the next one starts. -/
def member (flags : Flags) (c : UInt8) (pattern : List UInt8) : Bool × List UInt8 :=
  let cc := if [lbracket, colon].isPrefixOf pattern then charclassLookup (pattern.drop 2) else none
  match cc with
  | some cc => (classTest flags c cc, pattern.drop (cc.name.length + 4))
  | none =>
    if pattern[1]? = some dash ∧ pattern[2]? ≠ some rbracket then
      (rangeTest flags c (pattern.getD 0 0) (pattern.getD 2 0), pattern.drop 3)
    else (matchChar (pattern.getD 0 0) c flags, pattern.drop 1)

theorem member_lt (flags : Flags) (c p : UInt8) (ps : List UInt8) :
    (member flags c (p :: ps)).2.length < (p :: ps).length := by
  unfold member
  dsimp only
  split
  · simp only [List.length_drop, List.length_cons]
    omega
  · split
    · simp only [List.length_drop, List.length_cons]
      omega
    · simp

/-- The loop over the members, for the character `c`: where the pattern goes on after a match.
`first` tells that the loop is at the first member. -/
def bracketLoop (flags : Flags) (neg : Bool) (c : UInt8) (pattern : List UInt8) (first : Bool) :
    Option (List UInt8) :=
  match pattern with
  | [] => none
  | p :: ps =>
    if p = rbracket ∧ ¬ first then none
    else
      let res := (member flags c (p :: ps)).1
      let rest := (member flags c (p :: ps)).2
      if (res && !neg) || (neg && !res && rest.head? = some rbracket) then
        -- the source skips to the next `]`
        some ((rest.dropWhile (· ≠ rbracket)).drop 1)
      else if res && neg then none
      else bracketLoop flags neg c rest false
termination_by pattern.length
decreasing_by exact member_lt _ _ _ _

/-- The pattern behind `[`: whether it is negated, and the members. -/
def bracketStart : List UInt8 → Bool × List UInt8
  | p :: ps => if p = bang then (true, ps) else (false, p :: ps)
  | [] => (false, [])

/-- `fnmatch`. `notfirst` is the flag `NOTFIRST`, `before` is `string[-1]` (nothing at the start of
the string). -/
def fnmatch (flags : Flags) (notfirst : Bool) (before : Option UInt8) (pattern string : List UInt8) :
    Nat :=
  match string with
  | [] => if pattern.dropWhile (· = star) = [] then 0 else fnmNomatch
  | c :: s =>
    if c = period ∧ pattern.head? ≠ some period ∧ flags.period ∧
        (¬ notfirst ∨ flags.pathname ∧ before = some slash) then fnmNomatch
    else
      match pattern with
      | [] => if c = slash ∧ flags.leadingDir then 0 else fnmNomatch
      | p :: ps =>
        if p = lbracket then
          if c = slash ∧ flags.pathname then fnmNomatch
          else
            match bracketLoop flags (bracketStart ps).1 c (bracketStart ps).2 true with
            | some rest => fnmatch flags true (some c) rest s
            | none => fnmNomatch
        else if p = backslash then
          if flags.noescape then
            if c = backslash then fnmatch flags true (some c) ps s else fnmNomatch
          else if ps.head? = some c then fnmatch flags true (some c) (ps.drop 1) s
          else fnmNomatch
        else if p = star then
          if (c = slash ∧ flags.pathname) ∨ fnmatch flags true (some c) (p :: ps) s ≠ 0 then
            fnmatch flags true before ps (c :: s)
          else 0
        else if p = quest then
          if c = slash ∧ flags.pathname then fnmNomatch else fnmatch flags true (some c) ps s
        else if matchChar p c flags then fnmatch flags true (some c) ps s
        else fnmNomatch
termination_by (string.length, pattern.length)
decreasing_by all_goals first | exact .left _ _ (Nat.lt_succ_self _) | exact .right _ (Nat.lt_succ_self _)

end Dietlibc.Shell
