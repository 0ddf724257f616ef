import Dietlibc.Shell.Fnmatch

/-!
# Patterns and what they match

A pattern is a list of items, and `patternText` is its text. `patternMatches` says by recursion on
the pattern which strings it matches: a leading period only by an explicit one, a slash under
`FNM_PATHNAME` only by an explicit one, letters up to case under `FNM_CASEFOLD`.

`Clean` says that a match by `fnmatch` meets none of the places where the source departs from this.
-/

namespace Dietlibc.Shell

/-- A member of a bracket expression. -/
inductive Member where
  | chr (c : UInt8)
  | range (lo hi : UInt8)
  | cls (cc : CharClass)
  deriving DecidableEq

/-- An item of a pattern; `trail` is a backslash that ends it. -/
inductive Item where
  | star
  | any
  | lit (c : UInt8)
  | esc (c : UInt8)
  | set (neg : Bool) (ms : List Member)
  | trail
  deriving DecidableEq

/-! ## Text -/

def Member.text : Member → List UInt8
  | chr c => [c]
  | range lo hi => [lo, dash, hi]
  | cls cc => [lbracket, colon] ++ cc.name ++ [colon, rbracket]

def memberText (ms : List Member) : List UInt8 := ms.flatMap Member.text

def Item.text : Item → List UInt8
  | star => [Shell.star]
  | any => [quest]
  | lit c => [c]
  | esc c => [backslash, c]
  | set neg ms => lbracket :: ((if neg then [bang] else []) ++ memberText ms ++ [rbracket])
  | trail => [backslash]

def patternText (items : List Item) : List UInt8 := items.flatMap Item.text

/-- A member is read as such before `rest`: `]` stands only first, a character is not the start of a
range or of a class, and no range ends with `]`. -/
def Member.Ok (first : Bool) (rest : List UInt8) : Member → Prop
  | chr c => (c = rbracket → first = true) ∧
      ¬ (rest.head? = some dash ∧ rest[1]? ≠ some rbracket) ∧
      (c = lbracket → ∀ cc : CharClass, ¬ colon :: (cc.name ++ [colon, rbracket]) <+: rest)
  | range lo hi => (lo = rbracket → first = true) ∧ hi ≠ rbracket
  | cls _ => True

/-- The members of a bracket expression, up to the text `rest`. -/
def MembersOk : Bool → List Member → List UInt8 → Prop
  | _, [], _ => True
  | first, m :: ms, rest => m.Ok first (memberText ms ++ rest) ∧ MembersOk false ms rest

/-- A pattern whose bracket expressions are well formed, and whose other characters are read as
themselves. -/
def PatternOk (flags : Flags) : List Item → Prop
  | [] => True
  | .star :: p => PatternOk flags p
  | .any :: p => PatternOk flags p
  | .lit c :: p => (c ≠ star ∧ c ≠ quest ∧ c ≠ lbracket ∧
      (c = backslash → flags.noescape = true)) ∧ PatternOk flags p
  | .esc _ :: p => flags.noescape = false ∧ PatternOk flags p
  | .set neg ms :: p => (ms ≠ [] ∧ MembersOk true ms (rbracket :: patternText p) ∧
      (neg = false → (memberText ms).head? ≠ some bang)) ∧ PatternOk flags p
  | .trail :: p => flags.noescape = false ∧ p = []

/-! ## Meaning -/

def Member.has : Member → UInt8 → Bool
  | chr d, c => c = d
  | range lo hi, c => lo ≤ c && c ≤ hi
  | cls cc, c => cc.istype c

def toupper (c : UInt8) : UInt8 := if 97 ≤ c ∧ c ≤ 122 then c - 32 else c

/-- The characters that count as `c`. -/
def variants (flags : Flags) (c : UInt8) : List UInt8 :=
  if flags.casefold then [c, tolower c, toupper c] else [c]

def inSet (flags : Flags) (ms : List Member) (c : UInt8) : Bool :=
  (variants flags c).any fun d => ms.any (·.has d)

/-- The character is a leading period, `before` is the character before it. -/
def leading (flags : Flags) (before : Option UInt8) (c : UInt8) : Bool :=
  flags.period && c = period && (before = none || (flags.pathname && before = some slash))

/-- The character is a slash that only a slash matches. -/
def separates (flags : Flags) (c : UInt8) : Bool := flags.pathname && c = slash

/-- The item matches the character. -/
def Item.takes (flags : Flags) (before : Option UInt8) (c : UInt8) : Item → Bool
  | star => false
  | any => !separates flags c && !leading flags before c
  | lit d => if flags.casefold then tolower d = tolower c else d = c
  | esc d => d = c
  | set neg ms => !separates flags c && !leading flags before c && (inSet flags ms c != neg)
  | trail => false

/-- A run of characters, and then what `k` matches. -/
def starMatches (flags : Flags) (k : Option UInt8 → List UInt8 → Bool) :
    Option UInt8 → List UInt8 → Bool
  | before, [] => k before []
  | before, c :: s => k before (c :: s) ||
      (!separates flags c && !leading flags before c && starMatches flags k (some c) s)

/-- The strings that a pattern matches, behind the character `before`. -/
def patternMatches (flags : Flags) : List Item → Option UInt8 → List UInt8 → Bool
  | [], _, s => s = [] || (flags.leadingDir && s.head? = some slash)
  | .star :: p, before, s => starMatches flags (patternMatches flags p) before s
  | _ :: _, _, [] => false
  | i :: p, before, c :: s => i.takes flags before c && patternMatches flags p (some c) s

/-! ## Where the source departs -/

/-- The test that `fnmatch` makes for a member. -/
def Member.test (flags : Flags) (c : UInt8) : Member → Bool
  | chr d => matchChar d c flags
  | range lo hi => rangeTest flags c lo hi
  | cls cc => classTest flags c cc

/-- No class stands behind the first member that `c` matches: `fnmatch` skips to the next `]`. -/
def skipOk (flags : Flags) (c : UInt8) : List Member → Prop
  | [] => True
  | m :: ms => if m.test flags c then ∀ cc, .cls cc ∉ ms else skipOk flags c ms

/-- `fnmatch` finds the character in the set, or not, as it should, and skips the rest of it. -/
def SetOk (flags : Flags) (neg : Bool) (c : UInt8) (ms : List Member) : Prop :=
  ms.any (·.test flags c) = inSet flags ms c ∧ (neg = false → skipOk flags c ms)

/-- A `*` is clean: at a leading period there is no match that starts with the empty run. -/
def cleanStar (flags : Flags) (k : Option UInt8 → List UInt8 → Prop)
    (m : Option UInt8 → List UInt8 → Bool) : Option UInt8 → List UInt8 → Prop
  | _, [] => True
  | before, c :: s =>
    if leading flags before c then m before (c :: s) = false
    else if separates flags c then k before (c :: s)
    else cleanStar flags k m (some c) s ∧
      (starMatches flags m (some c) s = false → k before (c :: s))

/-- The places that the match gets to are clean: a `*` as above, an escaped period is not needed for
a leading period, and the sets are read rightly. -/
def Clean (flags : Flags) : List Item → Option UInt8 → List UInt8 → Prop
  | [], _, _ => True
  | .star :: p, before, s => cleanStar flags (Clean flags p) (patternMatches flags p) before s
  | _ :: _, _, [] => True
  | .esc d :: p, before, c :: s => d = c →
      if leading flags before c then patternMatches flags p (some c) s = false
      else Clean flags p (some c) s
  | .set neg ms :: p, before, c :: s => leading flags before c = false → separates flags c = false →
      SetOk flags neg c ms ∧ (inSet flags ms c ≠ neg → Clean flags p (some c) s)
  | i :: p, before, c :: s => i.takes flags before c = true → Clean flags p (some c) s

end Dietlibc.Shell
