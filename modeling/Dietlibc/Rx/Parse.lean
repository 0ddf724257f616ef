import Dietlibc.Shell.Fnmatch

/-!
# The regex parser

The first half of `rx.c`. A pointer into the pattern is what is left of it, without the terminator.
A function that returns the pointer it got has found nothing. Writes into a bracket expression's bit
table are checked against its 32 words, and reads against the terminator; the count of a shift is
taken modulo 32, as the processor does.
-/

namespace Dietlibc.Rx

open Shell (tolower isdigit isalnum star dash period quest lbracket backslash rbracket)

abbrev lparen : UInt8 := 40
abbrev rparen : UInt8 := 41
abbrev dollar : UInt8 := 36
abbrev plus : UInt8 := 43
abbrev comma : UInt8 := 44
abbrev less : UInt8 := 60
abbrev greater : UInt8 := 62
abbrev caret : UInt8 := 94
abbrev lbrace : UInt8 := 123
abbrev bar : UInt8 := 124
abbrev rbrace : UInt8 := 125

abbrev Ptr := List UInt8

/-- Undefined behaviour, and too little fuel for the recursion. -/
inductive Stop where
  | fault
  | fuel
  deriving DecidableEq

/-- A sequence that ends well ran through its first part. -/
theorem bind_eq_ok {α β : Type} {x : Except Stop α} {f : α → Except Stop β} {v : β} :
    x >>= f = .ok v ↔ ∃ y, x = .ok y ∧ f y = .ok v := by
  rcases x with - | y
  · constructor
    · intro h
      cases h
    · rintro ⟨y, hy, -⟩
      cases hy
  · constructor
    · intro h
      exact ⟨y, rfl, h⟩
    · rintro ⟨y', hy, h⟩
      cases hy
      exact h

theorem bind_eq_error {α β : Type} {x : Except Stop α} {f : α → Except Stop β} {e : Stop}
    (h : x >>= f = .error e) : x = .error e ∨ ∃ y, x = .ok y ∧ f y = .error e := by
  rcases x with e' | y
  · cases h
    exact .inl rfl
  · exact .inr ⟨y, rfl, h⟩

/-- `REG_EXTENDED`, `REG_ICASE`, `REG_NOSUB` and `REG_NEWLINE`. -/
structure Cflags where
  extended : Bool
  icase : Bool
  nosub : Bool
  newline : Bool
  deriving DecidableEq

def reDupMax : Nat := 8192

/-! ## Bracket expressions -/

/-- `struct bracketed` -/
abbrev Cc := List UInt32

def clearcc : Cc := List.replicate 32 0

/-- A `char` as an `int`. -/
def schar (c : UInt8) : Int := c.toInt8.toInt

theorem schar_eq (c : UInt8) :
    schar c = if c.toNat < 128 then (c.toNat : Int) else c.toNat - 256 := by
  have heq := c.toBitVec.toInt_eq_toNat_cond
  change c.toBitVec.toInt = if 2 * c.toNat < 256 then (c.toNat : Int) else (c.toNat : Int) - 256 at heq
  change c.toBitVec.toInt = _
  rw [heq]
  split <;> split <;> omega

/-- `1<<((bit%32)-1)` -/
def ccMask (bit : Nat) : UInt32 := 1 <<< UInt32.ofNat ((bit % 32 + 31) % 32)

def setcc (x : Cc) (bit : Int) : Except Stop Cc :=
  let bit := (bit % 2 ^ 32).toNat
  if bit / 32 < 32 then .ok (x.modify (bit / 32) (· ||| ccMask bit)) else .error .fault

def issetcc (x : Cc) (bit : Nat) : Bool := x.getD (bit / 32) 0 &&& ccMask bit ≠ 0

/-- `tolower` of an `int`. -/
def tolowerInt (ch : Int) : Int := if 65 ≤ ch ∧ ch < 91 then ch + 32 else ch

/-- `rx->cflags&REG_ICASE?tolower(i):i` -/
def foldInt (fl : Cflags) (i : Int) : Int := if fl.icase then tolowerInt i else i

/-- `for (; i<=t[2]; ++i)`, with the number of turns. -/
def setRange (fl : Cflags) (i : Int) : Nat → Cc → Except Stop Cc
  | 0, x => .ok x
  | n + 1, x => do setRange fl (i + 1) n (← setcc x (foldInt fl i))

/-- The members of a bracket expression, and what is behind its end; `none` is the end of the
pattern. -/
def bracketLoop (fl : Cflags) : Ptr → Cc → Except Stop (Option (Cc × Ptr))
  | [], _ => .ok none
  | c :: t, x => do
    let x ← setcc x (foldInt fl (schar c))
    match t with
    | d :: e :: u =>
      if d = dash ∧ e ≠ rbracket then
        let x ← setRange fl (schar c + 1) (schar e - schar c).toNat x
        if u.head? = some rbracket then .ok (some (x, u.tail)) else bracketLoop fl u x
      else if d = rbracket then .ok (some (x, e :: u)) else bracketLoop fl (d :: e :: u) x
    | [d] =>
      -- behind a dash at the end `t[2]` is the terminator, and the pointer goes past it
      if d = dash then .error .fault
      else if d = rbracket then .ok (some (x, [])) else bracketLoop fl [d] x
    | [] => .ok none

/-- `parsebracketed` -/
def parsebracketed (fl : Cflags) : Ptr → Except Stop (Option (Cc × Ptr))
  | [] => .ok none
  | c :: t =>
    if c ≠ lbracket then .ok none
    else if t.head? = some caret then do
      let r ← bracketLoop fl t.tail clearcc
      .ok (r.map fun (x, t) => (x.map (~~~ ·), t))
    else bracketLoop fl t clearcc

/-! ## The tree -/

mutual

/-- `struct atom`: the type, and `u`. `unset` is one that was never written, `bar` the empty one in
front of a bar, whose function is `matchempty`. -/
inductive Atom where
  | unset
  | bar
  | empty (bnum : Option Nat)
  | regex (bnum : Option Nat) (r : Regex)
  | bracket (cc : Cc)
  | any
  | lineStart
  | lineEnd
  | wordStart
  | wordEnd
  | char (c : UInt8)
  | string (s : List UInt8)
  | backref (c : Nat)

/-- The pieces of a branch: atom, `min` and `max`. A branch without pieces has `matchempty`. -/
inductive Branch where
  | nil
  | cons (a : Atom) (min max : Nat) (b : Branch)

/-- `struct regex`: the branches. A regex without branches has `matchempty`. -/
inductive Regex where
  | nil
  | cons (b : Branch) (r : Regex)

end

/-- What is left in an atom if only `m` and `bnum` are written. -/
def Atom.stale : Atom → Atom
  | .bar | .empty _ => .empty none
  | .regex _ r => .regex none r
  | a => a

/-! ## Atoms and pieces -/

/-- `closebracket` -/
def closebracket (fl : Cflags) (s : Ptr) : Bool :=
  if fl.extended then s.head? = some rparen else [backslash, rparen].isPrefixOf s

/-- `strchr("(|)[.^$\\*+?{",c)` -/
def isSpecial (c : UInt8) : Bool :=
  c ∈ [lparen, bar, rparen, lbracket, period, caret, dollar, backslash, star, plus, quest, lbrace]

/-- `strchr("*+?{",*s)`, which finds the terminator too. -/
def endsRun (s : Ptr) : Bool :=
  match s with
  | [] => true
  | c :: _ => c ∈ [star, plus, quest, lbrace]

/-- The length of the run of characters whose first one is in front of `t`. -/
def runLength (t : Ptr) : Nat :=
  let n := (t.takeWhile fun c => !isSpecial c).length
  if endsRun (t.drop n) then n else n + 1

/-- `handle_char`, at the character `c`. -/
def handleChar (fl : Cflags) (c : UInt8) (t : Ptr) : Atom × Ptr :=
  let i := runLength t
  if 2 < i then (.string ((c :: t).take i), (c :: t).drop i)
  else (.char (if fl.icase then tolower c else c), t)

/-- The result of `parseatom` and `parsepiece`: `none` if nothing was found, and `brackets`. -/
abbrev Found (α : Type) := Option (α × Ptr) × Nat

/-- `openbracket`, the parenthesis being in front of `t`. One that is not closed is a character in a
basic regex. -/
def parseGroup (rec : Ptr → Nat → Except Stop (Regex × Ptr × Nat)) (fl : Cflags) (t : Ptr)
    (brackets : Nat) : Except Stop (Found Atom) := do
  let brackets := brackets + 1
  if t.head? = some rparen then return (some (.empty brackets, t.tail), brackets)
  let (r, tmp, brackets') ← rec t brackets
  if closebracket fl tmp then
    return (some (.regex brackets r, tmp.drop (if fl.extended then 1 else 2)), brackets')
  return (if fl.extended then none else some (handleChar fl lparen t), brackets')

/-- `parseatom`, with `parseregex` for the groups, and what the atom held before. -/
def parseatom (rec : Ptr → Nat → Except Stop (Regex × Ptr × Nat)) (fl : Cflags) (old : Atom)
    (s : Ptr) (brackets : Nat) : Except Stop (Found Atom) :=
  match s with
  | [] => .ok (none, brackets)
  | c :: t =>
    if c = lparen ∧ fl.extended then parseGroup rec fl t brackets
    else if (c = rparen ∧ fl.extended) ∨ c = bar then .ok (none, brackets)
    else if c = lbracket then do
      let r ← parsebracketed fl s
      .ok (r.map fun (x, t) => (.bracket x, t), brackets)
    else if c = period then .ok (some (.any, t), brackets)
    else if c = caret then .ok (some (.lineStart, t), brackets)
    else if c = dollar then .ok (some (.lineEnd, t), brackets)
    else if c = backslash then
      match t with
      | [] => .ok (some (old.stale, []), brackets)
      | d :: u =>
        if d = less then .ok (some (.wordStart, u), brackets)
        else if d = greater then .ok (some (.wordEnd, u), brackets)
        else if fl.extended then .ok (some (handleChar fl d u), brackets)
        else if 49 ≤ schar d ∧ schar d ≤ brackets + 49 then
          .ok (some (.backref (d.toNat - 48), u), brackets)
        else if d = lparen then parseGroup rec fl u brackets
        else if d = rparen then .ok (none, brackets)
        else .ok (some (handleChar fl d u), brackets)
    else .ok (some (handleChar fl c t), brackets)

/-- The number that starts with the digits of `s`, as an `unsigned int`. -/
def decimal (s : Ptr) : Nat :=
  (s.takeWhile isdigit).foldl (fun n c => (n * 10 + (c.toNat - 48)) % 2 ^ 32) 0

/-- The repetition behind an atom: `min`, `max`, and what is behind it; `none` is one that is not
closed. A brace without a number is passed over. -/
def repetition (s : Ptr) : Option (Nat × Nat × Ptr) :=
  match s with
  | [] => some (1, 1, s)
  | c :: t =>
    if c = star then some (0, reDupMax, t)
    else if c = plus then some (1, reDupMax, t)
    else if c = quest then some (0, 1, t)
    else if c = lbrace then
      if t.head?.any isdigit then
        let min := decimal t
        let u := t.dropWhile isdigit
        if u.head? = some comma then
          let max := if u.tail.head?.any isdigit then decimal u.tail else reDupMax
          let v := u.tail.dropWhile isdigit
          if v.head? = some rbrace then some (min, max, v.tail) else none
        else if u.head? = some rbrace then some (min, min, u.tail) else none
      else some (1, 1, t)
    else some (1, 1, s)

/-- `parsepiece` -/
def parsepiece (rec : Ptr → Nat → Except Stop (Regex × Ptr × Nat)) (fl : Cflags) (old : Atom)
    (s : Ptr) (brackets : Nat) : Except Stop (Found (Atom × Nat × Nat)) := do
  let (a, brackets) ← parseatom rec fl old s brackets
  return (do
    let (a, tmp) ← a
    let (min, max, tmp) ← repetition tmp
    some ((a, min, max), tmp), brackets)

/-! ## Branches -/

/-- `parsebranch`: the pieces from `s` on, and where they end. The fuel counts the pieces. -/
def parsebranch (rec : Ptr → Nat → Except Stop (Regex × Ptr × Nat)) (fl : Cflags) :
    Nat → Bool → Atom → Ptr → Nat → Except Stop (Branch × Ptr × Nat)
  | 0, _, _, _, _ => .error .fuel
  | n + 1, first, old, s, brackets => do
    if first ∧ s.head? = some bar then
      let tmp := s.tail
      if tmp.head? = some bar then return (.cons .bar 1 1 .nil, tmp, brackets)
      let (b, e, brackets) ← parsebranch rec fl n false .bar tmp brackets
      return (.cons .bar 1 1 b, e, brackets)
    match ← parsepiece rec fl old s brackets with
    | (none, brackets) => return (.nil, s, brackets)
    | (some ((a, min, max), tmp), brackets) =>
      if tmp.head? = some bar then return (.cons a min max .nil, tmp, brackets)
      let (b, e, brackets) ← parsebranch rec fl n false a tmp brackets
      return (.cons a min max b, e, brackets)

/-- The loop of `parseregex`. The fuel counts the branches. -/
def regexLoop (rec : Ptr → Nat → Except Stop (Regex × Ptr × Nat)) (fl : Cflags) :
    Nat → Ptr → Nat → Except Stop (Regex × Ptr × Nat)
  | 0, _, _ => .error .fuel
  | n + 1, s, brackets => do
    let (b, tmp, brackets) ← parsebranch rec fl (s.length + 1) true .unset s brackets
    if tmp = s ∧ !closebracket fl s then return (.nil, s, brackets)
    if closebracket fl s then return (.cons .nil .nil, s, brackets)
    if closebracket fl tmp then return (.cons b .nil, tmp, brackets)
    let s := if tmp.head? = some bar then tmp.tail else tmp
    let (r, e, brackets) ← regexLoop rec fl n s brackets
    return (.cons b r, e, brackets)

/-- `parseregex`. The fuel counts the open parentheses. -/
def parseregex (fl : Cflags) : Nat → Ptr → Nat → Except Stop (Regex × Ptr × Nat)
  | 0, _, _ => .error .fuel
  | n + 1, s, brackets =>
    if s.head? = some rparen ∨ s = [] then .ok (.nil, s, brackets)
    else regexLoop (parseregex fl n) fl (s.length + 1) s brackets

/-- `regcomp`: `none` is -1. Else there are the tree, the pointer that `parseregex` returned, and
`brackets`. -/
def regcomp (fl : Cflags) (regex : Ptr) : Except Stop (Option (Regex × Ptr × Nat)) := do
  let (r, t, brackets) ← parseregex fl (regex.length + 1) regex 0
  if t = regex ∧ regex ≠ [] then return none
  return some (r, t, brackets)

end Dietlibc.Rx
