import Dietlibc.Rx.Parse

/-!
# The regex matcher

The second half of `rx.c`. A matcher gets the place in the text, `plus`, and the array `l` of the
groups' places, and returns the length or -1 (`none`). The `next` pointer of an atom is the matcher it
goes on with. `offsets` of `matchpiece` is a list, the last match first; the array is taken to have
room for one entry more than `a->max`.
-/

namespace Dietlibc.Rx

open Shell (tolower isalnum)

/-- `preg->l`: the entries that were written. -/
abbrev Marks := Nat → Option (Nat × Nat)

/-- What a match function returns, and the array it leaves. -/
abbrev Result := Except Stop (Option Nat × Marks)

/-- A match function: `ofs` and `plus`. -/
abbrev Matcher := Nat → Nat → Marks → Result

/-- The text, the flags of the regex, and `REG_NOTBOL` and `REG_NOTEOL`. -/
structure Input where
  text : List UInt8
  fl : Cflags
  notbol : Bool
  noteol : Bool

/-- The character at `ofs`; behind the last one it is the terminator. -/
def Input.char (x : Input) (ofs : Nat) : UInt8 := x.text.getD ofs 0

/-- `preg->cflags&REG_ICASE?tolower(*s):*s` -/
def Input.fold (x : Input) (ofs : Nat) : UInt8 :=
  if x.fl.icase then tolower (x.char ofs) else x.char ofs

def newlineChar : UInt8 := 10

/-! ## Atoms -/

/-- `for (i=0; i<matchlen; ++i) if (s[i] != a->u.s.s[i]) return -1;`, with a `char` on the right. -/
def matchString (x : Input) : Nat → List UInt8 → Bool
  | _, [] => true
  | ofs, c :: l => (x.fold ofs).toNat = schar c && matchString x (ofs + 1) l

/-- The length of an atom that does not use the array. -/
def atomLength (x : Input) (ofs : Nat) : Atom → Option Nat
  | .bracket cc =>
    if x.char ofs = newlineChar ∧ x.fl.newline then none
    else if x.char ofs ≠ 0 ∧ issetcc cc (x.fold ofs).toNat then some 1 else none
  | .any =>
    if x.char ofs = newlineChar ∧ x.fl.newline then none
    else if x.char ofs ≠ 0 then some 1 else none
  | .lineStart =>
    if !x.notbol && (ofs = 0 || (x.fl.newline && x.char (ofs - 1) = newlineChar)) then some 0 else none
  | .lineEnd =>
    if x.fl.newline && x.char ofs = newlineChar then some 0
    else if (x.char ofs ≠ 0 && x.char ofs ≠ newlineChar) || x.noteol then none else some 0
  | .wordStart =>
    if (ofs = 0 || !isalnum (x.char (ofs - 1))) && isalnum (x.char ofs) then some 0 else none
  | .wordEnd =>
    if 0 < ofs && isalnum (x.char (ofs - 1)) && !isalnum (x.char ofs) then some 0 else none
  | .char c => if (x.fold ofs).toNat = schar c then some 1 else none
  | .string l => if matchString x ofs l then some l.length else none
  | _ => none

/-- `match:` -/
def goOn (next : Option Matcher) (len ofs plus : Nat) (l : Marks) : Result :=
  match next with
  | none => .ok (some (plus + len), l)
  | some m => m (ofs + len) (plus + len) l

/-- `preg->l[bnum]`, written. A stale atom has -1. -/
def setMark (bnum : Option Nat) (so eo : Nat) (l : Marks) : Except Stop Marks :=
  match bnum with
  | none => .error .fault
  | some n => .ok (Function.update l n (some (so, eo)))

/-! ## Pieces -/

/-- The first loop of `matchpiece`: the atom as often as possible. -/
def greedy (atom : Nat → Marks → Result) :
    Nat → Nat → List Nat → Marks → Except Stop (List Nat × Nat × Marks)
  | 0, matchlen, offsets, l => .ok (offsets, matchlen, l)
  | n + 1, matchlen, offsets, l => do
    match ← atom matchlen l with
    | (some tmp, l) => greedy atom n (matchlen + tmp) (tmp :: offsets) l
    | (none, l) => return (offsets, matchlen, l)

/-- The second loop of `matchpiece`: back off until the rest matches. -/
def backOff (rest : Nat → Marks → Result) : List Nat → Nat → Marks → Result
  | [], matchlen, l => rest matchlen l
  | tmp :: offsets, matchlen, l => do
    match ← rest matchlen l with
    | (some len, l) => return (some len, l)
    | (none, l) => backOff rest offsets (matchlen - tmp) l

/-- `matchpiece`, with the function of the atom. -/
def matchpiece (atom : Option Matcher → Matcher) (min max : Nat) (next : Option Matcher) : Matcher :=
  fun ofs plus l =>
    if max = 1 ∧ min = 1 then atom next ofs 0 l
    else do
      let (offsets, matchlen, l) ← greedy (fun m l => atom none (ofs + m) 0 l) max 0 [] l
      if offsets.length < min then return (none, l)
      backOff (fun m l => goOn next m ofs plus l) offsets matchlen l

/-! ## The tree -/

/-- The function of a regex: `matchempty` if it has no branches. -/
def orEmpty : Regex → Matcher → Matcher
  | .nil, _ => fun _ _ l => .ok (some 0, l)
  | .cons _ _, m => m

mutual

/-- `matchatom`, and the functions for characters. -/
def matchatom (x : Input) : Atom → Option Matcher → Matcher
  | .unset, _, _, _, _ => .error .fault
  | .bar, _, _, _, l => .ok (some 0, l)
  | .empty bnum, next, ofs, plus, l => do
    let l ← if bnum = none then .ok l else setMark bnum ofs ofs l
    goOn next 0 ofs plus l
  | .regex bnum r, next, ofs, plus, l => do
    match ← orEmpty r (matchbranches x r) ofs 0 l with
    | (some len, l) =>
      let l ← setMark bnum ofs (ofs + len) l
      goOn next len ofs plus l
    | (none, l) => return (none, l)
  | .backref n, next, ofs, plus, l =>
    match l n with
    | none => .error .fault
    | some (so, eo) =>
      let len := eo - so
      if (List.range len).all fun i => x.char (so + i) = x.char (ofs + i) then goOn next len ofs plus l
      else .ok (none, l)
  | a, next, ofs, plus, l =>
    match atomLength x ofs a with
    | some len => goOn next len ofs plus l
    | none => .ok (none, l)

/-- Where the pieces of a branch go on, as `branch_putnext` sets it: to the next piece, and straight to
its atom if it has to match just once. -/
def nextOf (x : Input) : Branch → Option Matcher
  | .nil => none
  | .cons a min max b =>
    if min = 1 ∧ max = 1 then some (matchatom x a (nextOf x b))
    else some (matchpiece (matchatom x a) min max (nextOf x b))

/-- `matchbranch`, and `matchempty` if there are no pieces. The branch has no `next`. -/
def matchbranch (x : Input) : Branch → Matcher
  | .nil, _, _, l => .ok (some 0, l)
  | .cons a min max b, ofs, plus, l => do
    match ← matchpiece (matchatom x a) min max (nextOf x b) ofs plus l with
    | (some tmp, l) => return (some (plus + tmp), l)
    | (none, l) => return (none, l)

/-- The loop of `matchregex` over the branches. -/
def matchbranches (x : Input) : Regex → Matcher
  | .nil, _, _, l => .ok (none, l)
  | .cons b r, ofs, plus, l => do
    match ← matchbranch x b ofs plus l with
    | (some tmp, l) => return (some (plus + tmp), l)
    | (none, l) => matchbranches x r ofs plus l

end

/-- `matchregex` -/
def matchregex (x : Input) (r : Regex) : Matcher := orEmpty r (matchbranches x r)

/-! ## `regexec` -/

/-- The loop that looks for a branch that does not start with `^`. A branch without pieces has no
piece to look at. -/
def allLineStart : Regex → Except Stop Bool
  | .nil => .ok true
  | .cons .nil _ => .error .fault
  | .cons (.cons .unset _ _ _) _ => .error .fault
  | .cons (.cons .lineStart _ _ _) r => allLineStart r
  | .cons _ _ => .ok false

/-- Where the match is, and the array behind the second run; `none` is `REG_NOMATCH`. The number is
that of the characters that are left. -/
def execLoop (x : Input) (r : Regex) (earlyabort : Bool) :
    Nat → Nat → Bool → Marks → Except Stop (Option (Nat × Nat × Marks))
  | n, ofs, notbol, l => do
    match ← matchregex { x with notbol } r ofs 0 l with
    | (some _, l) =>
      match ← matchregex { x with notbol } r ofs 0 l with
      | (some matched, l) => return some (ofs, ofs + matched, l)
      -- `matched` is -1
      | (none, l) => return some (ofs, ofs - 1, l)
    | (none, l) =>
      match n with
      | 0 => return none
      | n + 1 => if earlyabort then return none else execLoop x r earlyabort n (ofs + 1) true l

/-- An entry of `pmatch` after `regexec`: `rm_so` is -1, or it was copied from an entry of the array
that was never written or is not there, or from one that was. -/
inductive Entry where
  | minusOne
  | stray
  | span (so eo : Nat)
  deriving DecidableEq

/-- `regexec` with the regex `r`: `none` is `REG_NOMATCH`, and otherwise `pmatch`. -/
def regexec (x : Input) (r : Regex) (nmatch : Nat) : Except Stop (Option (List Entry)) := do
  let earlyabort ← if x.fl.newline then .ok false else allLineStart r
  match ← execLoop x r earlyabort x.text.length 0 x.notbol (fun _ => none) with
  | none => return none
  | some (so, eo, l) =>
    let l := Function.update l 0 (some (so, eo))
    return some <| (List.range nmatch).map fun i =>
      if x.fl.nosub then .minusOne
      else match l i with
        | none => .stray
        | some (so, eo) => .span so eo

end Dietlibc.Rx
