import Dietlibc.Rx.Parse

/-!
# What stands in a pattern

`RegexAt` says that a tree is the one for a stretch of an extended pattern: every byte of it belongs to
an atom, a repetition, a bar or a parenthesis, and the groups are numbered in turn. With `slip` a
brace without a number and a backslash at the end may go with nothing, as the parser lets them.
`Malformed` is a piece that the parser does not take.
-/

namespace Dietlibc.Rx

open Shell (tolower isdigit dash period lbracket backslash)

/-- A byte that is a literal without a backslash. -/
def IsLiteral (c : UInt8) : Prop :=
  c ∉ [lparen, rparen, bar, lbracket, period, caret, dollar, backslash]

/-- The literal `c` is at `s`, in front of `t`. -/
def LiteralAt (s : Ptr) (c : UInt8) (t : Ptr) : Prop :=
  (s = c :: t ∧ IsLiteral c) ∨ (s = backslash :: c :: t ∧ c ≠ less ∧ c ≠ greater)

/-- A brace without a number. -/
def StrayBrace (s : Ptr) : Prop := ∃ t, s = lbrace :: t ∧ t.head?.any isdigit = false

/-- A repetition from `s` to `e`. -/
def RepeatAt (slip : Bool) (min max : Nat) (s e : Ptr) : Prop :=
  repetition s = some (min, max, e) ∧ (slip = false → ¬ StrayBrace s)

mutual

/-- From `s` to `e` there is the atom; `n` groups are open before it, and `m` behind it. -/
def AtomAt (fl : Cflags) (slip : Bool) : Atom → Ptr → Ptr → Nat → Nat → Prop
  | .empty bnum, s, e, n, m => s = lparen :: rparen :: e ∧ bnum = some (n + 1) ∧ m = n + 1
  | .regex bnum r, s, e, n, m =>
    bnum = some (n + 1) ∧ ∃ t, s = lparen :: t ∧ t.head? ≠ some rparen ∧
      RegexAt fl slip r t (rparen :: e) (n + 1) m
  | .bracket x, s, e, n, m => parsebracketed fl s = .ok (some (x, e)) ∧ m = n
  | .any, s, e, n, m => s = period :: e ∧ m = n
  | .lineStart, s, e, n, m => s = caret :: e ∧ m = n
  | .lineEnd, s, e, n, m => s = dollar :: e ∧ m = n
  | .wordStart, s, e, n, m => s = backslash :: less :: e ∧ m = n
  | .wordEnd, s, e, n, m => s = backslash :: greater :: e ∧ m = n
  | .char c, s, e, n, m =>
    ∃ d, LiteralAt s d e ∧ runLength e ≤ 2 ∧ c = (if fl.icase then tolower d else d) ∧ m = n
  | .string l, s, e, n, m =>
    ∃ d t, LiteralAt s d t ∧ 2 < runLength t ∧ l.length = runLength t ∧ d :: t = l ++ e ∧ m = n
  | .unset, _, _, _, _ | .bar, _, _, _, _ | .backref _, _, _, _, _ => False

/-- From `s` to `e` there are the pieces; a branch may start with a bar. -/
def BranchAt (fl : Cflags) (slip : Bool) : Branch → Bool → Ptr → Ptr → Nat → Nat → Prop
  | .nil, _, s, e, n, m => s = e ∧ m = n
  | .cons a min max b, first, s, e, n, m =>
    (first = true ∧ a = .bar ∧ min = 1 ∧ max = 1 ∧ ∃ t, s = bar :: t ∧ BranchAt fl slip b false t e n m) ∨
    ∃ t u k, (AtomAt fl slip a s t n k ∨ (slip = true ∧ s = [backslash] ∧ t = [] ∧ k = n)) ∧
      RepeatAt slip min max t u ∧ BranchAt fl slip b false u e k m

/-- From `s` to `e` there are the branches, with bars between them. The last one may be empty in
front of a parenthesis. -/
def RegexAt (fl : Cflags) (slip : Bool) : Regex → Ptr → Ptr → Nat → Nat → Prop
  | .nil, s, e, n, m => s = [] ∧ e = [] ∧ m = n
  | .cons b r, s, e, n, m =>
    (r = .nil ∧ BranchAt fl slip b true s e n m ∧ (b = .nil → e ≠ [])) ∨
    (r ≠ .nil ∧ b ≠ .nil ∧
      ∃ u k, BranchAt fl slip b true s (bar :: u) n k ∧ RegexAt fl slip r u e k m)

end

/-- A piece from `s` to `e`, slips allowed. -/
def PieceAt (fl : Cflags) (s e : Ptr) : Prop :=
  ∃ a t n m min max, (AtomAt fl true a s t n m ∨ (s = [backslash] ∧ t = [] ∧ m = n)) ∧
    RepeatAt true min max t e

mutual

/-- No piece is at `s`, which is not the end: a parenthesis is not opened or not closed, or a bracket
expression or the bounds of a repetition are not closed. -/
inductive Malformed (fl : Cflags) : Ptr → Prop where
  | close (t : Ptr) : Malformed fl (rparen :: t)
  | group {t : Ptr} (hne : t.head? ≠ some rparen) (h : Unclosed fl t) : Malformed fl (lparen :: t)
  | bracket {t : Ptr} (h : parsebracketed fl (lbracket :: t) = .ok none) :
    Malformed fl (lbracket :: t)
  | bounds {a : Atom} {s t : Ptr} {n m : Nat} (ha : AtomAt fl true a s t n m)
    (h : repetition t = none) : Malformed fl s

/-- What is read from `s` on ends at the end of the pattern or at a malformed piece, and not at a
closing parenthesis. -/
inductive Unclosed (fl : Cflags) : Ptr → Prop where
  | done : Unclosed fl []
  | malformed {s : Ptr} (hne : s.head? ≠ some rparen) (h : Malformed fl s) : Unclosed fl s
  | bar {s : Ptr} (h : Unclosed fl s) : Unclosed fl (bar :: s)
  | piece {s e : Ptr} (hp : PieceAt fl s e) (h : Unclosed fl e) : Unclosed fl s

end

/-- If `regcomp` accepts, the tree is the one for the whole pattern: the parser stopped at its end, and
the groups of the tree are all that were opened. -/
def TakesWhole (fl : Cflags) (p : Ptr) : Prop :=
  ∃ out, regcomp fl p = .ok out ∧
    ∀ r t n, out = some (r, t, n) → t = [] ∧ RegexAt fl false r p [] 0 n

end Dietlibc.Rx
