import Dietlibc.Shell.Fnmatch
import Dietlibc.Base.CInt
import Mathlib.Tactic.Ring

/-!
# `strtoul` and its three siblings

A string is the list of its bytes in front of the NUL, a pointer into it the rest of the list, and
`*nptr` at the end of the list is the NUL. `errno` is passed on and returned. `strtoul` and
`strtoull` are one text over two types of `v`, and so are `strtol` and `strtoll`.
-/

namespace Dietlibc.Number

open Shell (isspace isalnum isxdigit)
open CInt

/-- The values of `errno`. -/
abbrev EINVAL : Nat := 22
abbrev ERANGE : Nat := 34

/-- `*nptr` -/
def peek (nptr : List UInt8) : UInt8 := nptr.headD 0

/-- The value returned, `*endptr` if it is set, and `errno`. -/
structure Outcome (R : Type) where
  value : R
  endptr : Option (List UInt8)
  errno : Nat
  deriving DecidableEq

/-! ## The code -/

/-- The digit `c`, an `unsigned char`. -/
def digitOf (c : UInt8) : UInt8 :=
  if 97 ≤ c then c - 97 + 10 else if 65 ≤ c then c - 65 + 10 else if c ≤ 57 then c - 48 else 0xff

/-- `skip0x:` -/
def skip0x (base : Nat) (nptr : List UInt8) : Nat × List UInt8 :=
  if (peek nptr.tail = 120 ∨ peek nptr.tail = 88) ∧ isxdigit (peek nptr.tail.tail) then
    (16, nptr.drop 2)
  else (base, nptr)

/-- The base that is used, and where its digits start; `none` for a base that is not allowed. -/
def scanBase (base : Nat) (nptr : List UInt8) : Option (Nat × List UInt8) :=
  if base = 16 ∧ peek nptr = 48 then some (skip0x 16 nptr)
  else if base ≠ 0 then if 34 < usub 32 base 2 then none else some (base, nptr)
  else if peek nptr = 48 then some (skip0x 8 nptr)
  else some (10, nptr)

/-- An optional sign. -/
def scanSign (nptr : List UInt8) : Bool × List UInt8 :=
  if peek nptr = 45 then (true, nptr.tail)
  else if peek nptr = 43 then (false, nptr.tail)
  else (false, nptr)

section

variable {V : Type} (zero : V) (add : Nat → V → Nat → V × Bool) (value : Bool → V → Nat)

/-- `while(*nptr)`, with `v` and `overflow`. -/
def digitLoop (base : Nat) : List UInt8 → V → Bool → V × Bool × List UInt8
  | [], v, overflow => (v, overflow, [])
  | c :: nptr, v, overflow =>
    if base ≤ (digitOf c).toNat then (v, overflow, c :: nptr)
    else
      let (v, large) := add base v (digitOf c).toNat
      digitLoop base nptr v (overflow || large)

/-- The text of `strtoul` and `strtoull`: `add` puts a digit behind `v` and tells whether that is
too large, and `value` is `neg?-v:v`. -/
def strtou (ptr : List UInt8) (base errno : Nat) : Outcome Nat :=
  let (neg, orig) := scanSign (ptr.dropWhile isspace)
  match scanBase base orig with
  | none => ⟨0, none, EINVAL⟩
  | some (base, nptr) =>
    let (v, overflow, nptr) := digitLoop add base nptr zero false
    let (v, nptr, errno) :=
      if nptr.length = orig.length then (zero, ptr, EINVAL) else (v, nptr, errno)
    if overflow then ⟨2 ^ 64 - 1, some nptr, ERANGE⟩ else ⟨value neg v, some nptr, errno⟩

end

/-- A digit behind an `unsigned long`. -/
def addUlong (base v c : Nat) : Nat × Bool :=
  let x := (v % 2 ^ 8 * base + c) % 2 ^ 64
  let w := (v / 2 ^ 8 * base + x / 2 ^ 8) % 2 ^ 64
  ((w * 2 ^ 8 + x % 2 ^ 8) % 2 ^ 64, (2 ^ 64 - 1) / 2 ^ 8 < w)

/-- A digit behind a `long long`, which is shifted with its sign. -/
def addLonglong (base : Nat) (v : Int) (c : Nat) : Int × Bool :=
  let x := ((v % 2 ^ 8).toNat * base + c) % 2 ^ 64
  let w := ((v / 2 ^ 8 * base + (x / 2 ^ 8 : Nat)) % 2 ^ 64).toNat
  (conv 64 ((w * 2 ^ 8 + x % 2 ^ 8) % 2 ^ 64 : Nat), (2 ^ 64 - 1) / 2 ^ 8 < w)

/-- `strtoul` -/
def strtoul : List UInt8 → Nat → Nat → Outcome Nat :=
  strtou 0 addUlong fun neg v => if neg then usub 64 0 v else v

/-- `strtoull` -/
def strtoull : List UInt8 → Nat → Nat → Outcome Nat :=
  strtou 0 addLonglong fun neg v => ((if neg then -v else v) % 2 ^ 64).toNat

/-- The test for a magnitude that a `long` does not hold, and `neg?-v:v`: the value returned and
`errno`. -/
def clamp (large neg : Bool) (v errno : Nat) : Int × Nat :=
  if large then
    if v = 2 ^ 63 ∧ neg then (conv 64 v, 0) else (if neg then -2 ^ 63 else 2 ^ 63 - 1, ERANGE)
  else (conv 64 (if neg then -v else v), errno)

/-- The text of `strtol` and `strtoll`, which differ in the parser and in how they compare with the
largest `long`. -/
def strto (parse : List UInt8 → Nat → Nat → Outcome Nat) (large : Nat → Bool) (orig : List UInt8)
    (base errno : Nat) : Outcome Int :=
  let nptr := orig.dropWhile isspace
  let (neg, nptr) := if peek nptr = 45 ∧ isalnum (peek nptr.tail) then (true, nptr.tail)
    else (false, nptr)
  let ⟨v, endptr, errno⟩ := parse nptr base errno
  let endptr := endptr.map fun e => if e.length = nptr.length then orig else e
  let (value, errno) := clamp (large v) neg v errno
  ⟨value, endptr, errno⟩

/-- `strtol` -/
def strtol : List UInt8 → Nat → Nat → Outcome Int := strto strtoul fun v => decide (2 ^ 63 ≤ v)

/-- `strtoll` -/
def strtoll : List UInt8 → Nat → Nat → Outcome Int := strto strtoull fun v => decide (2 ^ 63 - 1 < v)

/-! ## The grammar -/

/-- White space in the C locale. -/
def isWhite (c : UInt8) : Bool := c ∈ [32, 9, 10, 11, 12, 13]

/-- What a byte counts as a digit: the numerals, and the letters of both cases from 10 on. -/
def digit? (c : UInt8) : Option Nat :=
  if 48 ≤ c.toNat ∧ c.toNat ≤ 57 then some (c.toNat - 48)
  else if 97 ≤ c.toNat ∧ c.toNat ≤ 122 then some (c.toNat - 97 + 10)
  else if 65 ≤ c.toNat ∧ c.toNat ≤ 90 then some (c.toNat - 65 + 10)
  else none

/-- A digit of the base. -/
def IsDigit (base : Nat) (c : UInt8) : Bool := (digit? c).any fun d => d < base

/-- The number in a string. -/
structure Subject where
  neg : Bool
  base : Nat
  digits : List UInt8
  rest : List UInt8

/-- The prefix of a number: for base 0 or 16 a `0x` that a hexadecimal digit follows, and for base 0
a `0`, which is a digit as well. -/
def basePrefix (base : Nat) (s : List UInt8) : Nat × List UInt8 :=
  match s with
  | 48 :: x :: d :: s' =>
    if (base = 0 ∨ base = 16) ∧ (x = 120 ∨ x = 88) ∧ IsDigit 16 d then (16, d :: s')
    else (if base = 0 then 8 else base, s)
  | 48 :: _ => (if base = 0 then 8 else base, s)
  | _ => (if base = 0 then 10 else base, s)

/-- An optional sign. -/
def signPrefix : List UInt8 → Bool × List UInt8
  | 45 :: s => (true, s)
  | 43 :: s => (false, s)
  | s => (false, s)

/-- White space, a sign, a prefix, and the longest run of digits. -/
def subject (s : List UInt8) (base : Nat) : Subject :=
  let (neg, s) := signPrefix (s.dropWhile isWhite)
  let (base, s) := basePrefix base s
  ⟨neg, base, s.takeWhile (IsDigit base), s.dropWhile (IsDigit base)⟩

/-- The number that digits denote. -/
def valueFrom (base : Nat) (v : Nat) (ds : List UInt8) : Nat :=
  ds.foldl (fun v c => v * base + (digit? c).getD 0) v

def Subject.value (p : Subject) : Nat := valueFrom p.base 0 p.digits

/-- The bases that are allowed. -/
def BaseOk (base : Nat) : Prop := base = 0 ∨ 2 ≤ base ∧ base ≤ 36

end Dietlibc.Number
