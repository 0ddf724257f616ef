import Dietlibc.Printf.Vprintf

/-!
# Integer conversions as C99 has them

A conversion specification (`Spec`), the format text and the arguments it stands for, and the
bytes that C99 7.19.6.1 prescribes (`Spec.c99`).
-/

namespace Dietlibc.Printf

open Lib

inductive Flag where
  | minus
  | zero
  | plus
  | space
  | hash
  deriving DecidableEq

inductive Width where
  | none
  | digits (ds : List Char)
  | star (n : Int)

inductive Prec where
  | none
  | digits (ds : List Char)
  | star (n : Int)

inductive Len where
  | none
  | hh
  | h
  | l
  | ll
  deriving DecidableEq

inductive Conv where
  | d
  | i
  | u
  | o
  | x
  | X
  deriving DecidableEq

/-- `%`, flags in any order, width, precision, length modifier, conversion. -/
structure Spec where
  flags : List Flag
  width : Width
  prec : Prec
  len : Len
  conv : Conv

/-! ## The text and the arguments -/

def Flag.char : Flag → Char
  | .minus => '-'
  | .zero => '0'
  | .plus => '+'
  | .space => ' '
  | .hash => '#'

def Width.chars : Width → List Char
  | .none => []
  | .digits ds => ds
  | .star _ => ['*']

def Prec.chars : Prec → List Char
  | .none => []
  | .digits ds => '.' :: ds
  | .star _ => ['.', '*']

def Len.chars : Len → List Char
  | .none => []
  | .hh => ['h', 'h']
  | .h => ['h']
  | .l => ['l']
  | .ll => ['l', 'l']

def Conv.char : Conv → Char
  | .d => 'd'
  | .i => 'i'
  | .u => 'u'
  | .o => 'o'
  | .x => 'x'
  | .X => 'X'

/-- The format. -/
def Spec.format (s : Spec) : List Char :=
  '%' :: (s.flags.map Flag.char ++ (s.width.chars ++ (s.prec.chars ++
    (s.len.chars ++ [s.conv.char]))))

/-- The word that carries an argument. -/
def slot (v : Int) : Arg := .word (v % 2 ^ 64).toNat

def Width.args : Width → List Arg
  | .star n => [slot n]
  | _ => []

def Prec.args : Prec → List Arg
  | .star n => [slot n]
  | _ => []

/-- The arguments behind the format. -/
def Spec.args (s : Spec) (v : Int) : List Arg := s.width.args ++ s.prec.args ++ [slot v]

/-- A width is at most 10240; in digits it does not start with the flag `0`. -/
def Width.Ok : Width → Prop
  | .none => True
  | .digits ds => ds ≠ [] ∧ (∀ c ∈ ds, c.isDigit) ∧ ds.head? ≠ some '0' ∧ decimal ds ≤ maxWidth
  | .star n => -maxWidth ≤ n ∧ n ≤ maxWidth

/-- A precision is at most 10240; no digits stand for 0. -/
def Prec.Ok : Prec → Prop
  | .none => True
  | .digits ds => (∀ c ∈ ds, c.isDigit) ∧ decimal ds ≤ maxWidth
  | .star n => -2 ^ 31 ≤ n ∧ n ≤ maxWidth

/-- The specification is well formed, each flag given at most once. -/
structure Spec.Ok (s : Spec) : Prop where
  flags : s.flags.Nodup
  width : s.width.Ok
  prec : s.prec.Ok

def Conv.signed : Conv → Bool
  | .d | .i => true
  | _ => false

def Len.bits : Len → Nat
  | .none => 32
  | .hh => 8
  | .h => 16
  | .l | .ll => 64

/-- `v` is a value of the type that the length modifier and the conversion name. -/
def Spec.HasType (s : Spec) (v : Int) : Prop :=
  if s.conv.signed then CInt.Fits s.len.bits v else 0 ≤ v ∧ v < 2 ^ s.len.bits

instance (s : Spec) (v : Int) : Decidable (s.HasType v) := by
  unfold Spec.HasType
  infer_instance

/-! ## What C99 prescribes -/

/-- The `-` flag; a negative width argument is a `-` flag and a positive width. -/
def Spec.left (s : Spec) : Bool :=
  Flag.minus ∈ s.flags || match s.width with
    | .star n => n < 0
    | _ => false

def Width.value : Width → Nat
  | .none => 0
  | .digits ds => decimal ds
  | .star n => n.natAbs

/-- A negative precision argument is taken as if the precision were omitted. -/
def Prec.value : Prec → Option Nat
  | .none => .none
  | .digits ds => some (decimal ds)
  | .star n => if n < 0 then .none else some n.toNat

def Conv.base : Conv → Nat
  | .d | .i | .u => 10
  | .o => 8
  | .x | .X => 16

def Conv.upper : Conv → Bool
  | .X => true
  | _ => false

/-- The digits of a number, most significant first. -/
def numeral (base : Nat) (upper : Bool) (n : Nat) : List Char :=
  if n = 0 then ['0'] else ((Nat.digits base n).map (digitChar upper)).reverse

/-- The digits of the result. Precision 0 and value 0 give none; the `#` flag with `o` forces
the first digit to be a zero. -/
def Spec.digits (s : Spec) (v : Int) : List Char :=
  let ds := if v = 0 ∧ s.prec.value = some 0 then [] else numeral s.conv.base s.conv.upper v.natAbs
  let ds := List.replicate ((s.prec.value.getD 1) - ds.length) '0' ++ ds
  if Flag.hash ∈ s.flags ∧ s.conv = .o ∧ ds.head? ≠ some '0' then '0' :: ds else ds

/-- The sign, or the `0x` of the `#` flag. -/
def Spec.before (s : Spec) (v : Int) : List Char :=
  if s.conv.signed then
    if v < 0 then ['-']
    else if Flag.plus ∈ s.flags then ['+']
    else if Flag.space ∈ s.flags then [' ']
    else []
  else if Flag.hash ∈ s.flags ∧ v ≠ 0 then
    match s.conv with
    | .x => ['0', 'x']
    | .X => ['0', 'X']
    | _ => []
  else []

/-- The result, padded to the width. The `0` flag is ignored beside `-` or a precision. -/
def Spec.c99 (s : Spec) (v : Int) : List Char :=
  let pre := s.before v
  let ds := s.digits v
  let pad := s.width.value - (pre.length + ds.length)
  if s.left then pre ++ ds ++ List.replicate pad ' '
  else if Flag.zero ∈ s.flags ∧ s.prec.value = .none then pre ++ List.replicate pad '0' ++ ds
  else List.replicate pad ' ' ++ pre ++ ds

end Dietlibc.Printf
