import Dietlibc.Lib.Strtol

/-!
# `__v_printf`

`lib/__v_printf.c` on a 64-bit machine: the format loop, the flags and the conversions `%`, `c`,
`s`, `b`, `p`, `x`, `X`, `d`, `i`, `u` and `o`. Left out: the floating-point conversions (a
`float` or `%m` conversion is skipped here as the `default` case skips an unknown one).

Output goes through `fn->put`; `Out` records what it was handed, chunk by chunk, and the count
`len`. An argument is a 64-bit word as the calling convention passes it, or a string.
`va_arg(ap, int)` reads the low half of the word.
-/

namespace Dietlibc.Printf

open Lib

inductive Arg where
  | word (w : Nat)
  | str (s : List Char)

/-- Why a call does not complete: it returned `-1`, or there was no argument of the kind asked
for, which C leaves undefined. -/
inductive Fault where
  | minusOne
  | noArg
  deriving DecidableEq

structure Out where
  len : Nat
  chunks : List (List Char)

/-- The local variables that the flags, width and precision set. -/
structure Flags where
  padwith : Char
  hash : Int
  left : Bool
  space : Bool
  sign : Bool
  dot : Bool
  long : Int
  width : Nat
  preci : Nat

/-- Their values at `++format`. -/
def Flags.init : Flags where
  padwith := ' '
  hash := 0
  left := false
  space := false
  sign := false
  dot := false
  long := 0
  width := 0
  preci := 0

/-- `MAX_WIDTH`. -/
def maxWidth : Nat := 10240

/-! ## Output -/

/-- `B_WRITE`, and the addition to `len` behind it. -/
def bWrite (buf : List Char) (o : Out) : Except (Fault × Out) Out :=
  if 2 ^ 63 - 1 < buf.length ∨ (o.len + buf.length) % 2 ^ 32 < o.len then .error (.minusOne, o)
  else .ok ⟨(o.len + buf.length) % 2 ^ 32, o.chunks ++ [buf]⟩

/-- The chunks of `write_pad`: lines of sixteen, then the rest. -/
def padChunks (len : Nat) (c : Char) : List (List Char) :=
  List.replicate (len / 16) (List.replicate 16 c) ++
    if len % 16 = 0 then [] else [List.replicate (len % 16) c]

/-- `write_pad`; `len` is an `unsigned int` that may stand for a negative number. -/
def writePad (len : Nat) (padwith : Char) (o : Out) : Except (Fault × Out) Out :=
  if len = 0 ∨ 2 ^ 31 ≤ len then .ok o
  else if (o.len + len) % 2 ^ 32 < len then .error (.minusOne, o)
  else .ok ⟨(o.len + len) % 2 ^ 32, o.chunks ++ padChunks len (if padwith = '0' then '0' else ' ')⟩

/-- A call of `write_pad` under a condition. -/
def writePadIf (b : Bool) (len : Nat) (padwith : Char) (o : Out) : Except (Fault × Out) Out :=
  if b then writePad len padwith o else .ok o

/-- The label `print_out`: the `sz` bytes `s`, the first of them a sign or a prefix. -/
def printOut (f : Flags) (inSign : Bool) (precpadwith : Char) (s : List Char) (o : Out) :
    Except (Fault × Out) Out :=
  if f.width = 0 ∧ f.preci = 0 then bWrite s o
  else
    let todo := if 0 < f.hash then f.hash.toNat else if inSign then 1 else 0
    let sign := s.take todo
    let s := s.drop todo
    let width := CInt.usub 32 f.width todo
    let width := if f.dot ∧ width = 0 then f.preci else width
    let preci := if f.dot then f.preci else s.length % 2 ^ 32
    (writePadIf (!f.left && f.padwith = ' ') (CInt.usub 32 width preci) f.padwith o).bind fun o =>
    (if todo = 0 then .ok o else bWrite sign o).bind fun o =>
    (writePadIf (!f.left && f.padwith ≠ ' ') (CInt.usub 32 width preci) f.padwith o).bind fun o =>
    (writePad (CInt.usub 64 preci s.length % 2 ^ 32) precpadwith o).bind fun o =>
    (bWrite s o).bind fun o =>
    writePadIf f.left (CInt.usub 32 width preci) f.padwith o

/-! ## Conversions -/

/-- The number a conversion reads, as printed: its sign and its magnitude. `long` and
`long long` are both 64 bits wide. -/
def readNumber (f : Flags) (inSign : Bool) (w : Nat) : Bool × Nat :=
  let number : Int :=
    if 0 < f.long then CInt.conv 64 w
    else if inSign then CInt.conv 32 w
    else CInt.conv 32 w % 2 ^ 32
  let neg := inSign && decide (number < 0)
  let number := if neg then CInt.conv 64 (-number) else number
  let number := if f.long < 0 then number % 2 ^ 16 else number
  let number := if f.long < -1 then number % 2 ^ 8 else number
  (neg, (number % 2 ^ 64).toNat)

/-- From `__ltostr` to `print_out`: `pre` stands before the digits in `buf`. When 0 is printed
with an explicit precision, the output is empty or the precision's zeros alone. -/
def numOut (f : Flags) (inSign neg : Bool) (pre digits : List Char) (o : Out) :
    Except (Fault × Out) Out :=
  let zero := f.dot ∧ digits = ['0']
  let body :=
    if zero then if f.preci = 0 ∨ 0 < f.hash then [] else pre
    else pre ++ digits
  let f := if zero then { f with hash := 0 } else f
  if neg then printOut f true '0' ('-' :: body) o
  else if inSign ∧ (f.sign ∨ f.space) then
    printOut f true '0' ((if f.sign then '+' else ' ') :: body) o
  else printOut f false '0' body o

/-- The label `num_printf`. -/
def numPrintf (base : Nat) (upcase inSign : Bool) (pre : List Char) (f : Flags) (args : List Arg)
    (o : Out) : Except (Fault × Out) (List Arg × Out) :=
  match args with
  | .word w :: args =>
    let (neg, number) := readNumber f inSign w
    (numOut f inSign neg pre (ltostr 123 number base upcase) o).map fun o => (args, o)
  | _ => .error (.noArg, o)

/-- The cases `x` and `X`: `ch` is the letter of the prefix. -/
def hexPrintf (ch : Char) (upcase : Bool) (f : Flags) (args : List Arg) (o : Out) :
    Except (Fault × Out) (List Arg × Out) :=
  let pre := if f.hash ≠ 0 then ['0', ch] else []
  let f := { f with
    hash := if f.hash ≠ 0 then 2 else f.hash
    width := if f.width < f.preci then f.preci else f.width }
  numPrintf 16 upcase false pre f args o

/-- The case `o`. -/
def octPrintf (f : Flags) (args : List Arg) (o : Out) : Except (Fault × Out) (List Arg × Out) :=
  let pre := if f.hash ≠ 0 then ['0'] else []
  numPrintf 8 false false pre { f with hash := if f.hash ≠ 0 then 1 else f.hash } args o

/-- One conversion, `ch` being its letter. -/
def convert (ch : Char) (f : Flags) (args : List Arg) (o : Out) :
    Except (Fault × Out) (List Arg × Out) :=
  match ch with
  | '%' => (bWrite ['%'] o).map fun o => (args, o)
  | 'c' =>
    match args with
    | .word w :: args => (bWrite [Char.ofNat (w % 256)] o).map fun o => (args, o)
    | _ => .error (.noArg, o)
  | 's' =>
    match args with
    | .str s :: args =>
      let s := if f.dot then s.take f.preci else s
      (printOut { f with preci := 0, dot := false, padwith := ' ' } false ' ' s o).map
        fun o => (args, o)
    | _ => .error (.noArg, o)
  | 'b' => numPrintf 2 false false [] f args o
  | 'p' => hexPrintf 'x' false { f with hash := 2, long := 1 } args o
  | 'X' => hexPrintf 'X' true f args o
  | 'x' => hexPrintf 'x' false f args o
  | 'd' | 'i' => numPrintf 10 false true [] f args o
  | 'u' => numPrintf 10 false false [] f args o
  | 'o' => octPrintf f args o
  | _ => .ok (args, o)

/-! ## The format -/

/-- The cases of `inn_printf` that set one flag. -/
def flagOf (ch : Char) (f : Flags) : Option Flags :=
  match ch with
  | '#' => some { f with hash := -1, long := CInt.conv 8 (f.long - 1) }
  | 'h' => some { f with long := CInt.conv 8 (f.long - 1) }
  | 'q' | 'L' => some { f with long := CInt.conv 8 (f.long + 2) }
  | 'j' | 'z' | 'l' => some { f with long := CInt.conv 8 (f.long + 1) }
  | '-' => some { f with left := true }
  | ' ' => some { f with space := true }
  | '+' => some { f with sign := true }
  | _ => none

/-- The width that `*` takes from the arguments. -/
def starWidth (f : Flags) (w : Nat) : Flags :=
  let tmp := CInt.conv 32 w
  if tmp < 0 then { f with left := true, width := (CInt.conv 32 (-tmp) % 2 ^ 32).toNat }
  else { f with width := tmp.toNat }

/-- The precision that `.*` takes from the arguments. -/
def starPreci (f : Flags) (w : Nat) : Flags :=
  let tmp := CInt.conv 32 w
  { f with dot := true, preci := if tmp < 0 then 0 else tmp.toNat }

/-- A decimal width, the digit `ch` being its first: `strtoul(format-1, &s, 10)`. -/
def digitWidth (f : Flags) (ch : Char) (format : List Char) : Option Flags :=
  let n := (strtoul (ch :: format) 10).1 % 2 ^ 32
  if f.dot ∨ maxWidth < n then none
  else some { f with width := n, padwith := if ch = '0' ∧ !f.left then '0' else f.padwith }

/-- A decimal precision: `strtol(format, &s, 10)`. -/
def digitPreci (f : Flags) (format : List Char) : Option Flags :=
  let tmp := (strtol format 10).1
  let preci := if tmp < 0 then 0 else tmp.toNat % 2 ^ 32
  if maxWidth < preci then none else some { f with dot := true, preci }

/-- What one turn through `inn_printf` comes to. -/
inductive Turn where
  | again (f : Flags) (format : List Char) (args : List Arg)
  | letter (ch : Char) (f : Flags) (format : List Char) (args : List Arg)
  | stop (e : Fault)

/-- The case `.`, with the format behind it. -/
def preciTurn (f : Flags) (format : List Char) (args : List Arg) : Turn :=
  match format with
  | '*' :: format =>
    match args with
    | .word w :: args =>
      if maxWidth < (starPreci f w).preci then .stop .minusOne
      else .again (starPreci f w) format args
    | _ => .stop .noArg
  | format =>
    match digitPreci f format with
    | some f => .again f (strtol format 10).2 args
    | none => .stop .minusOne

/-- One turn through `inn_printf`. -/
def innTurn (f : Flags) (ch : Char) (format : List Char) (args : List Arg) : Turn :=
  match flagOf ch f with
  | some f => .again f format args
  | none =>
    if ch.isDigit then
      match digitWidth f ch format with
      | some f => .again f (strtoul (ch :: format) 10).2.1 args
      | none => .stop .minusOne
    else if ch = '*' then
      match args with
      | .word w :: args =>
        if maxWidth < (starWidth f w).width then .stop .minusOne
        else .again (starWidth f w) format args
      | _ => .stop .noArg
    else if ch = '.' then preciTurn f format args
    else .letter ch f format args

theorem preciTurn_le {f g : Flags} {format rest : List Char} {args as : List Arg}
    (h : preciTurn f format args = .again g rest as) : rest.length ≤ format.length := by
  unfold preciTurn at h
  split at h
  · split at h
    · split at h
      · cases h
      · rw [← (Turn.again.inj h).2.1, List.length_cons]
        exact Nat.le_succ _
    · cases h
  · split at h
    · rw [← (Turn.again.inj h).2.1]
      exact strtol_le _ _
    · cases h

/-- Every turn takes something off the format. -/
theorem innTurn_le {f g : Flags} {ch : Char} {format rest : List Char} {args as : List Arg}
    (h : innTurn f ch format args = .again g rest as) : rest.length ≤ format.length := by
  unfold innTurn at h
  split at h
  · cases h
    exact le_refl _
  · split at h
    · rename_i hd
      split at h
      · cases h
        exact strtoul_lt hd format
      · cases h
    · split at h
      · split at h
        · split at h
          · cases h
          · exact le_of_eq (congrArg List.length (Turn.again.inj h).2.1.symm)
        · cases h
      · split at h
        · exact preciTurn_le h
        · cases h

/-- The label `inn_printf`: everything up to the letter of the conversion. -/
def innPrintf (f : Flags) (format : List Char) (args : List Arg) :
    Except Fault (Char × Flags × List Char × List Arg) :=
  match format with
  | [] => .error .minusOne
  | ch :: format =>
    match _h : innTurn f ch format args with
    | .again f rest args => innPrintf f rest args
    | .letter ch f rest args => .ok (ch, f, rest, args)
    | .stop e => .error e
termination_by format.length
decreasing_by exact Nat.lt_succ_of_le (innTurn_le _h)

theorem preciTurn_ne_letter {f g : Flags} {c : Char} {format rest : List Char}
    {args as : List Arg} : preciTurn f format args ≠ .letter c g rest as := by
  intro h
  unfold preciTurn at h
  split at h
  · split at h
    · split at h <;> cases h
    · cases h
  · split at h <;> cases h

theorem innTurn_letter {f g : Flags} {ch c : Char} {format rest : List Char} {args as : List Arg}
    (h : innTurn f ch format args = .letter c g rest as) : rest = format := by
  unfold innTurn at h
  split at h
  · cases h
  · split at h
    · split at h <;> cases h
    · split at h
      · split at h
        · split at h <;> cases h
        · cases h
      · split at h
        · exact absurd h preciTurn_ne_letter
        · cases h
          rfl

theorem innPrintf_le {f g : Flags} {ch : Char} {format rest : List Char} {args as : List Arg}
    (h : innPrintf f format args = .ok (ch, g, rest, as)) : rest.length ≤ format.length := by
  induction hn : format.length using Nat.strong_induction_on generalizing f format args with
  | _ n ih =>
    unfold innPrintf at h
    split at h
    · cases h
    · split at h
      · rename_i ht
        have hle := innTurn_le ht
        simp only [List.length_cons] at hn
        have := ih _ (by omega) h rfl
        omega
      · rename_i ht
        cases h
        rw [innTurn_letter ht, ← hn, List.length_cons]
        omega
      · cases h

/-- The loop of `__v_printf`. It returns `len` as an `int`. -/
def vPrintf (format : List Char) (args : List Arg) (o : Out) : Except (Fault × Out) Out :=
  let sz := format.takeWhile (· ≠ '%')
  let text : Except (Fault × Out) Out := if sz = [] then .ok o else bWrite sz o
  match text with
  | .error e => .error e
  | .ok o =>
    match _hf : format.dropWhile (· ≠ '%') with
    | [] => .ok o
    | _ :: format' =>
      match _h : innPrintf .init format' args with
      | .error e => .error (e, o)
      | .ok (ch, f, rest, args) =>
        match convert ch f args o with
        | .error e => .error e
        | .ok (args, o) => vPrintf rest args o
termination_by format.length
decreasing_by
  have h1 := innPrintf_le _h
  have h2 := (List.dropWhile_sublist (· ≠ '%') (l := format)).length_le
  rw [_hf, List.length_cons] at h2
  omega

/-- The bytes handed to `fn->put`, for a call that completes. -/
def printed (format : List Char) (args : List Arg) : Option (List Char) :=
  match vPrintf format args ⟨0, []⟩ with
  | .ok o => some o.chunks.flatten
  | .error _ => none

end Dietlibc.Printf
