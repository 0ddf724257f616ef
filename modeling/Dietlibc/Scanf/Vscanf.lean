import Dietlibc.Shell.Fnmatch
import Dietlibc.Base.CInt

/-!
# `__v_scanf`

The format is a list without its terminator, and the stream is what `getch` has still to deliver;
behind it `getch` returns -1. What goes through the arguments is a list with an entry for every
argument that is taken. The conversions of floating point numbers are left out: one that is reached
is an error of the model.
-/

namespace Dietlibc.Scanf

open Shell (isspace isdigit star dash rbracket lbracket)

abbrev percent : UInt8 := 37
abbrev plus : UInt8 := 43
abbrev zero : UInt8 := 48
abbrev nine : UInt8 := 57
abbrev caret : UInt8 := 94

/-- The lower-case letters of the conversions, and `X`, `L`, `E`. -/
abbrev charX : UInt8 := 88
abbrev charL : UInt8 := 76
abbrev charE : UInt8 := 69
abbrev chara : UInt8 := 97
abbrev charc : UInt8 := 99
abbrev chard : UInt8 := 100
abbrev chare : UInt8 := 101
abbrev charf : UInt8 := 102
abbrev charg : UInt8 := 103
abbrev charh : UInt8 := 104
abbrev chari : UInt8 := 105
abbrev charl : UInt8 := 108
abbrev charn : UInt8 := 110
abbrev charo : UInt8 := 111
abbrev charp : UInt8 := 112
abbrev charq : UInt8 := 113
abbrev chars : UInt8 := 115
abbrev charu : UInt8 := 117
abbrev charx : UInt8 := 120

/-- Undefined behaviour, and a conversion of a floating point number. -/
inductive Stop where
  | fault
  | float
  deriving DecidableEq

/-! ## State -/

/-- What goes through an argument: an integer of so many bits, characters, or nothing. -/
inductive Stored where
  | int (bits v : Nat)
  | text (l : List UInt8)
  | untouched
  deriving DecidableEq

/-- What is left of the stream, `tpch` (`none` is -1), `consumed`, `n`, and what was stored. -/
structure St where
  rest : List UInt8
  tpch : Option UInt8
  consumed : Nat
  n : Nat
  stored : List Stored

/-- `tpch=A_GETC(fn)` -/
def St.getc (s : St) : St :=
  { s with rest := s.rest.tail, tpch := s.rest.head?, consumed := (s.consumed + 1) % 2 ^ 32 }

/-- `va_arg`, and a store. -/
def St.store (s : St) (v : Stored) : St := { s with stored := s.stored ++ [v] }

/-- The result, what `putch` got, what is left of the stream, and what was stored. -/
structure Exit where
  ret : Int
  given : List (Option UInt8)
  rest : List UInt8
  stored : List Stored
  deriving DecidableEq

/-- `EOF` -/
def eof : Int := -1

/-- `err_out:` -/
def errOut (s : St) : Exit :=
  if s.tpch = none ∧ s.n = 0 then ⟨eof, [], s.rest, s.stored⟩
  else ⟨s.n, [s.tpch], s.rest, s.stored⟩

/-- `return r;` -/
def leave (r : Int) (s : St) : Exit := ⟨r, [], s.rest, s.stored⟩

/-- Where a directive leads: on in the format, or out of the function. -/
inductive Next where
  | go (format : List UInt8) (s : St)
  | stop (e : Exit)

/-! ## Loops over the input -/

/-- `while (p(tpch)) tpch=A_GETC(fn);`, with a bound on the turns. -/
def whileGetc (p : UInt8 → Bool) : Nat → St → St
  | 0, s => s
  | k + 1, s => if s.tpch.any p then whileGetc p k s.getc else s

def skipSpace (s : St) : St := whileGetc isspace (s.rest.length + 1) s

/-- `c=(d>='a'?d-'a'+10:c<='9'?c-'0':0xff)`, with `d=c|0x20`. -/
def digit (c : UInt8) : Nat :=
  if chara ≤ c ||| 32 then (c ||| 32).toNat - 97 + 10
  else if c ≤ nine then CInt.usub 64 c.toNat 48 else 0xff

/-- The loop over the digits, with `width` and `v`. -/
def digitLoop (div : Nat) : Nat → Int → Nat → St → Nat × St
  | 0, _, v, s => (v, s)
  | k + 1, width, v, s =>
    match s.tpch with
    | none => (v, s)
    | some c =>
      if width = 0 ∨ div ≤ digit c then (v, s)
      else
        let d := v * div % 2 ^ 64
        digitLoop div k (width - 1) (if d < v then 2 ^ 64 - 1 else (d + digit c) % 2 ^ 64) s.getc

/-- The loops of `c`, `s` and `[`, with the characters that were stored. With `nul` a NUL ends it. -/
def textLoop (p : UInt8 → Bool) (nul : Bool) : Nat → Int → List UInt8 → St → List UInt8 × St
  | 0, _, l, s => (l, s)
  | k + 1, width, l, s =>
    match s.tpch with
    | none => (l, s)
    | some c =>
      if width = 0 ∨ p c = false ∨ (nul = true ∧ c = 0) then (l, s)
      else textLoop p nul k (width - 1) (l ++ [c]) s.getc

/-! ## Conversions -/

/-- `width` and the flags. -/
structure Flags where
  width : Int
  flagWidth : Bool
  discard : Bool
  half : Bool
  long : Bool
  longlong : Bool
  deriving DecidableEq

def noFlags : Flags := ⟨-1, false, false, false, false, false⟩

/-- `scan_hex:` -/
def scanHex (div : Nat) (s : St) : Nat × St :=
  let s := s.getc
  if s.tpch.any fun c => c ||| 32 = charx then (16, s.getc) else (div, s)

/-- `_div` -/
def divOf (ch : UInt8) : Nat :=
  if ch = charp ∨ ch = charX ∨ ch = charx then 16 else if ch = chard then 10
  else if ch = charo then 8 else 0

/-- The prefix of a number, which gives the base. -/
def scanPrefix (f : Flags) (div : Nat) (s : St) : Nat × St :=
  if f.flagWidth then (div, s)
  else if div = 16 ∧ s.tpch = some zero then scanHex 16 s
  else if div = 0 then if s.tpch = some zero then scanHex 8 s else (10, s)
  else (div, s)

/-- The signs: whether there is a `-`, and what follows. -/
def scanSign (s : St) : Bool × St :=
  let (neg, s) := if s.tpch = some dash then (true, s.getc) else (false, s)
  (neg, if s.tpch = some plus then s.getc else s)

/-- The value with its sign; the limits go into a variable that nothing reads. -/
def signed (ch : UInt8) (neg : Bool) (v : Nat) : Nat :=
  if ch ||| 32 < charp ∧ v < 2 ^ 63 ∧ neg then (2 ^ 64 - v) % 2 ^ 64 else v

/-- The bits of the integer that is stored. -/
def bitsOf (f : Flags) : Nat :=
  if f.longlong ∨ f.long then 64 else if f.half then 16 else 32

/-- The integers: `p`, `X`, `x`, `d`, `o`, `u` and `i`. -/
def convInt (ch : UInt8) (f : Flags) (format : List UInt8) (s : St) : Next :=
  let (neg, s) := scanSign (skipSpace s)
  if s.tpch = none then .stop (leave s.n s)
  else
    let consumedsofar := s.consumed
    let (div, s) := scanPrefix f (divOf ch) s
    let (v, s) := digitLoop div (s.rest.length + 1) f.width 0 s
    if consumedsofar = s.consumed then .stop (leave s.n s)
    else if f.discard then .go format s
    else
      let s := s.store (.int (bitsOf f) (signed ch neg v % 2 ^ bitsOf f))
      .go format (if consumedsofar < s.consumed then { s with n := s.n + 1 } else s)

/-- `c` -/
def convChar (f : Flags) (format : List UInt8) (s : St) : Next :=
  let width := if f.flagWidth then f.width else 1
  let (l, s) := textLoop (fun _ => true) false (s.rest.length + 1) width [] s
  .go format (if f.discard then s else { s.store (.text l) with n := s.n + 1 })

/-- `s` -/
def convString (f : Flags) (format : List UInt8) (s : St) : Next :=
  let s := skipSpace s
  if s.tpch = none then .go format (if f.discard then s else s.store .untouched)
  else
    let (l, s) := textLoop (fun c => !isspace c) true (s.rest.length + 1) f.width [] s
    .go format (if f.discard then s else { s.store (.text (l ++ [0])) with n := s.n + 1 })

/-- `n` -/
def convCount (f : Flags) (format : List UInt8) (s : St) : Next :=
  .go format (if f.discard then s else s.store (.int 32 (CInt.usub 32 s.consumed 1)))

/-! ### Character classes -/

/-- `cset[ch]=1`, where `ch` is a `char` as an `unsigned int`. -/
def cset (ch : UInt8) (set : List UInt8) : Except Stop (List UInt8) :=
  if ch < 128 then .ok (ch :: set) else .error .fault

/-- `for (;ch<=tmp;++ch) cset[ch]=1;` -/
def csetRange (ch tmp : UInt8) : List UInt8 :=
  if ch < 128 then (List.range (tmp.toNat + 1 - ch.toNat)).map fun i => UInt8.ofNat (ch.toNat + i)
  else []

/-- The loop over a character class, with `ch` and `flag_dash`, and what is behind the bracket. A
class that does not end is read beyond the format. -/
def setLoop : List UInt8 → UInt8 → Bool → List UInt8 → Except Stop (List UInt8 × List UInt8)
  | [], _, _, _ => .error .fault
  | c :: format, ch, flagDash, set =>
    if c = rbracket then
      if flagDash then .ok (dash :: set, format)
      else
        match cset ch set with
        | .error e => .error e
        | .ok set => .ok (set, format)
    else if flagDash then setLoop format c false (csetRange ch c ++ set)
    else if c = dash then setLoop format ch true set
    else
      match cset ch set with
      | .error e => .error e
      | .ok set => setLoop format c false set

/-- A character class behind `^`: the set, and what is behind it. -/
def setFrom : List UInt8 → Except Stop (List UInt8 × List UInt8)
  | [] => .error .fault
  | ch :: format =>
    if ch = dash ∨ ch = rbracket then
      match format with
      | [] => .error .fault
      | ch' :: format => setLoop format ch' false [ch]
    else setLoop format ch false []

/-- A character class: the set, `flag_not`, and what is behind it. -/
def scanSet (format : List UInt8) : Except Stop (List UInt8 × Bool × List UInt8) :=
  let flagNot := format.head? = some caret
  match setFrom (if flagNot then format.tail else format) with
  | .error e => .error e
  | .ok (set, format) => .ok (set, flagNot, format)

/-- `[` -/
def convSet (f : Flags) (format : List UInt8) (s : St) : Except Stop Next :=
  match scanSet format with
  | .error e => .error e
  | .ok (set, flagNot, format) =>
    let (l, s) := textLoop (fun c => (c ∈ set) ^^ flagNot) true (s.rest.length + 1) f.width [] s
    .ok <| .go format <|
      if f.discard then s
      else { s.store (.text (l ++ [0])) with n := if l = [] then s.n else s.n + 1 }

/-! ## The format -/

/-- `width=strtol(format-1,&s,10)` at a digit: at most `LONG_MAX`, as an `int`. -/
def widthOf (format : List UInt8) : Int :=
  let v := (format.takeWhile isdigit).foldl (fun v c => v * 10 + (c.toNat - 48)) 0
  CInt.conv 32 (min v (2 ^ 63 - 1) : Nat)

/-- The flags and the width: what `ch` changes, and where the format goes on. -/
def flag (ch : UInt8) (f : Flags) (format : List UInt8) : Option (Flags × List UInt8) :=
  if ch = star then some ({ f with discard := true }, format)
  else if ch = charh then some ({ f with half := true }, format)
  else if ch = charl then some ({ f with longlong := f.longlong || f.long, long := true }, format)
  else if ch = charq ∨ ch = charL then some ({ f with longlong := true }, format)
  else if isdigit ch then
    some ({ f with width := widthOf (ch :: format), flagWidth := true }, format.dropWhile isdigit)
  else none

/-- The conversion `ch`. -/
def convert (ch : UInt8) (f : Flags) (format : List UInt8) (s : St) : Except Stop Next :=
  if ch = percent then
    .ok (if s.tpch = some percent then .go format s.getc else .stop (errOut s))
  else if ch ∈ [charp, charX, charx, chard, charo, charu, chari] then .ok (convInt ch f format s)
  else if ch ∈ [chare, charE, charf, charg] then .error .float
  else if ch = charc then .ok (convChar f format s)
  else if ch = chars then .ok (convString f format s)
  else if ch = charn then .ok (convCount f format s)
  else if ch = lbracket then convSet f format s
  else .ok (.stop (errOut s))

theorem flag_le {ch : UInt8} {f f' : Flags} {format format' : List UInt8}
    (h : flag ch f format = some (f', format')) : format'.length ≤ format.length := by
  unfold flag at h
  split_ifs at h
  all_goals
    obtain ⟨-, rfl⟩ := Prod.mk.inj (Option.some.inj h)
  · exact le_rfl
  · exact le_rfl
  · exact le_rfl
  · exact le_rfl
  · exact (List.dropWhile_sublist _).length_le

/-- `in_scan:` -/
def inScan (f : Flags) (format : List UInt8) (s : St) : Except Stop Next :=
  match format with
  | [] => .ok (.stop (if s.tpch = none then errOut s else leave 0 s))
  | ch :: format =>
    if ch ≠ charn ∧ s.tpch = none then .ok (.stop (errOut s))
    else
      match h : flag ch f format with
      | some (f', format') => inScan f' format' s
      | none => convert ch f format s
termination_by format.length
decreasing_by
  have := flag_le h
  simp only [List.length_cons]
  omega

/-! ### The main loop -/

theorem setLoop_le {format format' : List UInt8} {ch : UInt8} {d : Bool} {set set' : List UInt8}
    (h : setLoop format ch d set = .ok (set', format')) : format'.length ≤ format.length := by
  induction format generalizing ch d set with
  | nil => cases h
  | cons c format ih =>
    rw [setLoop] at h
    have hle {g : List UInt8} (h : g.length ≤ format.length) : g.length ≤ (c :: format).length :=
      h.trans (Nat.le_succ _)
    split at h
    · split at h
      · cases h
        exact hle le_rfl
      · split at h
        · cases h
        · cases h
          exact hle le_rfl
    · split at h
      · exact hle (ih h)
      · split at h
        · exact hle (ih h)
        · split at h
          · cases h
          · exact hle (ih h)

theorem setFrom_le {format format' set : List UInt8} (h : setFrom format = .ok (set, format')) :
    format'.length ≤ format.length := by
  rcases format with - | ⟨ch, format⟩
  · cases h
  simp only [setFrom] at h
  split at h
  · rcases format with - | ⟨ch', format⟩
    · cases h
    · have := setLoop_le h
      simp only [List.length_cons]
      omega
  · have := setLoop_le h
    simp only [List.length_cons]
    omega

theorem scanSet_le {format format' set : List UInt8} {n : Bool}
    (h : scanSet format = .ok (set, n, format')) : format'.length ≤ format.length := by
  unfold scanSet at h
  simp only at h
  split at h
  · cases h
  · next hset =>
    cases h
    refine (setFrom_le hset).trans ?_
    split <;> simp

theorem convert_le {ch : UInt8} {f : Flags} {format format' : List UInt8} {s s' : St}
    (h : convert ch f format s = .ok (.go format' s')) : format'.length ≤ format.length := by
  unfold convert at h
  split at h
  · split at h
    · cases h
      exact le_rfl
    · cases h
  split at h
  · -- the integers
    have h := Except.ok.inj h
    unfold convInt at h
    simp only at h
    split at h
    · cases h
    split at h
    · cases h
    split at h
    all_goals
      cases h
      exact le_rfl
  split at h
  · cases h
  split at h
  · cases h
    exact le_rfl
  split at h
  · have h := Except.ok.inj h
    unfold convString at h
    simp only at h
    split at h
    all_goals
      cases h
      exact le_rfl
  split at h
  · cases h
    exact le_rfl
  split at h
  · unfold convSet at h
    split at h
    · cases h
    · next hset =>
      cases h
      exact scanSet_le hset
  · cases h

theorem inScan_le {f : Flags} {format format' : List UInt8} {s s' : St}
    (h : inScan f format s = .ok (.go format' s')) : format'.length ≤ format.length := by
  fun_induction inScan f format s with
  | case1 => cases h
  | case2 => cases h
  | case3 f ch format hc f' g hflag ih =>
    have := flag_le hflag
    have := ih h
    simp only [List.length_cons]
    omega
  | case4 f ch format hc hflag =>
    have := convert_le h
    simp only [List.length_cons]
    omega

/-- `while (*format)` -/
def loop (format : List UInt8) (s : St) : Except Stop Exit :=
  match format with
  | [] => .ok (errOut s)
  | ch :: format =>
    if isspace ch then loop (format.dropWhile isspace) (skipSpace s)
    else if ch = percent then
      match h : inScan noFlags format s with
      | .error e => .error e
      | .ok (.stop e) => .ok e
      | .ok (.go format' s') => loop format' s'
    -- `ch` is a `char` as an `unsigned int`, and `tpch` is an `unsigned char`
    else if s.tpch = some ch ∧ ch < 128 then loop format s.getc
    else .ok (errOut s)
termination_by format.length
decreasing_by
  · have := (List.dropWhile_sublist isspace (l := format)).length_le
    simp only [List.length_cons]
    omega
  · have := inScan_le h
    simp only [List.length_cons]
    omega
  · simp

/-- `__v_scanf` -/
def vScanf (format input : List UInt8) : Except Stop Exit :=
  loop format (St.getc ⟨input, none, 0, 0, []⟩)

end Dietlibc.Scanf
