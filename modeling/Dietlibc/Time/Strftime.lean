import Dietlibc.Base.Mem
import Dietlibc.Time.Mktime
import Dietlibc.Time.Strptime

/-!
# `strftime`

The format is the list of its bytes in front of the NUL; the loop over it is a recursion, with the
label the code is at. `dst` is an address of a memory, and writes are not checked. A read behind the
format, an index outside a table and an overflow in `mktime` are faults. A composite directive calls
`strftime` again, on a format without composite directives.
-/

namespace Dietlibc.Time

open CInt
open Lib (text)

def sweekdays : List (List UInt8) :=
  [text "Sun", text "Mon", text "Tue", text "Wed", text "Thu", text "Fri", text "Sat"]

def weekdays : List (List UInt8) :=
  [text "Sunday", text "Monday", text "Tuesday", text "Wednesday", text "Thursday", text "Friday",
    text "Saturday"]

def smonths : List (List UInt8) :=
  [text "Jan", text "Feb", text "Mar", text "Apr", text "May", text "Jun", text "Jul", text "Aug",
    text "Sep", text "Oct", text "Nov", text "Dec"]

def ampm : List (List UInt8) := [text "am", text "pm", text "AM", text "PM"]

/-- The zone file, if one is mapped, and `tzname[0]` behind `tzset`. -/
structure Locale where
  zone : Option Zone
  tzname : List UInt8

/-- `mktime` with that file. -/
def Locale.mktime (l : Locale) (tm : Tm) : Option (Int × Tm) :=
  match l.zone with
  | none => timegm tm
  | some z => Time.mktime z.bytes tm

/-! ## Directives -/

/-- The two digits of `i2a`. -/
def i2a (x : Nat) : List UInt8 := [UInt8.ofNat (x / 10 + 48), UInt8.ofNat (x % 10 + 48)]

/-- An `int` as an `unsigned` type. -/
def unsigned (w : Nat) (x : Int) : Nat := (x % 2 ^ w).toNat

/-- `sbuf` from `c` on, behind the loop. -/
def secondsLoop : Nat → Int → List UInt8 → List UInt8
  | 0, _, c => c
  | n + 1, t, c =>
    let c := UInt8.ofNat (t.tmod 10 + 48).toNat :: c
    if t.tdiv 10 = 0 then c else secondsLoop n (t.tdiv 10) c

/-- What a directive comes to: `*p++`, `_str` or `_strf`. -/
inductive Piece where
  | none
  | char (c : UInt8)
  | str (src : List UInt8)
  | format (src : List UInt8)
  deriving DecidableEq

/-- `table[i]` -/
def entry (table : List (List UInt8)) (i : Int) : Option Piece :=
  if 0 ≤ i then table[i.toNat]?.map .str else Option.none

/-- The code at `_no`. -/
def no (x : Int) : Option Piece := some (.str (i2a (unsigned 64 x)))

/-- The code at `_nos`. -/
def nos (x : Int) : Option Piece :=
  let buf := i2a (unsigned 64 x)
  some (.str (if buf.head? = some 48 then 32 :: buf.tail else buf))

/-- The `switch`, but for `%s`. -/
def piece (l : Locale) (c : UInt8) (tm : Tm) : Option Piece :=
  match Char.ofNat c.toNat with
  | 'n' => some (.char 10)
  | 't' => some (.char 9)
  | 'c' => some (.format (text "%b %a %d %k:%M:%S %Z %Y"))
  | 'r' => some (.format (text "%I:%M:%S %p"))
  | 'R' => some (.format (text "%H:%M"))
  | 'x' => some (.format (text "%b %a %d"))
  | 'X' => some (.format (text "%k:%M:%S"))
  | 'D' => some (.format (text "%m/%d/%y"))
  | 'F' => some (.format (text "%Y-%m-%d"))
  | 'T' => some (.format (text "%H:%M:%S"))
  | 'a' => entry sweekdays tm.tmWday
  | 'A' => entry weekdays tm.tmWday
  | 'h' | 'b' => entry smonths tm.tmMon
  | 'B' => entry months tm.tmMon
  | 'p' => entry ampm (if 12 < tm.tmHour then 3 else 2)
  | 'P' => entry ampm (if 12 < tm.tmHour then 1 else 0)
  | 'C' => no (tm.tmYear.tdiv 100 + 19)
  | 'd' => no tm.tmMday
  | 'e' => nos tm.tmMday
  | 'H' => no tm.tmHour
  | 'I' => no (tm.tmHour.tmod 12)
  | 'j' => no tm.tmYday
  | 'k' => nos tm.tmHour
  | 'l' => nos (tm.tmHour.tmod 12)
  | 'm' => no (tm.tmMon + 1)
  | 'M' => no tm.tmMin
  | 'S' => no tm.tmSec
  | 'u' => no (if tm.tmWday ≠ 0 then tm.tmWday else 7)
  | 'w' => no tm.tmWday
  | 'U' => no ((tm.tmYday - tm.tmWday + 7).tdiv 7)
  | 'W' => no ((tm.tmYday - (tm.tmWday - 1 + 7).tmod 7 + 7).tdiv 7)
  | 'Z' => some (.str l.tzname)
  | 'Y' => some (.str (i2a (unsigned 32 (tm.tmYear.tdiv 100 + 19)) ++
      i2a (unsigned 32 (tm.tmYear.tmod 100))))
  | 'y' => no (tm.tmYear.tmod 100)
  | _ => some .none

/-- The `switch`. `mktime` leaves its structure normalised. -/
def conversion (l : Locale) (c : UInt8) (tm : Tm) : Option (Piece × Tm) :=
  if c = 115 then (l.mktime tm).map fun r => (.str (secondsLoop 99 r.1 []), r.2)
  else (piece l c tm).map fun p => (p, tm)

/-! ## The loop over the format -/

/-- At the head of the loop, behind a `%`, and at `again`. -/
inductive Mode where
  | plain
  | percent
  | again
  deriving DecidableEq

/-- The value returned, the memory, and the structure. -/
abbrev Written := Nat × Mem × Tm

/-- The call `strftime(p, max, format, tm)`. -/
abbrev Writer := Nat → Nat → List UInt8 → Mem → Tm → Option Written

/-- Up to the NUL. -/
def cstring (s : List UInt8) : List UInt8 := s.takeWhile (· != 0)

/-- `p`, the memory and the structure behind the `switch`; `stop` is `dst+max`. -/
def put (call : Writer) (stop : Nat) (m : Mem) (p : Nat) (tm : Tm) : Piece → Option Written
  | .none => some (p, m, tm)
  | .char c => some (p + 1, m.store p [c], tm)
  | .str src =>
    let src := (cstring src).take (stop - p)
    some (p + src.length, m.store p src, tm)
  | .format src => (call p (stop - p) src m tm).map fun r => (p + r.1, r.2)

section

variable (call : Writer) (l : Locale) (stop : Nat)

/-- `for ( ; *format != '\0'; format++ )` -/
def strftimeLoop : Mode → List UInt8 → Mem → Nat → Tm → Option Written
  | .plain, [], m, p, tm => some (p, m, tm)
  | .plain, c :: format, m, p, tm =>
    if c = 37 then strftimeLoop .percent format m p tm
    else if stop ≤ p + 1 then some (p + 1, m.store p [c], tm)
    else strftimeLoop .plain format (m.store p [c]) (p + 1) tm
  -- no case at the NUL, and then `format++`
  | .percent, [], m, p, tm | .again, [], m, p, tm => if stop ≤ p then some (p, m, tm) else none
  | .percent, c :: format, m, p, tm =>
    if c = 37 then
      if stop ≤ p + 1 then some (p + 1, m.store p [c], tm)
      else strftimeLoop .plain format (m.store p [c]) (p + 1) tm
    else if c = 79 ∨ c = 69 then strftimeLoop .again format m p tm
    else do
      let (piece, tm) ← conversion l c tm
      let (p, m, tm) ← put call stop m p tm piece
      if stop ≤ p then some (p, m, tm) else strftimeLoop .plain format m p tm
  | .again, c :: format, m, p, tm =>
    if c = 79 ∨ c = 69 then strftimeLoop .again format m p tm
    else do
      let (piece, tm) ← conversion l c tm
      let (p, m, tm) ← put call stop m p tm piece
      if stop ≤ p then some (p, m, tm) else strftimeLoop .plain format m p tm

end

/-- `strftime`, with the call for composite directives. -/
def strftimeWith (call : Writer) (l : Locale) : Writer := fun dst max format m tm =>
  if max = 0 then some (0, m, tm)
  else
    (strftimeLoop call l (dst + max) .plain format m dst tm).map fun (p, m, tm) =>
      (p - dst, if max ≤ p - dst then m.store (p - 1) [0] else m.store p [0], tm)

/-- `strftime` on the format of a composite directive. -/
def nestedStrftime (l : Locale) : Writer := strftimeWith (fun _ _ _ _ _ => none) l

/-- `strftime` -/
def strftime (l : Locale) : Writer := strftimeWith (nestedStrftime l) l

end Dietlibc.Time
