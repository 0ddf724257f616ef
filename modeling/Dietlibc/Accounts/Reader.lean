import Dietlibc.Base.Machine
import Dietlibc.Base.Mem

/-!
# The readers of the account files

`getpwent_r`, `getgrent_r` and `getspent_r`. The three have the same labels and jumps, so that
they are one machine with the number and the kinds of the fields as its parameters. A mapped file
is its bytes and the zero bytes behind them up to the end of the page: a read behind those is a
fault. `buf` is the memory of the caller from `buf` on, and pointers into it are offsets.
-/

namespace Dietlibc.Accounts

open Machine

/-! ## `parselib.h` -/

/-- A file that is mapped, with `pad` bytes behind it. -/
structure Mapped where
  bytes : List UInt8
  pad : Nat

/-- `buffirst[i]` -/
def Mapped.at? (m : Mapped) (i : Nat) : Option UInt8 :=
  if i < m.bytes.length + m.pad then some (m.bytes.getD i 0) else none

/-- `'\n'` -/
def newline : UInt8 := 10

/-- `':'` -/
def colon : UInt8 := 58

/-- `','` -/
def comma : UInt8 := 44

/-- `__parse_1` -/
def parse1 (m : Mapped) (cur : Nat) (c : UInt8) : Nat :=
  ((m.bytes.drop cur).takeWhile fun b => b != newline && b != c).length

def isDigit (b : UInt8) : Bool := 48 ≤ b.toNat && b.toNat < 58

/-- `x=x*10+digit` over the digits, in an `unsigned long`. -/
def number (ds : List UInt8) : Nat := ds.foldl (fun x d => (x * 10 + (d.toNat - 48)) % 2 ^ 64) 0

/-- `scan_ulong`: the length and the number. The loop reads the byte behind the digits. -/
def scanUlong (m : Mapped) (cur : Nat) : Option (Nat × Nat) :=
  let ds := (m.bytes.drop cur).takeWhile isDigit
  if cur + ds.length < m.bytes.length + m.pad then some (ds.length, number ds) else none

/-- The first newline of the file at or behind `k`. -/
def lineEnd (m : Mapped) (k : Nat) : Option Nat :=
  let n := ((m.bytes.drop k).takeWhile (· != newline)).length
  if k + n < m.bytes.length then some (k + n) else none

/-! ## The machine -/

/-- What `switch(i)` does with a field. -/
inductive Kind where
  | string
  | number
  | member

/-- `GROUPS` -/
def groups : Nat := 16

/-- Where the readers differ. -/
structure Shape where
  /-- the number of fields -/
  count : Nat
  /-- where the strings start in `buf` -/
  start : Nat
  sep : Nat → UInt8
  /-- a field that ends with another byte than its separator is an error -/
  strict : Nat → UInt8 → Bool
  kind : Nat → Kind
  /-- the number that is kept, from what has been scanned and its length -/
  value : Nat → Nat → Nat

inductive Label where
  | entry
  | again
  | field
  | parseerror
  | switch
  deriving DecidableEq

/-- `__ps.cur`, the local variables, `buf`, the fields of `*res` and the pointers of `gr_mem`. -/
structure St where
  label : Label
  cur : Nat
  i : Nat
  j : Nat
  n : Nat
  found : UInt8
  buf : Mem
  res : Nat → Nat
  mem : List Nat

/-- The value returned is 0 if `ok`. -/
structure Answer where
  ok : Bool
  st : St

abbrev StNext := Next St Answer Unit

section

variable (sh : Shape) (m : Mapped) (buflen : Nat)

/-- `__ps.cur+=j+1`, to the next turn of the loop. -/
def St.advance (s : St) : St := { s with label := .field, cur := s.cur + s.j + 1, i := s.i + 1 }

/-- The code at `copy:`. -/
def copyField (s : St) : StNext :=
  if buflen ≤ s.n + s.j then .stop ⟨false, s⟩
  else
    let s := { s with
      buf := s.buf.store s.n ((List.range s.j).map (fun k => m.bytes.getD (s.cur + k) 0) ++ [0])
      n := s.n + s.j + 1 }
    -- behind the last member
    .again (if s.found = newline ∧ s.i = 2 then { s with i := 3 } else s).advance

/-- `switch(i)` -/
def switchField (s : St) : StNext :=
  match sh.kind s.i with
  | .string => copyField m buflen { s with res := Function.update s.res s.i s.n }
  | .number =>
    match scanUlong m s.cur with
    | none => .fault ()
    | some (len, l) =>
      if len ≠ s.j then .again { s with label := .parseerror }
      else .again { s with res := Function.update s.res s.i (sh.value l s.j) }.advance
  | .member =>
    let s := { s with mem := s.mem ++ [s.n] }
    if s.mem.length = groups - 1 then .again s.advance
    else copyField m buflen { s with i := s.i - 1 }

def step (s : St) : StNext :=
  match s.label with
  | .entry =>
    if m.bytes.length ≤ s.cur then .stop ⟨false, s⟩ else .again { s with label := .again }
  | .again => .again { s with label := .field, i := 0, n := sh.start, mem := [] }
  | .field =>
    if s.i < sh.count then
      let j := parse1 m s.cur (sh.sep s.i)
      match m.at? (s.cur + j) with
      | none => .fault ()
      | some found =>
        .again { s with
          j, found
          label := if found ≠ sh.sep s.i ∧ sh.strict s.i found then .parseerror else .switch }
    else .stop ⟨true, s⟩
  | .parseerror =>
    match lineEnd m (s.cur + s.j) with
    | some k => .again { s with label := .again, cur := k + 1 }
    | none => .again { s with label := .switch, j := max s.j (m.bytes.length - s.cur) }
  | .switch => switchField sh m buflen s

end

/-! ## The three readers -/

def getpwentR : Shape where
  count := 7
  start := 0
  sep _ := colon
  strict i _ := i < 6
  kind i := if i = 2 ∨ i = 3 then .number else .string
  value l _ := l % 2 ^ 32

def getgrentR : Shape where
  count := 4
  start := groups * 8
  sep i := if i < 3 then colon else comma
  strict i found := found ≠ newline || i ≠ 3
  kind i := if i = 2 then .number else if i = 3 then .member else .string
  value l _ := l % 2 ^ 32

def getspentR : Shape where
  count := 9
  start := 0
  sep _ := colon
  strict i _ := i < 6
  kind i := if 1 < i then .number else .string
  value l j := if j = 0 then 2 ^ 64 - 1 else l

/-- The state in which a call starts. -/
def entryAt (cur : Nat) (buf : Mem) (res : Nat → Nat) : St where
  label := .entry
  cur := cur
  i := 0
  j := 0
  n := 0
  found := 0
  buf := buf
  res := res
  mem := []

/-- A call with a buffer of `buflen` bytes at parse position `cur` returns `r`. -/
def Returns (sh : Shape) (m : Mapped) (cur buflen : Nat) (buf : Mem) (res : Nat → Nat)
    (r : Answer) : Prop :=
  Stops (step sh m buflen) (entryAt cur buf res) r

end Dietlibc.Accounts
