import Dietlibc.Base.Machine
import Dietlibc.Lib.Getopt
import Dietlibc.Shell.Fnmatch
import Dietlibc.Time.Timegm

/-!
# `strptime`

The format is read by a machine, one turn of the loop a step. A string is its bytes in front of the
NUL, a pointer into it is the rest, and `none` is the null pointer. A read behind the NUL or through
the null pointer is a fault, and so is an overflow. A composite directive calls `strptime` again, on a
format without composite directives.
-/

namespace Dietlibc.Time

open CInt Machine
open Lib (text)
open Shell (isalpha isblank isdigit tolower)

/-- `months` -/
def months : List (List UInt8) :=
  [text "January", text "February", text "March", text "April", text "May", text "June",
    text "July", text "August", text "September", text "October", text "November", text "December"]

/-! ## Reading -/

/-- `s+=n` -/
def advance (n : Nat) (s : List UInt8) : Option (List UInt8) :=
  if n ≤ s.length then some (s.drop n) else none

/-- `for (j=0; j<max; ++j)`, with the turns that are left. -/
def getintLoop : Nat → Int → List UInt8 → Int × List UInt8
  | 0, i, s => (i, s)
  | _ + 1, i, [] => (i, [])
  | n + 1, i, d :: s =>
    if isdigit d then getintLoop n (i * 10 + d.toNat - 48) s else (i, d :: s)

/-- `getint` -/
def getint (max : Nat) (s : List UInt8) : Int × List UInt8 :=
  if (s.head?.map isdigit).getD false then getintLoop max 0 s else (-1, s)

/-- `!strncasecmp(s1,s2,len)` -/
def sameCase : Nat → List UInt8 → List UInt8 → Bool
  | 0, _, _ => true
  | n + 1, s1, s2 =>
    tolower (s1.headD 0) == tolower (s2.headD 0) &&
      (s1.headD 0 == 0 || sameCase n s1.tail s2.tail)

/-- `i` and `j` behind the loop over the months, unless `j` is 0. -/
def monthAt (s : List UInt8) : Option (Nat × Nat) :=
  (List.range 12).findSome? fun i =>
    let name := months.getD i []
    if sameCase name.length s name then some (i, name.length)
    else if sameCase 3 s name then some (i, 3)
    else none

/-- `while (*s!=' ' && *s!='\t') ++s;` -/
def skipZone : List UInt8 → Option (List UInt8)
  | [] => none
  | c :: s => if c = 32 ∨ c = 9 then some (c :: s) else skipZone s

/-- `if (isalpha(*s)) ++s;` -/
def skipAlpha : List UInt8 → List UInt8
  | [] => []
  | c :: s => if isalpha c then s else c :: s

/-! ## Directives -/

/-- The cases of the inner `switch`. -/
inductive Directive where
  | percent | weekday | month | century | mday | hour | hour12 | yday | mon | min | blank | ampm
  | sec | week | wday | year2 | year | zone
  | composite (format : List UInt8)
  | other
  deriving DecidableEq

def directiveOf (c : UInt8) : Directive :=
  match Char.ofNat c.toNat with
  | '%' => .percent
  | 'a' | 'A' => .weekday
  | 'b' | 'B' | 'h' => .month
  | 'c' => .composite (text "%b %a %d %k:%M:%S %Z %Y")
  | 'C' => .century
  | 'd' | 'e' => .mday
  | 'D' => .composite (text "%m/%d/%y")
  | 'H' | 'k' => .hour
  | 'I' | 'l' => .hour12
  | 'j' => .yday
  | 'm' => .mon
  | 'M' => .min
  | 'n' | 't' => .blank
  | 'p' | 'P' => .ampm
  | 'r' => .composite (text "%I:%M:%S %p")
  | 'R' => .composite (text "%H:%M")
  | 'S' => .sec
  | 'T' => .composite (text "%H:%M:%S")
  | 'U' | 'W' => .week
  | 'w' => .wday
  | 'x' => .composite (text "%m/%d/%y")
  | 'X' => .composite (text "%H:%M:%S")
  | 'y' => .year2
  | 'Y' => .year
  | 'Z' => .zone
  | _ => .other

/-- Where a directive leads: behind the `switch`, or to `return 0`. -/
inductive Turn where
  | next (s : Option (List UInt8)) (tm : Tm)
  | null (tm : Tm)
  | fault

/-- `i=getint(&s,max); if (i==-1 || i>high) return 0;` -/
def number (max : Nat) (low high : Int) (s : List UInt8) (tm : Tm) (put : Int → Option Tm) : Turn :=
  let (i, s) := getint max s
  if i < low ∨ high < i then .null tm
  else
    match put i with
    | none => .fault
    | some tm => .next (some s) tm

/-- A directive that is not composite, at `s`. -/
def simple (d : Directive) (s : List UInt8) (tm : Tm) : Turn :=
  match d with
  | .percent => if s.head? = some 37 then .next (some s.tail) tm else .null tm
  | .weekday => .next (some (skipAlpha (skipAlpha (skipAlpha s)))) tm
  | .month =>
    match monthAt s with
    | none => .null tm
    | some (i, j) =>
      match advance j s with
      | none => .fault
      | some s => .next (some s) { tm with tmMon := i }
  | .century => number 2 0 99 s tm fun i => some { tm with tmYear := tm.tmYear.tmod 100 + i * 100 }
  | .mday => number 2 0 31 s tm fun i => some { tm with tmMday := i }
  | .hour => number 2 0 23 s tm fun i => some { tm with tmHour := i }
  | .hour12 =>
    number 2 0 12 s tm fun i =>
      (sval 32 (tm.tmHour.tdiv 12 * 12 + i)).map fun hour => { tm with tmHour := hour }
  | .yday => .next (some (getint 3 s).2) tm
  | .mon => number 2 1 12 s tm fun i => some { tm with tmMon := i - 1 }
  | .min => number 2 0 59 s tm fun i => some { tm with tmMin := i }
  | .blank => .next (some (s.dropWhile isblank)) tm
  | .ampm =>
    match advance 2 s with
    | none => .fault
    | some s' =>
      .next (some s')
        (if s.head? = some 112 ∨ s.head? = some 80 then
          { tm with tmHour := tm.tmHour.tmod 12 + 12 } else tm)
  | .sec => number 2 0 60 s tm fun i => some { tm with tmSec := i }
  | .week => number 2 0 99 s tm fun _ => some tm
  | .wday =>
    match s with
    | [] => .null tm
    | c :: s => if c < 48 ∨ 54 < c then .null tm else .next (some s) tm
  | .year2 => number 2 0 99 s tm fun i => some { tm with tmYear := if i < 69 then i + 100 else i }
  | .year => number 4 0 9999 s tm fun i => some { tm with tmYear := i - 1900 }
  | .zone =>
    match skipZone s with
    | none => .fault
    | some s => .next (some s) tm
  | .composite _ | .other => .next (some s) tm

/-- What a call returns, and the structure as it is left. -/
abbrev Answer := Option (List UInt8) × Tm

abbrev Callee := List UInt8 → Option (List UInt8) → Tm → Option Answer

/-- A directive. `call` is the call of `strptime` for a composite one. -/
def directive (call : Callee) (d : Directive) (s : Option (List UInt8)) (tm : Tm) : Turn :=
  match d with
  | .composite format =>
    match call format s tm with
    | none => .fault
    | some (s, tm) => .next s tm
  | .other => .next s tm
  | d =>
    match s with
    | none => .fault
    | some s => simple d s tm

/-! ## The loop over the format -/

/-- The code behind the loop: `day`, `tm_yday` and `tm_wday`. -/
def derive (tm : Tm) : Option Tm := do
  let day ← sval 32 ((← sval 32 ((← sval 32 (tm.tmYear - 70)) * 365)) +
    (← sval 32 (tm.tmYear - 69)).tdiv 4)
  let leap := if isleap (← sval 32 (tm.tmYear + 1900)) && decide (1 < tm.tmMon) then 1 else 0
  let yday ← sval 32 ((← spmAt tm.tmMon) + tm.tmMday - 1 + leap)
  some { tm with tmYday := yday, tmWday := (day + yday + 4).tmod 7 }

theorem tdiv_four (x : Int) : x.tdiv 4 = x / 4 ∨ x.tdiv 4 = -(-x / 4) := by
  by_cases h : 0 ≤ x
  · exact .inl (Int.tdiv_eq_ediv_of_nonneg h)
  · refine .inr ?_
    rw [← Int.tdiv_eq_ediv_of_nonneg (show 0 ≤ -x by omega), Int.neg_tdiv, neg_neg]

structure St where
  format : List UInt8
  s : Option (List UInt8)
  tm : Tm

abbrev StNext := Next St Answer Unit

def step (call : Callee) (st : St) : StNext :=
  match st.format with
  | [] =>
    match derive st.tm with
    | none => .fault ()
    | some tm => .stop (st.s, tm)
  | c :: format =>
    if c = 32 ∨ c = 9 then
      match st.s with
      | none => .fault ()
      | some s => .again ⟨format, some (s.dropWhile isblank), st.tm⟩
    else if c = 37 then
      match format with
      -- the NUL, and then `++format`
      | [] => .fault ()
      | d :: format =>
        match directive call (directiveOf d) st.s st.tm with
        | .next s tm => .again ⟨format, s, tm⟩
        | .null tm => .stop (none, tm)
        | .fault => .fault ()
    else
      match st.s with
      | none => .fault ()
      | some [] => .stop (none, st.tm)
      | some (d :: s) => if d = c then .again ⟨format, some s, st.tm⟩ else .stop (none, st.tm)

/-- The answer of a run, in at most as many turns as the format has bytes, and the last one. -/
def result (call : Callee) (format : List UInt8) (s : Option (List UInt8)) (tm : Tm) :
    Option Answer :=
  match run (step call) (format.length + 1) ⟨format, s, tm⟩ with
  | some (.ok r) => some r
  | _ => none

theorem step_shorter {call : Callee} {st st' : St} (h : step call st = .again st') :
    st'.format.length < st.format.length := by
  obtain ⟨format, s, tm⟩ := st
  unfold step at h
  dsimp only at h
  cases format with
  | nil =>
    dsimp only at h
    split at h <;> cases h
  | cons c format =>
    dsimp only at h
    by_cases hblank : c = 32 ∨ c = 9
    · rw [if_pos hblank] at h
      cases s with
      | none => cases h
      | some s =>
        cases h
        exact Nat.lt_succ_self _
    rw [if_neg hblank] at h
    by_cases hpercent : c = 37
    · rw [if_pos hpercent] at h
      cases format with
      | nil => cases h
      | cons d format =>
        dsimp only at h
        cases hd : directive call (directiveOf d) s tm with
        | next s' tm' =>
          rw [hd] at h
          cases h
          exact Nat.lt_add_of_pos_right (show 0 < 2 by decide)
        | null tm' =>
          rw [hd] at h
          cases h
        | fault =>
          rw [hd] at h
          cases h
    · rw [if_neg hpercent] at h
      rcases s with _ | _ | ⟨d, s⟩
      · cases h
      · cases h
      · dsimp only at h
        split at h <;> cases h
        exact Nat.lt_succ_self _

/-- The turns are enough. -/
theorem result_eq_some_iff {call : Callee} {format : List UInt8} {s : Option (List UInt8)} {tm : Tm}
    {r : Answer} : result call format s tm = some r ↔ Stops (step call) ⟨format, s, tm⟩ r := by
  rw [stops_iff_run (f := fun st => st.format.length) (fun _ _ => step_shorter) (Nat.lt_succ_self _)]
  unfold result
  dsimp only
  rcases run (step call) (format.length + 1) ⟨format, s, tm⟩ with _ | ⟨_ | _⟩ <;> simp

/-- `strptime` on the format of a composite directive. -/
def nested : Callee := result fun _ _ _ => none

/-- `strptime` -/
def strptime (s : List UInt8) (format : List UInt8) (tm : Tm) : Option Answer :=
  result nested format (some s) tm

end Dietlibc.Time
