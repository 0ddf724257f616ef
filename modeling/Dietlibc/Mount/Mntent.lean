import Dietlibc.Base.Cells
import Dietlibc.Base.Machine
import Dietlibc.Number.Chars
import Dietlibc.Number.Decimal
import Dietlibc.Printf.Vsnprintf
import Dietlibc.Stdio.Fgets
import Dietlibc.Strings.Strstr

/-!
# `addmntent` and `getmntent`

`addmntent` prints an entry into a buffer on the stack and hands it to `fputs`. `getmntent` reads a
line into a static buffer and cuts it up there: the pointers of the static `struct mntent` are indices
into that buffer. An access outside a buffer is a fault, `none`.
-/

namespace Dietlibc.Mount

open Cells Machine Stdio

/-- `struct mntent`, with the strings for the pointers. -/
structure Mntent where
  fsname : List UInt8
  dir : List UInt8
  type : List UInt8
  opts : List UInt8
  freq : Int
  passno : Int
  deriving DecidableEq

/-- `' '` -/
def space : UInt8 := 32

/-- `'\t'` -/
def tab : UInt8 := 9

/-! ## `addmntent` -/

/-- `"rw"` -/
def rw : List UInt8 := [114, 119]

/-- `"%s %s %s %s %d %d\n"` -/
def mntFormat : List Char :=
  ['%', 's', ' ', '%', 's', ' ', '%', 's', ' ', '%', 's', ' ', '%', 'd', ' ', '%', 'd', '\n']

/-- A string for `%s`. -/
def strArg (f : List UInt8) : Printf.Arg := .str (Number.chars f)

/-- `fputs`: the number returned. -/
def fputs {σ : Type} (d : Dev σ) (buf : List UInt8) (f : File) (s : σ) : Option (Int × File × σ) :=
  (Strings.strlen buf).map fun n =>
    let (r, f, s) := fwriteUnlocked d (buf.take n) n 1 f s
    (CInt.conv 32 r, f, s)

/-- `addmntent`; `m` is what the stack holds, with `buf` at 0. -/
def addmntent {σ : Type} (d : Dev σ) (m : Mem) (mnt : Mntent) (f : File) (s : σ) :
    Option (Int × File × σ) :=
  let opts := if mnt.opts.length = 0 then rw else mnt.opts
  (Printf.vsnprintf (some 0) 2048 mntFormat [strArg mnt.fsname, strArg mnt.dir, strArg mnt.type,
    strArg opts, Printf.slot mnt.freq, Printf.slot mnt.passno] m).bind fun (m, n) =>
      if 2048 ≤ n then some (1, f, s)
      else (fputs d (m.load 0 2048) f s).map fun (r, f, s) => (if r = -1 then 1 else 0, f, s)

/-- The calls in order, with what the stack holds at each. -/
def addAll {σ : Type} (d : Dev σ) : (Nat → Mem) → List Mntent → File → σ →
    Option (List Int × File × σ)
  | _, [], f, s => some ([], f, s)
  | stack, e :: es, f, s => (addmntent d (stack 0) e f s).bind fun (r, f, s) =>
    (addAll d (fun i => stack (i + 1)) es f s).map fun (rs, f, s) => (r :: rs, f, s)

/-! ## `getmntent` -/

/-- The static `m` and `buf`, and `tmp` and `errno`. -/
structure Vars where
  buf : List UInt8
  tmp : Nat
  fsname : Nat
  dir : Nat
  type : Nat
  opts : Nat
  freq : Int
  passno : Int
  errno : Nat

/-- What the caller sees in `*m`. -/
def Vars.entry (v : Vars) : Mntent :=
  ⟨cstring v.buf v.fsname, cstring v.buf v.dir, cstring v.buf v.type, cstring v.buf v.opts, v.freq,
    v.passno⟩

/-- `while (!(p(*tmp))) ++tmp;` -/
def scan (p : UInt8 → Bool) (b : List UInt8) (tmp : Nat) : Option Nat :=
  ((b.drop tmp).findIdx? p).map (tmp + ·)

/-- `!*tmp || *tmp==' ' || *tmp=='\n' || *tmp=='\t'` -/
def ends (c : UInt8) : Bool := c = 0 ∨ c = space ∨ c = newline ∨ c = tab

/-- `*tmp==' ' || *tmp=='\t'` -/
def blank (c : UInt8) : Bool := c = space ∨ c = tab

/-- `strtol(tmp,&tmp,0)`: the number as an `int`, and the variables behind it. -/
def Vars.strtol (v : Vars) : Option (Int × Vars) :=
  if 0 ∈ v.buf.drop v.tmp then
    let s := cstring v.buf v.tmp
    let o := Number.strtol s 0 v.errno
    some (CInt.conv 32 o.value,
      { v with tmp := v.tmp + (s.length - (o.endptr.getD s).length), errno := o.errno })
  else none

/-- What follows the `switch`. -/
def Vars.skip (num : Nat) (v : Vars) : Option Vars :=
  (scan ends v.buf v.tmp).bind fun tmp =>
  (get v.buf tmp).bind fun c =>
  if c ≠ 0 then
    (if num < 4 then (put v.buf tmp 0).map fun b => (b, tmp + 1)
      else some (v.buf, tmp)).bind fun (b, tmp) =>
    (scan (fun c => !blank c) b tmp).map fun tmp => { v with buf := b, tmp }
  else some { v with tmp }

/-- A turn of the `for`: whether it returns `&m`. -/
def Vars.turn (num : Nat) (v : Vars) : Option (Bool × Vars) :=
  match num with
  | 0 => (Vars.skip 0 { v with fsname := v.tmp }).map (false, ·)
  | 1 => (Vars.skip 1 { v with dir := v.tmp }).map (false, ·)
  | 2 => (Vars.skip 2 { v with type := v.tmp }).map (false, ·)
  | 3 => (Vars.skip 3 { v with opts := v.tmp }).map (false, ·)
  | 4 => v.strtol.bind fun (n, v) =>
    (get v.buf v.tmp).bind fun c =>
    if blank c then (Vars.skip 4 { v with freq := n }).map (false, ·)
    else some (false, { v with freq := n })
  | _ => v.strtol.bind fun (n, v) =>
    (get v.buf v.tmp).bind fun c =>
    if c = newline then some (true, { v with passno := n })
    else (Vars.skip 5 { v with passno := n }).map (false, ·)

/-- The `for`, with the values of `num` to come. -/
def Vars.turns : List Nat → Vars → Option (Bool × Vars)
  | [], v => some (false, v)
  | num :: nums, v => (v.turn num).bind fun (found, v) =>
    if found then some (true, v) else v.turns nums

/-- What `fgets` stores in `buf`. -/
def stored (buf l : List UInt8) : Option (List UInt8) :=
  if l.length < buf.length then some (l ++ 0 :: buf.drop (l.length + 1)) else none

/-- The static variables, the stream, and the kernel behind it. -/
structure St (σ : Type) where
  vars : Vars
  file : File
  kernel : σ

/-- A turn of the `do`: what the caller gets, with everything behind the call. -/
def getmntentStep {σ : Type} (d : Dev σ) (st : St σ) : Next (St σ) (Option Mntent × St σ) Unit :=
  match fgetsUnlocked d 1024 st.file st.kernel with
  | (none, f, s) => .stop (none, ⟨st.vars, f, s⟩)
  | (some l, f, s) =>
    match (stored st.vars.buf l).bind fun buf =>
        Vars.turns [0, 1, 2, 3, 4, 5] { st.vars with buf, tmp := 0 } with
    | none => .fault ()
    | some (true, v) => .stop (some v.entry, ⟨v, f, s⟩)
    | some (false, v) => .again ⟨v, f, s⟩

/-- Calls of `getmntent` in order, and what they return. -/
inductive Calls {σ : Type} (d : Dev σ) : St σ → List (Option Mntent) → St σ → Prop where
  | nil (st : St σ) : Calls d st [] st
  | cons {st st' st'' : St σ} {r : Option Mntent} {rs : List (Option Mntent)}
      (h : Stops (getmntentStep d) st (r, st')) (hs : Calls d st' rs st'') : Calls d st (r :: rs) st''

end Dietlibc.Mount
