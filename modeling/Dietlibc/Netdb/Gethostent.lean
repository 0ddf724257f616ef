import Dietlibc.Dns.ResolvConf
import Dietlibc.Netdb.Getservent

/-!
# `gethostent_r`

The reader of the hosts file as a machine. The static variables hold addresses, and the mapping is kept
beside them, so that a pointer into a mapping that is gone, or next to one, is a fault; so is a write
behind the `len` bytes of `buf`. Pointers into `buf` are offsets. The address of the host is written
where `h_addr_list[0]` points to, at 128.
-/

namespace Dietlibc.Netdb.Hosts

open Machine Accounts
open Dns (cString isspace)

/-! ## The static variables -/

/-- `(char*)-1` -/
def failed : Nat := 2 ^ 64 - 1

/-- `hostmap`, `hostlen` and `cur`, and the mapping: where it is, and its bytes. -/
structure Statics where
  hostmap : Nat
  hostlen : Nat
  cur : Nat
  map : Option (Nat × List UInt8)

namespace Statics

/-- `last` -/
def last (h : Statics) : Nat := (h.hostmap + h.hostlen) % 2 ^ 64

/-- The mapped bytes from an address on. -/
def from? (h : Statics) (a : Nat) : Option (List UInt8) :=
  match h.map with
  | none => none
  | some (base, bytes) =>
    if base ≤ a ∧ a < base + bytes.length then some (bytes.drop (a - base)) else none

/-- `*a` -/
def at? (h : Statics) (a : Nat) : Option UInt8 := (h.from? a).bind List.head?

/-- `while (cur<last && p(*cur)) cur++;` with `cur` at `a`. -/
def skip (h : Statics) (p : UInt8 → Bool) (a : Nat) : Option Nat :=
  if h.last ≤ a then some a else (h.from? a).map fun l => a + (l.takeWhile p).length

/-- `*a=c` -/
def patch (h : Statics) (a : Nat) (c : UInt8) : Statics :=
  { h with map := h.map.map fun m => (m.1, m.2.set (a - m.1) c) }

/-- `munmap(hostmap,hostlen)`, unless there is nothing to be unmapped. -/
def munmap (h : Statics) : Statics :=
  if h.hostmap ≠ failed ∧ h.map.map Prod.fst = some h.hostmap then { h with map := none } else h

/-- The code at `__error:`. -/
def error (h : Statics) : Statics := { h.munmap with hostmap := failed }

/-- `sethostent` -/
def sethostent (h : Statics) : Statics := { h with cur := h.hostmap }

/-- `endhostent` -/
def endhostent (h : Statics) : Statics := { h.munmap with hostmap := 0 }

end Statics

/-- What `open` and `mmap` answer. -/
structure Kernel where
  opened : Bool
  place : Option Nat

/-- The start of a call, and whether it goes on. -/
def enter (file : List UInt8) (k : Kernel) (h : Statics) : Statics × Bool :=
  if h.hostmap ≠ 0 then (h, true)
  else if !k.opened then (h, false)
  else
    let hostlen := file.length % 2 ^ 32
    match k.place with
    | none => ({ h with hostlen }.error, false)
    | some base => (⟨base, hostlen, base, some (base, file.take hostlen)⟩, true)

/-! ## The machine -/

inductive Label where
  | again
  | address
  | names
  | parseerror
  | nospace
  deriving DecidableEq

/-- The static and the local variables, `buf` and `*pe`; `name` is `pe->h_name` up to the names. -/
structure St where
  label : Label
  hosts : Statics
  name : Nat
  dest : Nat
  aliasidx : Nat
  buf : Mem
  aliases : Nat → Option Nat
  addrtype : Int
  length : Nat

/-- The value returned is `pe` if `ok`. Then `h_name` is `aliases 0`, and `h_aliases` starts behind. -/
structure Answer where
  ok : Bool
  st : St

abbrev StNext := Next St Answer Unit

/-- So many bytes at `off` are in `buf`. -/
def Inside (len : Int) (off n : Nat) : Prop := ((off + n : Nat) : Int) ≤ len

instance (len : Int) (off n : Nat) : Decidable (Inside len off n) :=
  inferInstanceAs (Decidable (_ ≤ _))

/-- `sizeof(struct hostent)+11*sizeof(char*)` -/
def sizeMin : Int := 120

/-- Behind the `struct hostent`, `h_aliases` and `h_addr_list`. -/
def destStart : Nat := 128

section

variable (len : Int)

/-- The code at `again:`. A negative `len` is a large `size_t`. -/
def again (s : St) : StNext :=
  if 0 ≤ len ∧ len < sizeMin then .again { s with label := .nospace }
  else if ¬Inside len 0 40 then .fault ()
  else
    let s := { s with aliases := Function.update s.aliases 0 none, dest := destStart }
    if s.hosts.last ≤ s.hosts.cur then .stop ⟨false, s⟩
    else
      match s.hosts.at? s.hosts.cur, s.hosts.skip (fun b => !isspace b) s.hosts.cur with
      | some c, some cur =>
        if c = hash ∨ c = newline then .again { s with label := .parseerror }
        else
          let s := { s with name := s.hosts.cur, hosts := { s.hosts with cur } }
          if s.hosts.last ≤ cur then .stop ⟨false, s⟩
          else
            match s.hosts.at? cur with
            | none => .fault ()
            | some c => .again { s with label := if c = newline then .parseerror else .address }
      | _, _ => .fault ()

/-- The string at an address of the mapping. -/
def nameAt (h : Statics) (a : Nat) : List Char := cString ((h.from? a).getD [])

/-- `inet_pton` to `dest`: the address family and the length if it returns 1, and `buf`. -/
def parseAddress (cp : List Char) (dest : Nat) (buf : Mem) : Option (Int × Nat) × Mem :=
  let r := Inet.inetPton Inet.afInet6 cp fun i => buf (dest + i)
  let buf := buf.store dest (r.2.load 0 16)
  if 0 < r.1 then (some (Inet.afInet6, 16), buf)
  else
    let r := Inet.inetPton Inet.afInet cp fun i => buf (dest + i)
    if 0 < r.1 then (some (Inet.afInet, 4), buf.store dest (r.2.load 0 4)) else (none, buf)

/-- The block that reads the address. -/
def address (s : St) : StNext :=
  match s.hosts.at? s.hosts.cur with
  | none => .fault ()
  | some save =>
    let hosts := s.hosts.patch s.hosts.cur 0
    if ¬Inside len 112 16 then .fault ()
    else if len - s.dest < 16 then .again { s with label := .nospace, hosts }
    else
      let (found, buf) := parseAddress (nameAt hosts s.name) s.dest s.buf
      let hosts := hosts.patch hosts.cur save
      match found with
      | none => .again { s with label := .parseerror, hosts, buf }
      | some (addrtype, length) =>
        .again { s with
          label := .names, hosts := { hosts with cur := hosts.cur + 1 }, dest := s.dest + length
          aliasidx := 0, buf, addrtype, length }

/-- The pointers there is room for in `h_aliases`. -/
def aliasesMax : Nat := 10

/-- Behind the loop over the names. -/
def finish (s : St) : StNext :=
  if aliasesMax ≤ s.aliasidx then .fault ()
  else .stop ⟨true, { s with aliases := Function.update s.aliases s.aliasidx none }⟩

/-- Behind the copy of a name. -/
def behindName (s : St) : StNext :=
  match s.hosts.at? s.hosts.cur with
  | none => .fault ()
  | some c =>
    let next := { s with hosts := { s.hosts with cur := s.hosts.cur + 1 }, aliasidx := s.aliasidx + 1 }
    if c = newline then finish next
    else if s.hosts.last ≤ s.hosts.cur ∨ isblank c = false then finish s
    else if next.aliasidx < aliasesMax - 1 then .again next
    else finish next

/-- `l+2`, where `int l` counts so many bytes. -/
@[irreducible]
def need (n : Nat) : Option Int := CInt.sval 32 (CInt.conv 32 (n : Int) + 2)

/-- The copy of the name that starts there and ends at `cur`. -/
def copyName (s : St) (start : Nat) : StNext :=
  let l := s.hosts.cur - start
  (need l).elim (.fault ()) fun n =>
    if len - s.dest < n then .again { s with label := .nospace }
    else if ¬Inside len s.dest (l + 1) ∨ aliasesMax ≤ s.aliasidx then .fault ()
    else
      behindName { s with
        buf := s.buf.store s.dest (((s.hosts.from? start).getD []).take l ++ [0])
        aliases := Function.update s.aliases s.aliasidx (some s.dest)
        dest := s.dest + l + 1 }

/-- One turn of the loop over the names. -/
def names (s : St) : StNext :=
  match s.hosts.skip isblank s.hosts.cur with
  | none => .fault ()
  | some start =>
    match s.hosts.skip (fun b => !isspace b) start with
    | none => .fault ()
    | some cur => copyName len { s with hosts := { s.hosts with cur } } start

def step (s : St) : StNext :=
  match s.label with
  | .again => again len s
  | .address => address len s
  | .names => names len s
  | .parseerror =>
    match s.hosts.skip (fun b => b != newline) s.hosts.cur with
    | none => .fault ()
    | some cur => .again { s with label := .again, hosts := { s.hosts with cur := cur + 1 } }
  | .nospace => .stop ⟨false, { s with hosts := s.hosts.error }⟩

end

/-! ## Calls -/

/-- The calls of a program, with the caller's `buf` and what the kernel answers. -/
inductive Call where
  | gethostent (len : Int) (s : St) (k : Kernel)
  | sethostent
  | endhostent

/-- A call comes to its end, and leaves the static variables so. -/
def Ends (file : List UInt8) : Call → Statics → Statics → Prop
  | .gethostent len s k, h, h' =>
    if (enter file k h).2 then
      ∃ r, Stops (step len) { s with label := .again, hosts := (enter file k h).1 } r ∧ h' = r.st.hosts
    else h' = (enter file k h).1
  | .sethostent, h, h' => h' = h.sethostent
  | .endhostent, h, h' => h' = h.endhostent

/-- There is no mapping, and `hostmap` says so, or `hostmap` is where the file is, unchanged. -/
def Whole (file : List UInt8) (h : Statics) : Prop :=
  (h.map = none ∧ (h.hostmap = 0 ∨ h.hostmap = failed)) ∨
    h.map = some (h.hostmap, file.take (file.length % 2 ^ 32))

/-- Every call comes to its end without a fault, and leaves the mapping whole. -/
def Survives (file : List UInt8) : List Call → Statics → Prop
  | [], _ => True
  | c :: cs, h => ∃ h', Ends file c h h' ∧ Whole file h' ∧ Survives file cs h'

end Dietlibc.Netdb.Hosts
