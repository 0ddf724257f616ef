import Dietlibc.Base.Mem
import Dietlibc.Lib.Strtol

/-!
# Internet addresses and their text

`inet_ntoa_r`, `inet_aton`, `inet_ntop` and `inet_pton`. An address is the list of its bytes, a
text the list of its characters, and the buffer of `inet_pton` a memory with the buffer at `0`.
Text is written by appending; `len` is counted beside it, as the source does.
-/

namespace Dietlibc.Inet

open Lib

def afInet : Int := 2
def afInet6 : Int := 10

/-- `INET_ADDRSTRLEN` -/
def inetAddrstrlen : Nat := 16

/-- `INET6_ADDRSTRLEN` -/
def inet6Addrstrlen : Nat := 46

/-! ## `inet_ntoa_r.c`, `inet_ntop.c` -/

/-- `i2a`: the text of one byte. -/
def i2a (x : Nat) : List Char :=
  let tmp := if 100 ≤ x then x % 100 else x
  let units := if 10 ≤ x then tmp % 10 else tmp
  (if 100 ≤ x then [Char.ofNat (x / 100 + 48)] else []) ++
    (if 10 ≤ x then [Char.ofNat (tmp / 10 + 48)] else []) ++ [Char.ofNat (units + 48)]

/-- The byte at `j`. -/
def byteAt (ip : List UInt8) (j : Nat) : Nat := (ip.getD j 0).toNat

/-- `inet_ntoa_r` -/
def inetNtoaR (ip : List UInt8) : List Char :=
  i2a (byteAt ip 0) ++ '.' :: (i2a (byteAt ip 1) ++ '.' :: (i2a (byteAt ip 2) ++
    '.' :: i2a (byteAt ip 3)))

def v4mappedprefix : List UInt8 := [0, 0, 0, 0, 0, 0, 0, 0, 0, 0, 0xff, 0xff]

def tohex (hexdigit : Nat) : Char :=
  if 9 < hexdigit then Char.ofNat (hexdigit + 97 - 10) else Char.ofNat (hexdigit + 48)

/-- A digit of `fmt_xlong` that is not the last: a leading zero is overwritten by the next one. -/
def putDigit (s : List Char) (c : Char) : List Char := if s ≠ [] ∨ c ≠ '0' then s ++ [c] else s

/-- `fmt_xlong` -/
def fmtXlong (i : Nat) : List Char :=
  let s := putDigit [] (tohex (i >>> 12 &&& 0xf))
  let s := putDigit s (tohex (i >>> 8 &&& 0xf))
  let s := putDigit s (tohex (i >>> 4 &&& 0xf))
  s ++ [tohex (i &&& 0xf)]

/-- The variables of `fmt_ip6`: the text written so far, and the flags. -/
structure Fmt where
  s : List Char
  len : Nat
  compressing : Bool
  compressed : Bool
  deriving DecidableEq

/-- Text is written, and counted. -/
def Fmt.put (f : Fmt) (t : List Char) : Fmt := { f with s := f.s ++ t, len := f.len + t.length }

/-- The group at `j` of `fmt_ip6`. -/
def fmtGroup (ip : List UInt8) (j : Nat) (f : Fmt) : Fmt :=
  let temp := byteAt ip j * 256 + byteAt ip (j + 1)
  if temp = 0 ∧ ¬ f.compressed then
    if f.compressing then f
    else if j = 0 then { f.put [':'] with compressing := true }
    else { f with compressing := true }
  else
    let f := if f.compressing then { f.put [':'] with compressing := false, compressed := true }
      else f
    let f := f.put (fmtXlong temp)
    if j < 14 then f.put [':'] else f

/-- The loop of `fmt_ip6` over the offsets that are left. -/
def fmtLoop (ip : List UInt8) : List Nat → Fmt → Fmt
  | [], f => if f.compressing then f.put [':'] else f
  | j :: js, f =>
    if j = 12 ∧ ip.take 12 = v4mappedprefix then f.put (inetNtoaR (ip.drop 12))
    else fmtLoop ip js (fmtGroup ip j f)

/-- `fmt_ip6` -/
def fmtIp6 (ip : List UInt8) : Fmt := fmtLoop ip [0, 2, 4, 6, 8, 10, 12, 14] ⟨[], 0, false, false⟩

/-- `inet_ntop`: the string that is copied to `BUF`, which has `n` bytes. -/
def inetNtop (af : Int) (cp : List UInt8) (n : Nat) : Option (List Char) :=
  if af = afInet then
    let buf := inetNtoaR cp
    if buf.length < n then some buf else none
  else if af = afInet6 then
    let f := fmtIp6 cp
    if f.len < n then some f.s else none
  else none

/-! ## `inet_aton.c`, `inet_pton.c` -/

/-- The loop of `inet_aton`, where `ip` is shifted by `i` next. -/
def atonLoop (tmp : List Char) (i ip : Nat) : Option Nat :=
  let j := (strtoul tmp 0).1
  match h : (strtoul tmp 0).2.1 with
  | [] => some (ip ||| j % 2 ^ 32)
  | c :: rest =>
    -- `j` is a `long`: from `2 ^ 63` on it is negative
    if c = '.' then
      if 255 < j ∧ j < 2 ^ 63 then none
      else atonLoop rest (if 0 < i then i - 8 else i) (ip ||| (j <<< i) % 2 ^ 32)
    else none
termination_by tmp.length
decreasing_by
  have hle := strtoul_le tmp 0
  rw [h, List.length_cons] at hle
  omega

theorem atonLoop_eq (tmp : List Char) (i ip : Nat) :
    atonLoop tmp i ip = match (strtoul tmp 0).2.1 with
      | [] => some (ip ||| (strtoul tmp 0).1 % 2 ^ 32)
      | c :: rest =>
        if c = '.' then
          if 255 < (strtoul tmp 0).1 ∧ (strtoul tmp 0).1 < 2 ^ 63 then none
          else atonLoop rest (if 0 < i then i - 8 else i)
            (ip ||| ((strtoul tmp 0).1 <<< i) % 2 ^ 32)
        else none := by
  rw [atonLoop]
  split
  · rename_i h
    rw [h]
  · rename_i h
    rw [h]

/-- `htonl`, as the bytes in memory. -/
def htonl (ip : Nat) : List UInt8 :=
  [UInt8.ofNat (ip >>> 24), UInt8.ofNat (ip >>> 16), UInt8.ofNat (ip >>> 8), UInt8.ofNat ip]

/-- `inet_aton`: what is stored in `*inp`, if it returns 1. -/
def inetAton (cp : List Char) : Option (List UInt8) := (atonLoop cp 24 0).map htonl

/-- `ip[n++] = (u >> 8); ip[n++] = (u & 255);` -/
def groupBytes (u : Nat) : List UInt8 := [UInt8.ofNat (u >>> 8), UInt8.ofNat (u &&& 255)]

/-- `i = tmp - s`, an `unsigned int`. -/
def taken (s tmp : List Char) : Nat := (s.length - tmp.length) % 2 ^ 32

/-- Where a turn of the second loop of `scan_ip6` leads. -/
inductive SuffixTurn where
  | again (s : List Char) (len prefixlen : Nat) (suffix : List UInt8)
  | stop (len : Nat) (suffix : List UInt8)
  deriving DecidableEq

/-- The end-of-loop test. -/
def suffixGroup (rest : List Char) (len prefixlen : Nat) (suffix : List UInt8) : SuffixTurn :=
  if prefixlen + suffix.length = 16 then .stop len suffix else .again rest len prefixlen suffix

/-- The number of a turn after `::`, or the dotted quad. -/
def suffixNumber (s : List Char) (len prefixlen : Nat) (suffix : List UInt8) : SuffixTurn :=
  let (u, tmp) := strtol s 16
  let i := taken s tmp
  if i = 0 then .stop (if s = [] then len else CInt.usub 32 len 1) suffix
  else
    let quad := suffix.length + prefixlen ≤ 12 ∧ s[i]? = some '.'
    match if quad then inetAton s else none with
    | some q => .stop ((len + s.length) % 2 ^ 32) (suffix ++ q)
    | none => suffixGroup (s.drop i) ((len + i) % 2 ^ 32)
        (if quad then 12 - suffix.length else prefixlen) (suffix ++ groupBytes (u % 2 ^ 64).toNat)

/-- A turn after `::`. -/
def suffixTurn (s : List Char) (len prefixlen : Nat) (suffix : List UInt8) : SuffixTurn :=
  match s with
  | ':' :: s' =>
    if suffix = [] then .stop len suffix
    else suffixNumber s' ((len + 1) % 2 ^ 32) prefixlen suffix
  | s => if suffix ≠ [] then .stop len suffix else suffixNumber s len prefixlen suffix

theorem taken_le (s tmp : List Char) : taken s tmp ≤ s.length :=
  le_trans (Nat.mod_le _ _) (Nat.sub_le _ _)

theorem drop_taken_lt {s tmp : List Char} (h : taken s tmp ≠ 0) :
    (s.drop (taken s tmp)).length < s.length := by
  have hle := taken_le s tmp
  rw [List.length_drop]
  omega

theorem suffixGroup_again {rest s' : List Char} {len prefixlen len' prefixlen' : Nat}
    {suffix suffix' : List UInt8}
    (h : suffixGroup rest len prefixlen suffix = .again s' len' prefixlen' suffix') :
    s' = rest := by
  unfold suffixGroup at h
  split at h
  · cases h
  · exact (SuffixTurn.again.inj h).1.symm

theorem suffixNumber_lt {s s' : List Char} {len prefixlen len' prefixlen' : Nat}
    {suffix suffix' : List UInt8}
    (h : suffixNumber s len prefixlen suffix = .again s' len' prefixlen' suffix') :
    s'.length < s.length := by
  unfold suffixNumber at h
  dsimp only at h
  split at h
  · cases h
  · rename_i hi
    split at h
    · cases h
    · rw [suffixGroup_again h]
      exact drop_taken_lt hi

theorem suffixTurn_lt {s s' : List Char} {len prefixlen len' prefixlen' : Nat}
    {suffix suffix' : List UInt8}
    (h : suffixTurn s len prefixlen suffix = .again s' len' prefixlen' suffix') :
    s'.length < s.length := by
  unfold suffixTurn at h
  split at h
  · split at h
    · cases h
    · exact lt_trans (suffixNumber_lt h) (Nat.lt_succ_self _)
  · split at h
    · cases h
    · exact suffixNumber_lt h

/-- Part 2 of `scan_ip6`, after `::`: `len` and `suffix`. -/
def scanSuffix (s : List Char) (len prefixlen : Nat) (suffix : List UInt8) : Nat × List UInt8 :=
  match h : suffixTurn s len prefixlen suffix with
  | .stop len suffix => (len, suffix)
  | .again s' len prefixlen suffix => scanSuffix s' len prefixlen suffix
termination_by s.length
decreasing_by exact suffixTurn_lt h

/-- Where a turn of the first loop of `scan_ip6` leads: `gap` is the `::`. -/
inductive PrefixTurn where
  | again (s : List Char) (len prefixlen : Nat) (ip : Mem)
  | gap (s : List Char) (len : Nat)
  | done (len : Nat) (ip : Mem)

/-- The number of a turn before `::`, or the dotted quad. -/
def prefixNumber (s : List Char) (len prefixlen : Nat) (ip : Mem) : PrefixTurn :=
  let (u, tmp, _) := strtoul s 16
  let i := taken s tmp
  if i = 0 then .done 0 ip
  else if prefixlen = 12 ∧ s[i]? = some '.' then
    match inetAton s with
    | some q => .done ((i + len) % 2 ^ 32) (ip.store 12 q)
    | none => .done 0 ip
  else
    let ip := ip.store prefixlen (groupBytes u)
    let len := (len + i) % 2 ^ 32
    if prefixlen + 2 = 16 then .done len ip else .again (s.drop i) len (prefixlen + 2) ip

/-- A turn before `::`. -/
def prefixTurn (s : List Char) (len prefixlen : Nat) (ip : Mem) : PrefixTurn :=
  match s with
  | ':' :: ':' :: s' => .gap s' ((len + 2) % 2 ^ 32)
  | ':' :: s' => prefixNumber s' ((len + 1) % 2 ^ 32) prefixlen ip
  | s => prefixNumber s len prefixlen ip

theorem prefixNumber_lt {s s' : List Char} {len prefixlen len' prefixlen' : Nat} {ip ip' : Mem}
    (h : prefixNumber s len prefixlen ip = .again s' len' prefixlen' ip') :
    s'.length < s.length := by
  unfold prefixNumber at h
  dsimp only at h
  split at h
  · cases h
  · rename_i hi
    split at h
    · split at h <;> cases h
    · split at h
      · cases h
      · obtain ⟨rfl, -⟩ := PrefixTurn.again.inj h
        exact drop_taken_lt hi

theorem prefixTurn_lt {s s' : List Char} {len prefixlen len' prefixlen' : Nat} {ip ip' : Mem}
    (h : prefixTurn s len prefixlen ip = .again s' len' prefixlen' ip') :
    s'.length < s.length := by
  unfold prefixTurn at h
  split at h
  · cases h
  · exact lt_trans (prefixNumber_lt h) (Nat.lt_succ_self _)
  · exact prefixNumber_lt h

/-- `scan_ip6` from a turn of its first loop on: the length scanned, and the memory. -/
def scanPrefix (s : List Char) (len prefixlen : Nat) (ip : Mem) : Nat × Mem :=
  match h : prefixTurn s len prefixlen ip with
  | .done len ip => (len, ip)
  | .gap s' len =>
    let (len, suffix) := scanSuffix s' len prefixlen []
    (len, ip.store (CInt.usub 32 16 suffix.length) suffix)
  | .again s' len prefixlen ip => scanPrefix s' len prefixlen ip
termination_by s.length
decreasing_by exact prefixTurn_lt h

/-- `scan_ip6` -/
def scanIp6 (s : List Char) (ip : Mem) : Nat × Mem :=
  scanPrefix s 0 0 (ip.store 0 (List.replicate 16 0))

/-- `inet_pton`: the value returned, and the memory. -/
def inetPton (af : Int) (cp : List Char) (buf : Mem) : Int × Mem :=
  if af = afInet then
    match inetAton cp with
    | none => (0, buf)
    | some ip => (1, buf.store 0 ip)
  else if af = afInet6 then
    let (len, buf) := scanIp6 cp buf
    match cp[len]? with
    | none => (1, buf)
    | some c => if c = '%' then (1, buf) else (0, buf)
  else (-1, buf)

end Dietlibc.Inet
