import Dietlibc.Base.Machine
import Dietlibc.Dns.Name
import Dietlibc.Inet.Address

/-!
# The file `resolv.conf`

The parse loop of `__dns_readstartfiles`. The text from `buf` to `last` is the list of its
bytes: reading behind it is a fault, and so is a store behind `nsaddr_list` or
`__dns_domains`. The three loops of the source are the three states of one machine.
-/

namespace Dietlibc.Dns

open Machine Inet

/-! ## Characters -/

def isblank (ch : UInt8) : Bool := ch == 32 || ch == 9

def isspace (ch : UInt8) : Bool := (9 ≤ ch && ch < 14) || ch == 32

def isalnum (ch : UInt8) : Bool :=
  (97 ≤ ch ||| 0x20 && ch ||| 0x20 < 123) || (48 ≤ ch && ch < 58)

/-- `*buf==',' || isblank(*buf)` -/
def isSeparator (ch : UInt8) : Bool := ch == 44 || isblank ch

/-- `*buf=='.' || *buf=='-' || isalnum(*buf)` -/
def isDomain (ch : UInt8) : Bool := ch == 46 || ch == 45 || isalnum ch

/-! ## `dnscruft.c` -/

/-- `MAXNS` -/
def maxns : Nat := 8

/-- `sizeof(__dns_domains)/sizeof(__dns_domains[0])` -/
def maxDomains : Nat := 8

/-- The characters up to the NUL of a string. -/
def cString (s : List UInt8) : List Char := (s.takeWhile (· != 0)).map fun b => Char.ofNat b.toNat

/-- `parsesockaddr`: whether it stores an address. -/
def parsesockaddr (c : List UInt8) : Bool :=
  (inetAton (cString c)).isSome || (inetPton afInet6 (cString c) fun _ => 0).1 != 0

/-- What `strncmp` tells of the text and a keyword: `behind` is a read behind the text. -/
inductive Compared where
  | equal
  | differ
  | behind
  deriving DecidableEq

def strncmp : List UInt8 → List UInt8 → Compared
  | _, [] => .equal
  | [], _ :: _ => .behind
  | a :: s1, b :: s2 => if a = b then strncmp s1 s2 else .differ

/-- `"nameserver"` -/
def kwNameserver : List UInt8 := [110, 97, 109, 101, 115, 101, 114, 118, 101, 114]

/-- `"search"` -/
def kwSearch : List UInt8 := [115, 101, 97, 114, 99, 104]

/-- `"domain"` -/
def kwDomain : List UInt8 := [100, 111, 109, 97, 105, 110]

inductive Keyword where
  | nameserver
  | search
  | other
  | behind
  deriving DecidableEq

/-- `!strncmp(buf,"search",6) || !strncmp(buf,"domain",6)` -/
def searchOrDomain (buf : List UInt8) : Keyword :=
  match strncmp buf kwSearch with
  | .equal => .search
  | .behind => .behind
  | .differ =>
    match strncmp buf kwDomain with
    | .equal => .search
    | .behind => .behind
    | .differ => .other

/-- The keyword a line starts with. -/
def keyword (buf : List UInt8) : Keyword :=
  match strncmp buf kwNameserver with
  | .equal => .nameserver
  | .behind => .behind
  | .differ => searchOrDomain buf

/-- `while (buf<last && *buf!='\n') ++buf;` -/
def toNewline (buf : List UInt8) : List UInt8 := buf.dropWhile (· != 10)

/-- The two loops that lead to the next line. -/
def skipLine (buf : List UInt8) : List UInt8 := (toNewline buf).dropWhile (· == 10)

/-- `!(buf<last && *buf!='\n')` -/
def atEol : List UInt8 → Bool
  | [] => true
  | c :: _ => c == 10

/-- Which of the loops is at its head. -/
inductive Loop where
  | lines
  | server
  | domains
  deriving DecidableEq

/-- The variables of `__dns_readstartfiles`; `buf` is the text that is left. -/
structure Scan where
  loop : Loop
  buf : List UInt8
  nscount : Nat
  search : Nat
  deriving DecidableEq

abbrev ScanNext := Next Scan (Nat × Nat) Fault

/-- A turn of the loop over the lines. -/
def lineTurn (s : Scan) : ScanNext :=
  if s.buf = [] then .stop (s.nscount, s.search)
  else
    match keyword s.buf with
    | .behind => .fault .read
    | .nameserver => .again { s with loop := .server, buf := s.buf.drop 10 }
    | .search =>
      if s.search < maxDomains then .again { s with loop := .domains, buf := s.buf.drop 6 }
      else .again { s with buf := skipLine s.buf }
    | .other => .again { s with buf := skipLine s.buf }

/-- A turn of the loop over the addresses of a line. -/
def serverTurn (s : Scan) : ScanNext :=
  if atEol s.buf then .again { s with loop := .lines, buf := skipLine s.buf }
  else
    let tmp := s.buf.dropWhile isblank
    let buf := tmp.dropWhile fun c => !isspace c
    -- the `break`, behind which nothing is left to skip
    if buf = [] then .again { s with loop := .lines, buf := [] }
    else if parsesockaddr (tmp.takeWhile fun c => !isspace c) then
      -- `parsesockaddr` has stored the address already
      if s.nscount < maxns then .again { s with buf, nscount := s.nscount + 1 }
      else .fault .write
    else .again { s with buf }

/-- A turn of the loop over the domains of a line. -/
def domainTurn (strdup : Nat → Bool) (s : Scan) : ScanNext :=
  if atEol s.buf then .again { s with loop := .lines }
  else
    let tmp := s.buf.dropWhile isSeparator
    let buf := tmp.dropWhile isDomain
    if maxDomains ≤ s.search then .fault .write
    -- `save=*buf` comes before the test of `buf`
    else if buf = [] then .fault .read
    else if tmp.takeWhile isDomain ≠ [] ∧ strdup buf.length then
      .again { s with buf, search := s.search + 1 }
    else .again { s with buf }

/-- A turn; `strdup` tells for each place in the text whether memory is left there. -/
def scanTurn (strdup : Nat → Bool) (s : Scan) : ScanNext :=
  match s.loop with
  | .lines => lineTurn s
  | .server => serverTurn s
  | .domains => domainTurn strdup s

/-- `__dns_readstartfiles` in front of the parse loop, where `_res.nscount` is 0. -/
def readstartfiles (cacheip : Option (List UInt8)) (file : List UInt8) : Scan where
  loop := .lines
  buf := file.take 4096
  nscount := if cacheip.any parsesockaddr then 1 else 0
  search := 0

end Dietlibc.Dns
