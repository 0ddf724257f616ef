import Dietlibc.Base.Machine
import Dietlibc.Base.Mem
import Dietlibc.Dns.Name

/-!
# Answers of name servers

`__dns_gethostbyx_r_inner` behind `res_query`: the reply is the list of its bytes, `inpkg`, and
places in the caller's buffer are offsets from `buf`. Reading behind the reply (or in front of
it), and writing behind the buffer or behind a table in it, are faults. The loops over the
questions, over the labels of a question and over the answers are the stages of one machine.
-/

namespace Dietlibc.Dns

open Machine

/-! ## Reading the reply -/

/-- The records that are asked for. -/
inductive Lookfor where
  | a
  | ptr
  | aaaa
  deriving DecidableEq

/-- The value of `lookfor`. -/
def Lookfor.value : Lookfor → UInt8
  | .a => 1
  | .ptr => 12
  | .aaaa => 28

/-- How many bytes of an address are copied. -/
def Lookfor.addressLength : Lookfor → Nat
  | .a => 4
  | .ptr => 0
  | .aaaa => 16

/-- `*tmp` as a `char`. -/
def schar (b : UInt8) : Int := CInt.conv 8 b.toNat

def readByte (p : Packet) (i : Nat) : Except Fault UInt8 :=
  match p[i]? with
  | none => .error .read
  | some b => .ok b

/-- `*tmp`, where `tmp` may have moved in front of the reply. -/
def readChar (p : Packet) (i : Int) : Except Fault UInt8 :=
  if i < 0 then .error .read else readByte p i.toNat

/-- `((unsigned short)hi<<8)+lo` as an `unsigned short`. -/
def count (hi lo : UInt8) : Nat := ((schar hi % 65536 * 256 + schar lo) % 65536).toNat

/-- `__dns_decodename` into `Name`, which has room for a byte more than `maxlen`: the offset
behind the name and the name, or `none` for -1. -/
def decodeLong (p : Packet) (maxlen : Nat) (c : Cursor) :
    Except Fault (Option (Nat × List UInt8)) :=
  match h : turn p maxlen c with
  | .again c' => decodeLong p maxlen c'
  | .stop => .ok (some (c.after, if c.ok then c.out.dropLast else c.out))
  | .minusOne => .ok none
  | .fault => .error .read
termination_by (c.offset, maxlen - c.out.length)
decreasing_by
  rcases turn_decreases h with h | ⟨h1, h2, h3⟩
  · exact .left _ _ h
  · rw [h1]
    exact .right _ (by omega)

/-- `__dns_decodename(inpkg,offset,Name,256,inpkg+size)` -/
def decodeName (p : Packet) (offset : Nat) : Except Fault (Option (Nat × List UInt8)) :=
  decodeLong p 256 ⟨offset, offset, [], offset, false⟩

/-- `!(tmp[0]!=0 || tmp[1]!=lookfor || tmp[2]!=0 || tmp[3]!=1)` -/
def isEntry (p : Packet) (lookfor : Lookfor) (tmp : Nat) : Except Fault Bool := do
  if (← readByte p tmp) ≠ 0 then return false
  if (← readByte p (tmp + 1)) ≠ lookfor.value then return false
  if (← readByte p (tmp + 2)) ≠ 0 then return false
  return (← readByte p (tmp + 3)) == 1

/-- What a turn of the loop over the answers finds: `last` is a `break`, and `entry` a name to be
entered with the place where its address starts. -/
inductive Answer where
  | last
  | cname (tmp : Nat)
  | entry (name : List UInt8) (tmp : Nat)
  deriving DecidableEq

/-- A record that is no entry: a `CNAME` is skipped, and any other ends the loop. -/
def readOther (p : Packet) (tmp : Nat) : Except Fault Answer := do
  if (← readByte p (tmp + 1)) = 5 then
    match ← decodeName p (tmp + 10) with
    | none => return .last
    | some (decofs, _) => return .cname decofs
  else return .last

/-- The record behind the name `name`: type, class, TTL and length are skipped. -/
def readEntry (p : Packet) (lookfor : Lookfor) (name : List UInt8) (tmp : Nat) :
    Except Fault Answer :=
  if lookfor = .ptr then do
    match ← decodeName p (tmp + 10) with
    | none => return .last
    | some (decofs, name) => return .entry name decofs
  else return .entry name (tmp + 10)

/-- The answer at `tmp`. -/
def readAnswer (p : Packet) (lookfor : Lookfor) (tmp : Nat) : Except Fault Answer := do
  match ← decodeName p tmp with
  | none => return .last
  | some (decofs, name) =>
    if ← isEntry p lookfor decofs then readEntry p lookfor name decofs else readOther p decofs

/-! ## Filling the buffer -/

/-- `sizeof(char*)` -/
def ptrSize : Nat := 8

/-- The variables of the answers, and what `result` and `buf` hold: `addrs` and `aliases` are the
two tables at the start of `buf`. -/
structure Host where
  cur : Nat
  names : Nat
  ips : Nat
  hName : Option Nat
  aliases : List (Option Nat)
  addrs : List (Option Nat)
  mem : Mem

/-- `table[i]=v` for a table of nine pointers that starts at `base`. -/
def setSlot (buflen base : Nat) (table : List (Option Nat)) (i : Nat) (v : Option Nat) :
    Except Fault (List (Option Nat)) :=
  if i < 9 ∧ base + (i + 1) * ptrSize ≤ buflen then .ok (table.set i v) else .error .write

/-- `result->h_aliases[i]=v` -/
def Host.setAlias (buflen : Nat) (h : Host) (i : Nat) (v : Option Nat) : Except Fault Host := do
  let aliases ← setSlot buflen (9 * ptrSize) h.aliases i v
  return { h with aliases }

/-- `result->h_addr_list[i]=v` -/
def Host.setAddr (buflen : Nat) (h : Host) (i : Nat) (v : Option Nat) : Except Fault Host := do
  let addrs ← setSlot buflen 0 h.addrs i v
  return { h with addrs }

/-- The bytes `d` written at `cur`. -/
def Host.write (buflen : Nat) (h : Host) (d : List UInt8) : Except Fault Host :=
  if h.cur + d.length ≤ buflen then .ok { h with mem := h.mem.store h.cur d } else .error .write

/-- `!strcmp(a,b)` for strings in the buffer. -/
def sameString (buflen : Nat) (m : Mem) (a b : Nat) : Except Fault Bool :=
  if a < buflen ∧ b < buflen then
    if m a ≠ m b then .ok false
    else if m a = 0 then .ok true
    else sameString buflen m (a + 1) (b + 1)
  else .error .read
termination_by buflen - a
decreasing_by omega

/-- The string that `Name` holds. -/
def nameString (name : List UInt8) : List UInt8 := name.takeWhile (· != 0)

/-- `result->h_name=cur` or `result->h_aliases[names-1]=cur`. -/
def Host.point (buflen : Nat) (h : Host) : Except Fault Host :=
  if h.names = 0 then .ok { h with hName := some h.cur }
  else h.setAlias buflen (h.names - 1) (some h.cur)

/-- `!names || strcmp(cur,result->h_name)` -/
def Host.isNew (buflen : Nat) (h : Host) : Except Fault Bool :=
  if h.names = 0 then .ok true
  else
    match h.hName with
    | none => .error .read
    | some a => (sameString buflen h.mem h.cur a).map not

/-- `if (!names || strcmp(cur,result->h_name)) { cur+=(slen|3)+1; ++names; }` -/
def Host.advance (buflen slen : Nat) (h : Host) : Except Fault Host := do
  if ← h.isNew buflen then return { h with cur := h.cur + (slen ||| 3) + 1, names := h.names + 1 }
  else return h

/-- From `strcpy(cur,Name)` to `result->h_addr_list[ips++]=cur`. -/
def Host.enter (buflen : Nat) (name : List UInt8) (h : Host) : Except Fault Host := do
  let h ← h.write buflen (nameString name ++ [0])
  let h ← h.point buflen
  let h ← h.advance buflen (nameString name).length
  let h ← h.setAlias buflen (h.names - 1) none
  let h ← h.setAddr buflen h.ips (some h.cur)
  return { h with ips := h.ips + 1 }

/-- `memcpy(cur,tmp,n); cur+=n; result->h_addr_list[ips]=0;` -/
def Host.putAddress (p : Packet) (buflen n tmp : Nat) (h : Host) : Except Fault Host := do
  if p.length < tmp + n then throw .read
  let h ← h.write buflen ((p.drop tmp).take n)
  { h with cur := h.cur + n }.setAddr buflen h.ips none

/-- `cur+slen+8+(lookfor==28?12:0)>=max` for the records with addresses. -/
def noRoom (lookfor : Lookfor) (buflen cur slen : Nat) : Bool :=
  match lookfor with
  | .a => decide (buflen ≤ cur + slen + 8)
  | .ptr => false
  | .aaaa => decide (buflen ≤ cur + slen + 8 + 12)

/-- The name entered, and the address at `tmp` copied. -/
def Host.record (p : Packet) (lookfor : Lookfor) (buflen tmp : Nat) (name : List UInt8)
    (h : Host) : Except Fault Host := do
  let h ← h.enter buflen name
  if lookfor = .ptr then return h else h.putAddress p buflen lookfor.addressLength tmp

/-! ## `dnscruft2.c` -/

/-- What is returned, with `*h_errnop`. -/
structure Reply where
  ret : Int
  hErrno : Nat
  host : Host

/-- The loop that is at its head. -/
inductive Stage where
  | header
  | questions (q : Nat) (tmp : Int)
  | labels (q : Nat) (tmp : Int)
  | answers (q tmp : Nat) (h : Host)

/-- `result->h_aliases[0]=0`, and the variables in front of the loops. -/
def Host.start (buflen : Nat) (mem : Mem) : Except Fault Host :=
  Host.setAlias buflen ⟨18 * ptrSize, 0, 0, none, List.replicate 9 none, List.replicate 9 none, mem⟩
    0 none

/-- `invalidpacket:`, `HOST_NOT_FOUND`. -/
def invalidpacket (h : Host) : Reply := ⟨-1, 1, h⟩

/-- `nodata:`, `NO_DATA`. -/
def nodata (h : Host) : Reply := ⟨-1, 5, h⟩

/-- Behind the loop over the answers. -/
def finishAnswers (h : Host) : Reply := if h.names = 0 then nodata h else ⟨0, 0, h⟩

/-- Behind the questions. -/
def countAnswers (p : Packet) (h : Host) (tmp : Int) : Except Fault (Next Stage Reply Fault) := do
  let q := count (← readByte p 6) (← readByte p 7)
  if q < 1 then return .stop (nodata h)
  else return .again (.answers (min q 8) tmp.toNat h)

/-- A turn of the loop over the answers. -/
def answerTurn (p : Packet) (lookfor : Lookfor) (buflen q tmp : Nat) (h : Host) :
    Except Fault (Next Stage Reply Fault) := do
  match ← readAnswer p lookfor tmp with
  | .last => return .stop (finishAnswers h)
  | .cname tmp => return .again (.answers q tmp h)
  | .entry name tmp =>
    -- `NO_RECOVERY`
    if noRoom lookfor buflen h.cur (nameString name).length then return .stop ⟨-1, 3, h⟩
    let h ← h.record p lookfor buflen tmp name
    return .again (.answers q (tmp + lookfor.addressLength) h)

/-- A step that may be a fault. -/
def orFault (x : Except Fault (Next Stage Reply Fault)) : Next Stage Reply Fault :=
  match x with
  | .ok n => n
  | .error e => .fault e

/-- A turn of the loops of `__dns_gethostbyx_r_inner`, in front of which `h` is set up. -/
def gethostTurn (p : Packet) (lookfor : Lookfor) (buflen : Nat) (h : Host) :
    Stage → Next Stage Reply Fault
  | .header => orFault do
    if buflen < 128 then return .stop (invalidpacket h)
    let q := count (← readByte p 4) (← readByte p 5)
    return .again (.questions q 12)
  | .questions q tmp =>
    if p.length < tmp then .stop (invalidpacket h)
    else
      match q with
      | 0 => orFault (countAnswers p h tmp)
      | q + 1 => .again (.labels q tmp)
  | .labels q tmp => orFault do
    let b ← readChar p tmp
    if b = 0 then return .again (.questions q (tmp + 5))
    else if p.length < tmp + schar b + 1 then return .stop (invalidpacket h)
    else return .again (.labels q (tmp + schar b + 1))
  | .answers 0 _ h => .stop (finishAnswers h)
  | .answers (q + 1) tmp h => orFault (answerTurn p lookfor buflen q tmp h)

/-- The reply is taken apart in bounds: the loops come to their end, and a name is set when 0 is
returned. -/
def Survives (p : Packet) (lookfor : Lookfor) (buflen : Nat) (mem : Mem) : Prop :=
  ∃ h r, Host.start buflen mem = .ok h ∧ Stops (gethostTurn p lookfor buflen h) .header r ∧
    (r.ret = 0 ∧ r.host.hName ≠ none ∨ r.ret = -1)

end Dietlibc.Dns
