import Dietlibc.Base.Machine
import Dietlibc.Base.Mem

/-!
# Character set conversion

`iconv` as a machine whose step is one turn of the loop: a character is decoded and stored. The
input is the object that `*inbuf` points into, from there on: a read behind it is a fault, and so
is a write behind the `cap` bytes at `*outbuf`. `unsigned int` is a `Nat` below `2 ^ 32`, and
positions count from the values that `*inbuf` and `*outbuf` have on entry.
-/

namespace Dietlibc.Iconv

open Machine

/-- `enum charset`, without `INVALID`, for which `iconv_open` fails. -/
inductive Charset where
  | iso88591
  | utf8
  | ucs2
  | ucs4
  | utf16be
  | utf16le
  | utf16
  deriving DecidableEq

inductive Errno where
  | EILSEQ
  | EINVAL
  | E2BIG
  deriving DecidableEq

def utf8bounds : List Nat := [0x7f, 0x7ff, 0xffff, 0x1fffff, 0x3ffffff, 0x7fffffff]

/-- `a-b` of two `size_t`. -/
def sub (a b : Nat) : Nat := if b ≤ a then a - b else a + 2 ^ 64 - b

/-! ## Decoders -/

/-- What a decoder comes to. `bom` are the bytes of a byte order mark, which have been taken from
`*inbytesleft`. -/
inductive Decoding where
  | fault
  | fail (e : Errno) (bom : Nat)
  | char (v i : Nat) (src : Charset) (bom : Nat)
  deriving DecidableEq

/-- `(in[i]&0xc0)==0x80` -/
def isCont (b : UInt8) : Bool := b &&& 0xc0 == 0x80

/-- `for (i=0xC0; i!=0xFC; i=(i>>1)+0x80)` -/
def maskLead (b : UInt8) : List UInt8 → UInt8
  | [] => b
  | i :: is => if b &&& ((i >>> 1) ||| 0x80) = i then b &&& ~~~i else maskLead b is

/-- The values of `i` in that loop. -/
def leads : List UInt8 := [0xC0, 0xE0, 0xF0, 0xF8]

/-- `for (i=1; (in[i]&0xc0)==0x80; ++i)`, from `in[i]` on. -/
def utf8Cont (left : Nat) : Nat → Nat → List UInt8 → Decoding
  | _, _, [] => .fault
  | v, i, b :: p =>
    if isCont b then
      if left < i then .fail .EINVAL 0
      else utf8Cont left ((v * 64 + b.toNat % 64) % 2 ^ 32) (i + 1) p
    else .char v i .utf8 0

/-- `case UTF_8` -/
def decodeUtf8 (a : UInt8) (p : List UInt8) (left : Nat) : Decoding :=
  if a < 0x80 then .char a.toNat 1 .utf8 0
  else if 0xfe ≤ a then .fail .EILSEQ 0
  else
    match utf8Cont left (maskLead a leads).toNat 1 p with
    | .char v i src bom =>
      if 6 < i ∨ (1 < i ∧ v < utf8bounds.getD (i - 1) 0) then .fail .EILSEQ 0
      else .char v i src bom
    | d => d

/-- A 16-bit number of two bytes. -/
def pair (be : Bool) (a b : UInt8) : Nat :=
  if be then a.toNat * 256 + b.toNat else b.toNat * 256 + a.toNat

/-- `utf16be:` and `utf16le:`; only the first looks at `*inbytesleft`. -/
def decodeUtf16 (be : Bool) (p : List UInt8) (left bom : Nat) : Decoding :=
  let src := if be then .utf16be else .utf16le
  if be ∧ left < 2 then .fail .EINVAL bom
  else
    match p with
    | a :: b :: q =>
      let v := pair be a b
      if 0xd800 ≤ v ∧ v ≤ 0xdfff then
        if 0xdbff < v then .fail .EILSEQ bom
        else if left < 4 then .fail .EINVAL bom
        else
          match q with
          | c :: d :: _ =>
            let w := pair be c d
            if w < 0xdc00 ∨ 0xdfff < w then .fail .EILSEQ bom
            else .char (0x10000 + ((v - 0xd800) * 2 ^ 10 + (w - 0xdc00))) 4 src bom
          | _ => .fault
      else .char v 2 src bom
    | _ => .fault

/-- `switch (from)`, with the object from `in` on. -/
def decode (src : Charset) (p : List UInt8) (left : Nat) : Decoding :=
  match p with
  | [] => .fault
  | a :: p =>
    match src with
    | .iso88591 => .char a.toNat 1 .iso88591 0
    | .utf8 => decodeUtf8 a p left
    | .ucs2 =>
      if left < 2 then .fail .EINVAL 0
      else
        match p with
        | b :: _ => .char (pair true a b) 2 .ucs2 0
        | _ => .fault
    | .ucs4 =>
      if left < 4 then .fail .EINVAL 0
      else
        match p with
        | b :: c :: d :: _ => .char (pair true a b * 2 ^ 16 + pair true c d) 4 .ucs4 0
        | _ => .fault
    | .utf16be => decodeUtf16 true (a :: p) left 0
    | .utf16le => decodeUtf16 false (a :: p) left 0
    | .utf16 =>
      if left < 2 then .fail .EINVAL 0
      else
        match p with
        | b :: q =>
          if a = 0xff ∧ b = 0xfe then decodeUtf16 false q (left - 2) 2
          else if a = 0xfe ∧ b = 0xff then decodeUtf16 true q (left - 2) 2
          else .fail .EILSEQ 0
        | _ => .fault

/-! ## Encoders -/

/-- `to`, `out`, `*outbytesleft`, the bytes at `*outbuf` and `result`. -/
structure Out where
  dst : Charset
  pos : Nat
  left : Nat
  buf : Mem
  result : Nat

inductive Encoding where
  | fault
  | bloat (o : Out)
  | stored (o : Out)

/-- `if (*outbytesleft<j) goto bloat;`, the bytes, and `out+=j; *outbytesleft-=j`. -/
def Out.put (cap : Nat) (o : Out) (d : List UInt8) (lossy : Bool) : Encoding :=
  if o.left < d.length then .bloat o
  else if o.pos + d.length ≤ cap then
    .stored { o with
      pos := o.pos + d.length
      left := o.left - d.length
      buf := o.buf.store o.pos d
      result := if lossy then o.result + 1 else o.result }
  else .fault

/-- The low byte of a number, and the byte above. -/
def lo (v : Nat) : UInt8 := UInt8.ofNat v

def hi (v : Nat) : UInt8 := UInt8.ofNat (v / 256)

/-- The bytes of a 16-bit number. -/
def bytes16 (be : Bool) (v : Nat) : List UInt8 := if be then [hi v, lo v] else [lo v, hi v]

/-- The bytes that `case UTF_16_BE` and `case UTF_16_LE` store. -/
def unit16 (be : Bool) (v : Nat) : List UInt8 :=
  if 0xffff < v then
    bytes16 be (0xd800 + (v - 0x10000) / 2 ^ 10) ++ bytes16 be (0xdc00 + (v - 0x10000) % 0x400)
  else bytes16 be v

def encodeUtf16 (be : Bool) (cap : Nat) (o : Out) (v : Nat) : Encoding :=
  o.put cap (unit16 be v) (decide (0xffff < v) && decide (0xfffff < v - 0x10000))

/-- `bits`, the mark of the first byte and `j`. -/
def utf8Form (v : Nat) : Nat × UInt8 × Nat :=
  if 0x04000000 ≤ v then (30, 0xFC, 6)
  else if 0x00200000 ≤ v then (24, 0xF8, 5)
  else if 0x00010000 ≤ v then (18, 0xF0, 4)
  else if 0x00000800 ≤ v then (12, 0xE0, 3)
  else if 0x00000080 ≤ v then (6, 0xC0, 2)
  else (0, 0, 1)

/-- `for (k=1; k<j; ++k)` -/
def utf8Tail (v : Nat) : Nat → Nat → List UInt8
  | 0, _ => []
  | k + 1, bits => UInt8.ofNat (0x80 + v / 2 ^ (bits - 6) % 64) :: utf8Tail v k (bits - 6)

/-- The first byte is stored before `*outbytesleft` is looked at. -/
def encodeUtf8 (cap : Nat) (o : Out) (v : Nat) : Encoding :=
  let (bits, c, j) := utf8Form v
  if o.pos < cap then
    let o := { o with buf := o.buf.store o.pos [c ||| UInt8.ofNat (v / 2 ^ bits)] }
    if o.left < j then .bloat o
    else if o.pos + j ≤ cap then
      .stored { o with
        pos := o.pos + j
        left := o.left - j
        buf := o.buf.store (o.pos + 1) (utf8Tail v (j - 1) bits) }
    else .fault
  else .fault

/-- `switch (to)` -/
def encode (cap : Nat) (o : Out) (v : Nat) : Encoding :=
  match o.dst with
  | .iso88591 => o.put cap [lo v] (decide (0xff < v))
  | .ucs2 => o.put cap [hi v, lo v] (decide (0xffff < v))
  | .ucs4 => o.put cap [lo (v / 2 ^ 23), lo (v / 2 ^ 16), lo (v / 2 ^ 8), lo v] false
  | .utf8 => encodeUtf8 cap o v
  | .utf16 =>
    if o.left < 4 then .bloat o
    else if o.pos + 2 ≤ cap then
      encodeUtf16 false cap { o with
        dst := .utf16le
        pos := o.pos + 2
        left := o.left - 2
        buf := o.buf.store o.pos [0xff, 0xfe] } v
    else .fault
  | .utf16le => encodeUtf16 false cap o v
  | .utf16be => encodeUtf16 true cap o v

/-! ## The loop -/

/-- `from`, `in`, `*inbytesleft` and the output. -/
structure St where
  src : Charset
  pos : Nat
  left : Nat
  out : Out

/-- The value returned, and what the call leaves in `*inbuf`, `*inbytesleft`, `*outbuf`,
`*outbytesleft` and at `*outbuf`. -/
structure Answer where
  ret : Except Errno Nat
  inbuf : Nat
  inbytesleft : Nat
  outbuf : Nat
  outbytesleft : Nat
  buf : Mem

abbrev StNext := Next St Answer Unit

/-- `return (size_t)-1`: only the counters have been written. -/
def failed (e : Errno) (left : Nat) (o : Out) : StNext := .stop ⟨.error e, 0, left, 0, o.left, o.buf⟩

/-- One turn of the loop, or its end. -/
def step (obj : List UInt8) (cap : Nat) (s : St) : StNext :=
  if s.left = 0 then .stop ⟨.ok s.out.result, s.pos, s.left, s.out.pos, s.out.left, s.out.buf⟩
  else
    match decode s.src (obj.drop s.pos) s.left with
    | .fault => .fault ()
    | .fail e bom => failed e (s.left - bom) s.out
    | .char v i src bom =>
      if 0xd800 ≤ v ∧ v ≤ 0xd8ff then failed .EILSEQ (s.left - bom) s.out
      else
        match encode cap s.out v with
        | .fault => .fault ()
        | .bloat o => failed .E2BIG (s.left - bom) o
        | .stored o => .again ⟨src, s.pos + bom + i, sub (s.left - bom) i, o⟩

/-- The state in which a call starts. -/
def start (src dst : Charset) (left outLeft : Nat) (buf : Mem) : St :=
  ⟨src, 0, left, ⟨dst, 0, outLeft, buf, 0⟩⟩

/-- A call for the first `left` bytes of the object returns `a`. -/
def Returns (src dst : Charset) (obj : List UInt8) (left cap outLeft : Nat) (buf : Mem)
    (a : Answer) : Prop :=
  Stops (step obj cap) (start src dst left outLeft buf) a

end Dietlibc.Iconv
