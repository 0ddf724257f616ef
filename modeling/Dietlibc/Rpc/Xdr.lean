import Dietlibc.Base.CInt
import Dietlibc.Inet.Address
import Mathlib.Data.Multiset.AddSub
import Mathlib.Tactic

/-!
# External data representation

The functions of `xdr.c`, `xdr_array.c` and `xdr_reference.c`, each of which encodes, decodes or frees
an object, over any stream, and the stream over memory of `xdr_mem.c`. A type is a `Desc`: the
function for it and the parameters that its caller gives, with the functions for its parts. An object
is what the C object holds; a pointer is a block of the heap with its contents. `none` is a fault: a
null pointer that is followed, a write or a read beyond a block, a block that is freed twice.
-/

namespace Dietlibc.Rpc

open CInt Inet

inductive Op where
  | encode
  | decode
  | free
  deriving DecidableEq

/-! ## Streams -/

/-- `struct xdr_ops`. `getbytes` also says what it has copied when it fails. -/
structure Stream (σ : Type) where
  getlong : σ → Option Int × σ
  putlong : Int → σ → Bool × σ
  getbytes : Nat → σ → Bool × List UInt8 × σ
  putbytes : List UInt8 → σ → Bool × σ

/-- `ntohl` of four bytes in memory. -/
def ntohl (b : List UInt8) : Nat := b.foldl (fun n c => n * 256 + c.toNat) 0

/-- The low half of a `long`, as it is sent. -/
def unit (l : Int) : List UInt8 := htonl (l % 2 ^ 32).toNat

/-- The `long` that is made of four bytes. -/
def ofUnit (b : List UInt8) : Int := conv 32 (ntohl b)

/-! ## `xdr_mem.c` -/

/-- The memory from `x_base` to `x_private`, and from there on. `x_handy` is the length of the rest. -/
structure MemStream where
  before : List UInt8
  rest : List UInt8
  deriving DecidableEq

def xdrmemGetlong (s : MemStream) : Option Int × MemStream :=
  if s.rest.length < 4 then (none, s)
  else (some (ofUnit (s.rest.take 4)), ⟨s.before ++ s.rest.take 4, s.rest.drop 4⟩)

def xdrmemPutlong (l : Int) (s : MemStream) : Bool × MemStream :=
  if s.rest.length < 4 then (false, s)
  else (true, ⟨s.before ++ unit l, s.rest.drop 4⟩)

def xdrmemGetbytes (len : Nat) (s : MemStream) : Bool × List UInt8 × MemStream :=
  if s.rest.length < len then (false, [], s)
  else (true, s.rest.take len, ⟨s.before ++ s.rest.take len, s.rest.drop len⟩)

def xdrmemPutbytes (b : List UInt8) (s : MemStream) : Bool × MemStream :=
  if s.rest.length < b.length then (false, s)
  else (true, ⟨s.before ++ b, s.rest.drop b.length⟩)

def xdrmemOps : Stream MemStream := ⟨xdrmemGetlong, xdrmemPutlong, xdrmemGetbytes, xdrmemPutbytes⟩

/-- `xdrmem_create`. -/
def xdrmemCreate (addr : List UInt8) : MemStream := ⟨[], addr⟩

/-! ## The heap -/

/-- The blocks that are allocated, what `malloc` says to each request, and what a block holds at
first. -/
structure Heap where
  next : Nat
  live : Multiset Nat
  grants : Nat → Bool
  junk : Nat → Nat → UInt8

def Heap.malloc (h : Heap) : Option Nat × Heap :=
  if h.grants h.next then (some h.next, { h with next := h.next + 1, live := h.next ::ₘ h.live })
  else (none, { h with next := h.next + 1 })

def Heap.free (h : Heap) (block : Nat) : Option Heap :=
  if block ∈ h.live then some { h with live := h.live.erase block } else none

/-- What a new block of so many bytes holds. -/
def Heap.bytes (h : Heap) (block n : Nat) : List UInt8 := (List.range n).map (h.junk block)

/-! ## Types and their objects -/

/-- The functions that send one unit. -/
inductive Scalar where
  | int
  | uint
  | long
  | ulong
  | short
  | ushort
  | char
  | uchar
  | bool
  | enum
  deriving DecidableEq

/-- A type, as a function and what its caller gives it. `size` is the size of the object that a
pointer or an array points to. A union chooses by `values`, and may have a default: part `i` goes with
the `i`th value, and the part behind them with the default. -/
inductive Desc where
  | void
  | scalar (k : Scalar)
  | fixed (cnt : Nat)
  | bytes (maxsize : Nat)
  | string (maxsize : Nat)
  | array (maxsize elsize : Nat) (elem : Desc)
  | vector (nelem : Nat) (elem : Desc)
  | pair (first second : Desc)
  | union (values : List Int) (dfault : Bool) (part : Nat → Desc)
  | reference (obj : Desc)
  | pointer (obj : Desc)

/-- A block of bytes. -/
abbrev Buffer := Nat × List UInt8

/-- What an object holds. The part of a union is the one that was last written, and none in a union
whose memory is zero. -/
def Obj : Desc → Type
  | .void => Unit
  | .scalar _ => Int
  | .fixed _ => List UInt8
  | .bytes _ => Nat × Option Buffer
  | .string _ => Option Buffer
  | .array _ _ d => Nat × Option (Nat × List (Obj d))
  | .vector _ d => List (Obj d)
  | .pair d e => Obj d × Obj e
  | .union _ _ part => Int × Option (Σ i, Obj (part i))
  | .reference d => Option (Nat × Obj d)
  | .pointer d => Option (Nat × Obj d)

/-- An object whose memory is zero. -/
def zero : (d : Desc) → Obj d
  | .void => ()
  | .scalar _ => (0 : Int)
  | .fixed cnt => List.replicate cnt (0 : UInt8)
  | .bytes _ => ((0, none) : Nat × Option Buffer)
  | .string _ => (none : Option Buffer)
  | .array _ _ d => ((0, none) : Nat × Option (Nat × List (Obj d)))
  | .vector n d => List.replicate n (zero d)
  | .pair d e => (zero d, zero e)
  | .union _ _ part => ((0, none) : Int × Option (Σ i, Obj (part i)))
  | .reference d => (none : Option (Nat × Obj d))
  | .pointer d => (none : Option (Nat × Obj d))

/-! ## The functions -/

/-- The `long` that is put for a value, unless the function refuses it. -/
def Scalar.put (v : Int) : Scalar → Option Int
  | .long => if conv 32 v = v then some v else none
  | .ulong => if v % 2 ^ 32 = v then some v else none
  | .bool => some (if v = 0 then 0 else 1)
  | _ => some v

/-- The value that is made of the `long` that was got. -/
def Scalar.take (l : Int) : Scalar → Int
  | .int | .enum => conv 32 l
  | .uint | .ulong => l % 2 ^ 32
  | .long => l
  | .short => conv 16 l
  | .ushort => l % 2 ^ 16
  | .char => conv 8 (conv 32 l)
  | .uchar => l % 2 ^ 32 % 2 ^ 8
  | .bool => if l = 0 then 0 else 1

section

variable {σ : Type} (st : Stream σ) (op : Op)

/-- `xdr_int`, `xdr_u_int` and the other functions that send one unit. -/
def xdrScalar (k : Scalar) (v : Int) (s : σ) : Bool × Int × σ :=
  match op with
  | .encode =>
    match k.put v with
    | none => (false, v, s)
    | some l => ((st.putlong l s).1, v, (st.putlong l s).2)
  | .decode =>
    match st.getlong s with
    | (none, s') => (false, v, s')
    | (some l, s') => (true, k.take l, s')
  | .free => (true, v, s)

/-- `xdr_u_int` of a count. -/
def xdrUInt (n : Nat) (s : σ) : Bool × Nat × σ :=
  let r := xdrScalar st op .uint n s
  (r.1, r.2.1.toNat, r.2.2)

/-- The bytes that are missing to a whole unit. -/
def rndup (cnt : Nat) : Nat := if 0 < cnt % 4 then 4 - cnt % 4 else cnt % 4

/-- `xdr_opaque`, of the memory at `cp`. -/
def xdrOpaque (cnt : Nat) (cp : List UInt8) (s : σ) : Option (Bool × List UInt8 × σ) :=
  if cnt = 0 then some (true, cp, s)
  else
    match op with
    | .decode =>
      if cp.length < cnt then none
      else
        let (ok, got, s') := st.getbytes cnt s
        let cp' := got.take cnt ++ cp.drop (got.take cnt).length
        if ok = false then some (false, cp', s')
        else if rndup cnt = 0 then some (true, cp', s')
        else some ((st.getbytes (rndup cnt) s').1, cp', (st.getbytes (rndup cnt) s').2.2)
    | .encode =>
      if cp.length < cnt then none
      else
        let (ok, s') := st.putbytes (cp.take cnt) s
        if ok = false then some (false, cp, s')
        else if rndup cnt = 0 then some (true, cp, s')
        else
          let (ok, s'') := st.putbytes (List.replicate (rndup cnt) 0) s'
          some (ok, cp, s'')
    | .free => some (true, cp, s)

/-- What a function returns, the object behind it, the stream and the heap. -/
abbrev Run (σ α : Type) := Option (Bool × α × σ × Heap)

/-- A function for objects. -/
abbrev Proc (σ α : Type) := α → σ → Heap → Run σ α

/-- `xdr_opaque` of an object. -/
def xdrFixed (cnt : Nat) (cp : List UInt8) (s : σ) (h : Heap) : Run σ (List UInt8) :=
  (xdrOpaque st op cnt cp s).map fun r => (r.1, r.2.1, r.2.2, h)

/-- `xdr_opaque` of a block. -/
def opaqueBlock {α : Type} (cnt : Nat) (b : Buffer) (wrap : Buffer → α) (s : σ) (h : Heap) :
    Run σ α :=
  (xdrOpaque st op cnt b.2 s).map fun r => (r.1, wrap (b.1, r.2.1), r.2.2, h)

def xdrBytes (maxsize : Nat) (o : Nat × Option Buffer) (s : σ) (h : Heap) :
    Run σ (Nat × Option Buffer) :=
  match xdrUInt st op o.1 s with
  | (false, size, s') => some (false, (size, o.2), s', h)
  | (true, size, s') =>
    if size > maxsize ∧ op ≠ .free then some (false, (size, o.2), s', h)
    else
      match op, o.2 with
      | .decode, sp =>
        if size = 0 then some (true, (size, sp), s', h)
        else
          match sp with
          | some b => opaqueBlock st .decode size b (fun b => (size, some b)) s' h
          | none =>
            match h.malloc with
            | (none, h') => some (false, (size, none), s', h')
            | (some b, h') =>
              opaqueBlock st .decode size (b, h'.bytes b size) (fun b => (size, some b)) s' h'
      | .encode, some b => opaqueBlock st .encode size b (fun b => (size, some b)) s' h
      | .encode, none => if size = 0 then some (true, (size, none), s', h) else none
      | .free, some b => (h.free b.1).map fun h' => (true, (size, none), s', h')
      | .free, none => some (true, (size, none), s', h)

/-- `strlen`, of the memory up to the end of a block. -/
def strlen (b : List UInt8) : Option Nat := if 0 ∈ b then some (b.idxOf 0) else none

/-- The block of a string that is decoded: `sp[size] = 0`, and the bytes. -/
def stringBlock (size : Nat) (b : Buffer) (s : σ) (h : Heap) : Run σ (Option Buffer) :=
  if b.2.length ≤ size then none
  else opaqueBlock st .decode size (b.1, b.2.set size 0) some s h

def xdrString (maxsize : Nat) (o : Option Buffer) (s : σ) (h : Heap) : Run σ (Option Buffer) :=
  match op, o with
  | .decode, sp =>
    match xdrUInt st .decode 0 s with
    | (false, _, s') => some (false, sp, s', h)
    | (true, size, s') =>
      if size > maxsize then some (false, sp, s', h)
      else if (size + 1) % 2 ^ 32 = 0 then some (true, sp, s', h)
      else
        match sp with
        | some b => stringBlock st size b s' h
        | none =>
          match h.malloc with
          | (none, h') => some (false, none, s', h')
          | (some b, h') => stringBlock st size (b, h'.bytes b (size + 1)) s' h'
  | .free, none => some (true, none, s, h)
  | .encode, none => none
  | .encode, some b =>
    (strlen b.2).bind fun len =>
      match xdrUInt st .encode (len % 2 ^ 32) s with
      | (false, _, s') => some (false, some b, s', h)
      | (true, size, s') =>
        if size > maxsize then some (false, some b, s', h)
        else opaqueBlock st .encode size b some s' h
  | .free, some b =>
    (strlen b.2).bind fun len =>
      if len % 2 ^ 32 > maxsize then some (false, some b, s, h)
      else (h.free b.1).map fun h' => (true, none, s, h')

/-- The loop over the elements of an array, which ends with the first that fails. -/
def elements {α : Type} (elproc : Proc σ α) : Proc σ (List α)
  | [], s, h => some (true, [], s, h)
  | x :: xs, s, h =>
    (elproc x s h).bind fun (ok, x', s', h') =>
      if ok then
        (elements elproc xs s' h').map fun (ok, xs', s'', h'') => (ok, x' :: xs', s'', h'')
      else some (false, x' :: xs, s', h')

/-- The size of an array, unless it overflows. -/
def nodesize (elsize : Nat) : Nat → Nat → Option Nat
  | 0, size => some size
  | j + 1, size =>
    if (size + elsize) % 2 ^ 32 < size then none else nodesize elsize j ((size + elsize) % 2 ^ 32)

/-- The loop of `xdr_array` over the first `c` elements of the block. -/
def arrayElements {α : Type} (elproc : Proc σ α) (c : Nat) (b : Nat × List α) (s : σ) (h : Heap) :
    Run σ (Nat × Option (Nat × List α)) :=
  if b.2.length < c then none
  else (elements elproc (b.2.take c) s h).bind fun (ok, l, s', h') =>
    if op = .free then (h'.free b.1).map fun h'' => (ok, (c, none), s', h'')
    else some (ok, (c, some (b.1, l ++ b.2.drop c)), s', h')

def xdrArray {α : Type} (maxsize elsize : Nat) (init : α) (elproc : Proc σ α)
    (o : Nat × Option (Nat × List α)) (s : σ) (h : Heap) : Run σ (Nat × Option (Nat × List α)) :=
  match xdrUInt st op o.1 s with
  | (false, c, s') => some (false, (c, o.2), s', h)
  | (true, c, s') =>
    if c > maxsize ∧ op ≠ .free then some (false, (c, o.2), s', h)
    else
      match nodesize elsize c 0, o.2, op with
      | none, target, _ => some (false, (c, target), s', h)
      | some _, some b, _ => arrayElements op elproc c b s' h
      | some _, none, .free => some (true, (c, none), s', h)
      | some _, none, .encode => if c = 0 then some (true, (c, none), s', h) else none
      | some _, none, .decode =>
        if c = 0 then some (true, (c, none), s', h)
        else
          match h.malloc with
          | (none, h') => some (false, (c, none), s', h')
          | (some b, h') => arrayElements op elproc c (b, List.replicate c init) s' h'

/-- `xdr_vector`. -/
def xdrVector {α : Type} (nelem : Nat) (elproc : Proc σ α) (base : List α) (s : σ) (h : Heap) :
    Run σ (List α) :=
  if base.length < nelem then none
  else (elements elproc (base.take nelem) s h).map fun (ok, l, s', h') =>
    (ok, l ++ base.drop nelem, s', h')

/-- The loop of `xdr_union` over the choices: the first with the value, or the default. -/
def choose (values : List Int) (dfault : Bool) (dscm : Int) : Option Nat :=
  if dscm ∈ values then some (values.idxOf dscm)
  else if dfault then some values.length
  else none

/-- `xdr_reference`, with what its caller gives for the object. -/
def xdrReference {α : Type} (init : α) (proc : Proc σ α) (o : Option (Nat × α)) (s : σ) (h : Heap) :
    Run σ (Option (Nat × α)) :=
  let obj (b : Nat) (x : α) (h : Heap) : Run σ (Option (Nat × α)) :=
    (proc x s h).bind fun (stat, x', s', h') =>
      if op = .free then (h'.free b).map fun h'' => (stat, none, s', h'')
      else some (stat, some (b, x'), s', h')
  match o, op with
  | some (b, x), _ => obj b x h
  | none, .free => some (true, none, s, h)
  | none, .encode => none
  | none, .decode =>
    match h.malloc with
    | (none, h') => some (false, none, s, h')
    | (some b, h') => obj b init h'

def xdrPointer {α : Type} (init : α) (proc : Proc σ α) (o : Option (Nat × α)) (s : σ) (h : Heap) :
    Run σ (Option (Nat × α)) :=
  match xdrScalar st op .bool (if o.isSome then 1 else 0) s with
  | (false, _, s') => some (false, o, s', h)
  | (true, more, s') =>
    if more = 0 then some (true, none, s', h) else xdrReference op init proc o s' h

/-- The memory of a union as the part `i`. -/
def unionPart {α : Nat → Type} (init : ∀ i, α i) (i : Nat) : Option (Σ j, α j) → Option (α i)
  | none => some (init i)
  | some ⟨j, x⟩ => if h : j = i then some (h ▸ x) else none

def xdrUnion {α : Nat → Type} (values : List Int) (dfault : Bool) (init : ∀ i, α i)
    (procs : ∀ i, Proc σ (α i)) (o : Int × Option (Σ i, α i)) (s : σ) (h : Heap) :
    Run σ (Int × Option (Σ i, α i)) :=
  match xdrScalar st op .enum o.1 s with
  | (false, dscm, s') => some (false, (dscm, o.2), s', h)
  | (true, dscm, s') =>
    match choose values dfault dscm with
    | none => some (false, (dscm, o.2), s', h)
    | some i =>
      (unionPart init i o.2).bind fun x =>
        (procs i x s' h).map fun (ok, x', s'', h') => (ok, (dscm, some ⟨i, x'⟩), s'', h')

/-- The function for a structure, which a caller writes: one member after another, up to the first
that fails. -/
def xdrPair {α β : Type} (fst : Proc σ α) (snd : Proc σ β) (o : α × β) (s : σ) (h : Heap) :
    Run σ (α × β) :=
  (fst o.1 s h).bind fun (ok, x, s', h') =>
    if ok then (snd o.2 s' h').map fun (ok, y, s'', h'') => (ok, (x, y), s'', h'')
    else some (false, (x, o.2), s', h')

/-- The function for a type. -/
def xdr : (d : Desc) → Obj d → σ → Heap → Run σ (Obj d)
  | .void, o, s, h => some (true, o, s, h)
  | .scalar k, o, s, h =>
    let r := xdrScalar st op k o s
    some (r.1, r.2.1, r.2.2, h)
  | .fixed cnt, o, s, h => xdrFixed st op cnt o s h
  | .bytes maxsize, o, s, h => xdrBytes st op maxsize o s h
  | .string maxsize, o, s, h => xdrString st op maxsize o s h
  | .array maxsize elsize d, o, s, h => xdrArray st op maxsize elsize (zero d) (xdr d) o s h
  | .vector n d, o, s, h => xdrVector n (xdr d) o s h
  | .pair d e, o, s, h => xdrPair (xdr d) (xdr e) o s h
  | .union values dfault part, o, s, h =>
    xdrUnion st op values dfault (fun i => zero (part i)) (fun i => xdr (part i)) o s h
  | .reference d, o, s, h => xdrReference op (zero d) (xdr d) o s h
  | .pointer d, o, s, h => xdrPointer st op (zero d) (xdr d) o s h

/-- `xdr_free`. -/
def xdrFree (d : Desc) (o : Obj d) (s : σ) (h : Heap) : Run σ (Obj d) := xdr st .free d o s h

end

/-! ## Values and their representation -/

/-- What an object stands for, without the blocks that it is in. -/
def Val : Desc → Type
  | .void => Unit
  | .scalar _ => Int
  | .fixed _ => List UInt8
  | .bytes _ => List UInt8
  | .string _ => List UInt8
  | .array _ _ d => List (Val d)
  | .vector _ d => List (Val d)
  | .pair d e => Val d × Val e
  | .union _ _ part => Int × Σ i, Val (part i)
  | .reference d => Val d
  | .pointer d => Option (Val d)

def Scalar.Fits (v : Int) : Scalar → Prop
  | .int | .long | .enum => CInt.Fits 32 v
  | .uint | .ulong => 0 ≤ v ∧ v < 2 ^ 32
  | .short => CInt.Fits 16 v
  | .ushort => 0 ≤ v ∧ v < 2 ^ 16
  | .char => CInt.Fits 8 v
  | .uchar => 0 ≤ v ∧ v < 2 ^ 8
  | .bool => v = 0 ∨ v = 1

def fixedFits (cnt : Nat) (b : List UInt8) : Prop := b.length = cnt

def bytesFit (maxsize : Nat) (b : List UInt8) : Prop := b.length ≤ maxsize ∧ b.length < 2 ^ 32

def stringFits (maxsize : Nat) (b : List UInt8) : Prop :=
  b.length ≤ maxsize ∧ b.length + 1 < 2 ^ 32 ∧ 0 ∉ b

def arrayFits {β : Type} (maxsize elsize : Nat) (fits : β → Prop) (l : List β) : Prop :=
  l.length ≤ maxsize ∧ l.length < 2 ^ 32 ∧ l.length * elsize < 2 ^ 32 ∧ ∀ v ∈ l, fits v

def vectorFits {β : Type} (n : Nat) (fits : β → Prop) (l : List β) : Prop :=
  l.length = n ∧ ∀ v ∈ l, fits v

def pointerFits {β : Type} (fits : β → Prop) (v : Option β) : Prop := ∀ x ∈ v, fits x

def unionFits {β : Nat → Type} (values : List Int) (dfault : Bool) (fits : ∀ i, β i → Prop)
    (v : Int × Σ i, β i) : Prop :=
  Scalar.enum.Fits v.1 ∧ choose values dfault v.1 = some v.2.1 ∧ fits v.2.1 v.2.2

def pairFits {α β : Type} (fits : α → Prop) (fits' : β → Prop) (v : α × β) : Prop :=
  fits v.1 ∧ fits' v.2

/-- The values of a type that can be sent. -/
def Fits : (d : Desc) → Val d → Prop
  | .void, _ => True
  | .scalar k, v => k.Fits v
  | .fixed cnt, b => fixedFits cnt b
  | .bytes maxsize, b => bytesFit maxsize b
  | .string maxsize, b => stringFits maxsize b
  | .array maxsize elsize d, l => arrayFits maxsize elsize (Fits d) l
  | .vector n d, l => vectorFits n (Fits d) l
  | .pair d e, v => pairFits (Fits d) (Fits e) v
  | .union values dfault part, v => unionFits values dfault (fun i => Fits (part i)) v
  | .reference d, v => Fits d v
  | .pointer d, v => pointerFits (Fits d) v

/-- Bytes, filled up to whole units. -/
def padded (b : List UInt8) : List UInt8 := b ++ List.replicate (rndup b.length) 0

def counted (b : List UInt8) : List UInt8 := unit b.length ++ padded b

def arrayEnc {β : Type} (enc : β → List UInt8) (l : List β) : List UInt8 :=
  unit l.length ++ l.flatMap enc

def vectorEnc {β : Type} (enc : β → List UInt8) (l : List β) : List UInt8 := l.flatMap enc

def pointerEnc {β : Type} (enc : β → List UInt8) : Option β → List UInt8
  | none => unit 0
  | some x => unit 1 ++ enc x

def pairEnc {α β : Type} (enc : α → List UInt8) (enc' : β → List UInt8) (v : α × β) : List UInt8 :=
  enc v.1 ++ enc' v.2

def unionEnc {β : Nat → Type} (enc : ∀ i, β i → List UInt8) (v : Int × Σ i, β i) : List UInt8 :=
  unit v.1 ++ enc v.2.1 v.2.2

/-- The representation of a value. -/
def enc : (d : Desc) → Val d → List UInt8
  | .void, _ => []
  | .scalar _, v => unit v
  | .fixed _, b => padded b
  | .bytes _, b => counted b
  | .string _, b => counted b
  | .array _ _ d, l => arrayEnc (enc d) l
  | .vector _ d, l => vectorEnc (enc d) l
  | .pair d e, v => pairEnc (enc d) (enc e) v
  | .union _ _ part, v => unionEnc (fun i => enc (part i)) v
  | .reference d, v => enc d v
  | .pointer d, v => pointerEnc (enc d) v

def bytesRead (o : Nat × Option Buffer) (b : List UInt8) : Prop :=
  o.1 = b.length ∧ (b = [] ∨ ∃ k tail, o.2 = some (k, b ++ tail))

def stringReads (o : Option Buffer) (b : List UInt8) : Prop := ∃ k tail, o = some (k, b ++ 0 :: tail)

def arrayReads {α β : Type} (reads : α → β → Prop) (o : Nat × Option (Nat × List α)) (l : List β) :
    Prop :=
  o.1 = l.length ∧ (l = [] ∨ ∃ k objs, o.2 = some (k, objs) ∧ List.Forall₂ reads objs l)

def vectorReads {α β : Type} (reads : α → β → Prop) (o : List α) (l : List β) : Prop :=
  List.Forall₂ reads o l

def referenceReads {α β : Type} (reads : α → β → Prop) (o : Option (Nat × α)) (v : β) : Prop :=
  ∃ k x, o = some (k, x) ∧ reads x v

def pointerReads {α β : Type} (reads : α → β → Prop) (o : Option (Nat × α)) : Option β → Prop
  | none => o = none
  | some v => referenceReads reads o v

def pairReads {α β γ δ : Type} (reads : α → γ → Prop) (reads' : β → δ → Prop) (o : α × β)
    (v : γ × δ) : Prop :=
  reads o.1 v.1 ∧ reads' o.2 v.2

def unionReads {α β : Nat → Type} (reads : ∀ i, α i → β i → Prop) (o : Int × Option (Σ i, α i))
    (v : Int × Σ i, β i) : Prop :=
  o.1 = v.1 ∧ ∃ x, o.2 = some ⟨v.2.1, x⟩ ∧ reads v.2.1 x v.2.2

/-- The object stands for the value. -/
def Reads : (d : Desc) → Obj d → Val d → Prop
  | .void, _, _ => True
  | .scalar _, o, v => o = v
  | .fixed _, o, b => o = b
  | .bytes _, o, b => bytesRead o b
  | .string _, o, b => stringReads o b
  | .array _ _ d, o, l => arrayReads (Reads d) o l
  | .vector _ d, o, l => vectorReads (Reads d) o l
  | .pair d e, o, v => pairReads (Reads d) (Reads e) o v
  | .union _ _ part, o, v => unionReads (fun i => Reads (part i)) o v
  | .reference d, o, v => referenceReads (Reads d) o v
  | .pointer d, o, v => pointerReads (Reads d) o v

/-! ## Lawful streams -/

section

variable {σ : Type}

/-- A stream to which values can be put. `CanPut n out s` says that `out` has been put and that there
is room for `n` bytes more. A unit is put only behind whole units. -/
structure Putting (st : Stream σ) (CanPut : Nat → List UInt8 → σ → Prop) : Prop where
  long : ∀ {n out s}, CanPut (n + 4) out s → 4 ∣ out.length → ∀ l,
    ∃ s', st.putlong l s = (true, s') ∧ CanPut n (out ++ unit l) s'
  bytes : ∀ {n out s} (b : List UInt8), CanPut (n + b.length) out s →
    ∃ s', st.putbytes b s = (true, s') ∧ CanPut n (out ++ b) s'

/-- A stream from which values can be got. `CanGet c s` says that `c` is what comes. -/
structure Getting (st : Stream σ) (CanGet : List UInt8 → σ → Prop) : Prop where
  long : ∀ {b c s}, CanGet (b ++ c) s → b.length = 4 →
    ∃ s', st.getlong s = (some (ofUnit b), s') ∧ CanGet c s'
  bytes : ∀ {b c s}, CanGet (b ++ c) s →
    ∃ s', st.getbytes b.length s = (true, b, s') ∧ CanGet c s'

/-- What has been put into the memory at `addr`; the rest of it is as it was. -/
def InMemory (addr : List UInt8) (n : Nat) (out : List UInt8) (s : MemStream) : Prop :=
  s.before = out ∧ s.rest = addr.drop out.length ∧ out.length + n ≤ addr.length

theorem xdrmem_putting (addr : List UInt8) : Putting xdrmemOps (InMemory addr) where
  long := by
    rintro n _ s ⟨rfl, hrest, hn⟩ _ l
    have hroom : ¬ s.rest.length < 4 := by
      rw [hrest, List.length_drop]
      omega
    refine ⟨_, if_neg hroom, rfl, ?_, ?_⟩
    · simp only [hrest, List.drop_drop, List.length_append]
      rfl
    · rw [List.length_append]
      change s.before.length + 4 + n ≤ _
      omega
  bytes := by
    rintro n _ s b ⟨rfl, hrest, hn⟩
    have hroom : ¬ s.rest.length < b.length := by
      rw [hrest, List.length_drop]
      omega
    refine ⟨_, if_neg hroom, rfl, ?_, ?_⟩
    · simp only [hrest, List.drop_drop, List.length_append]
    · rw [List.length_append]
      omega

theorem xdrmem_getting (addr : List UInt8) :
    Getting xdrmemOps fun c s => s.before ++ s.rest = addr ∧ s.rest = c where
  long := by
    rintro b c ⟨before, rest⟩ ⟨rfl, rfl⟩ hb
    have hlen : ¬ (b ++ c).length < 4 := by rw [List.length_append]; omega
    simp only [xdrmemOps, xdrmemGetlong, if_neg hlen, List.take_left' hb, List.drop_left' hb]
    exact ⟨_, rfl, List.append_assoc .., rfl⟩
  bytes := by
    rintro b c ⟨before, rest⟩ ⟨rfl, rfl⟩
    have hlen : ¬ (b ++ c).length < b.length := by rw [List.length_append]; omega
    simp only [xdrmemOps, xdrmemGetbytes, if_neg hlen, List.take_left, List.drop_left]
    exact ⟨_, rfl, List.append_assoc .., rfl⟩

end

/-! ## Units -/

@[simp] theorem length_unit (l : Int) : (unit l).length = 4 := rfl

theorem ntohl_htonl {n : Nat} (h : n < 2 ^ 32) : ntohl (htonl n) = n := by
  simp only [ntohl, htonl, List.foldl_cons, List.foldl_nil, UInt8.toNat_ofNat',
    Nat.shiftRight_eq_div_pow]
  omega

theorem ofUnit_unit (l : Int) : ofUnit (unit l) = conv 32 l := by
  have hpos : 0 ≤ l % 2 ^ 32 := Int.emod_nonneg _ (by decide)
  have hlt : l % 2 ^ 32 < 2 ^ 32 := Int.emod_lt_of_pos _ (by decide)
  rw [ofUnit, unit, ntohl_htonl (by omega), Int.toNat_of_nonneg hpos]
  have h := Int.emod_bmod l (2 ^ 32)
  push_cast at h
  exact h

theorem rndup_lt (cnt : Nat) : rndup cnt < 4 ∧ 4 ∣ cnt + rndup cnt := by
  unfold rndup
  split <;> omega

theorem length_padded (b : List UInt8) : (padded b).length = b.length + rndup b.length := by
  simp [padded]

/-- A value that fits is put as it is, and made again of what is got. -/
theorem Scalar.take_put {k : Scalar} {v : Int} (h : k.Fits v) :
    k.put v = some v ∧ k.take (conv 32 v) = v := by
  have hmod : conv 32 v % 2 ^ 32 = v % 2 ^ 32 := conv_emod32 v
  cases k with
  | int | enum =>
    have hv := conv_of_fits (by decide) h
    exact ⟨rfl, by rw [take, hv, hv]⟩
  | long =>
    have hv := conv_of_fits (by decide) h
    exact ⟨if_pos hv, hv⟩
  | uint =>
    obtain ⟨h0, h1⟩ := h
    exact ⟨rfl, by rw [take, hmod, Int.emod_eq_of_lt h0 h1]⟩
  | ulong =>
    obtain ⟨h0, h1⟩ := h
    have hv := Int.emod_eq_of_lt h0 h1
    exact ⟨if_pos hv, by rw [take, hmod, hv]⟩
  | short =>
    have h01 : -2 ^ 15 ≤ v ∧ v < 2 ^ 15 := h
    have hv : conv 32 v = v := conv_of_fits (by decide) (fits32.mpr (by omega))
    exact ⟨rfl, by rw [take, hv]; exact conv_of_fits (by decide) h⟩
  | ushort =>
    obtain ⟨h0, h1⟩ := h
    have hv : conv 32 v = v := conv_of_fits (by decide) (fits32.mpr (by omega))
    exact ⟨rfl, by rw [take, hv, Int.emod_eq_of_lt h0 h1]⟩
  | char =>
    have h01 : -2 ^ 7 ≤ v ∧ v < 2 ^ 7 := h
    have hv : conv 32 v = v := conv_of_fits (by decide) (fits32.mpr (by omega))
    exact ⟨rfl, by rw [take, hv, hv]; exact conv_of_fits (by decide) h⟩
  | uchar =>
    obtain ⟨h0, h1⟩ := h
    exact ⟨rfl, by rw [take, hmod, Int.emod_eq_of_lt h0 (by omega), Int.emod_eq_of_lt h0 h1]⟩
  | bool => rcases h with rfl | rfl <;> exact ⟨rfl, by decide⟩

/-! ## Encoding -/

section

variable {σ α β : Type} {st : Stream σ} {CanPut : Nat → List UInt8 → σ → Prop}

/-- A function that, of an object that stands for a value that fits, puts the representation. -/
def Encodes (CanPut : Nat → List UInt8 → σ → Prop) (proc : Proc σ α)
    (reads : α → β → Prop) (fits : β → Prop) (enc : β → List UInt8) : Prop :=
  ∀ o v, reads o v → fits v → 4 ∣ (enc v).length ∧ ∀ n out s h,
    CanPut (n + (enc v).length) out s → 4 ∣ out.length →
      ∃ s', proc o s h = some (true, o, s', h) ∧ CanPut n (out ++ enc v) s'

theorem xdrScalar_encode (hst : Putting st CanPut) {k : Scalar} {v : Int} (hv : k.Fits v) {n : Nat}
    {out : List UInt8} {s : σ} (h : CanPut (n + 4) out s) (h4 : 4 ∣ out.length) :
    ∃ s', xdrScalar st .encode k v s = (true, v, s') ∧ CanPut n (out ++ unit v) s' := by
  obtain ⟨s', hs', hput⟩ := hst.long h h4 v
  exact ⟨s', by simp only [xdrScalar, (Scalar.take_put hv).1, hs'], hput⟩

theorem xdrUInt_encode (hst : Putting st CanPut) {c : Nat} (hc : c < 2 ^ 32) {n : Nat}
    {out : List UInt8} {s : σ} (h : CanPut (n + 4) out s) (h4 : 4 ∣ out.length) :
    ∃ s', xdrUInt st .encode c s = (true, c, s') ∧ CanPut n (out ++ unit c) s' := by
  have hfits : Scalar.uint.Fits c := ⟨by omega, by exact_mod_cast hc⟩
  obtain ⟨s', hs', hput⟩ := xdrScalar_encode hst hfits h h4
  exact ⟨s', by simp [xdrUInt, hs'], hput⟩

theorem dvd_append_unit {out : List UInt8} (h4 : 4 ∣ out.length) (l : Int) :
    4 ∣ (out ++ unit l).length := by
  rw [List.length_append, length_unit]
  omega

theorem dvd_padded (b : List UInt8) : 4 ∣ (padded b).length := by
  rw [length_padded]
  exact (rndup_lt b.length).2

theorem xdrOpaque_encode (hst : Putting st CanPut) (b tail : List UInt8) {n : Nat}
    {out : List UInt8} {s : σ} (h : CanPut (n + (padded b).length) out s) :
    ∃ s', xdrOpaque st .encode b.length (b ++ tail) s = some (true, b ++ tail, s') ∧
      CanPut n (out ++ padded b) s' := by
  by_cases hb : b = []
  · subst hb
    exact ⟨s, rfl, by simpa [padded, rndup] using h⟩
  · have h0 : b.length ≠ 0 := fun e => hb (List.eq_nil_of_length_eq_zero e)
    have hlen : ¬ (b ++ tail).length < b.length := by rw [List.length_append]; omega
    rw [length_padded, Nat.add_comm b.length, ← Nat.add_assoc] at h
    obtain ⟨s₁, hs₁, hput⟩ := hst.bytes b h
    simp only [xdrOpaque, if_neg h0, if_neg hlen, List.take_left, hs₁, Bool.true_eq_false, if_false]
    by_cases hr : rndup b.length = 0
    · rw [if_pos hr]
      rw [hr] at hput
      exact ⟨_, rfl, by simpa [padded, hr] using hput⟩
    · rw [if_neg hr]
      have hput' : CanPut (n + (List.replicate (rndup b.length) (0 : UInt8)).length) (out ++ b)
          s₁ := by rwa [List.length_replicate]
      obtain ⟨s₂, hs₂, hput₂⟩ := hst.bytes (List.replicate (rndup b.length) 0) hput'
      exact ⟨s₂, by simp only [hs₂], by rwa [padded, ← List.append_assoc]⟩

theorem xdrFixed_encodes (hst : Putting st CanPut) (cnt : Nat) :
    Encodes CanPut (xdrFixed st .encode cnt) Eq (fixedFits cnt) padded := by
  rintro o _ rfl rfl
  refine ⟨dvd_padded o, fun n out s h hput _ => ?_⟩
  obtain ⟨s', hs', hput'⟩ := xdrOpaque_encode hst o [] hput
  rw [List.append_nil] at hs'
  exact ⟨s', by rw [xdrFixed, hs', Option.map_some], hput'⟩

theorem xdrBytes_encodes (hst : Putting st CanPut) (maxsize : Nat) :
    Encodes CanPut (xdrBytes st .encode maxsize) bytesRead (bytesFit maxsize) counted := by
  rintro ⟨size, sp⟩ b ⟨rfl, hsp⟩ ⟨hmax, hlt⟩
  have hdvd := dvd_padded b
  have hlen : (counted b).length = (padded b).length + 4 := by
    rw [counted, List.length_append, length_unit, Nat.add_comm]
  refine ⟨by omega, fun n out s h hput h4 => ?_⟩
  rw [hlen, ← Nat.add_assoc] at hput
  obtain ⟨s₁, hs₁, hput₁⟩ := xdrUInt_encode hst hlt hput h4
  have hmax' : ¬ (b.length > maxsize ∧ Op.encode ≠ .free) := fun hm => absurd hm.1 (by omega)
  simp only [xdrBytes, hs₁, if_neg hmax']
  rcases sp with _ | ⟨k, buf⟩
  · rcases hsp with rfl | ⟨k, tail, hk⟩
    · exact ⟨s₁, rfl, by simpa [counted, padded, rndup] using hput₁⟩
    · cases hk
  · have hbuf : ∃ tail, buf = b ++ tail := by
      rcases hsp with rfl | ⟨k', tail, hk⟩
      · exact ⟨buf, rfl⟩
      · cases hk
        exact ⟨tail, rfl⟩
    obtain ⟨tail, rfl⟩ := hbuf
    obtain ⟨s₂, hs₂, hput₂⟩ := xdrOpaque_encode hst b tail hput₁
    exact ⟨s₂, by simp [opaqueBlock, hs₂], by rwa [counted, ← List.append_assoc]⟩

theorem strlen_append {b : List UInt8} (hb : 0 ∉ b) (tail : List UInt8) :
    strlen (b ++ 0 :: tail) = some b.length := by
  rw [strlen, if_pos (by simp), List.idxOf_append_of_notMem hb]
  simp

theorem xdrString_encodes (hst : Putting st CanPut) (maxsize : Nat) :
    Encodes CanPut (xdrString st .encode maxsize) stringReads (stringFits maxsize) counted := by
  rintro o b ⟨k, tail, rfl⟩ ⟨hmax, hlt, hzero⟩
  have hdvd := dvd_padded b
  have hlen : (counted b).length = (padded b).length + 4 := by
    rw [counted, List.length_append, length_unit, Nat.add_comm]
  refine ⟨by omega, fun n out s h hput h4 => ?_⟩
  rw [hlen, ← Nat.add_assoc] at hput
  obtain ⟨s₁, hs₁, hput₁⟩ := xdrUInt_encode hst (show b.length < 2 ^ 32 by omega) hput h4
  obtain ⟨s₂, hs₂, hput₂⟩ := xdrOpaque_encode hst b (0 :: tail) hput₁
  have hmod : b.length % 2 ^ 32 = b.length := Nat.mod_eq_of_lt (by omega)
  refine ⟨s₂, ?_, by rwa [counted, ← List.append_assoc]⟩
  simp only [xdrString, strlen_append hzero, Option.bind_some, hmod, hs₁,
    if_neg (show ¬ b.length > maxsize by omega), opaqueBlock, hs₂, Option.map_some]

section

variable {proc : Proc σ α} {reads : α → β → Prop} {fits : β → Prop} {enc : β → List UInt8}

theorem elements_encode (hproc : Encodes CanPut proc reads fits enc) {objs : List α} {l : List β}
    (hreads : List.Forall₂ reads objs l) (hfits : ∀ v ∈ l, fits v) :
    4 ∣ (l.flatMap enc).length ∧ ∀ n out s h, CanPut (n + (l.flatMap enc).length) out s →
      4 ∣ out.length → ∃ s', elements proc objs s h = some (true, objs, s', h) ∧
        CanPut n (out ++ l.flatMap enc) s' := by
  induction hreads with
  | nil => exact ⟨dvd_zero 4, fun n out s h hput _ => ⟨s, rfl, by simpa using hput⟩⟩
  | @cons o v objs l hov _ ih =>
    obtain ⟨hdvd, henc⟩ := hproc o v hov (hfits v (List.mem_cons_self ..))
    obtain ⟨hdvd', henc'⟩ := ih fun v hv => hfits v (List.mem_cons_of_mem _ hv)
    have hlen : ((v :: l).flatMap enc).length = (enc v).length + (l.flatMap enc).length := by
      rw [List.flatMap_cons, List.length_append]
    refine ⟨hlen ▸ Nat.dvd_add hdvd hdvd', fun n out s h hput h4 => ?_⟩
    rw [hlen, Nat.add_comm (enc v).length, ← Nat.add_assoc] at hput
    obtain ⟨s₁, hs₁, hput₁⟩ := henc _ out s h hput h4
    obtain ⟨s₂, hs₂, hput₂⟩ := henc' n _ s₁ h hput₁ (by
      rw [List.length_append]
      exact Nat.dvd_add h4 hdvd)
    refine ⟨s₂, ?_, by rwa [List.flatMap_cons, ← List.append_assoc]⟩
    simp only [elements, hs₁, Option.bind_some, if_true, hs₂, Option.map_some]

theorem nodesize_eq {elsize : Nat} (j : Nat) {size : Nat} (h : j * elsize + size < 2 ^ 32) :
    nodesize elsize j size = some (j * elsize + size) := by
  induction j generalizing size with
  | zero => simp [nodesize]
  | succ j ih =>
    have hsum : (j + 1) * elsize = j * elsize + elsize := Nat.succ_mul j elsize
    have hmod : (size + elsize) % 2 ^ 32 = size + elsize := Nat.mod_eq_of_lt (by omega)
    rw [nodesize, hmod, if_neg (by omega), ih (by omega)]
    congr 1
    omega

theorem xdrArray_encodes (hst : Putting st CanPut) (maxsize elsize : Nat) (init : α)
    (hproc : Encodes CanPut proc reads fits enc) :
    Encodes CanPut (xdrArray st .encode maxsize elsize init proc) (arrayReads reads)
      (arrayFits maxsize elsize fits) (arrayEnc enc) := by
  rintro ⟨c, target⟩ l ⟨rfl, htarget⟩ ⟨hmax, hlt, hsize, hfits⟩
  have hmax' : ¬ (l.length > maxsize ∧ Op.encode ≠ .free) := fun hm => absurd hm.1 (by omega)
  have hnode : nodesize elsize l.length 0 = some (l.length * elsize) := nodesize_eq _ hsize
  have hlen : (arrayEnc enc l).length = (l.flatMap enc).length + 4 := by
    rw [arrayEnc, List.length_append, length_unit, Nat.add_comm]
  rcases htarget with rfl | ⟨k, objs, rfl, hobjs⟩
  · refine ⟨by rw [hlen]; exact dvd_refl 4, fun n out s h hput h4 => ?_⟩
    obtain ⟨s₁, hs₁, hput₁⟩ := xdrUInt_encode hst hlt hput h4
    refine ⟨s₁, ?_, by simpa [arrayEnc] using hput₁⟩
    simp only [xdrArray, hs₁, if_neg hmax', hnode]
    cases target with
    | none => rfl
    | some b => simp [arrayElements, elements]
  · obtain ⟨hdvd, henc⟩ := elements_encode hproc hobjs hfits
    refine ⟨by omega, fun n out s h hput h4 => ?_⟩
    rw [hlen, ← Nat.add_assoc] at hput
    obtain ⟨s₁, hs₁, hput₁⟩ := xdrUInt_encode hst hlt hput h4
    obtain ⟨s₂, hs₂, hput₂⟩ := henc n _ s₁ h hput₁ (dvd_append_unit h4 _)
    refine ⟨s₂, ?_, by rwa [arrayEnc, ← List.append_assoc]⟩
    have hobjs' := hobjs.length_eq
    simp only [xdrArray, hs₁, if_neg hmax', hnode, arrayElements]
    simp [← hobjs', hs₂]

theorem xdrVector_encodes (n : Nat) (hproc : Encodes CanPut proc reads fits enc) :
    Encodes CanPut (xdrVector n proc) (vectorReads reads) (vectorFits n fits) (vectorEnc enc) := by
  rintro objs l hobjs ⟨rfl, hfits⟩
  obtain ⟨hdvd, henc⟩ := elements_encode hproc hobjs hfits
  refine ⟨hdvd, fun n out s h hput h4 => ?_⟩
  obtain ⟨s', hs', hput'⟩ := henc n out s h hput h4
  have hlen := List.Forall₂.length_eq hobjs
  exact ⟨s', by simp [xdrVector, ← hlen, hs'], hput'⟩

theorem xdrReference_encodes (init : α) (hproc : Encodes CanPut proc reads fits enc) :
    Encodes CanPut (xdrReference .encode init proc) (referenceReads reads) fits enc := by
  rintro o v ⟨k, x, rfl, hx⟩ hv
  obtain ⟨hdvd, henc⟩ := hproc x v hx hv
  refine ⟨hdvd, fun n out s h hput h4 => ?_⟩
  obtain ⟨s', hs', hput'⟩ := henc n out s h hput h4
  exact ⟨s', by simp [xdrReference, hs'], hput'⟩

theorem xdrPointer_encodes (hst : Putting st CanPut) (init : α)
    (hproc : Encodes CanPut proc reads fits enc) :
    Encodes CanPut (xdrPointer st .encode init proc) (pointerReads reads) (pointerFits fits)
      (pointerEnc enc) := by
  rintro o v hread hfits
  cases v with
  | none =>
    obtain rfl : o = none := hread
    refine ⟨dvd_refl 4, fun n out s h hput h4 => ?_⟩
    obtain ⟨s', hs', hput'⟩ := xdrScalar_encode (k := .bool) hst (.inl rfl) hput h4
    exact ⟨s', by simp [xdrPointer, hs'], hput'⟩
  | some v =>
    obtain ⟨hdvd, henc⟩ := xdrReference_encodes init hproc o v hread (hfits v rfl)
    obtain ⟨k, x, rfl, _⟩ := hread
    have hlen : (pointerEnc enc (some v)).length = (enc v).length + 4 := by
      rw [pointerEnc, List.length_append, length_unit, Nat.add_comm]
    refine ⟨by omega, fun n out s h hput h4 => ?_⟩
    rw [hlen, ← Nat.add_assoc] at hput
    obtain ⟨s₁, hs₁, hput₁⟩ := xdrScalar_encode (k := .bool) hst (.inr rfl) hput h4
    obtain ⟨s₂, hs₂, hput₂⟩ := henc n _ s₁ h hput₁ (dvd_append_unit h4 _)
    refine ⟨s₂, ?_, by rwa [pointerEnc, ← List.append_assoc]⟩
    simp only [xdrPointer, Option.isSome_some, if_true, hs₁, one_ne_zero, if_false, hs₂]

theorem xdrPair_encodes {γ δ : Type} {fst : Proc σ α} {snd : Proc σ γ} {reads' : γ → δ → Prop}
    {fits' : δ → Prop} {enc' : δ → List UInt8} (hfst : Encodes CanPut fst reads fits enc)
    (hsnd : Encodes CanPut snd reads' fits' enc') :
    Encodes CanPut (xdrPair fst snd) (pairReads reads reads') (pairFits fits fits')
      (pairEnc enc enc') := by
  rintro ⟨x, y⟩ ⟨v, w⟩ ⟨hx, hy⟩ ⟨hv, hw⟩
  obtain ⟨hdvd, henc⟩ := hfst x v hx hv
  obtain ⟨hdvd', henc'⟩ := hsnd y w hy hw
  have hlen : (pairEnc enc enc' (v, w)).length = (enc' w).length + (enc v).length := by
    rw [pairEnc, List.length_append, Nat.add_comm]
  refine ⟨hlen ▸ Nat.dvd_add hdvd' hdvd, fun n out s h hput h4 => ?_⟩
  rw [hlen, ← Nat.add_assoc] at hput
  obtain ⟨s₁, hs₁, hput₁⟩ := henc _ out s h hput h4
  obtain ⟨s₂, hs₂, hput₂⟩ := henc' n _ s₁ h hput₁ (by
    rw [List.length_append]
    exact Nat.dvd_add h4 hdvd)
  refine ⟨s₂, ?_, by rwa [pairEnc, ← List.append_assoc]⟩
  simp only [xdrPair, hs₁, Option.bind_some, if_true, hs₂, Option.map_some]

theorem unionPart_self {α : Nat → Type} (init : ∀ i, α i) (i : Nat) (x : α i) :
    unionPart init i (some ⟨i, x⟩) = some x := dif_pos rfl

theorem xdrUnion_encodes {α β : Nat → Type} (hst : Putting st CanPut) (values : List Int)
    (dfault : Bool) (init : ∀ i, α i) {procs : ∀ i, Proc σ (α i)}
    {reads : ∀ i, α i → β i → Prop} {fits : ∀ i, β i → Prop} {enc : ∀ i, β i → List UInt8}
    (hprocs : ∀ i, Encodes CanPut (procs i) (reads i) (fits i) (enc i)) :
    Encodes CanPut (xdrUnion st .encode values dfault init procs) (unionReads reads)
      (unionFits values dfault fits) (unionEnc enc) := by
  rintro ⟨dscm, u⟩ ⟨dscm', i, v⟩ ⟨hd, x, hu, hx⟩ ⟨hdscm, hchoose, hv⟩
  obtain rfl : dscm = dscm' := hd
  obtain rfl : u = some ⟨i, x⟩ := hu
  obtain ⟨hdvd, henc⟩ := hprocs i x v hx hv
  have hlen : (unionEnc enc ⟨dscm, i, v⟩).length = (enc i v).length + 4 := by
    rw [unionEnc, List.length_append, length_unit, Nat.add_comm]
  refine ⟨by omega, fun n out s h hput h4 => ?_⟩
  rw [hlen, ← Nat.add_assoc] at hput
  obtain ⟨s₁, hs₁, hput₁⟩ := xdrScalar_encode (k := .enum) hst hdscm hput h4
  obtain ⟨s₂, hs₂, hput₂⟩ := henc n _ s₁ h hput₁ (dvd_append_unit h4 _)
  refine ⟨s₂, ?_, by rwa [unionEnc, ← List.append_assoc]⟩
  simp only [xdrUnion, hs₁, hchoose, unionPart_self, Option.bind_some, hs₂, Option.map_some]

end

/-- **Every type is encoded as it should be**: of an object that stands for a value that can be sent,
the function for the type puts the value's representation, if there is room, and leaves the object as
it is. -/
theorem xdr_encodes (hst : Putting st CanPut) (d : Desc) :
    Encodes CanPut (xdr st .encode d) (Reads d) (Fits d) (enc d) := by
  induction d with
  | void =>
    exact fun o v _ _ =>
      ⟨dvd_zero 4, fun n out s h hput _ => ⟨s, rfl, by simpa [enc] using hput⟩⟩
  | scalar k =>
    rintro o v rfl hv
    refine ⟨dvd_refl 4, fun n out s h hput h4 => ?_⟩
    obtain ⟨s', hs', hput'⟩ := xdrScalar_encode hst hv hput h4
    exact ⟨s', by simp only [xdr, hs'], hput'⟩
  | fixed cnt => exact xdrFixed_encodes hst cnt
  | bytes maxsize => exact xdrBytes_encodes hst maxsize
  | string maxsize => exact xdrString_encodes hst maxsize
  | array maxsize elsize d ih => exact xdrArray_encodes hst maxsize elsize (zero d) ih
  | vector n d ih => exact xdrVector_encodes n ih
  | pair d e ihd ihe => exact xdrPair_encodes ihd ihe
  | union values dfault part ih =>
    exact xdrUnion_encodes hst values dfault (fun i => zero (part i)) fun i => ih i
  | reference d ih => exact xdrReference_encodes (zero d) ih
  | pointer d ih => exact xdrPointer_encodes hst (zero d) ih

end

/-! ## Decoding -/

section

variable {σ α β : Type} {st : Stream σ} {CanGet : List UInt8 → σ → Prop}

/-- A function that, of a representation that comes, makes an object that stands for its value, when
no request for memory is refused. -/
def Decodes (CanGet : List UInt8 → σ → Prop) (proc : Proc σ α) (init : α) (reads : α → β → Prop)
    (fits : β → Prop) (enc : β → List UInt8) : Prop :=
  ∀ v, fits v → ∀ c s h, CanGet (enc v ++ c) s → (∀ b, h.grants b = true) →
    ∃ o s' h', proc init s h = some (true, o, s', h') ∧ reads o v ∧ CanGet c s' ∧
      ∀ b, h'.grants b = true

theorem Heap.malloc_granted {h : Heap} (hg : ∀ b, h.grants b = true) :
    ∃ b h', h.malloc = (some b, h') ∧ ∀ b, h'.grants b = true :=
  ⟨_, _, if_pos (hg h.next), hg⟩

theorem xdrScalar_decode (hst : Getting st CanGet) {k : Scalar} {v : Int} (hv : k.Fits v) (o : Int)
    {c : List UInt8} {s : σ} (h : CanGet (unit v ++ c) s) :
    ∃ s', xdrScalar st .decode k o s = (true, v, s') ∧ CanGet c s' := by
  obtain ⟨s', hs', hrest⟩ := hst.long h (length_unit v)
  rw [ofUnit_unit] at hs'
  exact ⟨s', by simp only [xdrScalar, hs', (Scalar.take_put hv).2], hrest⟩

theorem xdrUInt_decode (hst : Getting st CanGet) {n : Nat} (hn : n < 2 ^ 32) (o : Nat)
    {c : List UInt8} {s : σ} (h : CanGet (unit n ++ c) s) :
    ∃ s', xdrUInt st .decode o s = (true, n, s') ∧ CanGet c s' := by
  have hfits : Scalar.uint.Fits n := ⟨by omega, by exact_mod_cast hn⟩
  obtain ⟨s', hs', hrest⟩ := xdrScalar_decode hst hfits o h
  exact ⟨s', by simp [xdrUInt, hs'], hrest⟩

theorem xdrOpaque_decode (hst : Getting st CanGet) {b old c : List UInt8} (tail : List UInt8) {s : σ}
    (hold : old.length = b.length) (h : CanGet (padded b ++ c) s) :
    ∃ s', xdrOpaque st .decode b.length (old ++ tail) s = some (true, b ++ tail, s') ∧
      CanGet c s' := by
  by_cases hb : b = []
  · subst hb
    obtain rfl := List.eq_nil_of_length_eq_zero hold
    exact ⟨s, rfl, by simpa [padded, rndup] using h⟩
  · have h0 : b.length ≠ 0 := fun e => hb (List.eq_nil_of_length_eq_zero e)
    rw [padded, List.append_assoc] at h
    obtain ⟨s₁, hs₁, hrest⟩ := hst.bytes h
    have hlen : ¬ (old ++ tail).length < b.length := by rw [List.length_append]; omega
    have hdrop : (old ++ tail).drop b.length = tail := List.drop_left' hold
    simp only [xdrOpaque, if_neg h0, if_neg hlen, hs₁, List.take_length, hdrop, Bool.true_eq_false,
      if_false]
    by_cases hr : rndup b.length = 0
    · rw [if_pos hr]
      rw [hr] at hrest
      exact ⟨s₁, rfl, hrest⟩
    · rw [if_neg hr]
      obtain ⟨s₂, hs₂, hrest'⟩ := hst.bytes hrest
      rw [List.length_replicate] at hs₂
      exact ⟨s₂, by rw [hs₂], hrest'⟩

theorem xdrFixed_decodes (hst : Getting st CanGet) (cnt : Nat) :
    Decodes CanGet (xdrFixed st .decode cnt) (List.replicate cnt 0) Eq (fixedFits cnt) padded := by
  rintro b rfl c s h hget hg
  have hold : (List.replicate b.length (0 : UInt8)).length = b.length := List.length_replicate
  obtain ⟨s', hs', hrest⟩ := xdrOpaque_decode hst [] hold hget
  rw [List.append_nil, List.append_nil] at hs'
  exact ⟨b, s', h, by rw [xdrFixed, hs', Option.map_some], rfl, hrest, hg⟩

theorem Heap.length_bytes (h : Heap) (b n : Nat) : (h.bytes b n).length = n := by simp [bytes]

/-- The block of a string, after `sp[size] = 0`. -/
theorem Heap.bytes_terminated (h : Heap) (b size : Nat) :
    ∃ old, old.length = size ∧ (h.bytes b (size + 1)).set size 0 = old ++ [0] := by
  have hlen := h.length_bytes b (size + 1)
  refine ⟨(h.bytes b (size + 1)).take size, ?_, ?_⟩
  · rw [List.length_take, hlen]
    omega
  · rw [List.set_eq_take_append_cons_drop, if_pos (by omega), List.drop_eq_nil_of_le hlen.le]

theorem xdrBytes_decodes (hst : Getting st CanGet) (maxsize : Nat) :
    Decodes CanGet (xdrBytes st .decode maxsize) (0, none) bytesRead (bytesFit maxsize) counted := by
  rintro b ⟨hmax, hlt⟩ c s h hget hg
  rw [counted, List.append_assoc] at hget
  obtain ⟨s₁, hs₁, hget₁⟩ := xdrUInt_decode hst hlt 0 hget
  have hmax' : ¬ (b.length > maxsize ∧ Op.decode ≠ .free) := fun hm => absurd hm.1 (by omega)
  simp only [xdrBytes, hs₁, if_neg hmax']
  by_cases hb : b.length = 0
  · obtain rfl := List.eq_nil_of_length_eq_zero hb
    exact ⟨_, s₁, h, if_pos rfl, ⟨rfl, .inl rfl⟩, by simpa [padded, rndup] using hget₁, hg⟩
  · rw [if_neg hb]
    obtain ⟨k, h', hk, hg'⟩ := Heap.malloc_granted hg
    obtain ⟨s₂, hs₂, hget₂⟩ := xdrOpaque_decode hst [] (h'.length_bytes k b.length) hget₁
    rw [List.append_nil] at hs₂
    refine ⟨(b.length, some (k, b ++ [])), s₂, h', ?_, ⟨rfl, .inr ⟨k, [], rfl⟩⟩, hget₂, hg'⟩
    simp only [hk, opaqueBlock, hs₂, Option.map_some]

theorem xdrString_decodes (hst : Getting st CanGet) (maxsize : Nat) :
    Decodes CanGet (xdrString st .decode maxsize) none stringReads (stringFits maxsize) counted := by
  rintro b ⟨hmax, hlt, _⟩ c s h hget hg
  rw [counted, List.append_assoc] at hget
  obtain ⟨s₁, hs₁, hget₁⟩ := xdrUInt_decode hst (show b.length < 2 ^ 32 by omega) 0 hget
  obtain ⟨k, h', hk, hg'⟩ := Heap.malloc_granted hg
  have hlen : (h'.bytes k (b.length + 1)).length = b.length + 1 := h'.length_bytes _ _
  obtain ⟨old, hold, hblock⟩ := h'.bytes_terminated k b.length
  obtain ⟨s₂, hs₂, hget₂⟩ := xdrOpaque_decode hst [0] hold hget₁
  rw [← hblock] at hs₂
  refine ⟨some (k, b ++ [0]), s₂, h', ?_, ⟨k, [], rfl⟩, hget₂, hg'⟩
  simp only [xdrString, hs₁, if_neg (show ¬ b.length > maxsize by omega),
    if_neg (show ¬ (b.length + 1) % 2 ^ 32 = 0 by omega), hk, stringBlock, hlen,
    if_neg (show ¬ b.length + 1 ≤ b.length by omega), opaqueBlock, hs₂, Option.map_some]

section

variable {proc : Proc σ α} {init : α} {reads : α → β → Prop} {fits : β → Prop}
  {enc : β → List UInt8}

theorem elements_decode (hproc : Decodes CanGet proc init reads fits enc) (l : List β)
    (hfits : ∀ v ∈ l, fits v) {c : List UInt8} {s : σ} {h : Heap}
    (hget : CanGet (l.flatMap enc ++ c) s) (hg : ∀ b, h.grants b = true) :
    ∃ objs s' h', elements proc (List.replicate l.length init) s h = some (true, objs, s', h') ∧
      List.Forall₂ reads objs l ∧ CanGet c s' ∧ ∀ b, h'.grants b = true := by
  induction l generalizing s h with
  | nil => exact ⟨[], s, h, rfl, .nil, hget, hg⟩
  | cons v l ih =>
    rw [List.flatMap_cons, List.append_assoc] at hget
    obtain ⟨o, s₁, h₁, hs₁, ho, hget₁, hg₁⟩ := hproc v (hfits v (List.mem_cons_self ..)) _ s h hget hg
    obtain ⟨objs, s₂, h₂, hs₂, hobjs, hget₂, hg₂⟩ :=
      ih (fun w hw => hfits w (List.mem_cons_of_mem _ hw)) hget₁ hg₁
    refine ⟨o :: objs, s₂, h₂, ?_, .cons ho hobjs, hget₂, hg₂⟩
    rw [List.length_cons, List.replicate_succ]
    simp only [elements, hs₁, Option.bind_some, if_true, hs₂, Option.map_some]

theorem xdrArray_decodes (hst : Getting st CanGet) (maxsize elsize : Nat)
    (hproc : Decodes CanGet proc init reads fits enc) :
    Decodes CanGet (xdrArray st .decode maxsize elsize init proc) (0, none) (arrayReads reads)
      (arrayFits maxsize elsize fits) (arrayEnc enc) := by
  rintro l ⟨hmax, hlt, hsize, hfits⟩ c s h hget hg
  rw [arrayEnc, List.append_assoc] at hget
  obtain ⟨s₁, hs₁, hget₁⟩ := xdrUInt_decode hst hlt 0 hget
  have hmax' : ¬ (l.length > maxsize ∧ Op.decode ≠ .free) := fun hm => absurd hm.1 (by omega)
  have hnode : nodesize elsize l.length 0 = some (l.length * elsize) := nodesize_eq _ hsize
  simp only [xdrArray, hs₁, if_neg hmax', hnode]
  by_cases hl : l.length = 0
  · obtain rfl := List.eq_nil_of_length_eq_zero hl
    exact ⟨_, s₁, h, if_pos rfl, ⟨rfl, .inl rfl⟩, hget₁, hg⟩
  · rw [if_neg hl]
    obtain ⟨k, h', hk, hg'⟩ := Heap.malloc_granted hg
    obtain ⟨objs, s₂, h₂, hs₂, hobjs, hget₂, hg₂⟩ := elements_decode hproc l hfits hget₁ hg'
    rw [hk]
    refine ⟨(l.length, some (k, objs)), s₂, h₂, ?_, ⟨rfl, .inr ⟨k, objs, rfl, hobjs⟩⟩, hget₂, hg₂⟩
    simp [arrayElements, hs₂]

theorem xdrVector_decodes (n : Nat) (hproc : Decodes CanGet proc init reads fits enc) :
    Decodes CanGet (xdrVector n proc) (List.replicate n init) (vectorReads reads) (vectorFits n fits)
      (vectorEnc enc) := by
  rintro l ⟨rfl, hfits⟩ c s h hget hg
  obtain ⟨objs, s', h', hs', hobjs, hrest, hg'⟩ := elements_decode hproc l hfits hget hg
  exact ⟨objs, s', h', by simp [xdrVector, hs'], hobjs, hrest, hg'⟩

theorem xdrReference_decodes (hproc : Decodes CanGet proc init reads fits enc) :
    Decodes CanGet (xdrReference .decode init proc) none (referenceReads reads) fits enc := by
  rintro v hv c s h hget hg
  obtain ⟨k, h', hk, hg'⟩ := Heap.malloc_granted hg
  obtain ⟨o, s₁, h₁, hs₁, ho, hget₁, hg₁⟩ := hproc v hv c s h' hget hg'
  exact ⟨some (k, o), s₁, h₁, by simp [xdrReference, hk, hs₁], ⟨k, o, rfl, ho⟩, hget₁, hg₁⟩

theorem xdrPointer_decodes (hst : Getting st CanGet)
    (hproc : Decodes CanGet proc init reads fits enc) :
    Decodes CanGet (xdrPointer st .decode init proc) none (pointerReads reads) (pointerFits fits)
      (pointerEnc enc) := by
  rintro v hv c s h hget hg
  cases v with
  | none =>
    obtain ⟨s₁, hs₁, hget₁⟩ := xdrScalar_decode (k := .bool) hst (.inl rfl) 0 hget
    exact ⟨none, s₁, h, by simp [xdrPointer, hs₁], rfl, hget₁, hg⟩
  | some v =>
    rw [pointerEnc, List.append_assoc] at hget
    obtain ⟨s₁, hs₁, hget₁⟩ := xdrScalar_decode (k := .bool) hst (.inr rfl) 0 hget
    obtain ⟨o, s₂, h₂, hs₂, ho, hget₂, hg₂⟩ := xdrReference_decodes hproc v (hv v rfl) c s₁ h hget₁ hg
    exact ⟨o, s₂, h₂, by simp [xdrPointer, hs₁, hs₂], ho, hget₂, hg₂⟩

theorem xdrPair_decodes {γ δ : Type} {fst : Proc σ α} {snd : Proc σ γ} {init' : γ}
    {reads' : γ → δ → Prop} {fits' : δ → Prop} {enc' : δ → List UInt8}
    (hfst : Decodes CanGet fst init reads fits enc)
    (hsnd : Decodes CanGet snd init' reads' fits' enc') :
    Decodes CanGet (xdrPair fst snd) (init, init') (pairReads reads reads') (pairFits fits fits')
      (pairEnc enc enc') := by
  rintro ⟨v, w⟩ ⟨hv, hw⟩ c s h hget hg
  rw [pairEnc, List.append_assoc] at hget
  obtain ⟨x, s₁, h₁, hs₁, hx, hget₁, hg₁⟩ := hfst v hv _ s h hget hg
  obtain ⟨y, s₂, h₂, hs₂, hy, hget₂, hg₂⟩ := hsnd w hw c s₁ h₁ hget₁ hg₁
  exact ⟨(x, y), s₂, h₂, by simp [xdrPair, hs₁, hs₂], ⟨hx, hy⟩, hget₂, hg₂⟩

theorem xdrUnion_decodes {α β : Nat → Type} (hst : Getting st CanGet) (values : List Int)
    (dfault : Bool) {init : ∀ i, α i} {procs : ∀ i, Proc σ (α i)}
    {reads : ∀ i, α i → β i → Prop} {fits : ∀ i, β i → Prop} {enc : ∀ i, β i → List UInt8}
    (hprocs : ∀ i, Decodes CanGet (procs i) (init i) (reads i) (fits i) (enc i)) :
    Decodes CanGet (xdrUnion st .decode values dfault init procs) (0, none) (unionReads reads)
      (unionFits values dfault fits) (unionEnc enc) := by
  rintro ⟨dscm, i, v⟩ ⟨hdscm, hchoose, hv⟩ c s h hget hg
  rw [unionEnc, List.append_assoc] at hget
  obtain ⟨s₁, hs₁, hget₁⟩ := xdrScalar_decode hst hdscm 0 hget
  obtain ⟨x, s₂, h₂, hs₂, hx, hget₂, hg₂⟩ := hprocs i v hv c s₁ h hget₁ hg
  refine ⟨(dscm, some ⟨i, x⟩), s₂, h₂, ?_, ⟨rfl, x, rfl, hx⟩, hget₂, hg₂⟩
  simp only [xdrUnion, hs₁, hchoose, unionPart, Option.bind_some, hs₂, Option.map_some]

end

/-- **Every type is decoded as it should be**: of the representation of a value, into an object whose
memory is zero, the function for the type makes an object that stands for the value, and leaves what
comes behind. -/
theorem xdr_decodes (hst : Getting st CanGet) (d : Desc) :
    Decodes CanGet (xdr st .decode d) (zero d) (Reads d) (Fits d) (enc d) := by
  induction d with
  | void => exact fun _ _ c s h hget hg => ⟨(), s, h, rfl, trivial, hget, hg⟩
  | scalar k =>
    rintro v hv c s h hget hg
    obtain ⟨s', hs', hrest⟩ := xdrScalar_decode hst hv 0 hget
    exact ⟨v, s', h, by simp only [xdr, zero, hs'], rfl, hrest, hg⟩
  | fixed cnt => exact xdrFixed_decodes hst cnt
  | bytes maxsize => exact xdrBytes_decodes hst maxsize
  | string maxsize => exact xdrString_decodes hst maxsize
  | array maxsize elsize d ih => exact xdrArray_decodes hst maxsize elsize ih
  | vector n d ih => exact xdrVector_decodes n ih
  | pair d e ihd ihe => exact xdrPair_decodes ihd ihe
  | union values dfault part ih => exact xdrUnion_decodes hst values dfault fun i => ih i
  | reference d ih => exact xdrReference_decodes ih
  | pointer d ih => exact xdrPointer_decodes hst ih

end

/-- **What is encoded in memory is decoded from it**: of an object that stands for a value that can be
sent, the function for its type puts the representation at the front of the memory and leaves the rest;
and from there it makes, in an object whose memory is zero, one that stands for the same value, and
stops where it began. -/
theorem xdrmem_roundtrip (d : Desc) {o : Obj d} {v : Val d} (ho : Reads d o v) (hv : Fits d v)
    {addr : List UInt8} (hroom : (enc d v).length ≤ addr.length) (g h : Heap)
    (hg : ∀ b, h.grants b = true) :
    ∃ s, xdr xdrmemOps .encode d o (xdrmemCreate addr) g = some (true, o, s, g) ∧
      s.before = enc d v ∧ s.rest = addr.drop (enc d v).length ∧
      ∃ o' h', xdr xdrmemOps .decode d (zero d) (xdrmemCreate (s.before ++ s.rest)) h =
        some (true, o', s, h') ∧ Reads d o' v := by
  have hput : InMemory addr (0 + (enc d v).length) [] (xdrmemCreate addr) :=
    ⟨rfl, rfl, by rwa [List.length_nil, Nat.zero_add, Nat.zero_add]⟩
  obtain ⟨_, henc⟩ := xdr_encodes (xdrmem_putting addr) d o v ho hv
  obtain ⟨s, hs, hbefore, hrest, _⟩ := henc 0 [] _ g hput (dvd_zero 4)
  rw [List.nil_append] at hbefore
  obtain ⟨o', s', h', hs', ho', ⟨hmem, hrest'⟩, -⟩ :=
    xdr_decodes (xdrmem_getting (s.before ++ s.rest)) d v hv s.rest
      (xdrmemCreate (s.before ++ s.rest)) h ⟨rfl, by rw [hbefore]; rfl⟩ hg
  have heq : s' = s := by
    obtain ⟨before, rest⟩ := s
    obtain ⟨before', rest'⟩ := s'
    obtain rfl : rest' = rest := hrest'
    obtain rfl := List.append_cancel_right hmem
    rfl
  rw [heq] at hs'
  rw [List.nil_append] at hrest
  exact ⟨s, hs, hbefore, hrest, o', h', hs', ho'⟩

/-- A heap that refuses nothing. -/
def Heap.empty : Heap := ⟨0, 0, fun _ => true, fun _ _ => 0⟩

theorem xdrmem_roundtrip_strings :
    ∃ s, xdr xdrmemOps .encode (.array 5 8 (.string 9)) (1, some (0, [some (1, [104, 105, 0])]))
        (xdrmemCreate (List.replicate 16 255)) .empty =
          some (true, (1, some (0, [some (1, [104, 105, 0])])), s, .empty) ∧
      s.before = enc (.array 5 8 (.string 9)) [[104, 105]] ∧
      s.rest = (List.replicate 16 255).drop (enc (.array 5 8 (.string 9)) [[104, 105]]).length ∧
      ∃ o' h', xdr xdrmemOps .decode (.array 5 8 (.string 9)) (0, none)
          (xdrmemCreate (s.before ++ s.rest)) .empty = some (true, o', s, h') ∧
        Reads (.array 5 8 (.string 9)) o' [[104, 105]] := by
  refine xdrmem_roundtrip (.array 5 8 (.string 9)) ⟨rfl, .inr ⟨0, _, rfl, ?_⟩⟩
    ⟨by decide, by decide, by decide, ?_⟩ (by decide) .empty .empty fun _ => rfl
  · exact .cons ⟨1, [], rfl⟩ .nil
  · intro b hb
    obtain rfl := List.mem_singleton.mp hb
    exact ⟨by decide, by decide, by decide⟩

end Dietlibc.Rpc
