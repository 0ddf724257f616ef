import Mathlib.Tactic
import Dietlibc.Base.CInt
import Dietlibc.Base.Chunked
import Dietlibc.Base.Mem

/-!
# MD5

`__MD5Transform`, `MD5Init`, `MD5Update` and `MD5Final` on a machine with the lowest byte of a word
first. `MD5Update` is defined over any function of a state and a block: `md5Block` is the one of the
source. An `int` that overflows, a copy behind the buffer of the context and a read behind the input
are undefined, and the call has no result.
-/

namespace Dietlibc.Crypt

open CInt Mem Chunked

structure State where
  a : UInt32
  b : UInt32
  c : UInt32
  d : UInt32
  deriving DecidableEq

/-! ## The block function -/

def rotateLeft (x n : UInt32) : UInt32 := x <<< n ||| x >>> (32 - n)

def mixF (x y z : UInt32) : UInt32 := z ^^^ (x &&& (y ^^^ z))

def mixG (x y z : UInt32) : UInt32 := y ^^^ (z &&& (x ^^^ y))

def mixH (x y z : UInt32) : UInt32 := x ^^^ y ^^^ z

def mixI (x y z : UInt32) : UInt32 := y ^^^ (x ||| ~~~z)

/-- Round 1: the word, the shift and the constant of each step. -/
def round1 : List (Nat × UInt32 × UInt32) :=
  [(0, 7, 0xd76aa478), (1, 12, 0xe8c7b756), (2, 17, 0x242070db), (3, 22, 0xc1bdceee),
    (4, 7, 0xf57c0faf), (5, 12, 0x4787c62a), (6, 17, 0xa8304613), (7, 22, 0xfd469501),
    (8, 7, 0x698098d8), (9, 12, 0x8b44f7af), (10, 17, 0xffff5bb1), (11, 22, 0x895cd7be),
    (12, 7, 0x6b901122), (13, 12, 0xfd987193), (14, 17, 0xa679438e), (15, 22, 0x49b40821)]

/-- Round 2: the word, the shift and the constant of each step. -/
def round2 : List (Nat × UInt32 × UInt32) :=
  [(1, 5, 0xf61e2562), (6, 9, 0xc040b340), (11, 14, 0x265e5a51), (0, 20, 0xe9b6c7aa),
    (5, 5, 0xd62f105d), (10, 9, 0x02441453), (15, 14, 0xd8a1e681), (4, 20, 0xe7d3fbc8),
    (9, 5, 0x21e1cde6), (14, 9, 0xc33707d6), (3, 14, 0xf4d50d87), (8, 20, 0x455a14ed),
    (13, 5, 0xa9e3e905), (2, 9, 0xfcefa3f8), (7, 14, 0x676f02d9), (12, 20, 0x8d2a4c8a)]

/-- Round 3: the word, the shift and the constant of each step. -/
def round3 : List (Nat × UInt32 × UInt32) :=
  [(5, 4, 0xfffa3942), (8, 11, 0x8771f681), (11, 16, 0x6d9d6122), (14, 23, 0xfde5380c),
    (1, 4, 0xa4beea44), (4, 11, 0x4bdecfa9), (7, 16, 0xf6bb4b60), (10, 23, 0xbebfbc70),
    (13, 4, 0x289b7ec6), (0, 11, 0xeaa127fa), (3, 16, 0xd4ef3085), (6, 23, 0x04881d05),
    (9, 4, 0xd9d4d039), (12, 11, 0xe6db99e5), (15, 16, 0x1fa27cf8), (2, 23, 0xc4ac5665)]

/-- Round 4: the word, the shift and the constant of each step. -/
def round4 : List (Nat × UInt32 × UInt32) :=
  [(0, 6, 0xf4292244), (7, 10, 0x432aff97), (14, 15, 0xab9423a7), (5, 21, 0xfc93a039),
    (12, 6, 0x655b59c3), (3, 10, 0x8f0ccc92), (10, 15, 0xffeff47d), (1, 21, 0x85845dd1),
    (8, 6, 0x6fa87e4f), (15, 10, 0xfe2ce6e0), (6, 15, 0xa3014314), (13, 21, 0x4e0811a1),
    (4, 6, 0xf7537e82), (11, 10, 0xbd3af235), (2, 15, 0x2ad7d2bb), (9, 21, 0xeb86d391)]

/-- Word `k` of a block. -/
def blockWord (block : List UInt8) (k : Nat) : UInt32 :=
  (block.getD (4 * k) 0).toUInt32 ||| (block.getD (4 * k + 1) 0).toUInt32 <<< 8 |||
    (block.getD (4 * k + 2) 0).toUInt32 <<< 16 ||| (block.getD (4 * k + 3) 0).toUInt32 <<< 24

/-- `FF`, `GG`, `HH` and `II`. The next step has the registers in turn. -/
def md5Step (fn : UInt32 → UInt32 → UInt32 → UInt32) (block : List UInt8) (r : State)
    (p : Nat × UInt32 × UInt32) : State :=
  let a := rotateLeft (r.a + (fn r.b r.c r.d + blockWord block p.1 + p.2.2)) p.2.1 + r.b
  ⟨r.d, a, r.b, r.c⟩

/-- A turn of the loop of `__MD5Transform`. -/
def md5Block (state : State) (block : List UInt8) : State :=
  let r := round1.foldl (md5Step mixF block) state
  let r := round2.foldl (md5Step mixG block) r
  let r := round3.foldl (md5Step mixH block) r
  let r := round4.foldl (md5Step mixI block) r
  ⟨r.a + state.a, r.b + state.b, r.c + state.c, r.d + state.d⟩

/-! ## The context -/

structure Md5Ctx where
  state : State
  count0 : Nat
  count1 : Nat
  buffer : Mem

/-- The magic constants. -/
def initial : State := ⟨0x67452301, 0xefcdab89, 0x98badcfe, 0x10325476⟩

/-- `MD5Init`. The buffer is not touched. -/
def md5Init (context : Md5Ctx) : Md5Ctx :=
  { context with count0 := 0, count1 := 0, state := initial }

section Update

variable (transform : State → List UInt8 → State)

/-- `__MD5Transform`: `repeat` is an `int`, and below zero the loop does not end. -/
def md5Transform (state : State) (input : List UInt8) (rep : Int) : Option State :=
  if rep < 0 ∨ input.length < 64 * rep then none
  else some (folded transform 64 rep.toNat state input)

/-- The copy of the remaining input. -/
def bufferInput (context : Md5Ctx) (byteIndex : Nat) (input : List UInt8) (i : Int) :
    Option Md5Ctx :=
  if 0 ≤ i ∧ i ≤ input.length ∧ byteIndex + (input.length - i) ≤ 64 then
    some { context with buffer := store context.buffer byteIndex (input.drop i.toNat) }
  else none

/-- `count[1]` after the two additions. The sum of the low words is compared as a `size_t`. -/
def nextCount1 (count0 count1 inputBytes : Nat) : Nat :=
  let bits := inputBytes * 8 % 2 ^ 64
  let carried := if (count0 + bits) % 2 ^ 32 < bits then (count1 + 1) % 2 ^ 32 else count1
  (carried + inputBytes / 2 ^ 29) % 2 ^ 32

/-- `i = partLen + 64 * len` -/
def inputIndex (partLen : Nat) (len : Int) : Option Int :=
  (sval 32 (64 * len)).map fun n => conv 32 ((partLen + n) % 2 ^ 32)

def md5Update (context : Md5Ctx) (input : List UInt8) : Option Md5Ctx :=
  let byteIndex := context.count0 / 8 % 64
  let count0 := (context.count0 + input.length * 8 % 2 ^ 64) % 2 ^ 32
  let count1 := nextCount1 context.count0 context.count1 input.length
  let partLen := 64 - byteIndex
  if partLen ≤ input.length then
    let buffer := store context.buffer byteIndex (input.take partLen)
    let state := transform context.state (load buffer 0 64)
    let len := conv 32 ((input.length - partLen) / 64 : Nat)
    (md5Transform transform state (input.drop partLen) len).bind fun state =>
      (inputIndex partLen len).bind fun i =>
        bufferInput ⟨state, count0, count1, buffer⟩ 0 input i
  else bufferInput ⟨context.state, count0, count1, context.buffer⟩ byteIndex input 0

def md5Updates (context : Md5Ctx) (chunks : List (List UInt8)) : Option Md5Ctx :=
  chunks.foldlM (md5Update transform) context

end Update

/-- The bytes of a word, the lowest first. -/
def wordBytes32 (w : Nat) : List UInt8 := (List.range 4).map fun k => UInt8.ofNat (w / 256 ^ k)

def digestOf (s : State) : List UInt8 :=
  wordBytes32 s.a.toNat ++ wordBytes32 s.b.toNat ++ wordBytes32 s.c.toNat ++ wordBytes32 s.d.toNat

/-- `finalBlock` -/
def finalBlock : List UInt8 := 0x80 :: List.replicate 63 0

/-- `MD5Final`: the digest. -/
def md5Final (transform : State → List UInt8 → State) (context : Md5Ctx) : Option (List UInt8) :=
  let byteIndex := context.count0 / 8 % 64
  let finalBlockLength := (if byteIndex < 56 then 56 else 120) - byteIndex
  let bits := wordBytes32 context.count0 ++ wordBytes32 context.count1
  (md5Updates transform context [finalBlock.take finalBlockLength, bits]).map fun context =>
    digestOf context.state

/-- `MD5Init`, the updates and `MD5Final`. -/
def md5 (transform : State → List UInt8 → State) (context : Md5Ctx) (chunks : List (List UInt8)) :
    Option (List UInt8) :=
  (md5Updates transform (md5Init context) chunks).bind (md5Final transform)

/-! ## The construction of the standard -/

/-- The bytes behind a message of `n` bytes: the bit one, zeros, and the number of bits. -/
def padding (n : Nat) : List UInt8 :=
  0x80 :: List.replicate ((119 - n % 64) % 64) 0 ++
    (List.range 8).map fun k => UInt8.ofNat (8 * n % 2 ^ 64 / 256 ^ k)

/-- The construction of the standard over a block function. -/
def construction (transform : State → List UInt8 → State) (m : List UInt8) : List UInt8 :=
  let padded := m ++ padding m.length
  digestOf (folded transform 64 (padded.length / 64) initial padded)

example : construction md5Block [] = [0xd4, 0x1d, 0x8c, 0xd9, 0x8f, 0x00, 0xb2, 0x04, 0xe9, 0x80,
    0x09, 0x98, 0xec, 0xf8, 0x42, 0x7e] := by decide +kernel

end Dietlibc.Crypt
