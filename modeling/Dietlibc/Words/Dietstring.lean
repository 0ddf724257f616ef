import Mathlib.Data.LawfulXor.Basic
import Dietlibc.Base.Mem
import Dietlibc.Base.Word

/-!
# Words of memory

A word in memory has its bytes in one of two orders, and four or eight of them. The macros of
`dietstring.h` align addresses and take words apart.
-/

namespace Dietlibc.Words

open Word

inductive Size where
  | four | eight
  deriving DecidableEq

/-- `sizeof(word_t)`, or `sizeof(unsigned long)` -/
def Size.bytes : Size → Nat
  | four => 4
  | eight => 8

/-- `__BYTE_ORDER` -/
inductive Order where
  | little | big
  deriving DecidableEq

/-- `word_t`, or `unsigned long` -/
abbrev WordT (z : Size) := BitVec (8 * z.bytes)

/-- `*((word_t const *) t)` -/
def wordAt (o : Order) (z : Size) (m : Mem) (t : Nat) : WordT z :=
  match o with
  | .little => ofBytes z.bytes fun i => m (t + i)
  | .big => ofBytes z.bytes fun i => m (t + (z.bytes - 1 - i))

/-- There is a string of `len` bytes at `s`. -/
structure StringAt (m : Mem) (s len : Nat) : Prop where
  nul : m (s + len) = 0
  ne_nul : ∀ i < len, m (s + i) ≠ 0

section

variable {o : Order} {z : Size} {m : Mem} {s len : Nat}

theorem StringAt.ne (h : StringAt m s len) {a : Nat} (hs : s ≤ a) (ha : a < s + len) : m a ≠ 0 := by
  have hne := h.ne_nul (a - s) (by omega)
  rwa [Nat.add_sub_cancel' hs] at hne

theorem StringAt.tail (h : StringAt m s (len + 1)) : StringAt m (s + 1) len := by
  refine ⟨?_, fun i hi => ?_⟩
  · rw [Nat.add_assoc, Nat.add_comm 1]
    exact h.nul
  · rw [Nat.add_assoc, Nat.add_comm 1]
    exact h.ne_nul (i + 1) (by omega)

theorem bytes_pos (z : Size) : 0 < z.bytes := by cases z <;> decide

/-- `sizeof(word)` is a power of two. -/
theorem aligned_iff (z : Size) (t : Nat) : t &&& (z.bytes - 1) = 0 ↔ t % z.bytes = 0 := by
  cases z with
  | four => rw [show Size.four.bytes = 2 ^ 2 from rfl, Nat.and_two_pow_sub_one_eq_mod]
  | eight => rw [show Size.eight.bytes = 2 ^ 3 from rfl, Nat.and_two_pow_sub_one_eq_mod]

/-! ## Macros -/

/-- `STRALIGN(x)` -/
def stralign (z : Size) (x : Nat) : Nat :=
  (((BitVec.ofNat (8 * z.bytes) x + BitVec.ofNat _ z.bytes - 1) &&& -BitVec.ofNat _ z.bytes) -
    BitVec.ofNat _ x).toNat

/-- `MKW(x)`, which has the type of its constant -/
def mkw (x : Nat) : BitVec 64 := BitVec.ofNat 64 (x * 0x0101010101010101)

/-- `((l - MKW(0x1ul)) & ~l) & MKW(0x80ul)` -/
def nulTest {z : Size} (l : WordT z) : BitVec 64 :=
  ((l.setWidth 64 - mkw 0x1) &&& (~~~l).setWidth 64) &&& mkw 0x80

/-- `GFC(x)`, as an `unsigned char` -/
def gfc (o : Order) {z : Size} (x : WordT z) : UInt8 :=
  match o with
  | .little => UInt8.ofNat (x &&& 0xff).toNat
  | .big => UInt8.ofNat ((x >>> (z.bytes * 8 - 8)) &&& 0xff).toNat

/-- `INCSTR(x)` -/
def incstr (o : Order) {z : Size} (x : WordT z) : WordT z :=
  match o with
  | .little => x >>> 8
  | .big => x <<< 8

/-- `UNALIGNED(x,y)` -/
def unaligned (z : Size) (x y : Nat) : Nat := (x &&& (z.bytes - 1)) ^^^ (y &&& (z.bytes - 1))

theorem and_bytes_sub_one (z : Size) (x : Nat) : x &&& (z.bytes - 1) = x % z.bytes := by
  cases z with
  | four => exact Nat.and_two_pow_sub_one_eq_mod x 2
  | eight => exact Nat.and_two_pow_sub_one_eq_mod x 3

theorem unaligned_iff (z : Size) (x y : Nat) : unaligned z x y = 0 ↔ x % z.bytes = y % z.bytes := by
  unfold unaligned
  rw [xor_eq_zero_iff, and_bytes_sub_one, and_bytes_sub_one]

theorem and_high {a k n : Nat} (h : a < 2 ^ k * 2 ^ n) :
    a &&& 2 ^ k * (2 ^ n - 1) = 2 ^ k * (a / 2 ^ k) := by
  refine Nat.eq_of_testBit_eq fun i => ?_
  rw [Nat.testBit_and, Nat.testBit_two_pow_mul, Nat.testBit_two_pow_mul, Nat.testBit_div_two_pow,
    Nat.testBit_two_pow_sub_one]
  by_cases hi : k ≤ i
  · rw [decide_eq_true hi, Bool.true_and, Bool.true_and, Nat.sub_add_cancel hi]
    by_cases hn : i - k < n
    · rw [decide_eq_true hn, Bool.and_true]
    · have hlt : a < 2 ^ i := Nat.lt_of_lt_of_le h
        (by rw [← Nat.pow_add]; exact Nat.pow_le_pow_right (by decide) (by omega))
      rw [Nat.testBit_lt_two_pow hlt, Bool.false_and]
  · rw [decide_eq_false hi, Bool.false_and, Bool.false_and, Bool.and_false]

/-- The bytes up to the next word. -/
theorem stralign_eq (z : Size) (x : Nat) : stralign z x = (z.bytes - x % z.bytes) % z.bytes := by
  cases z with
  | four =>
    show ((BitVec.ofNat 32 x + 4#32 - 1#32 &&& -4#32) - BitVec.ofNat 32 x).toNat = (4 - x % 4) % 4
    rw [BitVec.toNat_sub, BitVec.toNat_and, show (-4#32).toNat = 2 ^ 2 * (2 ^ 30 - 1) from rfl,
      and_high (show _ < 2 ^ 2 * 2 ^ 30 from BitVec.isLt _)]
    simp only [BitVec.toNat_sub, BitVec.toNat_add, BitVec.toNat_ofNat]
    omega
  | eight =>
    show ((BitVec.ofNat 64 x + 8#64 - 1#64 &&& -8#64) - BitVec.ofNat 64 x).toNat = (8 - x % 8) % 8
    rw [BitVec.toNat_sub, BitVec.toNat_and, show (-8#64).toNat = 2 ^ 3 * (2 ^ 61 - 1) from rfl,
      and_high (show _ < 2 ^ 3 * 2 ^ 61 from BitVec.isLt _)]
    simp only [BitVec.toNat_sub, BitVec.toNat_add, BitVec.toNat_ofNat]
    omega

/-- The byte at offset `j` of a word. -/
def charAt (o : Order) {z : Size} (x : WordT z) (j : Nat) : UInt8 :=
  match o with
  | .little => byte x j
  | .big => byte x (z.bytes - 1 - j)

variable {x y : WordT z} {j : Nat}

theorem charAt_wordAt {t : Nat} (h : j < z.bytes) : charAt o (wordAt o z m t) j = m (t + j) := by
  cases o with
  | little => exact byte_ofBytes (fun i => m (t + i)) h
  | big =>
    refine (byte_ofBytes (fun i => m (t + (z.bytes - 1 - i))) (by omega)).trans ?_
    rw [show z.bytes - 1 - (z.bytes - 1 - j) = j by omega]

theorem ext_charAt (h : ∀ j < z.bytes, charAt o x j = charAt o y j) : x = y := by
  refine ext fun i hi => ?_
  cases o with
  | little => exact h i hi
  | big =>
    have hbyte := h (z.bytes - 1 - i) (by omega)
    unfold charAt at hbyte
    dsimp only at hbyte
    rwa [show z.bytes - 1 - (z.bytes - 1 - i) = i by omega] at hbyte

theorem charAt_incstr (h : j + 1 < z.bytes) : charAt o (incstr o x) j = charAt o x (j + 1) := by
  cases o with
  | little =>
    refine (byte_ushiftRight x 1 j).trans ?_
    rw [Nat.add_comm]
    rfl
  | big =>
    refine (byte_shiftLeft x 1 (by omega)).trans ?_
    rw [if_neg (by omega)]
    rw [show z.bytes - 1 - j - 1 = z.bytes - 1 - (j + 1) by omega]
    rfl

theorem toNat_and_255 (x : WordT z) : (UInt8.ofNat (x &&& 0xff).toNat).toNat = x.toNat % 256 := by
  have hmask : (0xff : WordT z).toNat = 2 ^ 8 - 1 := by cases z <;> rfl
  rw [UInt8.toNat_ofNat', BitVec.toNat_and, hmask, Nat.and_two_pow_sub_one_eq_mod, Nat.mod_mod]

theorem gfc_eq (o : Order) (x : WordT z) : gfc o x = charAt o x 0 := by
  refine UInt8.toNat_inj.1 ?_
  cases o with
  | little =>
    show (UInt8.ofNat (x &&& 0xff).toNat).toNat = (byte x 0).toNat
    rw [toNat_and_255, toNat_byte, Nat.mul_zero, Nat.pow_zero, Nat.div_one]
  | big =>
    show (UInt8.ofNat ((x >>> (z.bytes * 8 - 8)) &&& 0xff).toNat).toNat =
      (byte x (z.bytes - 1 - 0)).toNat
    rw [toNat_and_255, toNat_byte, BitVec.toNat_ushiftRight, Nat.shiftRight_eq_div_pow,
      show 8 * (z.bytes - 1 - 0) = z.bytes * 8 - 8 by omega]

/-- **The test finds a NUL if there is one.** -/
theorem nulTest_iff (o : Order) (x : WordT z) : nulTest x = 0 ↔ ∀ j < z.bytes, charAt o x j ≠ 0 := by
  have hle : z.bytes ≤ 8 := by cases z <;> decide
  have hones : ∀ i < 8, byte (mkw 0x1) i = 1 := by decide
  have hhighs : ∀ i < 8, byte (mkw 0x80) i = 0x80 := by decide
  have hbyte : ∀ i < z.bytes, byte (nulTest x) i =
      if borrow (x.setWidth 64) (mkw 0x1) (i + 1) = true then 0x80 else 0 := by
    intro i hi
    have hwide := byte_zeroTest (n := 8) (x := x.setWidth 64) hones hhighs (show i < 8 by omega)
    rw [← hwide]
    unfold nulTest zeroTest
    rw [byte_and, byte_and, byte_and, byte_and, byte_setWidth _ (by omega), byte_not _ hi,
      byte_not (n := 8) _ (by omega), byte_setWidth _ (by omega)]
  have hone : ∀ i < z.bytes, byte (x.setWidth 64) i = byte x i := fun i hi =>
    byte_setWidth x (by omega)
  have hchar : (∀ j < z.bytes, charAt o x j ≠ 0) ↔ ∀ i < z.bytes, byte x i ≠ 0 := by
    cases o with
    | little => exact Iff.rfl
    | big =>
      refine ⟨fun h i hi => ?_, fun h j hj => h (z.bytes - 1 - j) (by omega)⟩
      have hi' := h (z.bytes - 1 - i) (by omega)
      unfold charAt at hi'
      rwa [show z.bytes - 1 - (z.bytes - 1 - i) = i by omega] at hi'
  rw [hchar]
  constructor
  · intro h i hi hzero
    have hmark := hbyte i hi
    rw [h, byte_zero, if_pos ((borrow_ones (n := 8) (hones i (by omega))).2
      (.inl ((hone i hi).trans hzero)))] at hmark
    exact absurd hmark (by decide)
  · intro h
    refine ext (n := 8) fun i hi => ?_
    rw [byte_zero]
    by_cases hiz : i < z.bytes
    · rw [hbyte i hiz, not_borrow (n := 8) hones hi fun j hj => by
        rw [hone j (by omega)]
        exact h j (by omega)]
      rfl
    · unfold nulTest
      rw [byte_and, byte_and, byte_setWidth (~~~x) (by omega), byte_of_le (~~~x) (by omega),
        UInt8.and_zero, UInt8.zero_and]

end

end Dietlibc.Words
