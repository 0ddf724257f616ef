import Mathlib.Tactic

/-!
# Words of bytes

A word is a bit vector of `n` bytes, and byte `0` has the lowest bits. Words are compared byte by byte,
and the bitwise operations work on each byte. A subtraction works on each byte with a borrow from the
bytes below. `zeroTest` looks for a byte that is zero.
-/

namespace Word

variable {w n i : Nat} {x y : BitVec w}

def byte (x : BitVec w) (i : Nat) : UInt8 := ⟨x.extractLsb' (8 * i) 8⟩

theorem toNat_byte (x : BitVec w) (i : Nat) : (byte x i).toNat = x.toNat / 2 ^ (8 * i) % 256 := by
  show (x.extractLsb' (8 * i) 8).toNat = _
  rw [BitVec.extractLsb'_toNat, Nat.shiftRight_eq_div_pow]

theorem getLsbD_byte (x : BitVec w) (i j : Nat) :
    (byte x i).toBitVec.getLsbD j = (decide (j < 8) && x.getLsbD (8 * i + j)) :=
  BitVec.getLsbD_extractLsb' _ _ _ _

/-- A word is its bytes. -/
theorem ext {x y : BitVec (8 * n)} (h : ∀ i < n, byte x i = byte y i) : x = y := by
  refine BitVec.eq_of_getLsbD_eq fun j hj => ?_
  have hbyte := congrArg (fun b : UInt8 => b.toBitVec.getLsbD (j % 8)) (h (j / 8) (by omega))
  have hlow : decide (j % 8 < 8) = true := decide_eq_true (Nat.mod_lt j (by decide))
  rw [getLsbD_byte, getLsbD_byte, hlow, Bool.true_and, Bool.true_and, Nat.div_add_mod] at hbyte
  exact hbyte

theorem byte_and (x y : BitVec w) (i : Nat) : byte (x &&& y) i = byte x i &&& byte y i :=
  congrArg UInt8.ofBitVec BitVec.extractLsb'_and

theorem byte_not (x : BitVec (8 * n)) (h : i < n) : byte (~~~x) i = ~~~byte x i := by
  refine UInt8.toBitVec_inj.1 (BitVec.eq_of_getLsbD_eq fun j hj => ?_)
  have hin : decide (8 * i + j < 8 * n) = true := decide_eq_true (by omega)
  rw [getLsbD_byte, BitVec.getLsbD_not, UInt8.toBitVec_not, BitVec.getLsbD_not, getLsbD_byte, hin]
  cases decide (j < 8) <;> cases x.getLsbD (8 * i + j) <;> rfl

theorem byte_shiftLeft (x : BitVec (8 * n)) (k : Nat) (hi : i < n) :
    byte (x <<< (8 * k)) i = if i < k then 0 else byte x (i - k) := by
  refine UInt8.toBitVec_inj.1 (BitVec.eq_of_getLsbD_eq fun j hj => ?_)
  have hin : decide (8 * i + j < 8 * n) = true := decide_eq_true (by omega)
  rw [getLsbD_byte, BitVec.getLsbD_shiftLeft, hin, decide_eq_true hj, Bool.true_and, Bool.true_and]
  by_cases hik : i < k
  · rw [if_pos hik, decide_eq_true (by omega : 8 * i + j < 8 * k)]
    simp
  · rw [if_neg hik, decide_eq_false (by omega : ¬8 * i + j < 8 * k), getLsbD_byte, decide_eq_true hj,
      show 8 * i + j - 8 * k = 8 * (i - k) + j by omega]
    rfl

theorem byte_ushiftRight (x : BitVec w) (k i : Nat) : byte (x >>> (8 * k)) i = byte x (k + i) := by
  refine UInt8.toBitVec_inj.1 (BitVec.eq_of_getLsbD_eq fun j hj => ?_)
  rw [getLsbD_byte, getLsbD_byte, BitVec.getLsbD_ushiftRight, Nat.mul_add, Nat.add_assoc]

theorem byte_setWidth {v : Nat} (x : BitVec w) (h : 8 * i + 8 ≤ v) :
    byte (x.setWidth v) i = byte x i := by
  refine UInt8.toBitVec_inj.1 (BitVec.eq_of_getLsbD_eq fun j hj => ?_)
  rw [getLsbD_byte, getLsbD_byte, BitVec.getLsbD_setWidth, decide_eq_true (by omega : 8 * i + j < v),
    Bool.true_and]

theorem byte_of_le (x : BitVec w) (h : w ≤ 8 * i) : byte x i = 0 := by
  refine UInt8.toNat_inj.1 ?_
  rw [toNat_byte, Nat.div_eq_of_lt (Nat.lt_of_lt_of_le x.isLt (Nat.pow_le_pow_right (by decide) h))]
  rfl

/-! ## Words from bytes -/

/-- The value of `n` bytes. -/
def val : Nat → (Nat → UInt8) → Nat
  | 0, _ => 0
  | n + 1, b => val n b + (b n).toNat * 2 ^ (8 * n)

def ofBytes (n : Nat) (b : Nat → UInt8) : BitVec (8 * n) := BitVec.ofNat (8 * n) (val n b)

theorem pow_succ_byte (i : Nat) : 2 ^ (8 * (i + 1)) = 2 ^ (8 * i) * 256 := by
  rw [Nat.mul_add, Nat.pow_add]

theorem val_lt (n : Nat) (b : Nat → UInt8) : val n b < 2 ^ (8 * n) := by
  induction n with
  | zero => exact Nat.one_pos
  | succ n ih =>
    have hb : (b n).toNat ≤ 255 := Nat.le_of_lt_succ (b n).toNat_lt
    have hmul := Nat.mul_le_mul_right (2 ^ (8 * n)) hb
    rw [val, pow_succ_byte]
    omega

theorem val_div (h : i < n) (b : Nat → UInt8) : val n b / 2 ^ (8 * i) % 256 = (b i).toNat := by
  have hpos : 0 < 2 ^ (8 * i) := Nat.two_pow_pos _
  have hb : (b i).toNat < 256 := (b i).toNat_lt
  induction n with
  | zero => exact absurd h (Nat.not_lt_zero i)
  | succ n ih =>
    rcases Nat.lt_succ_iff_lt_or_eq.1 h with hlt | rfl
    · have hpow : 2 ^ (8 * n) = 2 ^ (8 * i) * (256 * 2 ^ (8 * (n - i - 1))) := by
        rw [← Nat.mul_assoc, ← pow_succ_byte, ← Nat.pow_add]
        congr 1
        omega
      rw [val, hpow, ← Nat.mul_assoc, Nat.mul_comm (b n).toNat, Nat.mul_assoc,
        Nat.add_mul_div_left _ _ hpos, Nat.mul_comm (b n).toNat, Nat.mul_assoc,
        Nat.add_mul_mod_self_left]
      exact ih hlt
    · rw [val, Nat.add_mul_div_right _ _ hpos, Nat.div_eq_of_lt (val_lt i b), Nat.zero_add,
        Nat.mod_eq_of_lt hb]

/-- The bytes a word is made from. -/
theorem byte_ofBytes (b : Nat → UInt8) (h : i < n) : byte (ofBytes n b) i = b i := by
  refine UInt8.toNat_inj.1 ?_
  rw [toNat_byte, ofBytes, BitVec.toNat_ofNat, Nat.mod_eq_of_lt (val_lt n b), val_div h]

/-! ## Subtraction -/

/-- The subtraction of the bytes below byte `i` needs one from it. -/
def borrow (x y : BitVec w) (i : Nat) : Bool := x.toNat % 2 ^ (8 * i) < y.toNat % 2 ^ (8 * i)

theorem borrow_zero (x y : BitVec w) : borrow x y 0 = false := by
  unfold borrow
  rw [Nat.mul_zero, Nat.pow_zero, Nat.mod_one, Nat.mod_one]
  rfl

theorem borrow_succ (x y : BitVec w) (i : Nat) : borrow x y (i + 1) = true ↔
    byte x i < byte y i ∨ byte x i = byte y i ∧ borrow x y i = true := by
  have hx := Nat.mod_lt x.toNat (Nat.two_pow_pos (8 * i))
  have hy := Nat.mod_lt y.toNat (Nat.two_pow_pos (8 * i))
  unfold borrow
  rw [decide_eq_true_eq, decide_eq_true_eq, UInt8.lt_iff_toNat_lt, ← UInt8.toNat_inj, toNat_byte,
    toNat_byte, pow_succ_byte, Nat.mod_mul, Nat.mod_mul]
  generalize x.toNat / 2 ^ (8 * i) % 256 = a
  generalize y.toNat / 2 ^ (8 * i) % 256 = b
  rcases Nat.lt_trichotomy a b with h | rfl | h
  · have hmul := Nat.mul_le_mul_left (2 ^ (8 * i)) (Nat.succ_le_of_lt h)
    rw [Nat.mul_succ] at hmul
    omega
  · omega
  · have hmul := Nat.mul_le_mul_left (2 ^ (8 * i)) (Nat.succ_le_of_lt h)
    rw [Nat.mul_succ] at hmul
    omega

/-- **A byte of a difference.** -/
theorem byte_sub (x y : BitVec (8 * n)) (h : i < n) :
    byte (x - y) i = byte x i - byte y i - if borrow x y i then 1 else 0 := by
  obtain ⟨q, hq⟩ : ∃ q, 2 ^ (8 * n) = 2 ^ (8 * i) * (256 * q) :=
    ⟨2 ^ (8 * (n - i - 1)), by
      rw [← Nat.mul_assoc, ← pow_succ_byte, ← Nat.pow_add]
      congr 1
      omega⟩
  have hlt := y.isLt
  have hpos := Nat.two_pow_pos (8 * i)
  have hx := Nat.mod_lt x.toNat hpos
  have hy := Nat.mod_lt y.toNat hpos
  have hxsplit := Nat.mod_add_div x.toNat (2 ^ (8 * i))
  have hysplit := Nat.mod_add_div y.toNat (2 ^ (8 * i))
  rw [hq] at hlt
  -- the bytes of the power of two above byte `i`, less those of `y`
  obtain ⟨d, hd⟩ : ∃ d, 256 * q = d + y.toNat / 2 ^ (8 * i) + 1 :=
    ⟨256 * q - y.toNat / 2 ^ (8 * i) - 1, by
      have := Nat.div_lt_of_lt_mul hlt
      omega⟩
  have hpow : 2 ^ (8 * i) * (256 * q) =
      2 ^ (8 * i) * d + 2 ^ (8 * i) * (y.toNat / 2 ^ (8 * i)) + 2 ^ (8 * i) := by
    rw [hd]
    ring
  refine UInt8.toNat_inj.1 ?_
  rw [toNat_byte, BitVec.toNat_sub, hq, Nat.mod_mul_right_div_self, Nat.mod_mul_right_mod,
    UInt8.toNat_sub, UInt8.toNat_sub, toNat_byte, toNat_byte]
  by_cases hb : borrow x y i = true
  · have hlow : x.toNat % 2 ^ (8 * i) < y.toNat % 2 ^ (8 * i) := of_decide_eq_true hb
    have hsum : 2 ^ (8 * i) * (256 * q) - y.toNat + x.toNat =
        (2 ^ (8 * i) - y.toNat % 2 ^ (8 * i) + x.toNat % 2 ^ (8 * i)) +
          2 ^ (8 * i) * (d + x.toNat / 2 ^ (8 * i)) := by
      rw [Nat.mul_add]
      omega
    rw [if_pos hb, hsum, Nat.add_mul_div_left _ _ hpos, Nat.div_eq_of_lt (by omega),
      show (1 : UInt8).toNat = 1 from rfl]
    omega
  · have hlow : ¬x.toNat % 2 ^ (8 * i) < y.toNat % 2 ^ (8 * i) := fun h => hb (decide_eq_true h)
    have hsum : 2 ^ (8 * i) * (256 * q) - y.toNat + x.toNat =
        (x.toNat % 2 ^ (8 * i) - y.toNat % 2 ^ (8 * i)) +
          2 ^ (8 * i) * (d + 1 + x.toNat / 2 ^ (8 * i)) := by
      rw [Nat.mul_add, Nat.mul_add, Nat.mul_one]
      omega
    rw [if_neg hb, hsum, Nat.add_mul_div_left _ _ hpos, Nat.div_eq_of_lt (by omega),
      show (0 : UInt8).toNat = 0 from rfl]
    omega

/-! ## Zero bytes -/

/-- A byte that is zero makes this nonzero, if the bytes of `ones` are `1` and those of `highs` are
`0x80`. -/
def zeroTest (ones highs x : BitVec w) : BitVec w := (x - ones) &&& ~~~x &&& highs

theorem byte_zero (w i : Nat) : byte (0 : BitVec w) i = 0 :=
  UInt8.toNat_inj.1 (by rw [toNat_byte]; simp)

theorem mark_byte (b : UInt8) (c : Bool) : (b - 1 - if c then 1 else 0) &&& ~~~b &&& 0x80 =
    if b = 0 ∨ b = 1 ∧ c = true then 0x80 else 0 := by
  have hall : ∀ (k : Fin 256) (c : Bool), (UInt8.ofFin k - 1 - if c then 1 else 0) &&&
      ~~~(UInt8.ofFin k) &&& 0x80 =
        if UInt8.ofFin k = 0 ∨ UInt8.ofFin k = 1 ∧ c = true then 0x80 else 0 := by
    decide +kernel
  exact hall b.toFin c

section

variable {ones highs x : BitVec (8 * n)}

theorem borrow_ones (h : byte ones i = 1) : borrow x ones (i + 1) = true ↔
    byte x i = 0 ∨ byte x i = 1 ∧ borrow x ones i = true := by
  rw [borrow_succ, h, UInt8.lt_one_iff]

/-- **A byte is marked if the subtraction needs to borrow for it.** -/
theorem byte_zeroTest (hones : ∀ i < n, byte ones i = 1) (hhighs : ∀ i < n, byte highs i = 0x80)
    (h : i < n) :
    byte (zeroTest ones highs x) i = if borrow x ones (i + 1) = true then 0x80 else 0 := by
  unfold zeroTest
  rw [byte_and, byte_and, byte_sub _ _ h, byte_not _ h, hones i h, hhighs i h, mark_byte]
  simp only [borrow_ones (hones i h)]

theorem not_borrow (hones : ∀ i < n, byte ones i = 1) (hi : i ≤ n) (h : ∀ j < i, byte x j ≠ 0) :
    borrow x ones i = false := by
  induction i with
  | zero => exact borrow_zero x ones
  | succ i ih =>
    have hbelow := ih (Nat.le_of_succ_le hi) fun j hj => h j (Nat.lt_succ_of_lt hj)
    rw [← Bool.not_eq_true, borrow_ones (hones i hi), hbelow]
    rintro (hzero | ⟨-, hb⟩)
    · exact h i (Nat.lt_succ_self i) hzero
    · cases hb

/-- **The test finds a byte that is zero if there is one.** -/
theorem zeroTest_eq_zero_iff (hones : ∀ i < n, byte ones i = 1)
    (hhighs : ∀ i < n, byte highs i = 0x80) :
    zeroTest ones highs x = 0 ↔ ∀ i < n, byte x i ≠ 0 := by
  constructor
  · intro h i hi hzero
    have hmark := byte_zeroTest (x := x) hones hhighs hi
    rw [h, byte_zero, if_pos ((borrow_ones (hones i hi)).2 (.inl hzero))] at hmark
    exact absurd hmark (by decide)
  · intro h
    refine ext fun i hi => ?_
    rw [byte_zeroTest hones hhighs hi, byte_zero,
      not_borrow hones hi fun j hj => h j (Nat.lt_of_lt_of_le hj hi)]
    rfl

end

end Word
