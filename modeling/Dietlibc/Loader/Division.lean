import Dietlibc.Base.Machine
import Dietlibc.Base.Restoring

/-!
# `_dl_div` and `_dl_mod`

An `unsigned long` is a `BitVec w`. The loop that justifies the denominator stops at the sign of an
`int`: bit 31, whatever the width of `unsigned long` is.
-/

namespace Dietlibc.Loader

open Machine Restoring

variable {w : Nat}

/-- The value of `_dl_div` and what it stores in `*rem`, if `rem` is given: nothing where it returns
early. -/
structure Quotient (w : Nat) where
  quot : BitVec w
  rem : Option (BitVec w)
  deriving DecidableEq

/-- Where `_dl_div` is: at its start or at the head of one of its loops. -/
inductive DivState (w : Nat) where
  | enter (num den : BitVec w)
  | justify (num den qbit : BitVec w)
  | subtract (num den quot qbit : BitVec w)

/-- One step of `_dl_div`. -/
def dlDivStep : DivState w → Next (DivState w) (Quotient w) Empty
  | .enter num den => if den = 0 then .stop ⟨0, none⟩ else .again (.justify num den 1)
  | .justify num den qbit =>
    -- `(int) den`
    if 0 ≤ (den.setWidth 32).toInt then .again (.justify num (den <<< 1) (qbit <<< 1))
    else .again (.subtract num den 0 qbit)
  | .subtract num den quot qbit =>
    if qbit = 0 then .stop ⟨quot, some num⟩
    else if den ≤ num then .again (.subtract (num - den) (den >>> 1) (quot + qbit) (qbit >>> 1))
    else .again (.subtract num (den >>> 1) quot (qbit >>> 1))

/-- `_dl_div(num, den, &rem)` returns. -/
def DlDiv (num den : BitVec w) (r : Quotient w) : Prop := Stops dlDivStep (.enter num den) r

/-- `_dl_mod(num, den)` returns `m`, which `_dl_div` has stored. -/
def DlMod (num den m : BitVec w) : Prop := ∃ quot, DlDiv num den ⟨quot, some m⟩

/-- The division comes to the quotient and the remainder, and `_dl_mod` to the remainder. -/
def DivRight (num den : BitVec w) : Prop :=
  ∃ q r, DlDiv num den ⟨q, some r⟩ ∧ num.toNat = q.toNat * den.toNat + r.toNat ∧
    r.toNat < den.toNat ∧ DlMod num den r

/-- How far the denominator is shifted: up to bit 31. -/
def shift (den : BitVec w) : Nat := 31 - (den.toNat % 2 ^ 32).log2

/-- The bits of the denominator that the shift does not push out. -/
def kept (den : BitVec w) : Nat := den.toNat % 2 ^ (w - shift den)

variable {num den quot qbit r : BitVec w} {d k : Nat}

/-! ## The first loop -/

theorem int_nonneg_iff (den : BitVec w) :
    0 ≤ (den.setWidth 32).toInt ↔ den.toNat % 2 ^ 32 < 2 ^ 31 := by
  rw [BitVec.toInt_eq_toNat_cond, BitVec.toNat_setWidth]
  have hlt := Nat.mod_lt den.toNat (Nat.two_pow_pos 32)
  split <;> omega

theorem low_shiftLeft (hw : 32 ≤ w) (den : BitVec w) :
    (den <<< 1).toNat % 2 ^ 32 = 2 * (den.toNat % 2 ^ 32) % 2 ^ 32 := by
  rw [BitVec.toNat_shiftLeft, Nat.shiftLeft_eq,
    Nat.mod_mod_of_dvd _ (Nat.pow_dvd_pow 2 hw), Nat.mul_mod_mod]
  ring_nf

/-- Where the lower word is zero the loop does not end. -/
theorem justify_forever (hw : 32 ≤ w) (h : den.toNat % 2 ^ 32 = 0) {r : Quotient w} :
    ¬Stops dlDivStep (.justify num den qbit) r := by
  refine not_stops_of_forever
    (E := fun s => ∃ den qbit : BitVec w, s = .justify num den qbit ∧ den.toNat % 2 ^ 32 = 0) ?_
    ⟨den, qbit, rfl, h⟩
  rintro s ⟨den, qbit, rfl, h⟩
  refine ⟨.justify num (den <<< 1) (qbit <<< 1), ?_, den <<< 1, qbit <<< 1, rfl, ?_⟩
  · rw [dlDivStep, if_pos ((int_nonneg_iff den).mpr (by omega))]
  · rw [low_shiftLeft hw, h, Nat.mul_zero, Nat.zero_mod]

/-- The loop shifts the highest bit of the lower word up to bit 31. -/
theorem justify_meets (hw : 32 ≤ w) (hlow : 2 ^ (31 - k) ≤ den.toNat % 2 ^ 32)
    (hhigh : den.toNat % 2 ^ 32 < 2 ^ (32 - k)) (hk : k ≤ 31) (num qbit : BitVec w) :
    Meets dlDivStep (.justify num den qbit) (.subtract num (den <<< k) 0 (qbit <<< k)) := by
  induction k generalizing den qbit with
  | zero =>
    refine .step ?_ (.refl _)
    rw [dlDivStep, if_neg (by rw [int_nonneg_iff]; omega), BitVec.shiftLeft_zero,
      BitVec.shiftLeft_zero]
  | succ k ih =>
    have hdouble : 2 ^ (32 - (k + 1)) * 2 = 2 ^ (32 - k) := by
      rw [← pow_succ]; congr 1; omega
    have hdouble' : 2 ^ (31 - (k + 1)) * 2 = 2 ^ (31 - k) := by
      rw [← pow_succ]; congr 1; omega
    have hle : 2 ^ (32 - k) ≤ 2 ^ 32 := Nat.pow_le_pow_right (by decide) (Nat.sub_le _ _)
    have hmod : (den <<< 1).toNat % 2 ^ 32 = 2 * (den.toNat % 2 ^ 32) := by
      rw [low_shiftLeft hw, Nat.mod_eq_of_lt (by omega)]
    have hih : Meets dlDivStep (.justify num (den <<< 1) (qbit <<< 1)) _ :=
      ih (by omega) (by omega) (by omega) (qbit <<< 1)
    rw [← BitVec.shiftLeft_add, ← BitVec.shiftLeft_add, Nat.add_comm 1] at hih
    refine .step ?_ hih
    rw [dlDivStep, if_pos ((int_nonneg_iff den).mpr (by omega))]

/-! ## The second loop -/

theorem halve {x m : Nat} {b : BitVec w} (h : b.toNat = m * 2 ^ (x + 1) / 2) :
    b.toNat = m * 2 ^ x ∧ (b >>> 1).toNat = m * 2 ^ x / 2 := by
  have hb : b.toNat = m * 2 ^ x := by
    rw [h, pow_succ, ← mul_assoc, Nat.mul_div_cancel _ (by decide)]
  exact ⟨hb, by rw [BitVec.toNat_ushiftRight, hb, Nat.shiftRight_one]⟩

/-- The loop with `k` rounds left. -/
theorem subtract_stops (hden : den.toNat = d * 2 ^ k / 2) (hqbit : qbit.toNat = 1 * 2 ^ k / 2) :
    Stops dlDivStep (.subtract num den quot qbit)
      ⟨quot + BitVec.ofNat w (divide d k num.toNat).1,
        some (BitVec.ofNat w (divide d k num.toNat).2)⟩ := by
  induction k generalizing num den quot qbit with
  | zero =>
    have hq0 : qbit = 0 := BitVec.eq_of_toNat_eq hqbit
    have hstop : dlDivStep (.subtract num den quot qbit) = .stop ⟨quot, some num⟩ := by
      rw [dlDivStep, if_pos hq0]
    rw [stops_stop hstop, divide,
      BitVec.ofNat_toNat, BitVec.setWidth_eq]
    simp
  | succ k ih =>
    obtain ⟨hden, hden'⟩ := halve hden
    obtain ⟨hqbit, hqbit'⟩ := halve hqbit
    have hq0 : qbit ≠ 0 := fun h => by
      rw [h, one_mul] at hqbit
      exact (Nat.two_pow_pos k).ne hqbit
    by_cases hle : den ≤ num
    · have hih : Stops dlDivStep (.subtract (num - den) (den >>> 1) (quot + qbit) (qbit >>> 1)) _ :=
        ih hden' hqbit'
      have hsub : (num - den).toNat = num.toNat - den.toNat := BitVec.toNat_sub_of_le hle
      have hbit : BitVec.ofNat w (2 ^ k) = qbit := BitVec.eq_of_toNat_eq (by
        rw [BitVec.toNat_ofNat, ← one_mul (2 ^ k), ← hqbit, Nat.mod_eq_of_lt qbit.isLt])
      have hquot (q : Nat) : quot + BitVec.ofNat w (q + 2 ^ k) = quot + qbit + BitVec.ofNat w q := by
        rw [BitVec.ofNat_add, hbit, BitVec.add_assoc, BitVec.add_comm qbit]
      rw [stops_again (by rw [dlDivStep, if_neg hq0, if_pos hle]),
        divide_of_le (by rwa [← hden, ← BitVec.le_def]), ← hden, hquot, ← hsub]
      exact hih
    · rw [stops_again (by rw [dlDivStep, if_neg hq0, if_neg hle]),
        divide_of_not_le (by rwa [← hden, ← BitVec.le_def])]
      exact ih hden' hqbit'

/-! ## The whole division -/

theorem low_bounds (h : den.toNat % 2 ^ 32 ≠ 0) :
    2 ^ (31 - shift den) ≤ den.toNat % 2 ^ 32 ∧ den.toNat % 2 ^ 32 < 2 ^ (32 - shift den) := by
  have hlog : (den.toNat % 2 ^ 32).log2 < 32 :=
    (Nat.log2_lt h).mpr (Nat.mod_lt _ (Nat.two_pow_pos 32))
  have hle := Nat.log2_self_le h
  have hlt := Nat.lt_log2_self (n := den.toNat % 2 ^ 32)
  have h31 : 31 - shift den = (den.toNat % 2 ^ 32).log2 := by unfold shift; omega
  have h32 : 32 - shift den = (den.toNat % 2 ^ 32).log2 + 1 := by unfold shift; omega
  rw [h31, h32]
  exact ⟨hle, hlt⟩

theorem shift_le (den : BitVec w) : shift den ≤ 31 := Nat.sub_le _ _

theorem kept_le (den : BitVec w) : kept den ≤ den.toNat := Nat.mod_le _ _

/-- The lower word is kept. -/
theorem kept_pos (hw : 32 ≤ w) (h : den.toNat % 2 ^ 32 ≠ 0) : 0 < kept den := by
  have hlow : kept den % 2 ^ (32 - shift den) = den.toNat % 2 ^ 32 := by
    calc kept den % 2 ^ (32 - shift den) = den.toNat % 2 ^ (32 - shift den) :=
          Nat.mod_mod_of_dvd _ (Nat.pow_dvd_pow 2 (by omega))
      _ = den.toNat % 2 ^ 32 % 2 ^ (32 - shift den) :=
          (Nat.mod_mod_of_dvd _ (Nat.pow_dvd_pow 2 (Nat.sub_le _ _))).symm
      _ = den.toNat % 2 ^ 32 := Nat.mod_eq_of_lt (low_bounds h).2
  refine Nat.pos_of_ne_zero fun h0 => h ?_
  rw [← hlow, h0, Nat.zero_mod]

theorem not_dlDiv (hw : 32 ≤ w) (hden : den ≠ 0) (h : den.toNat % 2 ^ 32 = 0) {r : Quotient w} :
    ¬DlDiv num den r := by
  rw [DlDiv, stops_again (by rw [dlDivStep, if_neg hden])]
  exact justify_forever hw h

/-- `_dl_div` divides by what is kept of the denominator, with a quotient of `shift den + 1` bits. -/
theorem dlDiv_stops (hw : 32 ≤ w) (h : den.toNat % 2 ^ 32 ≠ 0) (num : BitVec w) :
    DlDiv num den ⟨BitVec.ofNat w (divide (kept den) (shift den + 1) num.toNat).1,
      some (BitVec.ofNat w (divide (kept den) (shift den + 1) num.toNat).2)⟩ := by
  have hden : den ≠ 0 := fun h0 => h (by rw [h0]; rfl)
  obtain ⟨hlow, hhigh⟩ := low_bounds h
  have hshift : shift den < w := lt_of_le_of_lt (shift_le den) (by omega)
  have hd : (den <<< shift den).toNat = kept den * 2 ^ shift den := by
    rw [BitVec.toNat_shiftLeft, Nat.shiftLeft_eq, kept, ← Nat.mul_mod_mul_right, ← pow_add,
      Nat.sub_add_cancel hshift.le]
  have hone : (1 : BitVec w).toNat = 1 := Nat.mod_eq_of_lt (Nat.one_lt_two_pow (by omega))
  have hq : ((1 : BitVec w) <<< shift den).toNat = 1 * 2 ^ shift den := by
    rw [BitVec.toNat_shiftLeft, Nat.shiftLeft_eq, hone, one_mul,
      Nat.mod_eq_of_lt (Nat.pow_lt_pow_right (by decide) hshift)]
  have hdouble (m : Nat) : m * 2 ^ (shift den + 1) / 2 = m * 2 ^ shift den := by
    rw [pow_succ, ← mul_assoc, Nat.mul_div_cancel _ (by decide)]
  have hstops : Stops dlDivStep (.subtract num (den <<< shift den) 0 ((1 : BitVec w) <<< shift den)) _ :=
    subtract_stops (hd.trans (hdouble _).symm) (hq.trans (hdouble _).symm)
  rw [DlDiv, stops_again (by rw [dlDivStep, if_neg hden]),
    (justify_meets hw hlow hhigh (shift_le den) num 1).stops]
  rwa [show (0 : BitVec w) = 0#w from rfl, BitVec.zero_add] at hstops

/-- The conditions under which `_dl_div` divides. -/
def DivFits (num den : BitVec w) : Prop :=
  w = 32 ∨ den.toNat % 2 ^ 32 ≠ 0 ∧
    (num.toNat < kept den ∨ kept den = den.toNat ∧ num.toNat < den.toNat * 2 ^ (shift den + 1))

theorem divFits32 (hw : w = 32) (h : den.toNat % 2 ^ 32 ≠ 0) (num : BitVec w) :
    kept den = den.toNat ∧ num.toNat < den.toNat * 2 ^ (shift den + 1) := by
  subst hw
  obtain ⟨hlow, hhigh⟩ := low_bounds h
  have hshift := shift_le den
  rw [Nat.mod_eq_of_lt den.isLt] at hlow hhigh
  refine ⟨Nat.mod_eq_of_lt hhigh, ?_⟩
  calc num.toNat < 2 ^ 32 := num.isLt
    _ = 2 ^ (31 - shift den) * 2 ^ (shift den + 1) := by rw [← pow_add]; congr 1; omega
    _ ≤ den.toNat * 2 ^ (shift den + 1) := Nat.mul_le_mul_right _ hlow

/-- The result for a divisor `d` that is not above the denominator is right for the denominator
if the divisor is the denominator and `k` places are enough, or if it is above the numerator. -/
theorem divide_right_iff {n den d k : Nat} (hd : 0 < d) (hle : d ≤ den) (hk : 0 < k) :
    n = (divide d k n).1 * den + (divide d k n).2 ∧ (divide d k n).2 < den ↔
      n < d ∨ d = den ∧ n < den * 2 ^ k := by
  have heq := divide_eq d k n
  have h0 := divide_quotient_zero_iff (n := n) hd hk
  rcases hle.lt_or_eq with hlt | rfl
  · constructor
    · rintro ⟨hn, -⟩
      refine .inl (h0.mp ?_)
      have hmul : (divide d k n).1 * den = (divide d k n).1 * d := by omega
      exact (Nat.eq_zero_or_pos _).resolve_right fun hpos =>
        hlt.ne (Nat.eq_of_mul_eq_mul_left hpos hmul).symm
    · rintro (hn | ⟨rfl, -⟩)
      · rw [h0.mpr hn, zero_mul, zero_add] at heq ⊢
        exact ⟨heq.symm, by omega⟩
      · exact absurd hlt (lt_irrefl _)
  · rw [divide_remainder_lt_iff hd]
    constructor
    · exact fun h => .inr ⟨rfl, h.2⟩
    · rintro (hn | ⟨-, hn⟩)
      · exact ⟨heq.symm, hn.trans_le (Nat.le_mul_of_pos_right _ (Nat.two_pow_pos k))⟩
      · exact ⟨heq.symm, hn⟩

theorem not_divRight (hw : 32 ≤ w) (hden : den ≠ 0) (h : den.toNat % 2 ^ 32 = 0) :
    ¬DivRight num den := by
  rintro ⟨q, r, hr, -⟩
  exact not_dlDiv hw hden h hr

/-- Quotient and remainder fit their type. -/
theorem divRight_iff_divide (hw : 32 ≤ w) (h : den.toNat % 2 ^ 32 ≠ 0) : DivRight num den ↔
    num.toNat = (divide (kept den) (shift den + 1) num.toNat).1 * den.toNat +
        (divide (kept den) (shift den + 1) num.toNat).2 ∧
      (divide (kept den) (shift den + 1) num.toNat).2 < den.toNat := by
  have hstops := dlDiv_stops hw h num
  have heq := divide_eq (kept den) (shift den + 1) num.toNat
  generalize (divide (kept den) (shift den + 1) num.toNat).1 = q at *
  generalize (divide (kept den) (shift den + 1) num.toNat).2 = r at *
  have hle : q ≤ q * kept den := Nat.le_mul_of_pos_right q (kept_pos hw h)
  have hnum := num.isLt
  have hqv : (BitVec.ofNat w q).toNat = q := Nat.mod_eq_of_lt (by omega)
  have hrv : (BitVec.ofNat w r).toNat = r := Nat.mod_eq_of_lt (by omega)
  constructor
  · rintro ⟨q', r', hdiv, hnum, hlt, -⟩
    injection stops_unique hdiv hstops with hq' hr'
    injection hr' with hr'
    rw [hq', hr', hqv, hrv] at hnum
    rw [hr', hrv] at hlt
    exact ⟨hnum, hlt⟩
  · rintro ⟨hnum, hlt⟩
    refine ⟨_, _, hstops, ?_, ?_, _, hstops⟩
    · rw [hqv, hrv]
      exact hnum
    · rw [hrv]
      exact hlt

/-- **`_dl_div` divides exactly if** `unsigned long` has 32 bits, or the lower word of the denominator
is not zero and the quotient fits the places from bit 31 down. -/
theorem div_right_iff (hw : 32 ≤ w) (hden : den ≠ 0) : DivRight num den ↔ DivFits num den := by
  by_cases h : den.toNat % 2 ^ 32 = 0
  · refine iff_of_false (not_divRight hw hden h) ?_
    rintro (rfl | ⟨h', -⟩)
    · rw [Nat.mod_eq_of_lt den.isLt] at h
      exact hden (BitVec.eq_of_toNat_eq h)
    · exact h' h
  · rw [divRight_iff_divide hw h, divide_right_iff (kept_pos hw h) (kept_le den) (Nat.succ_pos _)]
    constructor
    · exact fun hfits => .inr ⟨h, hfits⟩
    · rintro (rfl | ⟨-, hfits⟩)
      · exact .inr (divFits32 rfl h num)
      · exact hfits

/-- Thirteen divided by four. -/
theorem div_right_iff_thirteen : DivRight (13 : BitVec 64) 4 ↔ DivFits (13 : BitVec 64) 4 :=
  div_right_iff (by decide) (by decide)

/-- No shift brings a bit of this denominator to bit 31. -/
theorem div_endless : ¬DivRight (1 : BitVec 64) 4294967296 :=
  not_divRight (by decide) (by decide) (by decide)

end Dietlibc.Loader
