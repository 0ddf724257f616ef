import Dietlibc.Time.Strptime

/-!
# Turns of `strptime`

What one turn does with the text it expects, and what `getint` does with digits.
-/

namespace Dietlibc.Time

open CInt Machine
open Shell (isblank isdigit)

/-! ## Digits -/

/-- `d+'0'` -/
def digit (d : Nat) : UInt8 := UInt8.ofNat (d + 48)

/-- Two digits. -/
def dec2 (n : Nat) : List UInt8 := [digit (n / 10), digit (n % 10)]

/-- Four digits. -/
def dec4 (n : Nat) : List UInt8 := dec2 (n / 100) ++ dec2 (n % 100)

theorem toNat_digit {d : Nat} (h : d < 10) : (digit d).toNat = d + 48 := by
  unfold digit
  rw [UInt8.toNat_ofNat']
  omega

theorem isdigit_digit {d : Nat} (h : d < 10) : isdigit (digit d) = true := by
  have hd := toNat_digit h
  unfold isdigit
  rw [Bool.and_eq_true, decide_eq_true_eq, decide_eq_true_eq, UInt8.le_iff_toNat_le,
    UInt8.lt_iff_toNat_lt, hd]
  exact ⟨Nat.le_add_left _ _, Nat.add_lt_add_right h 48⟩

variable {s : List UInt8} {n d : Nat} {i : Int}

theorem getintLoop_digit (h : d < 10) :
    getintLoop (n + 1) i (digit d :: s) = getintLoop n (i * 10 + d) s := by
  rw [getintLoop, if_pos (isdigit_digit h), toNat_digit h]
  congr 1
  omega

theorem getint_digit (h : d < 10) : getint n (digit d :: s) = getintLoop n 0 (digit d :: s) := by
  unfold getint
  rw [List.head?_cons, Option.map_some, Option.getD_some, if_pos (isdigit_digit h)]

theorem getint_dec2 (h : n < 100) : getint 2 (dec2 n ++ s) = ((n : Int), s) := by
  have hhigh : n / 10 < 10 := by omega
  have hlow : n % 10 < 10 := by omega
  show getint 2 (digit (n / 10) :: digit (n % 10) :: s) = _
  rw [getint_digit hhigh, getintLoop_digit hhigh, getintLoop_digit hlow, getintLoop, Prod.mk.injEq]
  exact ⟨by omega, rfl⟩

theorem getint_dec4 (h : n < 10000) : getint 4 (dec4 n ++ s) = ((n : Int), s) := by
  have h1 : n / 100 / 10 < 10 := by omega
  have h2 : n / 100 % 10 < 10 := by omega
  have h3 : n % 100 / 10 < 10 := by omega
  have h4 : n % 100 % 10 < 10 := by omega
  show getint 4 (digit (n / 100 / 10) :: digit (n / 100 % 10) :: digit (n % 100 / 10) ::
    digit (n % 100 % 10) :: s) = _
  rw [getint_digit h1, getintLoop_digit h1, getintLoop_digit h2, getintLoop_digit h3,
    getintLoop_digit h4, getintLoop, Prod.mk.injEq]
  exact ⟨by omega, rfl⟩

/-- One digit, with no digit behind. -/
theorem getint_digit_end (h : d < 10) (hs : (s.head?.map isdigit).getD false = false) :
    getint 2 (digit d :: s) = ((d : Int), s) := by
  rw [getint_digit h, getintLoop_digit h]
  cases s with
  | nil => simp only [getintLoop, Int.zero_mul, Int.zero_add]
  | cons c s =>
    have hc : isdigit c = false := hs
    simp only [getintLoop, hc, Bool.false_eq_true, if_false, Int.zero_mul, Int.zero_add]

theorem number_of_getint {s' : List UInt8} {max : Nat} {low high : Int} {tm tm' : Tm}
    {put : Int → Option Tm} (h : getint max s = (i, s')) (hlow : low ≤ i) (hhigh : i ≤ high)
    (hput : put i = some tm') : number max low high s tm put = .next (some s') tm' := by
  unfold number
  rw [h]
  dsimp only
  rw [if_neg (by omega), hput]

/-- Two digits in range. -/
theorem number_dec2 {low high : Int} {tm tm' : Tm} {put : Int → Option Tm} (h : n < 100)
    (hlow : low ≤ n) (hhigh : (n : Int) ≤ high) (hput : put n = some tm') :
    number 2 low high (dec2 n ++ s) tm put = .next (some s) tm' :=
  number_of_getint (getint_dec2 h) hlow hhigh hput

/-- Four digits. -/
theorem number_dec4 {tm tm' : Tm} {put : Int → Option Tm} (h : n < 10000) (hput : put n = some tm') :
    number 4 0 9999 (dec4 n ++ s) tm put = .next (some s) tm' := by
  refine number_of_getint (getint_dec4 h) ?_ ?_ hput
  · exact Int.natCast_nonneg n
  · omega

/-! ## Turns -/

section

variable {call : Callee} {format : List UInt8} {c : UInt8} {o o' : Option (List UInt8)} {tm tm' : Tm}
  {r : Answer} {dir : Directive}

theorem stops_blank (hc : c = 32 ∨ c = 9) :
    Stops (step call) ⟨c :: format, some s, tm⟩ r ↔
      Stops (step call) ⟨format, some (s.dropWhile isblank), tm⟩ r := by
  refine stops_again ?_
  unfold step
  dsimp only
  rw [if_pos hc]

theorem stops_literal (hblank : ¬(c = 32 ∨ c = 9)) (hpercent : c ≠ 37) :
    Stops (step call) ⟨c :: format, some (c :: s), tm⟩ r ↔
      Stops (step call) ⟨format, some s, tm⟩ r := by
  refine stops_again ?_
  unfold step
  dsimp only
  rw [if_neg hblank, if_neg hpercent, if_pos rfl]

theorem stops_next (hd : directiveOf c = dir) (h : directive call dir o tm = .next o' tm') :
    Stops (step call) ⟨37 :: c :: format, o, tm⟩ r ↔ Stops (step call) ⟨format, o', tm'⟩ r := by
  refine stops_again ?_
  unfold step
  dsimp only
  rw [if_neg (by decide), if_pos rfl, hd, h]

theorem stops_null (hd : directiveOf c = dir) (h : directive call dir o tm = .null tm') :
    Stops (step call) ⟨37 :: c :: format, o, tm⟩ r ↔ r = (none, tm') := by
  refine stops_stop ?_
  unfold step
  dsimp only
  rw [if_neg (by decide), if_pos rfl, hd, h]

theorem stops_end (h : derive tm = some tm') :
    Stops (step call) ⟨[], o, tm⟩ r ↔ r = (o, tm') := by
  refine stops_stop ?_
  unfold step
  dsimp only
  rw [h]

theorem directive_year (h : n < 10000) : directive call .year (some (dec4 n ++ s)) tm =
    .next (some s) { tm with tmYear := n - 1900 } := by
  show number 4 0 9999 (dec4 n ++ s) tm (fun i => some { tm with tmYear := i - 1900 }) = _
  exact number_dec4 h rfl

theorem directive_mon (h : n < 12) : directive call .mon (some (dec2 (n + 1) ++ s)) tm =
    .next (some s) { tm with tmMon := n } := by
  show number 2 1 12 (dec2 (n + 1) ++ s) tm (fun i => some { tm with tmMon := i - 1 }) = _
  refine number_dec2 (by omega) (by omega) (by omega) ?_
  push_cast
  rw [Int.add_sub_cancel]

theorem directive_mday (h : n ≤ 31) : directive call .mday (some (dec2 n ++ s)) tm =
    .next (some s) { tm with tmMday := n } := by
  show number 2 0 31 (dec2 n ++ s) tm (fun i => some { tm with tmMday := i }) = _
  exact number_dec2 (by omega) (by omega) (by omega) rfl

/-- The day count of that year is an `int`. -/
def YearFits (year : Int) : Prop := Fits 32 ((year - 70) * 365 + (year - 69).tdiv 4)

theorem yearFits_of_le {year : Int} (hlow : -5000000 ≤ year) (hhigh : year ≤ 5000000) :
    YearFits year := by
  have hdiv := tdiv_four (year - 69)
  unfold YearFits
  rw [fits32]
  omega

/-- The derived fields. -/
theorem derive_of_fits (tm : Tm) {m : Nat} (hmon : tm.tmMon = m) (hm : m < 12)
    (hmday : 0 ≤ tm.tmMday ∧ tm.tmMday ≤ 31) (hyear : YearFits tm.tmYear) :
    derive tm = some
      { tm with
        tmYday := ydayOf (isleap (tm.tmYear + 1900)) m tm.tmMday
        tmWday := ((tm.tmYear - 70) * 365 + (tm.tmYear - 69).tdiv 4 +
          ydayOf (isleap (tm.tmYear + 1900)) m tm.tmMday + 4).tmod 7 } := by
  have hst := spm_step hm
  have hdiv := tdiv_four (tm.tmYear - 69)
  have hfits := fits32.1 hyear
  have hyday : Fits 32 (ydayOf (isleap (tm.tmYear + 1900)) m tm.tmMday) := by
    rw [fits32, ydayOf]
    split <;> omega
  unfold derive
  simp only [Option.bind_eq_bind]
  rw [sval_of_fits (fits32.2 (by omega)), Option.bind_some, sval_of_fits (fits32.2 (by omega)),
    Option.bind_some, sval_of_fits (fits32.2 (by omega)), Option.bind_some, sval_of_fits hyear,
    Option.bind_some, sval_of_fits (fits32.2 (by omega)), Option.bind_some, hmon,
    spmAt_natCast (by omega), Option.bind_some]
  unfold ydayOf at hyday ⊢
  simp only [Nat.one_lt_cast]
  rw [sval_of_fits hyday, Option.bind_some]

theorem derive_none (h : ¬YearFits tm.tmYear) : derive tm = none := by
  cases hd : derive tm with
  | none => rfl
  | some tm' =>
    unfold derive at hd
    simp only [Option.bind_eq_bind, Option.bind_eq_some_iff] at hd
    obtain ⟨x, hx, y, hy, z, hz, w, hw, -⟩ := hd
    obtain rfl := sval_eq_some hx
    obtain rfl := sval_eq_some hy
    obtain rfl := sval_eq_some hz
    exact absurd (fits_of_sval hw) h

end

end Dietlibc.Time
