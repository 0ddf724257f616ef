import Dietlibc.Base.CInt
import Dietlibc.Base.Calendar

/-!
# `gmtime_r`

The conversion of a `time_t` to a broken-down time: a loop over the years from 1970 that
takes each year's length off the day count, and a search of the month table from the end.
`yearLoop_skip` runs the loop to any later year as long as `__isleap`, which receives the
year as an `int`, agrees with the calendar on the years between.
-/

namespace Dietlibc.Time

open CInt Calendar

/-- The fields of `struct tm` that `gmtime_r` writes. -/
structure Tm where
  tmSec : Int
  tmMin : Int
  tmHour : Int
  tmMday : Int
  tmMon : Int
  tmYear : Int
  tmWday : Int
  tmYday : Int
  deriving DecidableEq, Repr

/-- `__isleap`. -/
def isleap (year : Int) : Bool :=
  year.tmod 4 == 0 && (year.tmod 100 != 0 || year.tmod 400 == 0)

/-- `__spm`: the days before each month, without leap day. -/
def spmTable : List Int := [0, 31, 59, 90, 120, 151, 181, 212, 243, 273, 304, 334, 365]

/-- `__spm[i]` at an index inside the table. -/
def spm (i : Nat) : Int := spmTable.getD i 0

/-- `k=__isleap(i)?366:365`, with the year passed as an `int`. -/
def yearLen (i : Int) : Int := if isleap (conv 32 i) then 366 else 365

theorem yearLen_cases (i : Int) : yearLen i = 365 ∨ yearLen i = 366 := by
  unfold yearLen; split <;> simp

/-- `for (i=1970; ; ++i)`: the first year longer than the days left, and those days. -/
def yearLoop (i work : Int) : Int × Int :=
  if yearLen i ≤ work then yearLoop (i + 1) (work - yearLen i) else (i, work)
termination_by work.toNat
decreasing_by have := yearLen_cases i; omega

/-- `for (i=11; i && (__spm[i]>work); --i)`. -/
def monthLoop (work : Int) : Nat → Nat
  | 0 => 0
  | i + 1 => if work < spm (i + 1) then monthLoop work i else i + 1

/-- Month and day of the month of day `work` of a year. 29 February has no entry in the
table: it is the day after the 28th, and every later day of a leap year is looked up one
day early. -/
def dateOf (leap : Bool) (work : Int) : Nat × Int :=
  let late := leap && decide (58 < work)
  let mday := if late && work == 59 then 2 else 1
  let work := if late then work - 1 else work
  let i := monthLoop work 11
  (i, mday + (work - spm i))

/-- `gmtime_r`. -/
def gmtimeR (timep : Int) : Tm :=
  let work := timep.tmod 86400
  let tmSec := work.tmod 60
  let work := work.tdiv 60
  let tmMin := work.tmod 60
  let tmHour := work.tdiv 60
  let work := timep.tdiv 86400
  let tmWday := (4 + work).tmod 7
  let (i, work) := yearLoop 1970 work
  let (mon, mday) := dateOf (isleap (conv 32 i)) work
  { tmSec, tmMin, tmHour, tmWday
    tmYear := conv 32 (i - 1900)
    tmYday := conv 32 work
    tmMon := mon
    tmMday := conv 32 mday }

/-! ## The year loop -/

theorem isleap_iff (y : Int) : isleap y = true ↔ Leap y := by
  unfold isleap Leap
  simp only [Bool.and_eq_true, Bool.or_eq_true, beq_iff_eq, bne_iff_ne, ne_eq]
  have h4 : y.tmod 4 = 0 ↔ y % 4 = 0 := by
    rw [← Int.dvd_iff_tmod_eq_zero, Int.dvd_iff_emod_eq_zero]
  have h100 : y.tmod 100 = 0 ↔ y % 100 = 0 := by
    rw [← Int.dvd_iff_tmod_eq_zero, Int.dvd_iff_emod_eq_zero]
  have h400 : y.tmod 400 = 0 ↔ y % 400 = 0 := by
    rw [← Int.dvd_iff_tmod_eq_zero, Int.dvd_iff_emod_eq_zero]
  rw [h4, h100, h400]

/-- The years whose `int` conversion `__isleap` classifies as the calendar does. -/
def LeapAgrees (y : Int) : Prop := isleap (conv 32 y) = true ↔ Leap y

theorem leapAgrees_of_fits {y : Int} (h : Fits 32 y) : LeapAgrees y := by
  unfold LeapAgrees
  rw [conv_of_fits (by decide) h, isleap_iff]

theorem yearLen_eq {y : Int} (h : LeapAgrees y) : yearLen y = yearDays y := by
  unfold yearLen yearDays
  by_cases hl : Leap y
  · rw [if_pos (h.2 hl), if_pos hl]
  · rw [if_neg (fun c => hl (h.1 c)), if_neg hl]

theorem yearLoop_next {i work : Int} (h : LeapAgrees i) (hw : yearDays i ≤ work) :
    yearLoop i work = yearLoop (i + 1) (work - yearDays i) := by
  rw [yearLoop, yearLen_eq h, if_pos hw]

theorem yearLoop_stop {i work : Int} (h : LeapAgrees i) (hw : work < yearDays i) :
    yearLoop i work = (i, work) := by
  rw [yearLoop, yearLen_eq h, if_neg (by omega)]

theorem yearLoop_skip {i work : Int} (n : Nat)
    (hl : ∀ z, i ≤ z → z < i + n → LeapAgrees z) (hw : newYear (i + n) ≤ newYear i + work) :
    yearLoop i work = yearLoop (i + n) (newYear i + work - newYear (i + n)) := by
  induction n with
  | zero => simp
  | succ n ih =>
    have hs := newYear_succ (i + n)
    have hd := yearDays_cases (i + n)
    push_cast at hw hl ⊢
    rw [show i + ((n : Int) + 1) = i + n + 1 by omega] at hw ⊢
    rw [ih (fun z h1 h2 => hl z h1 (by omega)) (by omega)]
    rw [yearLoop_next (hl (i + n) (by omega) (by omega)) (by omega), hs]
    congr 1
    omega

/-- The loop ends in the calendar year when `__isleap` is right up to it. -/
theorem yearLoop_1970 {d y : Int} (hd : 0 ≤ d) (hy : InYear d y)
    (hl : ∀ z, 1970 ≤ z → z ≤ y → LeapAgrees z) : yearLoop 1970 d = (y, d - newYear y) := by
  have h70 := hy.year_ge hd
  obtain ⟨n, rfl⟩ : ∃ n : Nat, y = 1970 + n := ⟨(y - 1970).toNat, by omega⟩
  have h0 := newYear_1970
  have hs := newYear_succ (1970 + n)
  obtain ⟨hy1, hy2⟩ := hy
  rw [yearLoop_skip n (fun z h1 h2 => hl z h1 (by omega)) (by omega), h0]
  rw [yearLoop_stop (hl _ h70 (le_refl _)) (by omega)]
  simp

/-- What the loop returns on any day count: a day inside the year it stops at. -/
theorem yearLoop_bounds (i work : Int) (hw : 0 ≤ work) :
    i ≤ (yearLoop i work).1 ∧ 0 ≤ (yearLoop i work).2 ∧
      (yearLoop i work).2 < yearLen (yearLoop i work).1 ∧
      365 * ((yearLoop i work).1 - i) ≤ work := by
  fun_induction yearLoop i work with
  | case1 i work hk ih =>
    have := yearLen_cases i
    obtain ⟨h1, h2, h3, h4⟩ := ih (by omega)
    exact ⟨by omega, h2, h3, by omega⟩
  | case2 i work hk =>
    exact ⟨le_refl _, hw, by simpa using hk, by simpa using hw⟩

/-! ## The month search -/

theorem monthLoop_spec {work : Int} (h0 : 0 ≤ work) :
    ∀ i, monthLoop work i ≤ i ∧ spm (monthLoop work i) ≤ work ∧
      (work < spm (i + 1) → work < spm (monthLoop work i + 1))
  | 0 => ⟨le_refl _, by simpa [monthLoop, spm, spmTable] using h0, fun h => h⟩
  | i + 1 => by
    obtain ⟨h1, h2, h3⟩ := monthLoop_spec h0 i
    by_cases hc : work < spm (i + 1)
    · simp only [monthLoop, if_pos hc]
      exact ⟨by omega, h2, fun _ => h3 hc⟩
    · simp only [monthLoop, if_neg hc]
      exact ⟨le_refl _, by omega, fun h => h⟩

/-- Months of the table are the months of a common year. -/
theorem spm_month {m : Nat} (h : m < 12) (y : Int) :
    monthStart y m = spm m + (if Leap y ∧ 1 < m then 1 else 0) ∧
      monthDays y m = spm (m + 1) - spm m + (if Leap y ∧ m = 1 then 1 else 0) := by
  by_cases hl : Leap y
  · interval_cases m <;> simp [monthStart, monthDays, spm, spmTable, hl]
  · interval_cases m <;> simp [monthStart, monthDays, spm, spmTable, hl]

theorem spm_step {m : Nat} (h : m < 12) : spm m + 28 ≤ spm (m + 1) ∧ spm (m + 1) ≤ spm m + 31 ∧
    0 ≤ spm m ∧ 31 ≤ spm (m + 1) ∧ spm (m + 1) ≤ 365 ∧ (1 < m → 59 ≤ spm m) ∧
    (m ≤ 1 → spm m + 28 ≤ 59) ∧ (m ≤ 1 → spm (m + 1) ≤ 59) := by
  interval_cases m <;> simp [spm, spmTable]

/-- Day `w` of a year falls on the date computed for it; `leap` says whether the year is
taken for a leap year. -/
theorem dateOf_spec {leap : Bool} {w mday : Int} {m : Nat} (h0 : 0 ≤ w)
    (hw : w < if leap then 366 else 365) (h : dateOf leap w = (m, mday)) :
    m < 12 ∧ 1 ≤ mday ∧ mday ≤ spm (m + 1) - spm m + (if leap ∧ m = 1 then 1 else 0) ∧
      w = spm m + mday - 1 + (if leap ∧ 1 < m then 1 else 0) := by
  have hend : spm (11 + 1) = 365 := rfl
  by_cases hl : leap ∧ 58 < w
  · -- from the 29th of February on
    obtain ⟨rfl, hl⟩ := hl
    simp only [dateOf, hl, decide_true, Bool.and_self, if_true, Bool.true_and, beq_iff_eq,
      Prod.mk.injEq, true_and] at h hw ⊢
    obtain ⟨hm, rfl⟩ := h
    obtain ⟨h1, h2, h3⟩ := monthLoop_spec (show 0 ≤ w - 1 by omega) 11
    have h4 := h3 (by omega)
    rw [hm] at h1 h2 h4
    rw [hm]
    have hst := spm_step (m := m) (by omega)
    by_cases h59 : w = 59
    · have hm1 : m = 1 := by
        by_contra hne
        by_cases h : 1 < m
        · have := hst.2.2.2.2.2.1 h; omega
        · have h0m : m = 0 := by omega
          rw [h0m] at h4
          have : spm (0 + 1) = 31 := rfl
          omega
      subst hm1
      have e1 : spm 1 = 31 := rfl
      have e2 : spm (1 + 1) = 59 := rfl
      simp only [h59, if_true, Nat.lt_irrefl, if_false]
      omega
    · have hm1 : 1 < m := by
        by_contra hne
        have := hst.2.2.2.2.2.2.2 (by omega)
        omega
      simp only [h59, hm1, if_true, if_false, show m ≠ 1 by omega]
      omega
  · have hlate : (leap && decide (58 < w)) = false := by
      rw [Bool.eq_false_iff]
      simpa using hl
    simp only [dateOf, hlate, Bool.false_and, Bool.false_eq_true, if_false, Prod.mk.injEq] at h
    obtain ⟨hm, rfl⟩ := h
    have hw' : w < 365 := by
      cases leap
      · simpa using hw
      · have : ¬ 58 < w := fun c => hl ⟨rfl, c⟩
        omega
    obtain ⟨h1, h2, h3⟩ := monthLoop_spec h0 11
    have h4 := h3 (by omega)
    rw [hm] at h1 h2 h4
    rw [hm]
    have hst := spm_step (m := m) (by omega)
    have hm1 : ¬ (leap ∧ 1 < m) := by
      rintro ⟨hc, h⟩
      have := hst.2.2.2.2.2.1 h
      exact hl ⟨hc, by omega⟩
    rw [if_neg hm1]
    refine ⟨by omega, by omega, ?_, by omega⟩
    split <;> omega

/-- The fields of the broken-down time of `t`, in terms of the year loop's result. -/
structure GmtimeFields (t i w : Int) (leap : Bool) (r : Tm) : Prop where
  sec : r.tmSec = t % 60
  min : r.tmMin = t / 60 % 60
  hour : r.tmHour = t / 3600 % 24
  wday : r.tmWday = (4 + t / 86400) % 7
  year : r.tmYear = conv 32 (i - 1900)
  yday : r.tmYday = w
  date : ∃ m : Nat, r.tmMon = m ∧ m < 12 ∧ 1 ≤ r.tmMday ∧
    r.tmMday ≤ spm (m + 1) - spm m + (if leap ∧ m = 1 then 1 else 0) ∧
    w = spm m + r.tmMday - 1 + (if leap ∧ 1 < m then 1 else 0)

theorem gmtimeR_fields {t i w : Int} (ht : 0 ≤ t) (hl : yearLoop 1970 (t / 86400) = (i, w)) :
    GmtimeFields t i w (isleap (conv 32 i)) (gmtimeR t) := by
  obtain ⟨-, hw0, hw1, -⟩ := yearLoop_bounds 1970 (t / 86400) (by omega)
  rw [hl] at hw0 hw1
  simp only [yearLen] at hw0 hw1
  obtain ⟨m, mday, hdate⟩ : ∃ m mday, dateOf (isleap (conv 32 i)) w = (m, mday) := ⟨_, _, rfl⟩
  obtain ⟨hm, hd1, hd2, hd3⟩ := dateOf_spec hw0 hw1 hdate
  have e1 : t.tmod 86400 = t % 86400 := Int.tmod_eq_emod_of_nonneg ht
  have e2 : t.tdiv 86400 = t / 86400 := Int.tdiv_eq_ediv_of_nonneg ht
  have e3 : (t % 86400).tdiv 60 = t % 86400 / 60 := Int.tdiv_eq_ediv_of_nonneg (by omega)
  have hwf : Fits 32 w := fits32.mpr (by split at hw1 <;> omega)
  have hdf : Fits 32 mday := by
    have hst := spm_step hm
    exact fits32.mpr ⟨by omega, by split at hd2 <;> omega⟩
  constructor
  · simp only [gmtimeR, e1, e2, hl]
    rw [Int.tmod_eq_emod_of_nonneg (by omega)]; omega
  · simp only [gmtimeR, e1, e2, e3, hl]
    rw [Int.tmod_eq_emod_of_nonneg (by omega)]; omega
  · simp only [gmtimeR, e1, e2, e3, hl]
    rw [Int.tdiv_eq_ediv_of_nonneg (by omega)]; omega
  · simp only [gmtimeR, e2, hl]
    rw [Int.tmod_eq_emod_of_nonneg (by omega)]
  · simp only [gmtimeR, e2, hl]
  · simp only [gmtimeR, e2, hl]
    exact conv_of_fits (by decide) hwf
  · have e : (gmtimeR t).tmMday = mday := by
      simp only [gmtimeR, e2, hl, hdate]
      exact conv_of_fits (by decide) hdf
    refine ⟨m, by simp only [gmtimeR, e2, hl, hdate], hm, ?_⟩
    rw [e]
    exact ⟨hd1, hd2, hd3⟩

end Dietlibc.Time
