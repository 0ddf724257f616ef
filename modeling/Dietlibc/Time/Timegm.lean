import Dietlibc.Time.Gmtime

/-!
# `timegm`

`timegm` carries the fields of a broken-down time into range and evaluates a closed day
count. `int` arithmetic on the fields is checked (`sval 32`), and so is every index into
`__spm`; `none` is undefined behaviour. The `time_t` arithmetic cannot overflow, since the
year is an `int`.

`timegm_gmtimeR_iff`: for a time in year `y`, `gmtime_r` and `timegm` meet their contract
exactly when `y` itself, and not only `y - 1900`, is an `int`.
-/

namespace Dietlibc.Time

open CInt Calendar

/-- `__spm[i]`, `none` outside the table. -/
def spmAt (i : Int) : Option Int := if 0 ≤ i then spmTable[i.toNat]? else none

/-- `if (t->tm_mon==1 && __isleap(t->tm_year+1900)) --t->tm_mday`. The `break` on
`t->tm_mon==31+29` inside it is never taken. -/
def skipLeapDay (t : Tm) : Option Int :=
  if t.tmMon = 1 then
    (sval 32 (t.tmYear + 1900)).bind fun y =>
      if isleap y then sval 32 (t.tmMday - 1) else some t.tmMday
  else some t.tmMday

/-- `++t->tm_mon; if (t->tm_mon>11) { t->tm_mon=0; ++t->tm_year; }`. -/
def nextMonth (t : Tm) : Option Tm :=
  if 11 < t.tmMon + 1 then
    (sval 32 (t.tmYear + 1)).map fun y => { t with tmMon := 0, tmYear := y }
  else some { t with tmMon := t.tmMon + 1 }

/-- The body of `while (t->tm_mday>__spm[1+t->tm_mon])`. -/
def mdayStep (t : Tm) : Option Tm := do
  let mday ← skipLeapDay t
  let s ← spmAt t.tmMon
  let mday ← sval 32 (mday - s)
  nextMonth { t with tmMday := mday }

theorem spmAt_eq {i : Int} {s : Int} (h : spmAt i = some s) :
    0 ≤ i ∧ i ≤ 12 ∧ s = spm i.toNat := by
  unfold spmAt at h
  split at h
  · obtain ⟨hlt, he⟩ := List.getElem?_eq_some_iff.mp h
    have h12 : spmTable.length = 13 := rfl
    refine ⟨by assumption, by omega, ?_⟩
    rw [← he, spm, List.getD_eq_getElem?_getD, List.getElem?_eq_getElem hlt, Option.getD_some]
  · cases h

theorem skipLeapDay_eq {t : Tm} {d : Int} (h : skipLeapDay t = some d) :
    d ≤ t.tmMday ∧ (t.tmMon ≠ 1 → d = t.tmMday) := by
  unfold skipLeapDay at h
  split at h
  · next hc =>
    obtain ⟨y, -, h⟩ := Option.bind_eq_some_iff.mp h
    refine ⟨?_, fun hne => absurd hc hne⟩
    split at h
    · have := sval_eq_some h; omega
    · cases h; exact le_refl _
  · cases h; exact ⟨le_refl _, fun _ => rfl⟩

theorem nextMonth_eq {t t' : Tm} (h : nextMonth t = some t') :
    t'.tmMday = t.tmMday ∧ (t.tmMon ≤ 10 → t'.tmMon = t.tmMon + 1) := by
  unfold nextMonth at h
  split at h
  · obtain ⟨y, -, rfl⟩ := Option.map_eq_some_iff.mp h
    exact ⟨rfl, by omega⟩
  · cases h; exact ⟨rfl, fun _ => rfl⟩

/-- A round of the loop shortens the month count or the day count. -/
theorem mdayStep_lt {t t' : Tm} {s : Int} (hs : spmAt (1 + t.tmMon) = some s)
    (hm : s < t.tmMday) (h : mdayStep t = some t') :
    Prod.Lex (· < ·) (· < ·) (t'.tmMday.toNat, (12 - t'.tmMon).toNat)
      (t.tmMday.toNat, (12 - t.tmMon).toNat) := by
  simp only [mdayStep, Option.bind_eq_bind, Option.bind_eq_some_iff] at h
  obtain ⟨d, hd, u, hu, e, he, h⟩ := h
  obtain ⟨hle, heq⟩ := skipLeapDay_eq hd
  obtain ⟨hmd, hmon⟩ := nextMonth_eq h
  have he := sval_eq_some he
  obtain ⟨h1, h2, rfl⟩ := spmAt_eq hs
  obtain ⟨h3, -, rfl⟩ := spmAt_eq hu
  obtain ⟨m, hm'⟩ : ∃ m : Nat, t.tmMon = m := ⟨t.tmMon.toNat, by omega⟩
  have hst := spm_step (m := m) (by omega)
  simp only [hm', Int.toNat_natCast, show (1 + (m : Int)).toNat = m + 1 by omega] at *
  rw [Prod.lex_def]
  by_cases h0 : m = 0
  · -- January starts the table: its entry is zero, and only the month moves
    subst h0
    right
    have hz : spm 0 = 0 := rfl
    have := heq (by simp)
    have := hmon (by simp)
    exact ⟨by omega, by omega⟩
  · left
    have : 31 ≤ spm m := by
      obtain ⟨k, rfl⟩ : ∃ k, m = k + 1 := ⟨m - 1, by omega⟩
      exact (spm_step (m := k) (by omega)).2.2.2.1
    omega

/-- `while (t->tm_mday>__spm[1+t->tm_mon])`. -/
def mdayLoop (t : Tm) : Option Tm :=
  match _hs : spmAt (1 + t.tmMon) with
  | none => none
  | some s =>
    if _hm : s < t.tmMday then
      match _h : mdayStep t with
      | none => none
      | some t' => mdayLoop t'
    else some t
termination_by (t.tmMday.toNat, (12 - t.tmMon).toNat)
decreasing_by exact mdayStep_lt _hs _hm _h

/-- `if (lo>bound) { hi += lo/unit; lo%=unit; }`. -/
def carry (bound unit lo hi : Int) : Option (Int × Int) :=
  if bound < lo then do some (lo.tmod unit, ← sval 32 (hi + lo.tdiv unit)) else some (lo, hi)

/-- The days from 1970 to the year `years` later, as the closed formula has them. -/
def dayCount (years : Int) : Int :=
  let day := years * 365 + (years + 1).tdiv 4
  let years := years - 131
  if 0 ≤ years then
    let years := years.tdiv 100
    let day := day - (years / 4 * 3 + 1)
    -- `years &= 3`, on a non-negative number
    let years := years % 4
    day - (if years = 3 then years - 1 else years)
  else day

/-- `timegm`: the value returned, and the structure as it is left. -/
def timegm (t : Tm) : Option (Int × Tm) := do
  let years ← sval 32 (t.tmYear - 70)
  let (sec, min) ← carry 60 60 t.tmSec t.tmMin
  let (min, hour) ← carry 60 60 min t.tmHour
  let (hour, mday) ← carry 60 60 hour t.tmMday
  let (mon, year) ← carry 12 12 t.tmMon t.tmYear
  let mon := if mon < 0 then 0 else mon
  let t ← mdayLoop { t with
    tmSec := sec, tmMin := min, tmHour := hour, tmMday := mday, tmMon := mon, tmYear := year }
  if t.tmYear < 70 then some (-1, t)
  else
    let y ← sval 32 (t.tmYear + 1900)
    let leap := if isleap y && decide (1 < t.tmMon) then 1 else 0
    let yday ← sval 32 ((← spmAt t.tmMon) + t.tmMday - 1 + leap)
    let day := dayCount years + yday
    let wday := (day + 4).tmod 7
    -- `((day + t->tm_hour) * i + t->tm_min) * i + t->tm_sec`, after `day *= 24`
    some (((day * 24 + t.tmHour) * 60 + t.tmMin) * 60 + t.tmSec,
      { t with tmYday := yday, tmWday := wday })

/-! ## Fields already in range -/

/-- Fields in range: nothing to carry. -/
structure InRange (r : Tm) : Prop where
  sec : 0 ≤ r.tmSec ∧ r.tmSec < 60
  min : 0 ≤ r.tmMin ∧ r.tmMin < 60
  hour : 0 ≤ r.tmHour ∧ r.tmHour < 24
  mon : 0 ≤ r.tmMon ∧ r.tmMon < 12
  mday : 1 ≤ r.tmMday ∧ r.tmMday ≤ 31

theorem carry_of_le {bound unit lo hi : Int} (h : lo ≤ bound) :
    carry bound unit lo hi = some (lo, hi) := if_neg (by omega)

theorem spmAt_natCast {m : Nat} (h : m < 13) : spmAt m = some (spm m) := by
  unfold spmAt
  rw [if_pos (by omega)]
  interval_cases m <;> rfl

theorem mdayLoop_of_month {r : Tm} {m : Nat} (hm : r.tmMon = m) (hlt : m < 12)
    (hmday : r.tmMday ≤ 31) : mdayLoop r = some r := by
  have hs : spmAt (1 + r.tmMon) = some (spm (m + 1)) := by
    rw [hm, show 1 + (m : Int) = (m + 1 : Nat) by omega, spmAt_natCast (by omega)]
  have h31 := (spm_step hlt).2.2.2.1
  unfold mdayLoop
  split
  · next e => rw [hs] at e; cases e
  · next s e =>
    rw [hs] at e
    obtain rfl := Option.some.inj e
    rw [dif_neg (by omega)]

/-- The day of the year `timegm` writes. -/
def ydayOf (leap : Bool) (mon : Nat) (mday : Int) : Int :=
  spm mon + mday - 1 + (if leap && decide (1 < mon) then 1 else 0)

/-- A leap second, and a minute or an hour too many, are not carried. -/
theorem timegm_of_le {r : Tm} {m : Nat} (hm : r.tmMon = m) (hlt : m < 12)
    (hmday : 1 ≤ r.tmMday ∧ r.tmMday ≤ 31) (hsec : r.tmSec ≤ 60) (hmin : r.tmMin ≤ 60)
    (hhour : r.tmHour ≤ 60) :
    timegm r = (sval 32 (r.tmYear - 70)).bind fun years =>
      if r.tmYear < 70 then some (-1, r)
      else (sval 32 (r.tmYear + 1900)).bind fun y =>
        let yday := ydayOf (isleap y) m r.tmMday
        let day := dayCount years + yday
        some (((day * 24 + r.tmHour) * 60 + r.tmMin) * 60 + r.tmSec,
          { r with tmYday := yday, tmWday := (day + 4).tmod 7 }) := by
  have hst := spm_step hlt
  have hyday : ∀ leap, sval 32 (ydayOf leap m r.tmMday) = some (ydayOf leap m r.tmMday) := by
    intro leap
    apply sval_of_fits
    rw [fits32, ydayOf]
    split <;> omega
  unfold timegm
  simp only [Option.bind_eq_bind, carry_of_le hsec, carry_of_le hmin, carry_of_le hhour,
    carry_of_le (show r.tmMon ≤ 12 by omega), Option.bind_some, if_neg (show ¬ r.tmMon < 0 by omega),
    mdayLoop_of_month hm hlt hmday.2]
  rw [hm, spmAt_natCast (by omega)]
  simp only [Nat.one_lt_cast, Option.bind_some]
  congr 1
  funext years
  split
  · rfl
  · congr 1
    funext y
    have := hyday (isleap y)
    simp only [ydayOf] at this ⊢
    rw [this]
    rfl

theorem timegm_of_inRange {r : Tm} (h : InRange r) {m : Nat} (hm : r.tmMon = m) :
    timegm r = (sval 32 (r.tmYear - 70)).bind fun years =>
      if r.tmYear < 70 then some (-1, r)
      else (sval 32 (r.tmYear + 1900)).bind fun y =>
        let yday := ydayOf (isleap y) m r.tmMday
        let day := dayCount years + yday
        some (((day * 24 + r.tmHour) * 60 + r.tmMin) * 60 + r.tmSec,
          { r with tmYday := yday, tmWday := (day + 4).tmod 7 }) := by
  have h1 := h.sec; have h2 := h.min; have h3 := h.hour; have h4 := h.mon
  exact timegm_of_le hm (by omega) h.mday (by omega) (by omega) (by omega)

/-- The closed formula counts the days of the calendar. -/
theorem dayCount_eq {n : Int} (h : 0 ≤ n) : dayCount n = newYear (1970 + n) := by
  have h0 : leapsBefore 1970 = 477 := by decide
  unfold dayCount newYear
  rw [h0, Int.tdiv_eq_ediv_of_nonneg (by omega)]
  unfold leapsBefore
  by_cases hc : 0 ≤ n - 131
  · simp only [if_pos hc]
    rw [Int.tdiv_eq_ediv_of_nonneg hc]
    split <;> omega
  · simp only [if_neg hc]
    omega

/-! ## The round trip -/

/-- The contract of the two functions at a time `t` of year `y`. -/
structure RoundTrip (t y : Int) : Prop where
  sec : 0 ≤ (gmtimeR t).tmSec ∧ (gmtimeR t).tmSec < 60
  min : 0 ≤ (gmtimeR t).tmMin ∧ (gmtimeR t).tmMin < 60
  hour : 0 ≤ (gmtimeR t).tmHour ∧ (gmtimeR t).tmHour < 24
  mon : 0 ≤ (gmtimeR t).tmMon ∧ (gmtimeR t).tmMon < 12
  mday : 1 ≤ (gmtimeR t).tmMday ∧ (gmtimeR t).tmMday ≤ monthDays y (gmtimeR t).tmMon.toNat
  wday : 0 ≤ (gmtimeR t).tmWday ∧ (gmtimeR t).tmWday < 7
  yday : (gmtimeR t).tmYday = t / 86400 - newYear y
  date : (gmtimeR t).tmYday = monthStart y (gmtimeR t).tmMon.toNat + (gmtimeR t).tmMday - 1
  inverse : timegm (gmtimeR t) = some (t, gmtimeR t)

theorem GmtimeFields.inRange {t i w : Int} {leap : Bool} {r : Tm}
    (h : GmtimeFields t i w leap r) : InRange r := by
  obtain ⟨m, hm, hlt, h1, h2, -⟩ := h.date
  have hst := spm_step hlt
  have e1 := h.sec; have e2 := h.min; have e3 := h.hour
  refine ⟨by omega, by omega, by omega, by omega, h1, ?_⟩
  split at h2
  · next hc =>
    obtain ⟨-, rfl⟩ := hc
    have e : spm (1 + 1) - spm 1 = 28 := rfl
    omega
  · omega

theorem roundTrip_of_le {t y : Int} (ht : 0 ≤ t) (hy : InYear (t / 86400) y)
    (hmax : y ≤ 2147483647) : RoundTrip t y := by
  have h70 := hy.year_ge (by omega)
  have hleap : ∀ z, 1970 ≤ z → z ≤ y → LeapAgrees z := fun z h1 h2 =>
    leapAgrees_of_fits (fits32.mpr ⟨by omega, by omega⟩)
  have hloop := yearLoop_1970 (by omega) hy hleap
  have hf := gmtimeR_fields ht hloop
  have hyear : (gmtimeR t).tmYear = y - 1900 := by
    rw [hf.year, conv_of_fits (by decide) (fits32.mpr ⟨by omega, by omega⟩)]
  have hl : isleap (conv 32 y) = true ↔ Leap y := hleap y h70 (le_refl _)
  have hconv : conv 32 y = y := conv_of_fits (by decide) (fits32.mpr ⟨by omega, by omega⟩)
  have hr := hf.inRange
  obtain ⟨m, hm, hlt, -, hd2, hd3⟩ := hf.date
  obtain ⟨hms, hmdays⟩ := spm_month hlt y
  have hmn : (gmtimeR t).tmMon.toNat = m := by rw [hm]; simp
  simp only [hl] at hd2 hd3
  have e1 := hf.sec; have e2 := hf.min; have e3 := hf.hour; have e4 := hf.wday; have e5 := hf.yday
  have hyday : ydayOf (isleap y) m (gmtimeR t).tmMday = (gmtimeR t).tmYday := by
    rw [e5, hd3, ydayOf]
    rw [hconv] at hl
    simp only [Bool.and_eq_true, decide_eq_true_eq, hl]
  refine ⟨hr.sec, hr.min, hr.hour, hr.mon, ⟨hr.mday.1, ?_⟩, by omega, e5, ?_, ?_⟩
  · rw [hmn, hmdays]; exact hd2
  · rw [hmn, hms, e5, hd3]; ring
  · rw [timegm_of_inRange hr hm, hyear, sval_of_fits (fits32.mpr ⟨by omega, by omega⟩),
      sval_of_fits (fits32.mpr ⟨by omega, by omega⟩), Option.bind_some, if_neg (by omega),
      Option.bind_some, show y - 1900 + 1900 = y by omega, show y - 1900 - 70 = y - 1970 by omega,
      dayCount_eq (by omega), show 1970 + (y - 1970) = y by omega]
    have hw : (newYear y + (gmtimeR t).tmYday + 4).tmod 7 = (gmtimeR t).tmWday := by
      rw [e4, e5, Int.tmod_eq_emod_of_nonneg (by omega)]; omega
    simp only [hyday, hw, ← hyear]
    congr 2
    omega

/-- Past `INT_MAX` the year loop still ends near the calendar year. -/
theorem yearLoop_past {d y : Int} (hy : InYear d y) (h1 : 2147483647 < y)
    (h2 : y ≤ 2147483647 + 1900) :
    2147483648 ≤ (yearLoop 1970 d).1 ∧ (yearLoop 1970 d).1 ≤ 2147485550 := by
  have hlo := newYear_mono (show 2147483648 ≤ y by omega)
  have hhi := newYear_mono (show y + 1 ≤ 2147485548 by omega)
  have e1 : newYear 2147483648 = 784351576777 := by decide
  have e2 : newYear 2147485548 = 784352270737 := by decide
  obtain ⟨hy1, hy2⟩ := hy
  rw [yearLoop_skip 2147481678
    (fun z h1 h2 => leapAgrees_of_fits (fits32.mpr ⟨by omega, by push_cast at h2; omega⟩))
    (by rw [newYear_1970]; push_cast; norm_num; omega)]
  norm_num
  obtain ⟨hb1, -, -, hb2⟩ := yearLoop_bounds 2147483648 (newYear 1970 + d - newYear 2147483648)
    (by rw [newYear_1970]; omega)
  rw [newYear_1970] at hb1 hb2 ⊢
  omega

/-- `tm_year + 1900`, or `tm_year - 70`, overflows. -/
theorem timegm_past {t y : Int} (ht : 0 ≤ t) (hy : InYear (t / 86400) y) (h1 : 2147483647 < y)
    (h2 : y ≤ 2147483647 + 1900) : timegm (gmtimeR t) = none := by
  obtain ⟨hi1, hi2⟩ := yearLoop_past hy h1 h2
  have hf := gmtimeR_fields ht (i := (yearLoop 1970 (t / 86400)).1) rfl
  obtain ⟨m, hm, -⟩ := hf.date
  rw [timegm_of_inRange hf.inRange hm, hf.year]
  generalize (yearLoop 1970 (t / 86400)).1 = i at hi1 hi2
  by_cases hc : i - 1900 ≤ 2147483647
  · rw [conv_of_fits (by decide) (fits32.mpr ⟨by omega, hc⟩),
      sval_of_fits (fits32.mpr ⟨by omega, by omega⟩), Option.bind_some, if_neg (by omega),
      sval_eq_none (fun hf => by rw [fits32] at hf; omega), Option.bind_none]
  · -- the year no longer fits in `tm_year`, which becomes negative
    have hcv : conv 32 (i - 1900) = i - 1900 - 4294967296 := by
      unfold conv Int.bmod
      norm_num
      omega
    rw [hcv, sval_eq_none (fun hf => by rw [fits32] at hf; omega), Option.bind_none]

theorem timegm_gmtimeR_iff {t y : Int} (ht : 0 ≤ t) (hy : InYear (t / 86400) y)
    (hfit : Fits 32 (y - 1900)) : RoundTrip t y ↔ y ≤ 2147483647 := by
  rw [fits32] at hfit
  constructor
  · intro h
    by_contra hc
    have := timegm_past ht hy (by omega) (by omega)
    rw [h.inverse] at this
    cases this
  · exact roundTrip_of_le ht hy

/-- New year 1970 itself. -/
theorem timegm_gmtimeR_epoch : RoundTrip 0 1970 ∧ InYear (0 / 86400) 1970 ∧ Fits 32 (1970 - 1900) :=
  have hy : InYear (0 / 86400) 1970 := by decide
  ⟨(timegm_gmtimeR_iff (le_refl 0) hy (by decide)).mpr (by decide), hy, by decide⟩

/-- Between `INT_MAX` and the first century year past it, the truncated year is classified
as the calendar does. -/
theorem leapAgrees_past {z : Int} (h1 : 2147483648 ≤ z) (h2 : z < 2147483700) :
    LeapAgrees z := by
  have hcv : conv 32 z = z - 4294967296 := by
    unfold conv Int.bmod
    norm_num
    omega
  unfold LeapAgrees
  rw [hcv, isleap_iff]
  unfold Leap
  omega

/-- 1 March 2147483700, in a common year whose `int` conversion is a leap year: `gmtime_r`
answers 29 February, and `timegm` overflows. -/
theorem gmtimeR_past_int :
    InYear (67767977879625600 / 86400) 2147483700 ∧ Fits 32 (2147483700 - 1900) ∧
      (gmtimeR 67767977879625600).tmMon = 1 ∧ (gmtimeR 67767977879625600).tmMday = 29 ∧
      monthDays 2147483700 1 = 28 ∧ timegm (gmtimeR 67767977879625600) = none ∧
      ¬ RoundTrip 67767977879625600 2147483700 := by
  have hy : InYear (67767977879625600 / 86400) 2147483700 := by decide
  have e : newYear 2147483700 = 784351595770 := by decide
  have hloop : yearLoop 1970 (67767977879625600 / 86400) = (2147483700, 59) := by
    rw [yearLoop_skip 2147481730 (fun z h1 h2 => ?_) (by rw [newYear_1970]; norm_num; omega)]
    · norm_num
      rw [newYear_1970, e, yearLoop, if_neg (by decide)]
      norm_num
    · by_cases hz : z ≤ 2147483647
      · exact leapAgrees_of_fits (fits32.mpr ⟨by omega, hz⟩)
      · exact leapAgrees_past (by omega) (by push_cast at h2; omega)
  have hleap : isleap (conv 32 2147483700) = true := by decide
  obtain ⟨m, hm, hlt, hd1, hd2, hd3⟩ := (gmtimeR_fields (by decide) hloop).date
  rw [hleap] at hd2 hd3
  have hm1 : m = 1 := by
    by_contra hne
    interval_cases m <;> simp [spm, spmTable] at hd2 hd3 hne <;> omega
  subst hm1
  have hmon : (gmtimeR 67767977879625600).tmMon = 1 := hm
  have hmday : (gmtimeR 67767977879625600).tmMday = 29 := by
    simp [spm, spmTable] at hd3; omega
  refine ⟨hy, by decide, hmon, hmday, by decide, timegm_past (by decide) hy (by decide) (by decide), ?_⟩
  intro h
  have := h.mday.2
  rw [hmon, hmday] at this
  revert this
  decide

end Dietlibc.Time
