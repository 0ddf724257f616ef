import Dietlibc.Time.Timegm

/-!
# `gmtime_r` before 1970

Division and remainder truncate toward zero, and the loop over the years only goes forward. So the year
of a negative time is 1970, and no date and time of that year denotes it.
-/

namespace Dietlibc.Time

open CInt Calendar

/-- The fields are in range, and are the date and the time of day `t` seconds from the epoch. -/
structure Denotes (t : Int) (r : Tm) : Prop where
  sec : 0 ≤ r.tmSec ∧ r.tmSec < 60
  min : 0 ≤ r.tmMin ∧ r.tmMin < 60
  hour : 0 ≤ r.tmHour ∧ r.tmHour < 24
  wday : 0 ≤ r.tmWday ∧ r.tmWday < 7
  yday : 0 ≤ r.tmYday ∧ r.tmYday < 366
  mon : 0 ≤ r.tmMon ∧ r.tmMon < 12
  mday : 1 ≤ r.tmMday ∧ r.tmMday ≤ monthDays (r.tmYear + 1900) r.tmMon.toNat
  time : ((newYear (r.tmYear + 1900) + monthStart (r.tmYear + 1900) r.tmMon.toNat + r.tmMday - 1) * 24 +
    r.tmHour) * 3600 + r.tmMin * 60 + r.tmSec = t

theorem gmtimeR_year {t : Int} (ht : t < 0) : (gmtimeR t).tmYear = 70 := by
  have hwork : t.tdiv 86400 ≤ 0 := by
    obtain ⟨n, rfl, hn⟩ : ∃ n : Int, t = -n ∧ 0 < n := ⟨-t, by omega, by omega⟩
    rw [Int.neg_tdiv, Int.tdiv_eq_ediv_of_nonneg hn.le]
    omega
  have hloop : yearLoop 1970 (t.tdiv 86400) = (1970, t.tdiv 86400) := by
    rw [yearLoop, if_neg]
    have hlen : yearLen 1970 = 365 := rfl
    omega
  unfold gmtimeR
  dsimp only
  rw [hloop]
  rfl

theorem monthStart_nonneg {m : Nat} (h : m < 12) (y : Int) : 0 ≤ monthStart y m := by
  have hspm := (spm_step h).2.2.1
  rw [(spm_month h y).1]
  split <;> omega

/-- **No time before the epoch is denoted by its fields.** -/
theorem gmtimeR_negative (t : Int) (ht : t < 0) : ¬Denotes t (gmtimeR t) := by
  intro h
  have hyear := gmtimeR_year ht
  have hstart := monthStart_nonneg (m := (gmtimeR t).tmMon.toNat) (by have := h.mon; omega) 1970
  have htime := h.time
  rw [hyear, show (70 : Int) + 1900 = 1970 from rfl, newYear_1970] at htime
  have hmday := h.mday.1
  have hhour := h.hour.1
  have hmin := h.min.1
  have hsec := h.sec.1
  omega

/-- The last second of 1969. -/
theorem gmtimeR_negative_one : (-1 : Int) < 0 ∧ ¬Denotes (-1) (gmtimeR (-1)) :=
  ⟨by decide, gmtimeR_negative (-1) (by decide)⟩

/-- It is in a year that `tm_year` represents, and its `tm_sec` is -1. -/
theorem gmtimeR_last_second : InYear (-1 / 86400) 1969 ∧ Fits 32 (1969 - 1900) ∧
    (gmtimeR (-1)).tmSec = -1 ∧ ¬Denotes (-1) (gmtimeR (-1)) := by
  have hsec : (gmtimeR (-1)).tmSec = -1 := rfl
  refine ⟨by decide, by decide, hsec, fun h => ?_⟩
  have hpos := h.sec.1
  omega

end Dietlibc.Time
