import Dietlibc.Time.Parsing

/-!
# The derived fields of `strptime`

`strptime` counts every fourth year as a leap year, and `timegm` corrects that for the centuries. So
their weekdays are the same as long as the days that `strptime` counts too many make whole weeks.
-/

namespace Dietlibc.Time

open CInt Calendar Machine
open Lib (text)

/-- A date as `%Y-%m-%d` has it. -/
def dateText (y m d : Nat) : List UInt8 := dec4 y ++ 45 :: (dec2 (m + 1) ++ 45 :: dec2 d)

/-- The date, at midnight. -/
def midnight (y m d : Nat) : Tm := ⟨0, 0, 0, d, m, y - 1900, 0, 0⟩

/-- `strptime` of the date sets the day of the week and of the year that `timegm` sets. -/
def Agrees (tm : Tm) (y m d : Nat) : Prop :=
  ∃ tm' x t, strptime (dateText y m d) (text "%Y-%m-%d") tm = some (some [], tm') ∧
    timegm (midnight y m d) = some (x, t) ∧ tm'.tmWday = t.tmWday ∧ tm'.tmYday = t.tmYday

/-- The years from 1970 on and before `y` that are centuries, but no leap years. -/
def plainCenturies (y : Nat) : Nat := (y - 1) / 100 - (y - 1) / 400 - 15

variable {y m d : Nat}

/-- The fields behind the loop over the format. -/
theorem strptime_dateText (tm : Tm) (hy : y < 10000) (hm : m < 12) (hd : d ≤ 31) {r : Answer} :
    strptime (dateText y m d) (text "%Y-%m-%d") tm = some r ↔
      Stops (step nested) ⟨[], some [], { tm with tmYear := y - 1900, tmMon := m, tmMday := d }⟩ r := by
  unfold strptime
  rw [result_eq_some_iff, show text "%Y-%m-%d" = [37, 89, 45, 37, 109, 45, 37, 100] from rfl]
  unfold dateText
  rw [stops_next rfl (directive_year hy), stops_literal (by decide) (by decide),
    stops_next rfl (directive_mon hm), stops_literal (by decide) (by decide),
    ← List.append_nil (dec2 d), stops_next rfl (directive_mday hd)]

theorem agrees_iff_wday (tm : Tm) (hy : 1970 ≤ y) (hy' : y < 10000) (hm : m < 12) (hd : 1 ≤ d)
    (hd' : d ≤ 31) :
    Agrees tm y m d ↔ ∀ yday : Int, yday = ydayOf (isleap y) m d →
      (((y : Int) - 1970) * 365 + ((y : Int) - 1969) / 4 + yday + 4) % 7 =
        (newYear y + yday + 4) % 7 := by
  have hst := spm_step hm
  have hyear : ((y : Int) - 1900) + 1900 = y := by omega
  have hzero : (0 : Int) ≤ 0 ∧ (0 : Int) < 60 ∧ (0 : Int) < 24 := by decide
  have hrange : InRange (midnight y m d) :=
    ⟨⟨hzero.1, hzero.2.1⟩, ⟨hzero.1, hzero.2.1⟩, ⟨hzero.1, hzero.2.2⟩,
      ⟨Int.natCast_nonneg m, Int.ofNat_lt.2 hm⟩, ⟨Int.ofNat_le.2 hd, Int.ofNat_le.2 hd'⟩⟩
  have htimegm := timegm_of_inRange hrange (m := m) rfl
  unfold midnight at htimegm
  dsimp only at htimegm
  rw [sval_of_fits (fits32.2 (by omega)), Option.bind_some, if_neg (by omega), hyear,
    sval_of_fits (fits32.2 (by omega)), Option.bind_some, dayCount_eq (by omega)] at htimegm
  have hderive := derive_of_fits { tm with tmYear := y - 1900, tmMon := m, tmMday := d }
    (m := m) rfl hm ⟨Int.natCast_nonneg d, Int.ofNat_le.2 hd'⟩
    (yearFits_of_le (by dsimp only; omega) (by dsimp only; omega))
  dsimp only at hderive
  rw [hyear] at hderive
  unfold Agrees
  simp only [strptime_dateText tm hy' hm hd', stops_end hderive]
  unfold midnight
  rw [htimegm]
  have hpos : 0 ≤ ydayOf (isleap y) m d := by
    unfold ydayOf
    split <;> omega
  have hnew := newYear_mono (show (1970 : Int) ≤ y by omega)
  rw [newYear_1970] at hnew
  rw [show (y : Int) - 1900 - 70 = y - 1970 by omega, show (y : Int) - 1900 - 69 = y - 1969 by omega,
    Int.tdiv_eq_ediv_of_nonneg (by omega), Int.tmod_eq_emod_of_nonneg (by omega),
    Int.tmod_eq_emod_of_nonneg (by rw [show 1970 + ((y : Int) - 1970) = y by omega]; omega),
    show 1970 + ((y : Int) - 1970) = y by omega]
  constructor
  · rintro ⟨tm', x, t, h, h', hwday, -⟩ yday rfl
    cases h
    cases h'
    exact hwday
  · intro h
    exact ⟨_, _, _, rfl, rfl, h _ rfl, rfl⟩

/-- **The weekdays agree as long as the plain centuries before the year make whole weeks.** -/
theorem strptime_agrees_iff (tm : Tm) (y m d : Nat) (hy : 1970 ≤ y ∧ y < 10000) (hm : m < 12)
    (hd : 1 ≤ d ∧ (d : Int) ≤ monthDays y m) : Agrees tm y m d ↔ plainCenturies y % 7 = 0 := by
  have h31 : (d : Int) ≤ 31 := hd.2.trans (monthDays_le y m)
  rw [agrees_iff_wday tm hy.1 hy.2 hm hd.1 (by omega)]
  have hlong : newYear y + plainCenturies y = ((y : Int) - 1970) * 365 + ((y : Int) - 1969) / 4 := by
    have h1970 : leapsBefore 1970 = 477 := by decide
    unfold newYear plainCenturies
    rw [h1970]
    unfold leapsBefore
    omega
  rw [← hlong]
  constructor
  · intro h
    have := h _ rfl
    omega
  · rintro h yday -
    omega

/-- New year 2000, the first of the test's dates. -/
theorem strptime_agrees_2000 : Agrees (midnight 1900 0 0) 2000 0 1 :=
  (strptime_agrees_iff (midnight 1900 0 0) 2000 0 1 ⟨by decide, by decide⟩ (by decide)
    ⟨le_rfl, by decide⟩).2 (by decide)

/-- New year 2101 is a Saturday, and a Sunday for `strptime`. -/
theorem strptime_disagrees_2101 :
    (1970 ≤ 2101 ∧ 2101 < 10000) ∧ (1 : Int) ≤ monthDays 2101 0 ∧
      ¬Agrees (midnight 1900 0 0) 2101 0 1 := by
  refine ⟨⟨by decide, by decide⟩, by decide, fun h => ?_⟩
  have hd := (agrees_iff_wday (midnight 1900 0 0) (y := 2101) (m := 0) (d := 1) (by decide) (by decide)
    (by decide) (by decide) (by decide)).1 h 0 (by decide)
  revert hd
  decide

end Dietlibc.Time
