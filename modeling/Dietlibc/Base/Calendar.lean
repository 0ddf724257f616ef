import Mathlib.Tactic

/-!
# The Gregorian calendar

Days are numbered from 1 January 1970. `newYear y` is the number of the first day of year
`y` of the proleptic calendar; `newYear_1970` and `newYear_succ` determine it. Months are
numbered from 0, and `monthStart y m` is the day of the year on which month `m` begins.
-/

namespace Calendar

/-- Leap years. -/
def Leap (y : Int) : Prop := y % 4 = 0 ∧ (y % 100 ≠ 0 ∨ y % 400 = 0)

instance (y : Int) : Decidable (Leap y) := inferInstanceAs (Decidable (_ ∧ _))

/-- The length of year `y`. -/
def yearDays (y : Int) : Int := if Leap y then 366 else 365

/-- The leap years of the era before year `y`. -/
def leapsBefore (y : Int) : Int := (y - 1) / 4 - (y - 1) / 100 + (y - 1) / 400

/-- The first day of year `y`. -/
def newYear (y : Int) : Int := 365 * (y - 1970) + leapsBefore y - leapsBefore 1970

/-- Day `d` falls in year `y`. -/
def InYear (d y : Int) : Prop := newYear y ≤ d ∧ d < newYear (y + 1)

instance (d y : Int) : Decidable (InYear d y) := inferInstanceAs (Decidable (_ ∧ _))

/-- The length of month `m` of year `y`. -/
def monthDays (y : Int) : Nat → Int
  | 1 => if Leap y then 29 else 28
  | 3 | 5 | 8 | 10 => 30
  | _ => 31

theorem monthDays_le (y : Int) (m : Nat) : monthDays y m ≤ 31 := by
  unfold monthDays
  split
  · split <;> omega
  · omega
  · omega
  · omega
  · omega
  · omega

/-- The day of the year on which month `m` begins. -/
def monthStart (y : Int) : Nat → Int
  | 0 => 0
  | m + 1 => monthStart y m + monthDays y m

theorem yearDays_cases (y : Int) : yearDays y = 365 ∨ yearDays y = 366 := by
  unfold yearDays; split <;> simp

theorem newYear_1970 : newYear 1970 = 0 := by decide

theorem newYear_succ (y : Int) : newYear (y + 1) = newYear y + yearDays y := by
  have hl : leapsBefore 1970 = 477 := by decide
  unfold newYear yearDays
  split
  · rename_i h
    unfold Leap at h
    unfold leapsBefore at *
    omega
  · rename_i h
    unfold Leap at h
    unfold leapsBefore at *
    omega

theorem newYear_lt_succ (y : Int) : newYear y < newYear (y + 1) := by
  have := newYear_succ y; have := yearDays_cases y; omega

theorem newYear_add_le (y : Int) (n : Nat) : newYear y + 365 * n ≤ newYear (y + n) := by
  induction n with
  | zero => simp
  | succ n ih =>
    have h := newYear_succ (y + n)
    have := yearDays_cases (y + n)
    push_cast
    rw [show y + ((n : Int) + 1) = y + n + 1 by omega, h]
    omega

theorem newYear_mono {y z : Int} (h : y ≤ z) : newYear y ≤ newYear z := by
  obtain ⟨n, rfl⟩ : ∃ n : Nat, z = y + n := ⟨(z - y).toNat, by omega⟩
  have := newYear_add_le y n; omega

theorem InYear.year_ge {d y : Int} (h : InYear d y) (hd : 0 ≤ d) : 1970 ≤ y := by
  by_contra hc
  have := newYear_mono (show y + 1 ≤ 1970 by omega)
  rw [newYear_1970] at this
  have := h.2
  omega

end Calendar
