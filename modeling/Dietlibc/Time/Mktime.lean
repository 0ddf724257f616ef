import Dietlibc.Time.Timegm
import Dietlibc.Time.TzForward

/-!
# `localtime_r` and `mktime`

`mktime` undoes `localtime_r` if it takes off the offset that was added. It looks for the offset in
the local time itself, among the types of all transitions but the last two, and compares the local
time with the transition times less their offsets. `mktime_localtimeR_iff` has the condition.
-/

namespace Dietlibc.Time

open CInt Calendar

/-! ## The code -/

/-- `localtime_r` with the file `f`. -/
def localtimeR (f : List UInt8) (t : Int) : Option Tm := do
  let r ← tzfileMap f t true
  some (gmtimeR r.value)

/-- `mktime` with the file `f`: the value, and the structure as it is left. -/
def mktime (f : List UInt8) (t : Tm) : Option (Int × Tm) := do
  let (x, t) ← timegm t
  let r ← tzfileMap f x false
  some (r.value, t)

/-! ## The claim -/

/-- `mktime` of the local time is the time again. -/
def Inverts (z : Zone) (t : Int) : Prop :=
  ∃ r s, localtimeR z.bytes t = some r ∧ mktime z.bytes r = some (t, s)

/-- The local time of `t` is not the local time of another time. -/
def OnlyTime (z : Zone) (t : Int) : Prop :=
  ∀ t' r r', tzfileMap z.bytes t true = some r → tzfileMap z.bytes t' true = some r' →
    r'.value = r.value → t' = t

/-- The offset from UTC to local time at `t`: the one in front of the first transition that is not
before `t`, and none behind the last one. -/
def ForwardOffset (z : Zone) (t off : Int) : Prop :=
  (∃ m x isdst, z.times[m]? = some x ∧ t ≤ x ∧
    (∀ (j : Nat) y, j < m → z.times[j]? = some y → y < t) ∧ z.typeBefore m = some (off, isdst)) ∨
  ((∀ (j : Nat) y, z.times[j]? = some y → y < t) ∧ off = 0)

/-- Transition `i + 1`, less the offset in front of it, is after `t`. -/
def Ahead (z : Zone) (t : Int) (i : Nat) (off : Int) : Prop :=
  ∃ x l, z.times[i + 1]? = some x ∧ z.info i = some l ∧ l.utoff = off ∧ t < x - off

/-- The offset from local time `t` back to UTC: the one in front of the first transition ahead, the
first and the last transition not being looked at. There is none before 1970. -/
def ReverseOffset (z : Zone) (t off : Int) : Prop :=
  (0 ≤ t ∧ ∃ i, i + 2 < z.times.length ∧ Ahead z t i off ∧ ∀ j off', j < i → ¬ Ahead z t j off') ∨
  ((t < 0 ∨ ∀ i off', i + 2 < z.times.length → ¬ Ahead z t i off') ∧ off = 0)

/-- One offset both ways, and a local time before the year `2 ^ 31`. -/
def SameOffset (z : Zone) (t : Int) : Prop :=
  ∃ off, ForwardOffset z t off ∧ ReverseOffset z (t + off) off ∧
    t + off < newYear 2147483648 * 86400

variable {z : Zone} {t x y off last : Int} {i j k m n : Nat} {l : TtInfo} {r : TzMap}

/-! ## `timegm` of `gmtime_r` -/

theorem exists_inYear {d : Int} (h : 0 ≤ d) : ∃ y, InYear d y := by
  obtain ⟨n, rfl⟩ : ∃ n : Nat, d = n := ⟨d.toNat, by omega⟩
  induction n with
  | zero => exact ⟨1970, by decide⟩
  | succ n ih =>
    obtain ⟨y, h1, h2⟩ := ih (by omega)
    have := newYear_lt_succ (y + 1)
    by_cases hn : ((n + 1 : Nat) : Int) < newYear (y + 1)
    · exact ⟨y, by omega, hn⟩
    · exact ⟨y + 1, by omega, by omega⟩

/-- From 1970 to the last year that is an `int`. -/
theorem timegm_of_year (h : 0 ≤ t) (hmax : t < newYear 2147483648 * 86400) :
    timegm (gmtimeR t) = some (t, gmtimeR t) := by
  obtain ⟨y, hy⟩ := exists_inYear (d := t / 86400) (by omega)
  refine (roundTrip_of_le h hy ?_).inverse
  by_contra hlt
  have := newYear_mono (show 2147483648 ≤ y by omega)
  have := hy.1
  omega

/-- Fields that are not positive stay in January 1970. -/
theorem timegm_january {sec min hour mday : Int} (wday yday : Int) (hs : sec ≤ 60) (hm : min ≤ 60)
    (hh : hour ≤ 60) (hd : mday ≤ 31) (hlow : -2147483648 < mday) :
    ∃ r, timegm ⟨sec, min, hour, mday, 0, 70, wday, yday⟩ =
      some ((((mday - 1) * 24 + hour) * 60 + min) * 60 + sec, r) := by
  have hloop (wday yday : Int) : mdayLoop ⟨sec, min, hour, mday, 0, 70, wday, yday⟩ =
      some ⟨sec, min, hour, mday, 0, 70, wday, yday⟩ := by
    unfold mdayLoop
    split
    · next e => cases e
    · next s e =>
      have he : s = 31 := Option.some.inj e.symm
      rw [dif_neg (by rw [he]; exact Int.not_lt.mpr hd)]
  refine ⟨⟨sec, min, hour, mday, 0, 70, (mday - 1 + 4).tmod 7, mday - 1⟩, ?_⟩
  have hyday : sval 32 (mday - 1) = some (mday - 1) := sval_of_fits (fits32.mpr ⟨by omega, by omega⟩)
  have hyears : sval 32 ((70 : Int) - 70) = some 0 := rfl
  have hyear : sval 32 ((70 : Int) + 1900) = some 1970 := rfl
  have hspm : spmAt 0 = some 0 := rfl
  have hday : dayCount 0 = 0 := rfl
  unfold timegm
  simp only [Option.bind_eq_bind, carry_of_le hs, carry_of_le hm, carry_of_le hh,
    carry_of_le (show (0 : Int) ≤ 12 by decide), Option.bind_some,
    if_neg (show ¬ (0 : Int) < 0 by decide), hloop, hyears, hyear, hspm,
    if_neg (show ¬ (70 : Int) < 70 by decide), show decide ((1 : Int) < 0) = false from rfl,
    Bool.and_false, Bool.false_eq_true, if_false, Int.add_zero, Int.zero_add, hyday, hday]

/-- A little before 1970 the fields are not positive. -/
theorem timegm_before (h : t < 0) (hlow : -4294967296 ≤ t) :
    ∃ r, timegm (gmtimeR t) = some (t, r) := by
  obtain ⟨n, rfl, hpos⟩ : ∃ n : Int, t = -n ∧ 0 < n := ⟨-t, by omega, by omega⟩
  have hwork : (-n).tdiv 86400 = -(n / 86400) := by
    rw [Int.neg_tdiv, Int.tdiv_eq_ediv_of_nonneg hpos.le]
  have hday : yearLoop 1970 (-(n / 86400)) = (1970, -(n / 86400)) := by
    rw [yearLoop, if_neg (by rw [show yearLen 1970 = 365 from rfl]; omega)]
  have hmonth (i : Nat) (hi : i ≤ 11) : monthLoop (-(n / 86400)) i = 0 := by
    induction i with
    | zero => rfl
    | succ i ih =>
      have := (spm_step (m := i) (by omega)).2.2.2.1
      rw [monthLoop, if_pos (by omega), ih (by omega)]
  have hdate : dateOf (isleap (conv 32 1970)) (-(n / 86400)) = (0, 1 + (-(n / 86400) - 0)) := by
    rw [show isleap (conv 32 1970) = false from rfl, dateOf, Bool.false_and]
    simp only [Bool.false_and, Bool.false_eq_true, if_false, hmonth 11 le_rfl]
    rfl
  have hmday : conv 32 (1 + (-(n / 86400) - 0)) = 1 - n / 86400 := by
    rw [conv_of_fits (by decide) (fits32.mpr ⟨by omega, by omega⟩)]
    omega
  have hyday : conv 32 (-(n / 86400)) = -(n / 86400) :=
    conv_of_fits (by decide) (fits32.mpr ⟨by omega, by omega⟩)
  have hfields : gmtimeR (-n) = ⟨-(n % 60), -(n / 60 % 60), -(n / 3600 % 24), 1 - n / 86400, 0, 70,
      (4 + -(n / 86400)).tmod 7, -(n / 86400)⟩ := by
    unfold gmtimeR
    simp only [hwork, hday, hdate, hmday, hyday]
    rw [Int.neg_tmod, Int.tmod_eq_emod_of_nonneg hpos.le, Int.neg_tdiv, Int.neg_tmod, Int.neg_tmod,
      Int.neg_tdiv, Int.tdiv_eq_ediv_of_nonneg (by omega), Int.tdiv_eq_ediv_of_nonneg (by omega),
      Int.tmod_eq_emod_of_nonneg (by omega), Int.tmod_eq_emod_of_nonneg (by omega),
      Tm.mk.injEq]
    refine ⟨by omega, by omega, by omega, rfl, rfl, rfl, rfl, rfl⟩
  have hjan (wday yday : Int) := timegm_january wday yday (show -(n % 60) ≤ 60 by omega)
    (show -(n / 60 % 60) ≤ 60 by omega) (show -(n / 3600 % 24) ≤ 60 by omega)
    (show 1 - n / 86400 ≤ 31 by omega) (by omega)
  obtain ⟨r, hr⟩ := hjan ((4 + -(n / 86400)).tmod 7) (-(n / 86400))
  refine ⟨r, ?_⟩
  rw [hfields, hr]
  congr 2
  omega

/-- From the year `2 ^ 31` on, the value is in an earlier year. -/
theorem timegm_late {tm : Tm} (h : newYear 2147483648 * 86400 ≤ t)
    (hx : timegm (gmtimeR t) = some (x, tm)) : x < newYear 2147483648 * 86400 := by
  have hmax : newYear 2147483648 = 784351576777 := by decide
  have ht : 0 ≤ t := by omega
  obtain ⟨i, w, hloop⟩ : ∃ i w, yearLoop 1970 (t / 86400) = (i, w) := ⟨_, _, rfl⟩
  obtain ⟨-, hw0, hw1, -⟩ := yearLoop_bounds 1970 (t / 86400) (by omega)
  rw [hloop] at hw0 hw1
  have hf := gmtimeR_fields ht hloop
  obtain ⟨m, hm, hlt, -, -, hdate⟩ := hf.date
  have hsec := hf.sec
  have hmin := hf.min
  have hhour := hf.hour
  rw [timegm_of_inRange hf.inRange hm] at hx
  obtain ⟨years, hyears, hx⟩ := Option.bind_eq_some_iff.mp hx
  split at hx
  · cases hx
    omega
  · obtain ⟨y, hy, hx⟩ := Option.bind_eq_some_iff.mp hx
    have hyears := sval_eq_some hyears
    have hfit := fits_of_sval hy
    have hy := sval_eq_some hy
    -- the year that was asked for leap day is this one
    have hi : conv 32 i = y := by
      have hyear := hf.year
      rw [fits32] at hfit
      unfold conv Int.bmod at hyear ⊢
      norm_num at hyear ⊢
      omega
    rw [hi] at hdate
    rw [yearLen, hi] at hw1
    have hyday : ydayOf (isleap y) m (gmtimeR t).tmMday = w := by
      rw [hdate, ydayOf]
      simp only [Bool.and_eq_true, decide_eq_true_eq]
    have hdays : (if isleap y = true then 366 else 365 : Int) = yearDays y := by
      unfold yearDays
      simp only [isleap_iff]
    rw [hyday] at hx
    cases hx
    have hcount := dayCount_eq (n := years) (by omega)
    have hsucc := newYear_succ y
    rw [fits32] at hfit
    have hmono := newYear_mono (show y + 1 ≤ 2147483648 by omega)
    rw [show 1970 + years = y by omega] at hcount
    rw [hcount]
    omega

/-! ## The offset of local time -/

theorem conv_fits (x : Int) : Fits 32 (conv 32 x) := by
  have hlow := Int.le_bmod (x := x) (m := 2 ^ 32) (by decide)
  have hhigh := Int.bmod_lt (x := x) (m := 2 ^ 32) (by decide)
  unfold conv
  refine fits32.mpr ⟨by omega, by omega⟩

theorem myntohl_fits {f : List UInt8} {p v : Int} (h : myntohl f p = some v) : Fits 32 v := by
  unfold myntohl at h
  obtain ⟨b0, -, h⟩ := Option.bind_eq_some_iff.mp h
  obtain ⟨b1, -, h⟩ := Option.bind_eq_some_iff.mp h
  obtain ⟨b2, -, h⟩ := Option.bind_eq_some_iff.mp h
  obtain ⟨b3, -, h⟩ := Option.bind_eq_some_iff.mp h
  rw [← Option.some.inj h]
  exact conv_fits _

theorem typeBefore_fits {d : Nat} (h : z.typeBefore m = some (off, d)) : Fits 32 off := by
  unfold Zone.typeBefore Time.typeBefore at h
  obtain ⟨j, -, h⟩ := Option.bind_eq_some_iff.mp h
  obtain ⟨b, -, h⟩ := Option.bind_eq_some_iff.mp h
  obtain ⟨b', -, h⟩ := Option.bind_eq_some_iff.mp h
  obtain ⟨v, hv, h⟩ := Option.bind_eq_some_iff.mp h
  cases h
  exact myntohl_fits hv

/-- There is a first transition that is not before `t` as soon as there is one. -/
theorem exists_first (h : ¬ ∀ (j : Nat) y, z.times[j]? = some y → y < t) :
    ∃ m w, z.times[m]? = some w ∧ t ≤ w ∧
      ∀ (j : Nat) y, j < m → z.times[j]? = some y → y < t := by
  classical
  push Not at h
  obtain ⟨w, hw, hle⟩ := Nat.find_spec h
  refine ⟨Nat.find h, w, hw, hle, fun j y hj hy => ?_⟩
  by_contra hlt
  exact Nat.find_min h hj ⟨y, hy, Int.not_lt.mp hlt⟩

theorem ForwardOffset.bounds (h : ForwardOffset z t off) :
    off = 0 ∨ Fits 32 off ∧ t ≤ 2147483647 := by
  rcases h with ⟨m, x, d, hx, hle, -, hoff⟩ | ⟨-, rfl⟩
  · have hx := fits32.mp (z.times_fits x (List.mem_of_getElem? hx))
    exact .inr ⟨typeBefore_fits hoff, by omega⟩
  · exact .inl rfl

/-- What the forward map gives is the time and the offset. -/
theorem forward_value (hr : tzfileMap z.bytes t true = some r) :
    ∃ off, ForwardOffset z t off ∧ r.value = t + off := by
  by_cases hend : ∀ (j : Nat) y, z.times[j]? = some y → y < t
  · rw [map_eq_unmapped hend] at hr
    cases hr
    exact ⟨0, .inr ⟨hend, rfl⟩, (Int.add_zero t).symm⟩
  · obtain ⟨m, w, hw, hle, hbefore⟩ := exists_first hend
    obtain ⟨off, d, hoff, -, hv⟩ :=
      (map_iff_typeBefore hw hle hbefore fun v _ => r.value = v).mp ⟨r, hr, rfl⟩
    exact ⟨off, .inl ⟨m, w, d, hw, hle, hbefore, hoff⟩, hv⟩

/-- From 1970 on it does not overflow. -/
theorem forward_eq (h : 0 ≤ t) (hoff : ForwardOffset z t off) :
    ∃ r, tzfileMap z.bytes t true = some r ∧ r.value = t + off := by
  have hbounds := hoff.bounds
  rcases hoff with ⟨m, w, d, hw, hle, hbefore, hoff⟩ | ⟨hend, rfl⟩
  · have hfits := fits32.mp (z.times_fits w (List.mem_of_getElem? hw))
    have hoffs := fits32.mp (typeBefore_fits hoff)
    exact (map_iff_typeBefore hw hle hbefore fun v _ => v = t + off).mpr
      ⟨off, d, hoff, fits64.mpr ⟨by omega, by omega⟩, rfl⟩
  · exact ⟨_, map_eq_unmapped hend, (Int.add_zero t).symm⟩

/-! ## The offset back -/

theorem reverseLoop_step (hx : z.times[i + 1]? = some x) (hl : z.info i = some l) :
    reverseLoop z.bytes z.times.length t (n + 1) (i + 1 : Nat) last =
      if last ≤ t then
        if t < x - l.utoff then
          (sval 64 (t - l.utoff)).map fun v => { unmapped z.times.length t with value := v }
        else reverseLoop z.bytes z.times.length t n (i + 1 + 1 : Nat) (x - l.utoff)
      else reverseLoop z.bytes z.times.length t n (i + 1 + 1 : Nat) 0 := by
  obtain ⟨j, hj, hinfo⟩ := Option.bind_eq_some_iff.mp hl
  obtain ⟨tail, hbytes⟩ := drop_info hinfo
  have hutoff : myntohl z.bytes ((44 + 5 * z.times.length + 6 * j.toNat : Nat) : Int) =
      some l.utoff := myntohl_of_drop l.fits (u := _ :: l.abbrind :: tail) hbytes
  have htype := type_eq hj
  have htime := time_eq hx
  have hi := (List.getElem?_eq_some_iff.mp hx).1
  have hlen := sval_length z (c := z.times.length * 4) (by omega) (by omega)
  have hidx := sval_length z (c := (i + 1 : Nat) * 4) (by omega) (by omega)
  generalize z.bytes = f at *
  generalize z.times.length = timecnt at *
  rw [reverseLoop, hlen]
  simp only [Option.bind_eq_bind, Option.bind_some]
  rw [show (44 : Int) + timecnt * 4 + (i + 1 : Nat) - 1 = (44 + 4 * timecnt + i : Nat) by omega,
    htype, Option.bind_some,
    show (44 : Int) + timecnt * 4 + timecnt + j.toNat * 6 =
      (44 + 5 * timecnt + 6 * j.toNat : Nat) by omega, hutoff, Option.bind_some, hidx,
    Option.bind_some, show (44 : Int) + (i + 1 : Nat) * 4 = (44 + 4 * (i + 1) : Nat) by omega, htime,
    Option.bind_some]
  split
  · split
    · rcases sval 64 (t - l.utoff) with - | v <;> rfl
    · rfl
  · rfl

/-- The loop goes on to the first transition ahead. -/
theorem reverseLoop_found (hlast : last ≤ t) (hle : i ≤ m) (hx : z.times[m + 1]? = some x)
    (hl : z.info m = some l) (hlt : t < x - l.utoff) (hbefore : ∀ j off', j < m → ¬ Ahead z t j off')
    (hn : m < i + n) (hfit : Fits 64 (t - l.utoff)) :
    reverseLoop z.bytes z.times.length t n (i + 1 : Nat) last =
      some { unmapped z.times.length t with value := t - l.utoff } := by
  induction n generalizing i last with
  | zero => omega
  | succ n ih =>
    have hm := (List.getElem?_eq_some_iff.mp hx).1
    rcases Nat.lt_or_eq_of_le hle with him | rfl
    · obtain ⟨y, hy⟩ := exists_time (z := z) (i := i + 1) (by omega)
      obtain ⟨k, hk⟩ := exists_info (z := z) (i := i) (by omega)
      have hpast : ¬ t < y - k.utoff := fun hlt => hbefore i k.utoff him ⟨y, k, hy, hk, rfl, hlt⟩
      rw [reverseLoop_step hy hk, if_pos hlast, if_neg hpast,
        ih (i := i + 1) (by omega) (by omega) (by omega)]
    · rw [reverseLoop_step hx hl, if_pos hlast, if_pos hlt, sval_of_fits hfit]
      rfl

/-- No transition is ahead. -/
theorem reverseLoop_none (hlast : last ≤ t) (hn : i + n + 1 < z.times.length)
    (hnone : ∀ j off', j < i + n → ¬ Ahead z t j off') :
    reverseLoop z.bytes z.times.length t n (i + 1 : Nat) last =
      some (unmapped z.times.length t) := by
  induction n generalizing i last with
  | zero => rfl
  | succ n ih =>
    obtain ⟨y, hy⟩ := exists_time (z := z) (i := i + 1) (by omega)
    obtain ⟨k, hk⟩ := exists_info (z := z) (i := i) (by omega)
    have hpast : ¬ t < y - k.utoff :=
      fun hlt => hnone i k.utoff (by omega) ⟨y, k, hy, hk, rfl, hlt⟩
    rw [reverseLoop_step hy hk, if_pos hlast, if_neg hpast,
      ih (by omega) (by omega) (fun j off' hj => hnone j off' (by omega))]

/-- A time before 1970 is below `lastval` in every turn. -/
theorem reverseLoop_neg (ht : t < 0) (hn : i + n + 1 < z.times.length) :
    reverseLoop z.bytes z.times.length t n (i + 1 : Nat) 0 = some (unmapped z.times.length t) := by
  induction n generalizing i with
  | zero => rfl
  | succ n ih =>
    obtain ⟨y, hy⟩ := exists_time (z := z) (i := i + 1) (by omega)
    obtain ⟨k, hk⟩ := exists_info (z := z) (i := i) (by omega)
    rw [reverseLoop_step hy hk, if_neg (by omega), ih (by omega)]

theorem tzfileMap_reverse (z : Zone) (t : Int) : tzfileMap z.bytes t false =
    reverseLoop z.bytes z.times.length t (z.times.length - 2) (0 + 1 : Nat) 0 := by
  rw [tzfileMap, timecnt_eq, typecnt_eq]
  simp only [Option.bind_eq_bind, Option.bind_some, Bool.false_eq_true, if_false]
  rw [show ((z.times.length : Int) - 2).toNat = z.times.length - 2 by omega]
  rfl

theorem ahead_bounds (h : Ahead z t i off) (h0 : 0 ≤ t) :
    -2147483648 ≤ t - off ∧ t - off < 6442450944 := by
  obtain ⟨x, l, hx, -, rfl, hlt⟩ := h
  have hx := fits32.mp (z.times_fits x (List.mem_of_getElem? hx))
  have hl := fits32.mp l.fits
  exact ⟨by omega, by omega⟩

/-- The reverse map takes the offset off. -/
theorem reverse_eq (h : ReverseOffset z t off) :
    ∃ r, tzfileMap z.bytes t false = some r ∧ r.value = t - off := by
  rw [tzfileMap_reverse]
  rcases h with ⟨h0, m, hm, ⟨x, l, hx, hl, rfl, hlt⟩, hbefore⟩ | ⟨hnone, rfl⟩
  · obtain ⟨hlow, hhigh⟩ := ahead_bounds ⟨x, l, hx, hl, rfl, hlt⟩ h0
    exact ⟨_, reverseLoop_found h0 (Nat.zero_le m) hx hl hlt hbefore (by omega)
      (fits64.mpr ⟨by omega, by omega⟩), rfl⟩
  · refine ⟨unmapped z.times.length t, ?_, (Int.sub_zero t).symm⟩
    by_cases hlen : z.times.length ≤ 2
    · rw [show z.times.length - 2 = 0 by omega]
      rfl
    · by_cases ht : t < 0
      · exact reverseLoop_neg ht (by omega)
      · refine reverseLoop_none (by omega) (by omega) fun j off' hj => ?_
        exact (hnone.resolve_left ht) j off' (by omega)

/-- There is an offset back, and it leads to a time near the transitions. -/
theorem exists_reverseOffset (z : Zone) (t : Int) :
    ∃ off, ReverseOffset z t off ∧ (off = 0 ∨ t - off < 6442450944) := by
  by_cases ht : t < 0
  · exact ⟨0, .inr ⟨.inl ht, rfl⟩, .inl rfl⟩
  by_cases h : ∃ i, i + 2 < z.times.length ∧ ∃ off, Ahead z t i off
  · classical
    obtain ⟨hlt, off, hahead⟩ := Nat.find_spec h
    refine ⟨off, .inl ⟨by omega, Nat.find h, hlt, hahead, fun j off' hj hj' => ?_⟩, .inr ?_⟩
    · exact Nat.find_min h hj ⟨by omega, off', hj'⟩
    · exact (ahead_bounds hahead (by omega)).2
  · exact ⟨0, .inr ⟨.inr fun i off hi hahead => h ⟨i, hi, off, hahead⟩, rfl⟩, .inl rfl⟩

/-! ## The round trip -/

/-- The broken-down local time is taken together again. -/
theorem timegm_local (h : 0 ≤ t) (hoff : ForwardOffset z t off)
    (hyear : t + off < newYear 2147483648 * 86400) :
    ∃ tm, timegm (gmtimeR (t + off)) = some (t + off, tm) := by
  by_cases h0 : 0 ≤ t + off
  · exact ⟨_, timegm_of_year h0 hyear⟩
  · refine timegm_before (by omega) ?_
    rcases hoff.bounds with rfl | ⟨hfit, -⟩
    · omega
    · rw [fits32] at hfit
      omega

theorem sameOffset_of_inverts (h : 0 ≤ t) : Inverts z t → SameOffset z t := by
  have hmax : newYear 2147483648 = 784351576777 := by decide
  rintro ⟨tm, tm', hlocal, hmk⟩
  obtain ⟨r, hr, heq⟩ := Option.bind_eq_some_iff.mp hlocal
  cases heq
  obtain ⟨off, hoff, hvalue⟩ := forward_value hr
  obtain ⟨⟨x, tm⟩, hx, hmk⟩ := Option.bind_eq_some_iff.mp hmk
  obtain ⟨r', hr', hmk⟩ := Option.bind_eq_some_iff.mp hmk
  obtain ⟨off', hoff', hnear⟩ := exists_reverseOffset z x
  obtain ⟨r'', hr'', hv⟩ := reverse_eq hoff'
  have hback : t = x - off' := by
    cases hr'.symm.trans hr''
    cases hmk
    exact hv
  rw [hvalue] at hx
  by_cases hyear : t + off < newYear 2147483648 * 86400
  · obtain ⟨tm', htm⟩ := timegm_local h hoff hyear
    cases htm.symm.trans hx
    obtain rfl : off' = off := by omega
    exact ⟨off', hoff, hoff', hyear⟩
  · -- behind all transitions, in a year that is no `int`
    have hlate := timegm_late (Int.not_lt.mp hyear) hx
    rcases hoff.bounds with rfl | ⟨hfit, hle⟩
    · omega
    · rw [fits32] at hfit
      omega

theorem inverts_of_sameOffset (h : 0 ≤ t) : SameOffset z t → Inverts z t := by
  rintro ⟨off, hforward, hreverse, hyear⟩
  obtain ⟨r, hr, hvalue⟩ := forward_eq h hforward
  obtain ⟨tm, htm⟩ := timegm_local h hforward hyear
  obtain ⟨r', hr', hv⟩ := reverse_eq hreverse
  refine ⟨gmtimeR r.value, tm, ?_, ?_⟩
  · rw [localtimeR, hr]
    rfl
  · rw [mktime, hvalue, htm]
    simp only [Option.bind_eq_bind, Option.bind_some, hr']
    rw [hv, Int.add_sub_cancel]

/-- **mktime inverts localtime_r**: for a time from 1970 on, exactly if both maps select one offset
and the local time is before the year `2 ^ 31`. -/
theorem mktime_localtimeR_iff (z : Zone) (t : Int) (h : 0 ≤ t) : Inverts z t ↔ SameOffset z t :=
  ⟨sameOffset_of_inverts h, inverts_of_sameOffset h⟩

/-- Five hours west of Greenwich, or four in summer. -/
def eastern : Zone where
  reserved := List.replicate 16 0
  times := [0, 100000, 200000, 300000]
  types := [0, 1, 0, 1]
  infos := [⟨-18000, false, 0, by decide⟩, ⟨-14400, true, 1, by decide⟩]
  chars := [69, 0]
  leaps := []
  isstd := []
  isgmt := []
  reserved_length := reserved_zeros
  times_fits := by decide
  increasing := by decide
  types_length := rfl
  types_lt := by simp
  infos_ne := by decide
  abbrind_lt := by decide
  isstd_length := no_indicators
  isgmt_length := no_indicators
  small := by decide

/-- The transitions of `eastern`. -/
theorem eastern_time (h : eastern.times[i]? = some x) :
    (i = 0 ∧ x = 0) ∨ (i = 1 ∧ x = 100000) ∨ (i = 2 ∧ x = 200000) ∨ (i = 3 ∧ x = 300000) := by
  have hi := (List.getElem?_eq_some_iff.mp h).1
  rw [show eastern.times.length = 4 from rfl] at hi
  interval_cases i <;> cases h <;> omega

theorem eastern_ahead (h0 : 0 ≤ t) (h : t < 118000) : Ahead eastern t 0 (-18000) :=
  ⟨100000, _, rfl, rfl, rfl, by omega⟩

/-- The offset the forward map uses in `eastern`. -/
theorem eastern_forward (h : ForwardOffset eastern t off) :
    (t ≤ 100000 ∧ off = -18000) ∨ (100000 < t ∧ t ≤ 200000 ∧ off = -14400) ∨
      (200000 < t ∧ t ≤ 300000 ∧ off = -18000) ∨ (300000 < t ∧ off = 0) := by
  rcases h with ⟨m, x, d, hx, hle, hbefore, hoff⟩ | ⟨hend, rfl⟩
  · rcases eastern_time hx with ⟨rfl, rfl⟩ | ⟨rfl, rfl⟩ | ⟨rfl, rfl⟩ | ⟨rfl, rfl⟩
    · -- the index in front of the first transition is outside the file
      exact absurd hoff (by rw [show eastern.typeBefore 0 = none by decide]; exact fun h => by cases h)
    · cases (show eastern.typeBefore 1 = some (-18000, 0) by decide).symm.trans hoff
      exact .inl ⟨hle, rfl⟩
    · cases (show eastern.typeBefore 2 = some (-14400, 1) by decide).symm.trans hoff
      exact .inr (.inl ⟨hbefore 1 100000 (by decide) rfl, hle, rfl⟩)
    · cases (show eastern.typeBefore 3 = some (-18000, 0) by decide).symm.trans hoff
      exact .inr (.inr (.inl ⟨hbefore 2 200000 (by decide) rfl, hle, rfl⟩))
  · exact .inr (.inr (.inr ⟨hend 3 300000 rfl, rfl⟩))

theorem mktime_localtimeR_iff_eastern : Inverts eastern 50000 := by
  have hforward : ForwardOffset eastern 50000 (-18000) := by
    refine .inl ⟨1, 100000, 0, rfl, by decide, fun j y hj hy => ?_, by decide⟩
    rcases eastern_time hy with h | h | h | h <;> omega
  have hreverse : ReverseOffset eastern (50000 + -18000) (-18000) :=
    .inl ⟨by decide, 0, by decide, eastern_ahead (by decide) (by decide), fun j off' hj => by omega⟩
  exact (mktime_localtimeR_iff eastern 50000 (by decide)).mpr
    ⟨-18000, hforward, hreverse, by decide⟩

/-- The local time of the second after a change is unique, but it is mapped back to a time an hour
late. -/
theorem hour_late : 0 ≤ (100001 : Int) ∧ OnlyTime eastern 100001 ∧ ¬ Inverts eastern 100001 := by
  refine ⟨by decide, fun t' r r' hr hr' heq => ?_, fun h => ?_⟩
  · obtain ⟨off, hoff, hv⟩ := forward_value hr
    obtain ⟨off', hoff', hv'⟩ := forward_value hr'
    have h := eastern_forward hoff
    have h' := eastern_forward hoff'
    omega
  · obtain ⟨off, hoff, hback, -⟩ := sameOffset_of_inverts (by decide) h
    have hoff : off = -14400 := by
      have h := eastern_forward hoff
      omega
    rw [hoff] at hback
    have hahead := eastern_ahead (t := 100001 + -14400) (by decide) (by decide)
    rcases hback with ⟨-, i, -, ⟨x, l, -, hl, hutoff, -⟩, hbefore⟩ | ⟨hneg | hnone, -⟩
    · rcases Nat.eq_zero_or_pos i with rfl | hpos
      · cases hl
        exact absurd hutoff (by decide)
      · exact hbefore 0 _ hpos hahead
    · exact absurd hneg (by decide)
    · exact hnone 0 _ (by decide) hahead

end Dietlibc.Time
