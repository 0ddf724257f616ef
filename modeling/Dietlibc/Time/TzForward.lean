import Dietlibc.Time.Tzfile

/-!
# From UTC to local time

`__tzfile_map` looks for the first transition that is not before `t` and takes the type in front of
it. That is the type in force if `t` lies between two transitions. At a transition it is the type
before, behind the last one there is none, and in front of the first one the byte that is read is
the last one of the transition times. `follows_iff` has the four cases.
-/

namespace Dietlibc.Time

open CInt

variable {z : Zone} {t x y : Int} {i j k m n : Nat} {l : TtInfo} {r : TzMap}

/-! ## The claim -/

/-- Transition `k` is the last one whose time is not after `t`. -/
def LastAt (z : Zone) (t : Int) (k : Nat) : Prop :=
  (∃ x, z.times[k]? = some x ∧ x ≤ t) ∧ ∀ y, z.times[k + 1]? = some y → t < y

/-- The local time type of transition `k`. -/
def Zone.info (z : Zone) (k : Nat) : Option TtInfo := z.types[k]?.bind fun j => z.infos[j.toNat]?

def TtInfo.flag (l : TtInfo) : Nat := if l.isdst then 1 else 0

/-- The map reads inside the file, and gives the time and the flag of the type in force. -/
def Follows (z : Zone) (t : Int) : Prop :=
  ∃ r, tzfileMap z.bytes t true = some r ∧
    ∀ k l, LastAt z t k → z.info k = some l → r.value = t + l.utoff ∧ r.isdst = l.flag

/-- What a file has where the type in front of transition `i` is looked up. -/
def typeBefore (f : List UInt8) (timecnt i : Int) : Option (Int × Nat) := do
  let j ← byteAt f (44 + 4 * timecnt + i - 1)
  let p := 44 + 5 * timecnt + 6 * j.toNat
  let isdst ← byteAt f (p + 4)
  let _ ← byteAt f (p + 5)
  let utoff ← myntohl f p
  some (utoff, isdst.toNat)

/-- In front of the first transition the index is the last byte of the transition times. -/
def Zone.typeBefore (z : Zone) (i : Nat) : Option (Int × Nat) :=
  Time.typeBefore z.bytes z.times.length i

/-- Up to the first transition the type that is read must be in the file; it must be the right one at
the transition itself. At a later transition the type before must agree with the new one, and behind the
last transition the type must be UTC without daylight saving. -/
def RightType (z : Zone) (t : Int) : Prop :=
  ∀ first, z.times[0]? = some first →
    (t ≤ first → ∃ utoff isdst, z.typeBefore 0 = some (utoff, isdst) ∧ Fits 64 (t + utoff) ∧
      (t = first → ∀ l, z.info 0 = some l → utoff = l.utoff ∧ isdst = l.flag)) ∧
    (first < t → ∀ k x l, LastAt z t k → z.times[k]? = some x → z.info k = some l →
      (t = x → ∀ l', z.info (k - 1) = some l' → l'.utoff = l.utoff ∧ l'.flag = l.flag) ∧
      (x < t → k + 1 = z.times.length → l.utoff = 0 ∧ l.flag = 0))

/-! ## Transitions -/

theorem times_lt (h : i < j) (hi : z.times[i]? = some x) (hj : z.times[j]? = some y) : x < y := by
  obtain ⟨hi', rfl⟩ := List.getElem?_eq_some_iff.mp hi
  obtain ⟨hj', rfl⟩ := List.getElem?_eq_some_iff.mp hj
  exact List.pairwise_iff_getElem.mp z.increasing i j hi' hj' h

theorem times_le (h : i ≤ j) (hi : z.times[i]? = some x) (hj : z.times[j]? = some y) : x ≤ y := by
  rcases Nat.lt_or_eq_of_le h with hlt | rfl
  · exact (times_lt hlt hi hj).le
  · exact (Option.some.inj (hi.symm.trans hj)).le

theorem exists_time (h : i < z.times.length) : ∃ x, z.times[i]? = some x :=
  ⟨_, List.getElem?_eq_getElem h⟩

theorem exists_info (h : i < z.times.length) : ∃ l, z.info i = some l := by
  have hlt : i < z.types.length := by
    rw [z.types_length]
    exact h
  have hj := z.types_lt z.types[i] (List.getElem_mem hlt)
  refine ⟨z.infos[z.types[i].toNat], ?_⟩
  rw [Zone.info, List.getElem?_eq_getElem hlt, Option.bind_some, List.getElem?_eq_getElem hj]

/-- There is a last transition as soon as there is one that is not after `t`. -/
theorem exists_lastAt (hx : z.times[0]? = some x) (h : x ≤ t) : ∃ k, LastAt z t k := by
  have hpos : 0 < z.times.length := (List.getElem?_eq_some_iff.mp hx).1
  -- the last index with a time that is not after `t`
  have hbound (k : Nat) : k < z.times.length ∧ (∃ y, z.times[k]? = some y ∧ y ≤ t) →
      k ≤ z.times.length := fun h => h.1.le
  obtain ⟨k, ⟨hk, hle⟩, hmax⟩ :
      ∃ k, (k < z.times.length ∧ ∃ y, z.times[k]? = some y ∧ y ≤ t) ∧
        ∀ k', (k' < z.times.length ∧ ∃ y, z.times[k']? = some y ∧ y ≤ t) → k' ≤ k := by
    classical
    refine ⟨Nat.findGreatest (fun k => k < z.times.length ∧ ∃ y, z.times[k]? = some y ∧ y ≤ t)
      z.times.length, ?_, fun k' hk' => Nat.le_findGreatest (hbound k' hk') hk'⟩
    exact Nat.findGreatest_spec (P := fun k => k < z.times.length ∧ ∃ y, z.times[k]? = some y ∧ y ≤ t)
      (Nat.zero_le _) ⟨hpos, x, hx, h⟩
  refine ⟨k, hle, fun y hy => ?_⟩
  by_contra hlt
  have := hmax (k + 1) ⟨(List.getElem?_eq_some_iff.mp hy).1, y, hy, Int.not_lt.mp hlt⟩
  omega

theorem LastAt.lt_length (h : LastAt z t k) : k < z.times.length := by
  obtain ⟨⟨x, hx, -⟩, -⟩ := h
  exact (List.getElem?_eq_some_iff.mp hx).1

/-! ## The loop -/

theorem sval_length (z : Zone) {c : Int} (h0 : 0 ≤ c) (h : c ≤ 5 * z.times.length + 6 * z.infos.length) :
    sval 32 c = some c := by
  have := z.small
  exact sval_of_fits (fits32.mpr ⟨by omega, by omega⟩)

theorem forwardLoop_step (c : Int) (hx : z.times[i]? = some x) :
    forwardLoop z.bytes z.times.length c t (n + 1) i =
      if t ≤ x then mapForward z.bytes z.times.length c t i
      else forwardLoop z.bytes z.times.length c t n (i + 1 : Nat) := by
  have hi := (List.getElem?_eq_some_iff.mp hx).1
  have htime := time_eq hx
  rw [forwardLoop, sval_length z (c := i * 4) (by omega) (by omega)]
  simp only [Option.bind_eq_bind, Option.bind_some]
  rw [show (44 : Int) + i * 4 = (44 + 4 * i : Nat) by omega, htime, Option.bind_some]
  rfl

/-- The loop goes on to the first transition that is not before `t`. -/
theorem forwardLoop_found (c : Int) (hle : i ≤ m) (hx : z.times[m]? = some x) (h : t ≤ x)
    (hbefore : ∀ (j : Nat) y, j < m → z.times[j]? = some y → y < t) (hn : m < i + n) :
    forwardLoop z.bytes z.times.length c t n i = mapForward z.bytes z.times.length c t m := by
  induction n generalizing i with
  | zero => omega
  | succ n ih =>
    rcases Nat.lt_or_eq_of_le hle with hlt | rfl
    · have hm := (List.getElem?_eq_some_iff.mp hx).1
      obtain ⟨y, hy⟩ := exists_time (z := z) (i := i) (by omega)
      rw [forwardLoop_step c hy, if_neg (Int.not_le.mpr (hbefore i y hlt hy)),
        ih (i := i + 1) (by omega) (by omega)]
    · rw [forwardLoop_step c hx, if_pos h]

/-- There is no transition that is not before `t`. -/
theorem forwardLoop_none (c : Int) (hbefore : ∀ (j : Nat) y, z.times[j]? = some y → y < t)
    (hn : i + n ≤ z.times.length) :
    forwardLoop z.bytes z.times.length c t n i = some (unmapped z.times.length t) := by
  induction n generalizing i with
  | zero => rfl
  | succ n ih =>
    obtain ⟨y, hy⟩ := exists_time (z := z) (i := i) (by omega)
    rw [forwardLoop_step c hy, if_neg (Int.not_le.mpr (hbefore i y hy)), ih (by omega)]

theorem tzfileMap_forward (z : Zone) (t : Int) : tzfileMap z.bytes t true =
    forwardLoop z.bytes z.times.length z.infos.length t z.times.length (0 : Nat) := by
  rw [tzfileMap, timecnt_eq, typecnt_eq]
  rfl

/-! ## The type that is taken -/

theorem mapForward_eq {f : List UInt8} {timecnt typecnt : Int} (t i : Int)
    (h4 : sval 32 (timecnt * 4) = some (timecnt * 4))
    (h5 : sval 32 (timecnt * 5) = some (timecnt * 5))
    (h6 : sval 32 (typecnt * 6) = some (typecnt * 6))
    (hsum : sval 32 (timecnt * 5 + typecnt * 6) = some (timecnt * 5 + typecnt * 6)) :
    (mapForward f timecnt typecnt t i).map (fun r => (r.value, r.isdst)) =
      (typeBefore f timecnt i).bind fun s => (sval 64 (t + s.1)).map fun v => (v, s.2) := by
  unfold mapForward typeBefore
  simp only [Option.bind_eq_bind, Option.bind_some, h4, h5, h6, hsum]
  rw [show 44 + timecnt * 4 + i - 1 = 44 + 4 * timecnt + i - 1 by omega]
  rcases byteAt f (44 + 4 * timecnt + i - 1) with - | j
  · rfl
  simp only [Option.bind_some]
  rw [show 44 + timecnt * 4 + timecnt + j.toNat * 6 = 44 + 5 * timecnt + 6 * j.toNat by omega]
  rcases byteAt f (44 + 5 * timecnt + 6 * j.toNat + 4) with - | isdst
  · rfl
  rcases byteAt f (44 + 5 * timecnt + 6 * j.toNat + 5) with - | abbrind
  · rfl
  rcases myntohl f (44 + 5 * timecnt + 6 * j.toNat) with - | utoff
  · rfl
  simp only [Option.bind_some]
  rcases sval 64 (t + utoff) with - | v <;> rfl

/-- From the second transition on, the type of the transition before. -/
theorem typeBefore_succ (hl : z.info k = some l) : z.typeBefore (k + 1) = some (l.utoff, l.flag) := by
  obtain ⟨j, hj, hinfo⟩ := Option.bind_eq_some_iff.mp hl
  obtain ⟨tail, hbytes⟩ := drop_info hinfo
  have hutoff : myntohl z.bytes ((44 + 5 * z.times.length + 6 * j.toNat : Nat) : Int) =
      some l.utoff := myntohl_of_drop l.fits (u := _ :: l.abbrind :: tail) hbytes
  have hdst : byteAt z.bytes ((44 + 5 * z.times.length + 6 * j.toNat + 4 : Nat) : Int) =
      some (if l.isdst then 1 else 0) := by
    refine byteAt_of_drop (u := l.abbrind :: tail) ?_
    rw [← List.drop_drop, hbytes]
    rfl
  have habbr : byteAt z.bytes ((44 + 5 * z.times.length + 6 * j.toNat + 5 : Nat) : Int) =
      some l.abbrind := by
    refine byteAt_of_drop (u := tail) ?_
    rw [← List.drop_drop, hbytes]
    rfl
  have htype := type_eq hj
  unfold Zone.typeBefore Time.typeBefore
  rw [show (44 : Int) + 4 * z.times.length + (k + 1 : Nat) - 1 =
    (44 + 4 * z.times.length + k : Nat) by omega, htype]
  push_cast at hutoff hdst habbr
  simp only [Option.bind_eq_bind, Option.bind_some, hutoff, hdst, habbr]
  rw [TtInfo.flag]
  split <;> rfl

/-! ## The cases -/

/-- The map up to the transition `m`, the first one that is not before `t`. -/
theorem map_eq_typeBefore (hx : z.times[m]? = some x) (h : t ≤ x)
    (hbefore : ∀ (j : Nat) y, j < m → z.times[j]? = some y → y < t) :
    (tzfileMap z.bytes t true).map (fun r => (r.value, r.isdst)) =
      (z.typeBefore m).bind fun s => (sval 64 (t + s.1)).map fun v => (v, s.2) := by
  have hm := (List.getElem?_eq_some_iff.mp hx).1
  rw [tzfileMap_forward, forwardLoop_found _ (Nat.zero_le m) hx h hbefore (by omega)]
  exact mapForward_eq t m (sval_length z (by omega) (by omega)) (sval_length z (by omega) (by omega))
    (sval_length z (by omega) (by omega)) (sval_length z (by omega) (by omega))

theorem map_eq_unmapped (hbefore : ∀ (j : Nat) y, z.times[j]? = some y → y < t) :
    tzfileMap z.bytes t true = some (unmapped z.times.length t) := by
  rw [tzfileMap_forward, forwardLoop_none _ hbefore (by omega)]

theorem LastAt.unique (h : LastAt z t i) (h' : LastAt z t j) : i = j := by
  have key {a b : Nat} (ha : LastAt z t a) (hb : LastAt z t b) : b ≤ a := by
    obtain ⟨⟨x, hx, hle⟩, -⟩ := hb
    by_contra hlt
    obtain ⟨y, hy⟩ := exists_time (z := z) (i := a + 1) (by
      have := (List.getElem?_eq_some_iff.mp hx).1
      omega)
    have := ha.2 y hy
    have := times_le (by omega) hy hx
    omega
  exact Nat.le_antisymm (key h' h) (key h h')

/-- What a map gives, in terms of the type that was looked up. -/
theorem map_iff_typeBefore (hx : z.times[m]? = some x) (h : t ≤ x)
    (hbefore : ∀ (j : Nat) y, j < m → z.times[j]? = some y → y < t) (P : Int → Nat → Prop) :
    (∃ r, tzfileMap z.bytes t true = some r ∧ P r.value r.isdst) ↔
      ∃ utoff isdst, z.typeBefore m = some (utoff, isdst) ∧ Fits 64 (t + utoff) ∧
        P (t + utoff) isdst := by
  have heq := map_eq_typeBefore hx h hbefore
  constructor
  · rintro ⟨r, hr, hP⟩
    rw [hr, Option.map_some] at heq
    obtain ⟨⟨utoff, isdst⟩, hs, hv⟩ := Option.bind_eq_some_iff.mp heq.symm
    obtain ⟨v, hv, heq⟩ := Option.map_eq_some_iff.mp hv
    have hfit := fits_of_sval hv
    obtain rfl := sval_eq_some hv
    obtain ⟨h1, h2⟩ := Prod.mk.inj heq
    exact ⟨utoff, isdst, hs, hfit, by rwa [h1, show isdst = r.isdst from h2]⟩
  · rintro ⟨utoff, isdst, hs, hfit, hP⟩
    rw [hs, Option.bind_some, sval_of_fits hfit, Option.map_some] at heq
    obtain ⟨r, hr, heq⟩ := Option.map_eq_some_iff.mp heq
    obtain ⟨h1, h2⟩ := Prod.mk.inj heq
    exact ⟨r, hr, by rwa [h1, h2]⟩

/-- The conclusion at the last transition `k`, whose type is `l`. -/
theorem follows_iff_at (hk : LastAt z t k) (hl : z.info k = some l) : Follows z t ↔
    ∃ r, tzfileMap z.bytes t true = some r ∧ r.value = t + l.utoff ∧ r.isdst = l.flag := by
  constructor
  · rintro ⟨r, hr, hall⟩
    exact ⟨r, hr, hall k l hk hl⟩
  · rintro ⟨r, hr, h⟩
    refine ⟨r, hr, fun k' l' hk' hl' => ?_⟩
    rw [hk'.unique hk, hl] at hl'
    cases hl'
    exact h

/-- Without transitions the time is not mapped, and no type is attached. -/
theorem follows_of_nil (h : z.times[0]? = none) : Follows z t := by
  have hlen : z.times.length = 0 := by
    have := List.getElem?_eq_none_iff.mp h
    omega
  refine ⟨_, map_eq_unmapped fun j y hy => ?_, fun k l hk _ => ?_⟩
  · have := (List.getElem?_eq_some_iff.mp hy).1
    omega
  · have := hk.lt_length
    omega

/-- Up to the first transition. -/
theorem follows_iff_first (hx : z.times[0]? = some x) (h : t ≤ x) : Follows z t ↔
    ∃ utoff isdst, z.typeBefore 0 = some (utoff, isdst) ∧ Fits 64 (t + utoff) ∧
      (t = x → ∀ l, z.info 0 = some l → utoff = l.utoff ∧ isdst = l.flag) := by
  have hlast {k : Nat} : LastAt z t k → k = 0 ∧ t = x := by
    rintro ⟨⟨y, hy, hle⟩, -⟩
    rcases Nat.eq_zero_or_pos k with rfl | hpos
    · cases hx.symm.trans hy
      exact ⟨rfl, by omega⟩
    · have := times_lt hpos hx hy
      omega
  refine (map_iff_typeBefore hx h (fun j y hj => by omega) fun v d =>
    ∀ k l, LastAt z t k → z.info k = some l → v = t + l.utoff ∧ d = l.flag).trans ?_
  refine exists_congr fun utoff => exists_congr fun isdst => and_congr_right fun _ =>
    and_congr_right fun _ => ⟨fun hall ht l hl => ?_, fun hall k l hk hl => ?_⟩
  · have hlt : ∀ y, z.times[0 + 1]? = some y → t < y := fun y hy => by
      have := times_lt Nat.zero_lt_one hx hy
      omega
    obtain ⟨hv, hd⟩ := hall 0 l ⟨⟨x, hx, ht.ge⟩, hlt⟩ hl
    exact ⟨by omega, hd⟩
  · obtain ⟨rfl, ht⟩ := hlast hk
    obtain ⟨hu, hd⟩ := hall ht l hl
    exact ⟨by rw [hu], hd⟩

/-- The type in front of a later transition `k + 1`. -/
theorem map_iff_info (hx : z.times[k + 1]? = some x) (h : t ≤ x)
    (hbefore : ∀ (j : Nat) y, j < k + 1 → z.times[j]? = some y → y < t) (hl : z.info k = some l)
    (P : Int → Nat → Prop) : (∃ r, tzfileMap z.bytes t true = some r ∧ P r.value r.isdst) ↔
      P (t + l.utoff) l.flag := by
  rw [map_iff_typeBefore hx h hbefore, typeBefore_succ hl]
  constructor
  · rintro ⟨utoff, isdst, heq, -, hP⟩
    cases heq
    exact hP
  · intro hP
    refine ⟨_, _, rfl, ?_, hP⟩
    -- the time is between two transition times
    obtain ⟨y, hy⟩ := exists_time (z := z) (i := 0) (by
      have := (List.getElem?_eq_some_iff.mp hx).1
      omega)
    have hlow := hbefore 0 y (by omega) hy
    have hy := fits32.mp (z.times_fits y (List.mem_of_getElem? hy))
    have hx := fits32.mp (z.times_fits x (List.mem_of_getElem? hx))
    have hu := fits32.mp l.fits
    exact fits64.mpr ⟨by omega, by omega⟩

/-- Behind the first transition, the last one before or at `t` being `k`. -/
theorem follows_iff_later (hfirst : z.times[0]? = some y) (hlt : y < t) (hk : LastAt z t k)
    (hx : z.times[k]? = some x) (hl : z.info k = some l) : Follows z t ↔
      (t = x → ∀ l', z.info (k - 1) = some l' → l'.utoff = l.utoff ∧ l'.flag = l.flag) ∧
      (x < t → k + 1 = z.times.length → l.utoff = 0 ∧ l.flag = 0) := by
  rw [follows_iff_at hk hl]
  have hle : x ≤ t := by
    obtain ⟨⟨x', hx', hle⟩, -⟩ := hk
    rwa [Option.some.inj (hx.symm.trans hx')]
  have hupto : ∀ (j : Nat) w, j < k + 1 → z.times[j]? = some w → w ≤ x :=
    fun j w hj hw => times_le (by omega) hw hx
  rcases Int.lt_or_eq_of_le hle with hxt | rfl
  · by_cases hlen : k + 1 < z.times.length
    · -- between two transitions
      obtain ⟨w, hw⟩ := exists_time hlen
      have := hk.2 w hw
      rw [map_iff_info hw (by omega) (fun j w' hj hw' => by
        have := hupto j w' hj hw'
        omega) hl fun v d => v = t + l.utoff ∧ d = l.flag]
      exact iff_of_true ⟨rfl, rfl⟩ ⟨fun ht => by omega, fun _ hend => by omega⟩
    · -- behind the last one
      have hend : k + 1 = z.times.length := by
        have := hk.lt_length
        omega
      rw [map_eq_unmapped fun j w hw => by
        have hj := (List.getElem?_eq_some_iff.mp hw).1
        have := hupto j w (by omega) hw
        omega]
      constructor
      · rintro ⟨r, hr, hv, hd⟩
        cases hr
        rw [unmapped] at hv hd
        exact ⟨fun ht => by omega, fun _ _ => ⟨by simpa using hv, hd.symm⟩⟩
      · rintro ⟨-, hz⟩
        obtain ⟨hu, hd⟩ := hz hxt hend
        exact ⟨_, rfl, by rw [hu, Int.add_zero]; rfl, hd.symm⟩
  · -- at a transition, which is not the first one
    obtain ⟨k, rfl⟩ : ∃ k', k = k' + 1 := by
      rcases Nat.eq_zero_or_pos k with rfl | hpos
      · cases hfirst.symm.trans hx
        omega
      · exact ⟨k - 1, by omega⟩
    obtain ⟨l', hl'⟩ := exists_info (z := z) (i := k) (by
      have := hk.lt_length
      omega)
    rw [map_iff_info hx le_rfl (fun j w hj hw => times_lt hj hw hx) hl'
      fun v d => v = x + l.utoff ∧ d = l.flag]
    constructor
    · rintro ⟨hu, hd⟩
      refine ⟨fun _ l'' hl'' => ?_, fun ht => by omega⟩
      cases hl'.symm.trans hl''
      exact ⟨by omega, hd⟩
    · rintro ⟨hall, -⟩
      obtain ⟨hu, hd⟩ := hall rfl l' hl'
      exact ⟨by rw [hu], hd⟩

/-- **The type that is used**: the map gives the type of the last transition that is not after `t`
if and only if the type it reads is that one. -/
theorem follows_iff (z : Zone) (t : Int) : Follows z t ↔ RightType z t := by
  rcases hfirst : z.times[0]? with - | first
  · refine iff_of_true (follows_of_nil hfirst) fun first h => ?_
    rw [hfirst] at h
    cases h
  rcases lt_or_ge first t with hlt | hle
  · obtain ⟨k, hk⟩ := exists_lastAt hfirst hlt.le
    obtain ⟨x, hx⟩ := exists_time hk.lt_length
    obtain ⟨l, hl⟩ := exists_info hk.lt_length
    rw [follows_iff_later hfirst hlt hk hx hl]
    constructor
    · intro h first' hf'
      cases hfirst.symm.trans hf'
      refine ⟨fun hle => by omega, fun _ k' x' l' hk' hx' hl' => ?_⟩
      cases hk'.unique hk
      cases hx.symm.trans hx'
      cases hl.symm.trans hl'
      exact h
    · intro h
      exact (h first hfirst).2 hlt k x l hk hx hl
  · rw [follows_iff_first hfirst hle]
    constructor
    · intro h first' hf'
      cases hfirst.symm.trans hf'
      exact ⟨fun _ => h, fun hlt => by omega⟩
    · intro h
      exact (h first hfirst).1 hle

theorem reserved_zeros : (List.replicate 16 (0 : UInt8)).length = 16 := rfl

theorem no_indicators : ([] : List UInt8).length = 0 ∨ ([] : List UInt8).length = 2 := .inl rfl

/-- Winter time up to 1000, then summer time up to 2000, then winter time. -/
def summer : Zone where
  reserved := List.replicate 16 0
  times := [0, 1000, 2000]
  types := [0, 1, 0]
  infos := [⟨3600, false, 0, by decide⟩, ⟨7200, true, 1, by decide⟩]
  chars := [87, 0]
  leaps := []
  isstd := []
  isgmt := []
  reserved_length := reserved_zeros
  times_fits := by decide
  increasing := by decide
  types_length := rfl
  types_lt := by simp
  infos_ne := by decide
  abbrind_lt := by decide
  isstd_length := no_indicators
  isgmt_length := no_indicators
  small := by decide

/-- At the second transition the offset is still the one of winter time. -/
theorem winter_at_change : ¬ Follows summer 1000 := by
  rintro ⟨r, hr, hall⟩
  have hvalue : (tzfileMap summer.bytes 1000 true).map TzMap.value = some 4600 := by decide
  rw [hr] at hvalue
  have hlast : LastAt summer 1000 1 := by
    refine ⟨⟨1000, rfl, le_rfl⟩, fun y hy => ?_⟩
    cases hy
    decide
  have hsummer := (hall 1 ⟨7200, true, 1, by decide⟩ hlast rfl).1
  rw [Option.map_some, hsummer] at hvalue
  exact absurd hvalue (by decide)

end Dietlibc.Time
