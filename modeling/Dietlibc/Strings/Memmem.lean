import Dietlibc.Strings.Strstr

/-!
# `memmem`

The counter of the places that are left is an `int`, and the number of places a `size_t`. The
counter of a long buffer can be too small, and a counter below zero goes down until it overflows.
-/

namespace Dietlibc.Strings

open CInt Occurrence

/-- The loop of `memmem`, `k` bytes behind the start. -/
def memmemLoop (needle : List UInt8) (nl : Nat) : List UInt8 → Int → Nat → Option (Option Nat)
  | [], i, k =>
    if i = 0 then some none
    else (memcmp [] needle nl).bind fun r => if r = 0 then some (some k) else none
  | b :: haystack, i, k =>
    if i = 0 then some none
    else (memcmp (b :: haystack) needle nl).bind fun r =>
      if r = 0 then some (some k)
      else (sval 32 (i - 1)).bind fun i => memmemLoop needle nl haystack i (k + 1)

/-- `memmem`: the place of the byte it returns, `none` for a null pointer. -/
def memmem (haystack : List UInt8) (hl : Nat) (needle : List UInt8) (nl : Nat) :
    Option (Option Nat) :=
  if hl < nl then some none
  else memmemLoop needle nl haystack (conv 32 ((usub 64 hl nl + 1) % 2 ^ 64 : Nat)) 0

/-- `strstr` finds the first occurrence. -/
def StrstrRight (s t : List UInt8) : Prop :=
  ∃ r, FirstIn s t r ∧ strstr (s ++ [0]) (t ++ [0]) = some r

/-- `memmem` finds the first occurrence. -/
def MemmemRight (s t : List UInt8) : Prop :=
  ∃ r, FirstIn s t r ∧ memmem s s.length t t.length = some r

/-- The places that the low 32 bits of their number count. -/
def places (s t : List UInt8) : Nat := (s.length - t.length + 1) % 2 ^ 32

/-- There is no place for the needle; or the counter is not negative, and an occurrence is among the
places that it counts, if there is one; or the counter is negative, and an occurrence comes before
its overflow. -/
def MemmemFits (s t : List UInt8) : Prop :=
  s.length < t.length ∨
  places s t < 2 ^ 31 ∧ (∀ k, t <+: s.drop k → ∃ j < places s t, t <+: s.drop j) ∨
  2 ^ 31 ≤ places s t ∧ ∃ j < places s t - 2 ^ 31 + 1, t <+: s.drop j

variable {s t : List UInt8} {i : Int} {k m : Nat} {r : Option Nat}

/-- One place: it is the one exactly if the needle is there. -/
theorem memmemLoop_step (hi : i ≠ 0) (hle : t.length ≤ s.length) (hlt : t.length < 2 ^ 64)
    (k : Nat) : memmemLoop t t.length s i k =
      if t <+: s then some (some k)
      else (sval 32 (i - 1)).bind fun i => memmemLoop t t.length s.tail i (k + 1) := by
  obtain ⟨r, hr, hzero⟩ := memcmp_eq_zero_iff hle le_rfl hlt
  rw [List.take_length] at hzero
  have hpre : t <+: s ↔ r = 0 := by rw [hzero, List.prefix_iff_eq_take, eq_comm]
  cases s with
  | nil =>
    have ht : t = [] := List.length_eq_zero_iff.mp (Nat.le_zero.mp hle)
    subst ht
    rw [memmemLoop, if_neg hi, hr, Option.bind_some, if_pos (hpre.mp List.nil_prefix),
      if_pos List.nil_prefix]
  | cons b s =>
    rw [memmemLoop, if_neg hi, hr, Option.bind_some, List.tail_cons]
    simp only [hpre]

/-- The place, if it is one of the first `m`. -/
def within (m : Nat) (r : Option Nat) : Option Nat := r.filter (· < m)

theorem within_zero (r : Option Nat) : within 0 r = none := by cases r <;> rfl

theorem within_first (m : Nat) : within (m + 1) (some 0) = some 0 := rfl

theorem within_succ (m : Nat) (r : Option Nat) :
    within (m + 1) (r.map (· + 1)) = (within m r).map (· + 1) := by
  cases r with
  | none => rfl
  | some k =>
    unfold within
    rw [Option.map_some, Option.filter_some, Option.filter_some]
    simp only [Nat.add_lt_add_iff_right]
    split <;> rfl

theorem within_eq_some {j : Nat} : within m r = some j ↔ r = some j ∧ j < m := by
  unfold within
  rw [Option.filter_eq_some_iff, decide_eq_true_iff]

theorem within_eq_self : within m r = r ↔ ∀ k, r = some k → k < m := by
  cases r with
  | none => exact iff_of_true rfl fun _ h => nomatch h
  | some j =>
    rw [within_eq_some, Option.some.injEq]
    constructor
    · rintro ⟨-, hj⟩ k hk
      exact Option.some.inj hk ▸ hj
    · exact fun h => ⟨rfl, h j rfl⟩

/-- Behind a place that is not the one, the first occurrence is that of the rest. -/
theorem exists_tail (hle : t.length ≤ s.length) (hr : FirstIn s t r) (hn : ¬t <+: s) :
    ∃ r', FirstIn s.tail t r' ∧ r = r'.map (· + 1) := by
  cases s with
  | nil =>
    have ht : t = [] := List.length_eq_zero_iff.mp (Nat.le_zero.mp hle)
    exact absurd (ht ▸ List.nil_prefix) hn
  | cons b s =>
    obtain ⟨r', hr'⟩ := exists_firstIn s t
    exact ⟨r', hr', hr.unique (hr'.cons hn)⟩

/-- The loop with a counter of `m`. -/
theorem memmemLoop_counts (hr : FirstIn s t r) (hlt : t.length < 2 ^ 64)
    (hle : m + t.length ≤ s.length + 1) (hm : m < 2 ^ 31) (k : Nat) :
    memmemLoop t t.length s m k = some ((within m r).map (k + ·)) := by
  induction m generalizing s r k with
  | zero =>
    rw [within_zero]
    cases s <;> exact if_pos rfl
  | succ m ih =>
    have hval : sval 32 (((m + 1 : Nat) : Int) - 1) = some (m : Int) := by
      rw [sval_of_fits (fits32.mpr (by omega))]
      exact congrArg some (by omega)
    rw [memmemLoop_step (by omega) (by omega) hlt, hval, Option.bind_some]
    by_cases hp : t <+: s
    · rw [if_pos hp, hr.unique (firstIn_zero hp), within_first]
      rfl
    · obtain ⟨r', hr', rfl⟩ := exists_tail (by omega) hr hp
      rw [if_neg hp, ih hr' (by rw [List.length_tail]; omega) (by omega), within_succ, Option.map_map]
      exact congrArg (some <| (within m r').map ·)
        (funext fun x => by simp only [Function.comp_apply]; omega)

/-- The loop with a counter that overflows behind `m + 1` places. -/
theorem memmemLoop_overflows (hr : FirstIn s t r) (hlt : t.length < 2 ^ 64)
    (hle : m + 1 + t.length ≤ s.length + 1) (hm : m < 2 ^ 31) (k : Nat) :
    memmemLoop t t.length s (m - 2 ^ 31) k = (within (m + 1) r).map fun j => some (k + j) := by
  induction m generalizing s r k with
  | zero =>
    rw [memmemLoop_step (by omega) (by omega) hlt]
    by_cases hp : t <+: s
    · rw [if_pos hp, hr.unique (firstIn_zero hp), within_first]
      rfl
    · obtain ⟨r', hr', rfl⟩ := exists_tail (by omega) hr hp
      rw [if_neg hp, sval_eq_none (by rw [fits32]; omega), within_succ, within_zero]
      rfl
  | succ m ih =>
    have hval : sval 32 (((m + 1 : Nat) : Int) - 2 ^ 31 - 1) = some ((m : Int) - 2 ^ 31) := by
      rw [sval_of_fits (fits32.mpr (by omega))]
      exact congrArg some (by omega)
    rw [memmemLoop_step (by omega) (by omega) hlt, hval, Option.bind_some]
    by_cases hp : t <+: s
    · rw [if_pos hp, hr.unique (firstIn_zero hp), within_first]
      rfl
    · obtain ⟨r', hr', rfl⟩ := exists_tail (by omega) hr hp
      rw [if_neg hp, ih hr' (by rw [List.length_tail]; omega) (by omega), within_succ, Option.map_map]
      exact congrArg ((within (m + 1) r').map ·)
        (funext fun x => congrArg some (by dsimp only; omega))

/-- The counter at the start. -/
theorem counter_of_places (h : t.length ≤ s.length) (hs : s.length < 2 ^ 64) :
    conv 32 ((usub 64 s.length t.length + 1) % 2 ^ 64 : Nat) =
      if places s t < 2 ^ 31 then (places s t : Int) else (places s t : Int) - 2 ^ 32 := by
  have hplaces : (usub 64 s.length t.length + 1) % 2 ^ 64 % 2 ^ 32 = places s t := by
    rw [usub_of_le h hs, Nat.mod_mod_of_dvd _ (by decide)]
    rfl
  have hlt : places s t < 2 ^ 32 := Nat.mod_lt _ (by decide)
  have hmod : conv 32 ((usub 64 s.length t.length + 1) % 2 ^ 64 : Nat) = conv 32 (places s t) := by
    rw [← hplaces]
    unfold conv
    rw [Int.natCast_emod]
    exact (Int.emod_bmod _ _).symm
  rw [hmod]
  split
  · exact conv_low (by decide) (by assumption)
  · exact conv_high (by decide) (by omega) hlt

theorem memmem_eq (h : t.length ≤ s.length) (hs : s.length < 2 ^ 64) (hr : FirstIn s t r) :
    memmem s s.length t t.length =
      if places s t < 2 ^ 31 then some (within (places s t) r)
      else (within (places s t - 2 ^ 31 + 1) r).map some := by
  have hplaces : places s t ≤ s.length - t.length + 1 := Nat.mod_le _ _
  have hlt : places s t < 2 ^ 32 := Nat.mod_lt _ (by decide)
  rw [memmem, if_neg (not_lt.mpr h), counter_of_places h hs]
  by_cases hm : places s t < 2 ^ 31
  · rw [if_pos hm, if_pos hm, memmemLoop_counts hr (by omega) (by omega) hm]
    simp
  · have hi : (places s t : Int) - 2 ^ 32 = ((places s t - 2 ^ 31 : Nat) : Int) - 2 ^ 31 := by omega
    rw [if_neg hm, if_neg hm, hi, memmemLoop_overflows hr (by omega) (by omega) (by omega)]
    simp

theorem memmemRight_iff (hs : s.length < 2 ^ 64) : MemmemRight s t ↔ MemmemFits s t := by
  by_cases hlt : s.length < t.length
  · exact iff_of_true ⟨none, firstIn_of_lt hlt, if_pos hlt⟩ (.inl hlt)
  · obtain ⟨r, hr⟩ := exists_firstIn s t
    have hright : MemmemRight s t ↔ memmem s s.length t t.length = some r :=
      ⟨fun ⟨r', hr', h⟩ => hr.unique hr' ▸ h, fun h => ⟨r, hr, h⟩⟩
    rw [hright, memmem_eq (not_lt.mp hlt) hs hr, MemmemFits, hr.forall_exists_lt_iff,
      hr.exists_lt_iff, ← within_eq_self]
    by_cases hm : places s t < 2 ^ 31
    · rw [if_pos hm, Option.some_inj]
      constructor
      · exact fun h => .inr (.inl ⟨hm, h⟩)
      · rintro (h | ⟨-, h⟩ | ⟨h, -⟩)
        · exact absurd h hlt
        · exact h
        · omega
    · rw [if_neg hm, Option.map_eq_some_iff]
      constructor
      · rintro ⟨k, hk, rfl⟩
        exact .inr (.inr ⟨not_lt.mp hm, k, rfl, (within_eq_some.mp hk).2⟩)
      · rintro (h | ⟨h, -⟩ | ⟨-, k, rfl, hk⟩)
        · exact absurd h hlt
        · exact absurd h hm
        · exact ⟨k, within_eq_some.mpr ⟨rfl, hk⟩, rfl⟩

/-! ## Both -/

theorem strstrRight (hs : 0 ∉ s) (ht : 0 ∉ t) (hlen : s.length < 2 ^ 64) : StrstrRight s t := by
  by_cases hne : t = []
  · subst hne
    refine ⟨some 0, firstIn_zero List.nil_prefix, ?_⟩
    rw [strstr, strlen_eq ht, strlen_eq hs]
    rfl
  · exact strstr_spec hs ht hne hlen

/-- **The first occurrence** is what `strstr` returns, and `memmem` exactly if its counter takes it
there. -/
theorem substring_right_iff {x y : List UInt8} (hs : 0 ∉ s) (ht : 0 ∉ t) (hlen : s.length < 2 ^ 64)
    (hx : x.length < 2 ^ 64) : StrstrRight s t ∧ MemmemRight x y ↔ MemmemFits x y := by
  rw [and_iff_right (strstrRight hs ht hlen), memmemRight_iff hx]

/-- `"b"` in `"ab"`. -/
theorem substring_right_iff_ab :
    StrstrRight [97, 98] [98] ∧ MemmemRight [97, 98] [98] ↔ MemmemFits [97, 98] [98] :=
  substring_right_iff (by decide) (by decide) (by decide) (by decide)

/-- The first byte of a buffer of `2 ^ 32` bytes is not found. -/
theorem memmem_misses : ¬MemmemRight (List.replicate (2 ^ 32) 97) [97] := by
  have hlen : (List.replicate (2 ^ 32) (97 : UInt8)).length = 2 ^ 32 := List.length_replicate
  have hp : [97] <+: List.replicate (2 ^ 32) (97 : UInt8) := by
    rw [show 2 ^ 32 = 2 ^ 32 - 1 + 1 from rfl, List.replicate_succ]
    exact List.prefix_append [97] _
  have hplaces : places (List.replicate (2 ^ 32) 97) [97] = 0 := by
    rw [places, hlen]
    rfl
  rw [memmemRight_iff (by rw [hlen]; decide), MemmemFits, hplaces, hlen]
  rintro (h | ⟨-, h⟩ | ⟨h, -⟩)
  · exact absurd h (by decide)
  · obtain ⟨j, hj, -⟩ := h 0 hp
    exact Nat.not_lt_zero j hj
  · exact absurd h (by decide)

end Dietlibc.Strings
