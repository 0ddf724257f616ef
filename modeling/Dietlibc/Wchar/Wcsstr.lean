import Dietlibc.Base.CInt
import Dietlibc.Base.Difference
import Dietlibc.Base.Occurrence

/-!
# `wcsstr` and `wcsncmp`

A wide string lies in an array with a terminator at its end (`terminated`). A pointer into it is the
rest of the array, and `none` is undefined: a read behind the array, or an overflow of the result.
-/

namespace Dietlibc.Wchar

open Difference Occurrence

/-- The inner loop of `wcsstr`: the `needle[j]` behind it. -/
def wcsstrInner : List Int → List Int → Option Int
  | c :: haystack, d :: needle => if c = d then wcsstrInner haystack needle else some d
  | _, _ => none

/-- The outer loop of `wcsstr`, `i` characters behind the start. -/
def wcsstrLoop (needle : List Int) : Nat → List Int → Option (Option Nat)
  | _, [] => none
  | i, c :: haystack =>
    if c = 0 then some none
    else
      (wcsstrInner (c :: haystack) needle).bind fun d =>
        if d = 0 then some (some i) else wcsstrLoop needle (i + 1) haystack

/-- `wcsstr`: the place of the character it returns, `none` for a null pointer. -/
def wcsstr (haystack needle : List Int) : Option (Option Nat) := wcsstrLoop needle 0 haystack

/-- `wcsncmp` with `n - i` turns left. -/
def wcsncmp : List Int → List Int → Nat → Option Int
  | a :: s1, b :: s2, n + 1 => if a = b then wcsncmp s1 s2 n else CInt.sval 32 (a - b)
  | a :: _, b :: _, 0 => CInt.sval 32 (a - b)
  | _, _, _ => none

/-- The array of a string. -/
def terminated (s : List Int) : List Int := s ++ [0]

/-- `wcsstr` finds the first occurrence and reads no further than the terminators. -/
def WcsstrRight (h needle : List Int) : Prop :=
  ∃ r, wcsstr (terminated h) (terminated needle) = some r ∧ FirstIn h needle r

/-- The characters that `wcsncmp` may read. -/
def readable (s : List Int) (n : Nat) : List Int := (terminated s).take n

/-- `wcsncmp` reads no more than it may. It is zero where these characters are the same, and has the
sign of their first difference elsewhere. -/
def WcsncmpRight (s t : List Int) (n : Nat) : Prop :=
  ∃ r, wcsncmp (readable s n) (readable t n) n = some r ∧ (r = 0 ↔ readable s n = readable t n) ∧
    ∀ p a b, DifferAt (readable s n) (readable t n) p a b → r.sign = (a - b).sign

variable {h n x y p : List Int} {a b d r : Int} {i k : Nat}

/-! ## `wcsstr` -/

theorem wcsstrInner_found (h0 : 0 ∉ h) (hp : n <+: h) (hne : n ≠ h) :
    wcsstrInner (terminated h) (terminated n) = some 0 := by
  induction n generalizing h with
  | nil =>
    obtain ⟨c, h, rfl⟩ := List.exists_cons_of_ne_nil (Ne.symm hne)
    exact if_neg (Ne.symm (List.ne_of_not_mem_cons h0))
  | cons d n ih =>
    obtain ⟨t, rfl⟩ := hp
    have hrec := ih (h := n ++ t) (fun hmem => h0 (List.mem_cons_of_mem d hmem))
      (List.prefix_append n t) fun he => hne (by rw [List.cons_append, ← he])
    rw [← hrec]
    exact if_pos rfl

/-- Where both end together the loop goes on behind the terminators. -/
theorem wcsstrInner_self (h : List Int) : wcsstrInner (terminated h) (terminated h) = none := by
  induction h with
  | nil => exact if_pos rfl
  | cons c h ih => exact (if_pos rfl).trans ih

theorem wcsstrInner_mismatch (n0 : 0 ∉ n) (hp : ¬n <+: h) :
    ∃ d, wcsstrInner (terminated h) (terminated n) = some d ∧ d ≠ 0 := by
  induction n generalizing h with
  | nil => exact absurd List.nil_prefix hp
  | cons d n ih =>
    obtain ⟨hd, hn⟩ := not_or.mp (mt List.mem_cons.mpr n0)
    cases h with
    | nil => exact ⟨d, if_neg hd, Ne.symm hd⟩
    | cons c h =>
      by_cases hcd : c = d
      · subst hcd
        obtain ⟨e, he, hne⟩ := ih hn fun hpre => hp ((List.prefix_cons_inj c).mpr hpre)
        exact ⟨e, (if_pos rfl).trans he, hne⟩
      · exact ⟨d, if_neg hcd, Ne.symm hd⟩

/-- One turn of the outer loop. -/
theorem wcsstrLoop_cons (ha : a ≠ 0) : wcsstrLoop (terminated n) i (terminated (a :: h)) =
    (wcsstrInner (terminated (a :: h)) (terminated n)).bind fun d =>
      if d = 0 then some (some i) else wcsstrLoop (terminated n) (i + 1) (terminated h) :=
  if_neg ha

/-- The loop finds the first occurrence, unless this is at the end of a string that is not empty. -/
theorem wcsstrLoop_spec (h0 : 0 ∉ h) (n0 : 0 ∉ n) (i : Nat) :
    ∃ r, FirstIn h n r ∧
      ((∀ k, r = some k → k + n.length < h.length) →
        wcsstrLoop (terminated n) i (terminated h) = some (r.map (i + ·))) ∧
      ∀ k, r = some k → k + n.length = h.length → h ≠ [] →
        wcsstrLoop (terminated n) i (terminated h) = none := by
  induction h generalizing i with
  | nil =>
    by_cases hn : n = []
    · subst hn
      exact ⟨some 0, firstIn_zero List.nil_prefix, fun h => absurd (h 0 rfl) (Nat.lt_irrefl 0),
        fun _ _ _ h => absurd rfl h⟩
    · exact ⟨none, firstIn_nil hn, fun _ => if_pos rfl, fun _ hk => by cases hk⟩
  | cons c h ih =>
    obtain ⟨hc, htail⟩ := not_or.mp (mt List.mem_cons.mpr h0)
    rw [wcsstrLoop_cons (Ne.symm hc)]
    by_cases hp : n <+: c :: h
    · refine ⟨some 0, firstIn_zero hp, fun hlt => ?_, fun k hk hlen _ => ?_⟩
      · have hne : n ≠ c :: h := fun he => absurd (hlt 0 rfl) (by rw [he]; omega)
        rw [wcsstrInner_found h0 hp hne, Option.bind_some, if_pos rfl]
        rfl
      · obtain rfl := Option.some.inj hk
        have he : n = c :: h := hp.eq_of_length (by omega)
        rw [he, wcsstrInner_self]
        rfl
    · obtain ⟨d, hd, hne⟩ := wcsstrInner_mismatch n0 hp
      obtain ⟨r, hr, hfound, hend⟩ := ih htail (i + 1)
      rw [hd, Option.bind_some, if_neg hne]
      refine ⟨_, hr.cons hp, fun hlt => ?_, fun k hk hlen _ => ?_⟩
      · rw [hfound fun k hk => ?_, Option.map_map]
        · exact congrArg (some <| r.map ·) (funext fun x => by simp only [Function.comp_apply]; omega)
        · have := hlt (k + 1) (by rw [hk]; rfl)
          rw [List.length_cons] at this
          omega
      · obtain ⟨j, rfl, rfl⟩ := Option.map_eq_some_iff.mp hk
        rw [List.length_cons] at hlen
        refine hend j rfl (by omega) fun he => hp ?_
        rw [he, List.length_nil] at hlen
        have hnil : n = [] := List.length_eq_zero_iff.mp (by omega)
        rw [hnil]
        exact List.nil_prefix

/-- `wcsstr` is right unless the first occurrence is at the end of the string. -/
theorem wcsstr_right_iff (h0 : 0 ∉ h) (n0 : 0 ∉ n) :
    WcsstrRight h n ↔ ∀ k, FirstIn h n (some k) → k + n.length ≠ h.length := by
  obtain ⟨r, hr, hfound, hend⟩ := wcsstrLoop_spec h0 n0 0
  constructor
  · rintro ⟨r', hr', hfirst⟩ k hk hlen
    obtain rfl := hfirst.unique hk
    obtain rfl := hr.unique hk
    by_cases hh : h = []
    · -- the empty string: `wcsstr` does not look at the needle
      subst hh
      cases hr'
    · rw [wcsstr, hend k rfl hlen hh] at hr'
      cases hr'
  · intro hk
    refine ⟨r, ?_, hr⟩
    rw [wcsstr, hfound fun k he => ?_]
    · cases r <;> simp
    · subst he
      exact lt_of_le_of_ne hr.add_le (hk k hr)

/-! ## `wcsncmp` -/

theorem wcsncmp_cons (n : Nat) : wcsncmp (a :: x) (b :: y) (n + 1) =
    if a = b then wcsncmp x y n else CInt.sval 32 (a - b) := rfl

/-- A result comes from a difference within the characters that may be read. -/
theorem wcsncmp_eq_some (hx : x.length ≤ k) : wcsncmp x y k = some r ↔
    ∃ p a b, DifferAt x y p a b ∧ CInt.Fits 32 (a - b) ∧ r = a - b := by
  induction x generalizing y k with
  | nil =>
    refine iff_of_false (fun h => ?_) ?_
    · cases k <;> cases h
    · rintro ⟨p, a, b, ⟨⟨x', hx'⟩, -⟩, -⟩
      cases p <;> cases hx'
  | cons a x ih =>
    obtain ⟨k, rfl⟩ : ∃ k', k = k' + 1 := ⟨k - 1, by rw [List.length_cons] at hx; omega⟩
    cases y with
    | nil =>
      refine iff_of_false (fun h => by cases h) ?_
      rintro ⟨p, a, b, ⟨-, ⟨y', hy'⟩, -⟩, -⟩
      cases p <;> cases hy'
    | cons b y =>
      rw [wcsncmp_cons]
      by_cases hab : a = b
      · subst hab
        rw [if_pos rfl, ih (Nat.le_of_succ_le_succ hx)]
        constructor
        · rintro ⟨p, b, c, hd, hfit⟩
          exact ⟨a :: p, b, c, hd.cons a, hfit⟩
        · rintro ⟨p, b, c, ⟨⟨x', hx'⟩, ⟨y', hy'⟩, hne⟩, hfit⟩
          cases p with
          | nil => exact absurd ((List.cons.inj hx').1.symm.trans (List.cons.inj hy').1) hne
          | cons e p =>
            exact ⟨p, b, c, ⟨⟨x', (List.cons.inj hx').2⟩, ⟨y', (List.cons.inj hy').2⟩, hne⟩, hfit⟩
      · rw [if_neg hab]
        constructor
        · intro h
          exact ⟨[], a, b, differAt_heads hab x y, CInt.fits_of_sval h, CInt.sval_eq_some h⟩
        · rintro ⟨p, c, d, hd, hfit, rfl⟩
          obtain ⟨rfl, rfl, rfl⟩ := hd.unique (differAt_heads hab x y)
          exact CInt.sval_of_fits hfit

/-- `wcsncmp` is right exactly if there is a difference to be found and its value is an `int`. -/
theorem wcsncmp_right_iff (s t : List Int) (n : Nat) : WcsncmpRight s t n ↔
    ∃ p a b, DifferAt (readable s n) (readable t n) p a b ∧ CInt.Fits 32 (a - b) := by
  have hlen : (readable s n).length ≤ n := List.length_take_le n (terminated s)
  constructor
  · rintro ⟨r, hr, -⟩
    obtain ⟨p, a, b, hd, hfit, -⟩ := (wcsncmp_eq_some hlen).mp hr
    exact ⟨p, a, b, hd, hfit⟩
  · rintro ⟨p, a, b, hd, hfit⟩
    refine ⟨a - b, (wcsncmp_eq_some hlen).mpr ⟨p, a, b, hd, hfit, rfl⟩, ?_, fun q c d hd' => ?_⟩
    · exact iff_of_false (fun h0 => hd.2.2 (by omega)) hd.ne
    · obtain ⟨-, rfl, rfl⟩ := hd.unique hd'
      rfl

/-! ## Both -/

/-- **Wide strings**: what is found and compared is right where no loop has to stop at a terminator. -/
theorem wide_right_iff {h needle s t : List Int} (h0 : 0 ∉ h) (n0 : 0 ∉ needle) (n : Nat) :
    (WcsstrRight h needle ↔ ∀ k, FirstIn h needle (some k) → k + needle.length ≠ h.length) ∧
      (WcsncmpRight s t n ↔
        ∃ p a b, DifferAt (readable s n) (readable t n) p a b ∧ CInt.Fits 32 (a - b)) :=
  ⟨wcsstr_right_iff h0 n0, wcsncmp_right_iff s t n⟩

theorem wide_right_iff_ab :
    (WcsstrRight [97, 98] [97] ↔
        ∀ k, FirstIn [97, 98] [(97 : Int)] (some k) →
          k + [(97 : Int)].length ≠ [(97 : Int), 98].length) ∧
      (WcsncmpRight [97] [98] 1 ↔
        ∃ p a b, DifferAt (readable [97] 1) (readable [98] 1) p a b ∧ CInt.Fits 32 (a - b)) :=
  wide_right_iff (by decide) (by decide) 1

/-- `wcsstr(L"a", L"a")`, and `wcsncmp` of equal strings. -/
theorem wide_overruns : ¬∀ h needle s t : List Int, 0 ∉ h → 0 ∉ needle → 0 ∉ s → 0 ∉ t →
    ∀ n, WcsstrRight h needle ∧ WcsncmpRight s t n := by
  intro hall
  have h0 : (0 : Int) ∉ [97] := by decide
  obtain ⟨⟨r, hr, -⟩, -⟩ := hall [97] [97] [97] [97] h0 h0 h0 h0 1
  cases hr

end Dietlibc.Wchar
