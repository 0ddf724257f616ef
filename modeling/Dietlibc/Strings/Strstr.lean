import Dietlibc.Base.Occurrence
import Dietlibc.Strings.Memcmp

/-!
# `strstr`

A string is in an array with a terminator at its end. A pointer is the rest of the array, and `none`
is a read behind it.
-/

namespace Dietlibc.Strings

open Occurrence

/-- `strlen`. -/
def strlen : List UInt8 → Option Nat
  | [] => none
  | b :: s => if b = 0 then some 0 else (strlen s).map (· + 1)

/-- The loop of `strstr` with `i` places left, `k` bytes behind the start. -/
def strstrLoop (needle : List UInt8) (nl : Nat) : Nat → Nat → List UInt8 → Option (Option Nat)
  | 0, _, _ => some none
  | i + 1, k, haystack =>
    match haystack, needle with
    | a :: haystack', b :: _ =>
      if a = b then
        (memcmp haystack needle nl).bind fun r =>
          if r = 0 then some (some k) else strstrLoop needle nl i (k + 1) haystack'
      else strstrLoop needle nl i (k + 1) haystack'
    | _, _ => none

/-- `strstr`: the place of the byte it returns, `none` for a null pointer. -/
def strstr (haystack needle : List UInt8) : Option (Option Nat) :=
  (strlen needle).bind fun nl => (strlen haystack).bind fun hl =>
    if nl = 0 then some (some 0)
    else if hl < nl then some none
    else strstrLoop needle nl (hl - nl + 1) 0 haystack

variable {s t : List UInt8} {i k : Nat}

theorem strlen_eq (h : 0 ∉ s) (r : List UInt8) : strlen (s ++ 0 :: r) = some s.length := by
  induction s with
  | nil => rfl
  | cons a s ih =>
    obtain ⟨ha, hs⟩ := not_or.mp (mt List.mem_cons.mpr h)
    rw [List.cons_append, strlen, if_neg (Ne.symm ha), ih hs]
    rfl

theorem not_prefix_of_lt (h : s.length < t.length) : ¬t <+: s := fun hp =>
  absurd hp.length_le (not_le.mpr h)

theorem firstIn_of_lt (h : s.length < t.length) : FirstIn s t none := fun k =>
  not_prefix_of_lt (by rw [List.length_drop]; omega)

/-- One place: it is the one exactly if the needle is there. -/
theorem strstrLoop_succ {a b : UInt8} (hle : (b :: t).length ≤ (a :: s).length)
    (hlt : (b :: t).length < 2 ^ 64) (i k : Nat) :
    strstrLoop (b :: t ++ [0]) (b :: t).length (i + 1) k (a :: s ++ [0]) =
      if b :: t <+: a :: s then some (some k)
      else strstrLoop (b :: t ++ [0]) (b :: t).length i (k + 1) (s ++ [0]) := by
  obtain ⟨r, hr, hzero⟩ := memcmp_eq_zero_iff (x := a :: s ++ [0]) (y := b :: t ++ [0])
    (n := (b :: t).length) (by rw [List.length_append]; omega) (by rw [List.length_append]; omega) hlt
  rw [List.take_append_of_le_length hle, List.take_left] at hzero
  have hpre : b :: t <+: a :: s ↔ (a :: s).take (b :: t).length = b :: t := by
    rw [List.prefix_iff_eq_take, eq_comm]
  rw [List.cons_append, List.cons_append] at hr ⊢
  rw [strstrLoop]
  by_cases hab : a = b
  · rw [if_pos hab, hr, Option.bind_some]
    by_cases h0 : r = 0
    · rw [if_pos h0, if_pos (hpre.mpr (hzero.mp h0))]
    · rw [if_neg h0, if_neg fun hp => h0 (hzero.mpr (hpre.mp hp))]
  · rw [if_neg hab, if_neg fun hp => hab (List.cons_prefix_cons.mp hp).1.symm]

theorem strstrLoop_spec (ht : t ≠ []) (hlt : t.length < 2 ^ 64) (hi : s.length + 1 = i + t.length)
    (k : Nat) : ∃ r, FirstIn s t r ∧
      strstrLoop (t ++ [0]) t.length i k (s ++ [0]) = some (r.map (k + ·)) := by
  induction i generalizing s k with
  | zero => exact ⟨none, firstIn_of_lt (by omega), rfl⟩
  | succ i ih =>
    obtain ⟨b, t, rfl⟩ := List.exists_cons_of_ne_nil ht
    obtain ⟨a, s, rfl⟩ := List.exists_cons_of_length_pos (l := s) (by rw [List.length_cons] at hi; omega)
    rw [strstrLoop_succ (by omega) hlt]
    by_cases hp : b :: t <+: a :: s
    · exact ⟨some 0, firstIn_zero hp, if_pos hp⟩
    · obtain ⟨r, hr, hloop⟩ := ih (s := s) (by rw [List.length_cons] at hi; omega) (k + 1)
      refine ⟨_, hr.cons hp, ?_⟩
      rw [if_neg hp, hloop, Option.map_map]
      exact congrArg (some <| r.map ·) (funext fun x => by simp only [Function.comp_apply]; omega)

/-- **`strstr`** finds the first occurrence. -/
theorem strstr_spec (hs : 0 ∉ s) (ht : 0 ∉ t) (hne : t ≠ []) (hlen : s.length < 2 ^ 64) :
    ∃ r, FirstIn s t r ∧ strstr (s ++ [0]) (t ++ [0]) = some r := by
  have hpos : t.length ≠ 0 := mt List.length_eq_zero_iff.mp hne
  rw [strstr, strlen_eq ht, strlen_eq hs, Option.bind_some, Option.bind_some, if_neg hpos]
  by_cases hlt : s.length < t.length
  · exact ⟨none, firstIn_of_lt hlt, if_pos hlt⟩
  · obtain ⟨r, hr, hloop⟩ := strstrLoop_spec (s := s) (i := s.length - t.length + 1) hne (by omega)
      (by omega) 0
    refine ⟨r, hr, ?_⟩
    rw [if_neg hlt, hloop]
    cases r <;> simp

end Dietlibc.Strings
