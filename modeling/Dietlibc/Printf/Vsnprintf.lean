import Dietlibc.Printf.Count
import Dietlibc.Base.Mem

/-!
# `vsnprintf`

`swrite` copies what fits of each chunk and puts a NUL behind it, `vsnprintf` puts one behind all of
them. A write outside `str[0..size)` is a fault, `none`. What `__v_printf` does is given by the
chunks it hands to `swrite` and the number it returns.
-/

namespace Dietlibc.Printf

open CInt Mem

/-! ## The code -/

/-- `struct str_data` -/
structure StrData where
  str : Option Nat
  len : Nat
  size : Nat

/-- A write into the `n` bytes from `s` on. -/
def writeIn (s n : Nat) (m : Mem) (p : Nat) (d : List UInt8) : Option Mem :=
  if s ≤ p ∧ p + d.length ≤ s + n then some (m.store p d) else none

/-- `swrite`, for a string in a buffer of `n` bytes. -/
def swrite (n : Nat) (ptr : List UInt8) (sd : StrData) (m : Mem) : Option (StrData × Mem) :=
  let tmp := usub 64 sd.size sd.len
  if 0 < tmp then
    let len := if tmp < ptr.length then tmp else ptr.length
    let m := match sd.str with
      | none => some m
      | some str => (writeIn str n m (str + sd.len) (ptr.take len)).bind fun m =>
        writeIn str n m (str + sd.len + len) [0]
    m.map fun m => ({ sd with len := sd.len + len }, m)
  else some (sd, m)

/-- The calls of `swrite` for the chunks. -/
def swrites (n : Nat) : List (List UInt8) → StrData → Mem → Option (StrData × Mem)
  | [], sd, m => some (sd, m)
  | c :: cs, sd, m => (swrite n c sd m).bind fun (sd, m) => swrites n cs sd m

/-- `vsnprintf` where `__v_printf` hands over the chunks `out` and returns `n`: the memory and the
number returned. -/
def vsnprintfOf (out : List (List UInt8)) (n : Int) (str : Option Nat) (size : Nat) (m : Mem) :
    Option (Mem × Int) :=
  (swrites size out ⟨str, 0, if size ≠ 0 then size - 1 else 0⟩ m).bind fun (_, m) =>
    match str with
    | none => some (m, n)
    | some str =>
      if size ≠ 0 ∧ 0 ≤ n then
        (if size ≠ 2 ^ 64 - 1 ∧ size ≤ n.toNat then writeIn str size m (str + (size - 1)) [0]
          else writeIn str size m (str + n.toNat) [0]).map fun m => (m, n)
      else some (m, n)

/-- The chunks handed to `fn->put`, as bytes. -/
def chunksOf : Except (Fault × Out) Out → List (List UInt8)
  | .ok o => o.chunks.map (List.map Char.toUInt8)
  | .error (_, o) => o.chunks.map (List.map Char.toUInt8)

/-- `vsnprintf`; `none` where an argument is missing, too. -/
def vsnprintf (str : Option Nat) (size : Nat) (format : List Char) (args : List Arg) (m : Mem) :
    Option (Mem × Int) :=
  (returned (vPrintf format args ⟨0, []⟩)).bind fun n =>
    vsnprintfOf (chunksOf (vPrintf format args ⟨0, []⟩)) n str size m

/-! ## Truncation -/

section

variable {s n k lim : Nat} {m : Mem}

theorem writeIn_ok {p : Nat} {d : List UInt8} (h : s ≤ p ∧ p + d.length ≤ s + n) :
    writeIn s n m p d = some (m.store p d) := if_pos h

/-- A chunk is written as far as it fits, with a NUL behind it. -/
theorem swrite_spec (hk : k ≤ lim) (hlim : lim < n) (hn : n ≤ 2 ^ 64) (c : List UInt8) (m : Mem) :
    ∃ m', swrite n c ⟨some s, k, lim⟩ m = some (⟨some s, min (k + c.length) lim, lim⟩, m') ∧
      m'.load s (min (k + c.length) lim) = m.load s k ++ c.take (lim - k) ∧
      ∀ a, a < s ∨ s + n ≤ a → m' a = m a := by
  have hu : usub 64 lim k = lim - k := usub_of_le hk (by omega)
  unfold swrite
  dsimp only
  rw [hu]
  by_cases hfull : k = lim
  · subst hfull
    rw [if_neg (by omega), show min (k + c.length) k = k by omega, Nat.sub_self, List.take_zero,
      List.append_nil]
    exact ⟨m, rfl, rfl, fun a _ => rfl⟩
  · have hlen : (if lim - k < c.length then lim - k else c.length) = min (lim - k) c.length := by
      split <;> omega
    have htake : (c.take (min (lim - k) c.length)).length = min (lim - k) c.length := by
      rw [List.length_take]; omega
    have hc : c.take (min (lim - k) c.length) = c.take (lim - k) :=
      List.take_eq_take_iff.2 (by omega)
    rw [if_pos (by omega), hlen, writeIn_ok ⟨by omega, by rw [htake]; omega⟩, Option.bind_some,
      writeIn_ok ⟨by omega, by rw [List.length_singleton]; omega⟩, Option.map_some]
    refine ⟨_, by rw [show k + min (lim - k) c.length = min (k + c.length) lim by omega], ?_,
      fun a ha => ?_⟩
    · rw [show min (k + c.length) lim = k + min (lim - k) c.length by omega,
        load_store_out (.inl (by omega)), load_store_append htake, hc]
    · rw [store_out (by rw [List.length_singleton]; omega), store_out (by rw [htake]; omega)]

/-- The chunks are written as far as they fit. -/
theorem swrites_spec (hk : k ≤ lim) (hlim : lim < n) (hn : n ≤ 2 ^ 64) (cs : List (List UInt8))
    (m : Mem) :
    ∃ m', swrites n cs ⟨some s, k, lim⟩ m =
        some (⟨some s, min (k + cs.flatten.length) lim, lim⟩, m') ∧
      m'.load s (min (k + cs.flatten.length) lim) = m.load s k ++ cs.flatten.take (lim - k) ∧
      ∀ a, a < s ∨ s + n ≤ a → m' a = m a := by
  induction cs generalizing k m with
  | nil =>
    refine ⟨m, ?_, ?_, fun a _ => rfl⟩
    · rw [swrites, List.flatten_nil, List.length_nil, Nat.add_zero, Nat.min_eq_left hk]
    · rw [List.flatten_nil, List.length_nil, Nat.add_zero, Nat.min_eq_left hk, List.take_nil,
        List.append_nil]
  | cons c cs ih =>
    obtain ⟨m1, h1, hload1, hout1⟩ := swrite_spec hk hlim hn c m (s := s)
    obtain ⟨m2, h2, hload2, hout2⟩ := ih (k := min (k + c.length) lim) (Nat.min_le_right _ _) m1
    have hmin : min (min (k + c.length) lim + cs.flatten.length) lim =
        min (k + (c :: cs).flatten.length) lim := by
      rw [List.flatten_cons, List.length_append]; omega
    rw [hmin] at h2 hload2
    refine ⟨m2, by rw [swrites, h1]; exact h2, ?_, fun a ha => ?_⟩
    · rw [hload2, hload1, List.append_assoc, List.flatten_cons, List.take_append]
      rw [show lim - min (k + c.length) lim = lim - k - c.length by omega]
    · rw [hout2 a ha, hout1 a ha]

/-- Nothing is written where there is no room. -/
theorem swrites_full (n k : Nat) (hk : k < 2 ^ 64) (cs : List (List UInt8)) (m : Mem) :
    swrites n cs ⟨some s, k, k⟩ m = some (⟨some s, k, k⟩, m) := by
  induction cs with
  | nil => rfl
  | cons c cs ih =>
    have hu : usub 64 k k = 0 := by rw [usub_of_le (Nat.le_refl k) hk, Nat.sub_self]
    have h : swrite n c ⟨some s, k, k⟩ m = some (⟨some s, k, k⟩, m) := by
      unfold swrite
      dsimp only
      rw [hu, if_neg (Nat.lt_irrefl 0)]
    rw [swrites, h]
    exact ih

end

/-- What is left in the buffer: the first bytes of the output and a NUL. -/
theorem vsnprintfOf_eq {out : List (List UInt8)} {n size : Nat} (hn : out.flatten.length = n)
    (h31 : n < 2 ^ 31) (hsize : size < 2 ^ 64) (s : Nat) (m : Mem) :
    ∃ m', vsnprintfOf out n (some s) size m = some (m', (n : Int)) ∧
      (∀ a, a < s ∨ s + size ≤ a → m' a = m a) ∧
      (1 ≤ size → m'.load s (min n (size - 1) + 1) = out.flatten.take (min n (size - 1)) ++ [0]) ∧
      (size = 0 → m' = m) := by
  unfold vsnprintfOf
  by_cases h0 : size = 0
  · subst h0
    rw [if_neg (fun h => h rfl), swrites_full 0 0 (by decide), Option.bind_some]
    dsimp only
    rw [if_neg (fun h => h.1 rfl)]
    exact ⟨m, rfl, fun a _ => rfl, fun h => absurd h (by decide), fun _ => rfl⟩
  · obtain ⟨m1, h1, hload, hout⟩ := swrites_spec (s := s) (Nat.zero_le (size - 1))
      (show size - 1 < size by omega) hsize.le out m
    rw [Nat.zero_add, hn] at h1 hload
    rw [load_zero, List.nil_append, Nat.sub_zero] at hload
    have hend : (if size ≠ 2 ^ 64 - 1 ∧ size ≤ (n : Int).toNat then
          writeIn s size m1 (s + (size - 1)) [0]
        else writeIn s size m1 (s + (n : Int).toNat) [0]) =
        some (m1.store (s + min n (size - 1)) [0]) := by
      rw [Int.toNat_natCast]
      by_cases hbig : size ≠ 2 ^ 64 - 1 ∧ size ≤ n
      · rw [if_pos hbig, writeIn_ok ⟨by omega, by rw [List.length_singleton]; omega⟩,
          Nat.min_eq_right (by omega)]
      · rw [if_neg hbig, writeIn_ok ⟨by omega, by rw [List.length_singleton]; omega⟩,
          Nat.min_eq_left (by omega)]
    rw [if_pos h0, h1, Option.bind_some]
    dsimp only
    rw [if_pos (c := size ≠ 0 ∧ _) ⟨h0, Int.natCast_nonneg n⟩, hend, Option.map_some]
    refine ⟨_, rfl, fun a ha => ?_, fun _ => ?_, fun h => absurd h h0⟩
    · rw [store_out (by rw [List.length_singleton]; omega), hout a ha]
    · have hlow : out.flatten.take (size - 1) = out.flatten.take (min n (size - 1)) :=
        List.take_eq_take_iff.2 (by omega)
      show (m1.store (s + min n (size - 1)) [0]).load s (min n (size - 1) + [(0 : UInt8)].length) = _
      rw [load_store_append rfl, hload, hlow]

/-- **`vsnprintf` truncates exactly.** Whatever chunks `__v_printf` hands over, only
`str[0..size)` is written, it holds the first `size-1` bytes of the output and a NUL, and what is
returned does not depend on `size`. -/
theorem vsnprintf_truncates {out : List (List UInt8)} {n size : Nat}
    (hn : out.flatten.length = n) (h31 : n < 2 ^ 31) (hsize : size < 2 ^ 64) (s : Nat) (m : Mem) :
    ∃ m', vsnprintfOf out n (some s) size m = some (m', (n : Int)) ∧
      (∀ a, a < s ∨ s + size ≤ a → m' a = m a) ∧
      (1 ≤ size → m'.load s (min n (size - 1) + 1) = out.flatten.take (min n (size - 1)) ++ [0]) ∧
      (size = 0 → m' = m) :=
  vsnprintfOf_eq hn h31 hsize s m

/-- The chunks `ab` and `cd` in three bytes. -/
theorem vsnprintf_truncates_abcd : ∃ m', vsnprintfOf [[97, 98], [99, 100]] 4 (some 7) 3
      (fun _ => 1) = some (m', 4) ∧ m'.load 7 3 = [97, 98, 0] := by
  obtain ⟨m', h, -, hload, -⟩ := vsnprintf_truncates
    (rfl : ([[97, 98], [99, 100]] : List (List UInt8)).flatten.length = 4) (by decide)
    (by decide : 3 < 2 ^ 64) 7 (fun _ => 1)
  exact ⟨m', h, hload (by decide)⟩

theorem flatten_length_map (cs : List (List Char)) :
    (cs.map (List.map Char.toUInt8)).flatten.length = cs.flatten.length := by
  rw [← List.map_flatten, List.length_map]

theorem chunksOf_length (r : Except (Fault × Out) Out) :
    (chunksOf r).flatten.length = handed r := by
  cases r with
  | ok o => exact flatten_length_map _
  | error e => exact flatten_length_map _

theorem vsnprintf_of_returned {format : List Char} {args : List Arg} {n : Int}
    (h : returned (vPrintf format args ⟨0, []⟩) = some n) (str : Option Nat) (size : Nat) (m : Mem) :
    vsnprintf str size format args m =
      vsnprintfOf (chunksOf (vPrintf format args ⟨0, []⟩)) n str size m := by
  rw [vsnprintf, h]
  rfl

theorem conv32_lt (n : Int) : CInt.conv 32 n < 2 ^ 31 := Int.bmod_lt (by decide)

theorem returned_lt {r : Except (Fault × Out) Out} {n : Int} (h : returned r = some n) :
    n < 2 ^ 31 := by
  rcases r with ⟨e | e, o⟩ | o
  · rw [← Option.some.inj h]; decide
  · cases h
  · rw [← Option.some.inj h]; exact conv32_lt _

/-- `vsnprintf` of a format whose output is counted. -/
theorem vsnprintf_format {format : List Char} {args : List Arg} {n size : Nat}
    (hret : returned (vPrintf format args ⟨0, []⟩) = some (n : Int))
    (hcount : handed (vPrintf format args ⟨0, []⟩) = n) (hsize : size < 2 ^ 64) (s : Nat) (m : Mem) :
    ∃ m', vsnprintf (some s) size format args m = some (m', (n : Int)) ∧
      (∀ a, a < s ∨ s + size ≤ a → m' a = m a) ∧
      (1 ≤ size → m'.load s (min n (size - 1) + 1) =
        (chunksOf (vPrintf format args ⟨0, []⟩)).flatten.take (min n (size - 1)) ++ [0]) ∧
      (size = 0 → m' = m) := by
  have h31 := returned_lt hret
  rw [vsnprintf_of_returned hret]
  exact vsnprintfOf_eq ((chunksOf_length _).trans hcount) (by omega) hsize s m

end Dietlibc.Printf
