import Dietlibc.Number.Strtol
import Dietlibc.Base.Mem
import Mathlib.Data.List.TakeWhile

/-!
# `__ltostr` and `__lltostr`

The digits of a number are written backwards from the end of the buffer and moved to its front. A
write or a move that leaves `s[0..size)` is a fault, `none`. The two functions are one text over two
unsigned types of 64 bits.
-/

namespace Dietlibc.Number

open CInt Mem

/-! ## The code -/

/-- `*p=b` for a pointer into the `n` bytes from `s` on. -/
def put (s n : Nat) (m : Mem) (p : Nat) (b : UInt8) : Option Mem :=
  if s ≤ p ∧ p < s + n then some (m.store p [b]) else none

/-- `memmove(s,p,k)` inside the `n` bytes from `s` on. -/
def move (s n : Nat) (m : Mem) (p k : Nat) : Option Mem :=
  if k ≤ n ∧ s ≤ p ∧ p + k ≤ s + n then some (m.copy s p k) else none

/-- `if ((*tmp=i%base+'0')>'9') *tmp+=(UpCase?'A':'a')-'9'-1;` -/
def putDigit (s n base : Nat) (upCase : Bool) (m : Mem) (tmp i : Nat) : Option Mem :=
  (put s n m tmp (UInt8.ofNat (i % base + 48))).bind fun m =>
    if 57 < m tmp then put s n m tmp (m tmp + ((if upCase then 65 else 97) - 57 - 1)) else some m

/-- The loop, with `tmp` at `s+room`: the memory, `room` and `j` behind it. -/
def ltostrLoop (s n base : Nat) (upCase : Bool) :
    Nat → Nat → Nat → Mem → Option (Mem × Nat × Nat)
  | 0, _, j, m => some (m, 0, j)
  | room + 1, i, j, m =>
    if i = 0 then some (m, room + 1, j)
    else (putDigit s n base upCase m (s + room) i).bind fun m =>
      ltostrLoop s n base upCase room (i / base) (j + 1) m

/-- The text of both functions: the memory and the number returned. -/
def tostr (m : Mem) (s size i base : Nat) (upCase : Bool) : Option (Mem × Nat) :=
  let room := usub 32 size 1
  (put s size m (s + room) 0).bind fun m =>
  let base := if base = 0 ∨ 36 < base then 10 else base
  (if i = 0 then (put s size m (s + room - 1) 48).map fun m => (m, room - 1, 1)
    else some (m, room, 0)).bind fun (m, room, j) =>
  (ltostrLoop s size base upCase room i j m).bind fun (m, room, j) =>
  (move s size m (s + room) (j + 1)).map fun m => (m, j)

/-- `__ltostr` -/
def ltostr (m : Mem) (s size i base : Nat) (upCase : Bool) : Option (Mem × Nat) :=
  tostr m s size i base upCase

/-- `__lltostr` -/
def lltostr (m : Mem) (s size i base : Nat) (upCase : Bool) : Option (Mem × Nat) :=
  tostr m s size i base upCase

/-! ## Numerals -/

/-- A digit in a numeral. -/
def digitByte (upCase : Bool) (d : Nat) : UInt8 :=
  UInt8.ofNat (if d < 10 then d + 48 else d - 10 + if upCase then 65 else 97)

/-- The numeral of a number: its digits, the highest first, and `0` for 0. -/
def numeral (base : Nat) (upCase : Bool) (i : Nat) : List UInt8 :=
  if i = 0 then [48] else ((Nat.digits base i).map (digitByte upCase)).reverse

/-- The last `k` bytes. -/
def lowest (k : Nat) (l : List UInt8) : List UInt8 := l.drop (l.length - k)

/-! ## The loop -/

section

variable {m : Mem} {s n base i tmp room j k : Nat} {upCase : Bool}

theorem put_in (h : s ≤ tmp ∧ tmp < s + n) (b : UInt8) : put s n m tmp b = some (m.store tmp [b]) :=
  if_pos h

/-- Two writes end to end are one, the second in front. -/
theorem store_front (m : Mem) (a : Nat) (x y : List UInt8) :
    store (store m (a + x.length) y) a x = store m a (x ++ y) := by
  funext i
  by_cases hx : a ≤ i ∧ i < a + x.length
  · obtain ⟨k, rfl⟩ := Nat.exists_eq_add_of_le hx.1
    rw [store_in (by omega), store_in (by rw [List.length_append]; omega)]
    simp only [List.getD_eq_getElem?_getD]
    rw [List.getElem?_append_left (by omega)]
  · rw [store_out (by omega), ← store_append]
    by_cases hy : a + x.length ≤ i ∧ i < a + x.length + y.length
    · obtain ⟨k, rfl⟩ := Nat.exists_eq_add_of_le hy.1
      rw [store_in (by omega), store_in (by omega)]
    · rw [store_out (by omega), store_out (by omega), store_out (by omega)]

theorem store_byte (m : Mem) (a : Nat) (b : UInt8) (i : Nat) :
    m.store a [b] i = if i = a then b else m i := by
  unfold store
  by_cases h : i = a
  · rw [if_pos ⟨h.ge, by simp; omega⟩, if_pos h, h, Nat.sub_self, List.getD_cons_zero]
  · rw [if_neg (by simp; omega), if_neg h]

theorem store_twice (m : Mem) (a : Nat) (b c : UInt8) :
    (m.store a [b]).store a [c] = m.store a [c] := by
  funext i
  rw [store_byte, store_byte, store_byte]
  split <;> rfl

/-- The byte written for a digit, in one or two steps. -/
theorem digitByte_steps (upCase : Bool) : ∀ d < 36,
    (if 57 < UInt8.ofNat (d + 48) then UInt8.ofNat (d + 48) + ((if upCase then 65 else 97) - 57 - 1)
    else UInt8.ofNat (d + 48)) = digitByte upCase d := by
  cases upCase <;> decide +kernel

theorem putDigit_eq (h : s ≤ tmp ∧ tmp < s + n) (hb : 2 ≤ base ∧ base ≤ 36) :
    putDigit s n base upCase m tmp i = some (m.store tmp [digitByte upCase (i % base)]) := by
  have hd : i % base < 36 := by have := Nat.mod_lt i (show 0 < base by omega); omega
  unfold putDigit
  rw [put_in h, Option.bind_some, store_byte, if_pos rfl, ← digitByte_steps upCase _ hd]
  by_cases h57 : 57 < UInt8.ofNat (i % base + 48)
  · rw [if_pos h57, if_pos h57, put_in h, store_twice]
  · rw [if_neg h57, if_neg h57]

/-- The digits that the loop writes into `room` bytes. -/
def written (base : Nat) (upCase : Bool) (room i : Nat) : List UInt8 :=
  (((Nat.digits base i).take room).map (digitByte upCase)).reverse

theorem written_succ (hb : 2 ≤ base) (hi : i ≠ 0) (room : Nat) :
    written base upCase (room + 1) i =
      written base upCase room (i / base) ++ [digitByte upCase (i % base)] := by
  unfold written
  rw [Nat.digits_def' (by omega) (by omega), List.take_succ_cons, List.map_cons, List.reverse_cons]

theorem length_written_le : (written base upCase room i).length ≤ room := by
  unfold written
  rw [List.length_reverse, List.length_map, List.length_take]
  exact Nat.min_le_left _ _

/-- The loop writes the lowest digits in front of what is there, as many as fit. -/
theorem ltostrLoop_eq (hb : 2 ≤ base ∧ base ≤ 36) (hr : room ≤ n) :
    ltostrLoop s n base upCase room i j m =
      some (m.store (s + (room - (written base upCase room i).length)) (written base upCase room i),
        room - (written base upCase room i).length, j + (written base upCase room i).length) := by
  induction room generalizing i j m with
  | zero =>
    rw [ltostrLoop, show written base upCase 0 i = [] by simp [written], store_nil]
    rfl
  | succ room ih =>
    rw [ltostrLoop]
    by_cases hi : i = 0
    · rw [if_pos hi, show written base upCase (room + 1) i = [] by simp [written, hi], store_nil]
      rfl
    · have hle : (written base upCase room (i / base)).length ≤ room := length_written_le
      rw [if_neg hi, putDigit_eq ⟨by omega, by omega⟩ hb, Option.bind_some, ih (by omega),
        written_succ hb.1 hi, List.length_append, List.length_singleton]
      generalize hw : written base upCase room (i / base) = w at hle ⊢
      rw [← store_front, show s + (room + 1 - (w.length + 1)) + w.length = s + room by omega,
        show room + 1 - (w.length + 1) = room - w.length by omega,
        show j + 1 + w.length = j + (w.length + 1) by omega]

/-! ## The functions -/

theorem move_in (h : k ≤ n ∧ s ≤ tmp ∧ tmp + k ≤ s + n) :
    move s n m tmp k = some (m.copy s tmp k) := if_pos h

theorem length_numeral_pos : 0 < (numeral base upCase i).length := by
  unfold numeral
  by_cases hi : i = 0
  · rw [if_pos hi]; exact Nat.one_pos
  · rw [if_neg hi, List.length_reverse, List.length_map, List.length_pos_iff]
    exact (Nat.digits_ne_nil_iff_ne_zero).2 hi

theorem length_lowest (k : Nat) (l : List UInt8) : (lowest k l).length = min k l.length := by
  unfold lowest
  rw [List.length_drop]
  omega

theorem written_eq (hi : i ≠ 0) :
    written base upCase room i = lowest room (numeral base upCase i) := by
  rw [written, numeral, if_neg hi, lowest, List.map_take, List.reverse_take, List.length_reverse]

theorem lowest_zero (h : 2 ≤ n) : lowest (n - 1) (numeral base upCase 0) = [48] := by
  rw [lowest, numeral, if_pos rfl, List.length_singleton, show 1 - (n - 1) = 0 by omega,
    List.drop_zero]

/-- The buffer behind both functions: the lowest digits that fit, and a NUL. -/
theorem tostr_eq (m : Mem) (s : Nat) {i : Nat} (hb : 2 ≤ base ∧ base ≤ 36) (hn : 2 ≤ n)
    (hn' : n < 2 ^ 32) (upCase : Bool) :
    ∃ tmp, s ≤ tmp ∧ tmp + (lowest (n - 1) (numeral base upCase i)).length + 1 = s + n ∧
      tostr m s n i base upCase = some
        ((m.store tmp (lowest (n - 1) (numeral base upCase i) ++ [0])).copy s tmp
            ((lowest (n - 1) (numeral base upCase i)).length + 1),
          (lowest (n - 1) (numeral base upCase i)).length) := by
  have hu : usub 32 n 1 = n - 1 := usub_of_le (by omega) hn'
  unfold tostr
  dsimp only
  rw [hu, put_in ⟨by omega, by omega⟩, Option.bind_some, if_neg (c := base = 0 ∨ _) (by omega)]
  by_cases hi : i = 0
  · subst hi
    have hloop : ∀ m : Mem, ltostrLoop s n base upCase (n - 1 - 1) 0 1 m =
        some (m, n - 1 - 1, 1) := by
      intro m
      rw [ltostrLoop_eq hb (by omega), show written base upCase (n - 1 - 1) 0 = [] by simp [written],
        store_nil]
      rfl
    rw [lowest_zero hn, if_pos rfl, put_in ⟨by omega, by omega⟩, Option.map_some, Option.bind_some]
    dsimp only
    rw [hloop, Option.bind_some]
    dsimp only
    rw [move_in ⟨by omega, by omega, by omega⟩, Option.map_some]
    refine ⟨s + (n - 1 - 1), by omega, by rw [List.length_singleton]; omega, ?_⟩
    rw [← store_front, List.length_singleton, show s + (n - 1 - 1) + 1 = s + (n - 1) by omega,
      show s + (n - 1) - 1 = s + (n - 1 - 1) by omega]
  · have hle : (written base upCase (n - 1) i).length ≤ n - 1 := length_written_le
    rw [if_neg hi, Option.bind_some]
    dsimp only
    rw [ltostrLoop_eq hb (by omega), Option.bind_some, ← written_eq hi]
    dsimp only
    generalize written base upCase (n - 1) i = w at hle ⊢
    rw [move_in ⟨by omega, by omega, by omega⟩, Option.map_some]
    refine ⟨s + (n - 1 - w.length), by omega, by omega, ?_⟩
    rw [← store_front, show s + (n - 1 - w.length) + w.length = s + (n - 1) by omega, Nat.zero_add]

theorem load_copy (m : Mem) (a b k : Nat) : (m.copy a b k).load a k = m.load b k := by
  apply List.map_congr_left
  intro i hi
  exact copy_in (List.mem_range.1 hi)

/-! ## The way back -/

theorem isDigit_digitByte (upCase : Bool) : ∀ d < 36, digit? (digitByte upCase d) = some d := by
  cases upCase <;> decide +kernel

theorem valueFrom_append (b n : Nat) (xs ys : List UInt8) :
    valueFrom b n (xs ++ ys) = valueFrom b (valueFrom b n xs) ys := List.foldl_append

theorem valueFrom_digits (hb : 2 ≤ base ∧ base ≤ 36) (upCase : Bool) (i : Nat) :
    valueFrom base 0 ((Nat.digits base i).map (digitByte upCase)).reverse = i := by
  induction i using Nat.strongRecOn with
  | ind i ih =>
    by_cases hi : i = 0
    · subst hi; simp [valueFrom]
    · have hd : i % base < 36 := by have := Nat.mod_lt i (show 0 < base by omega); omega
      rw [Nat.digits_def' (by omega) (by omega), List.map_cons, List.reverse_cons, valueFrom_append,
        ih _ (Nat.div_lt_self (by omega) (by omega))]
      show i / base * base + (digit? (digitByte upCase (i % base))).getD 0 = i
      rw [isDigit_digitByte upCase _ hd, Option.getD_some, Nat.div_add_mod']

theorem value_numeral (hb : 2 ≤ base ∧ base ≤ 36) (upCase : Bool) (i : Nat) :
    valueFrom base 0 (numeral base upCase i) = i := by
  unfold numeral
  by_cases hi : i = 0
  · rw [if_pos hi, hi]
    show 0 * base + 0 = 0
    rw [Nat.zero_mul]
  · rw [if_neg hi, valueFrom_digits hb]

theorem isDigit_numeral (hb : 2 ≤ base ∧ base ≤ 36) (upCase : Bool) (i : Nat) :
    ∀ c ∈ numeral base upCase i, IsDigit base c = true := by
  unfold numeral
  by_cases hi : i = 0
  · rw [if_pos hi]
    intro c hc
    rw [List.mem_singleton.1 hc]
    exact decide_eq_true (show 0 < base by omega)
  · rw [if_neg hi]
    intro c hc
    obtain ⟨d, hd, rfl⟩ := List.mem_map.1 (List.mem_reverse.1 hc)
    have hlt : d < base := Nat.digits_lt_base (by omega) hd
    rw [IsDigit, isDigit_digitByte upCase d (by omega)]
    exact decide_eq_true hlt

/-- No numeral but `0` starts with a `0`. -/
theorem numeral_head (hb : 2 ≤ base ∧ base ≤ 36) (upCase : Bool) {i : Nat} (hi : i ≠ 0) :
    peek (numeral base upCase i) ≠ 48 := by
  have hne : Nat.digits base i ≠ [] := Nat.digits_ne_nil_iff_ne_zero.2 hi
  have hlast : (Nat.digits base i).getLast hne ≠ 0 := Nat.getLast_digit_ne_zero base hi
  have hlt : (Nat.digits base i).getLast hne < base :=
    Nat.digits_lt_base (by omega) (List.getLast_mem hne)
  have hp : peek (numeral base upCase i) = digitByte upCase ((Nat.digits base i).getLast hne) := by
    rw [numeral, if_neg hi]
    generalize Nat.digits base i = ds at hne ⊢
    obtain ⟨xs, x, rfl⟩ : ∃ xs x, ds = xs ++ [x] :=
      ⟨_, _, (List.dropLast_append_getLast hne).symm⟩
    rw [List.getLast_append_singleton, List.map_append, List.reverse_append]
    rfl
  intro h48
  have hd := isDigit_digitByte upCase ((Nat.digits base i).getLast hne) (by omega)
  rw [← hp, h48] at hd
  exact hlast (Option.some.inj hd).symm

/-- The grammar finds in a numeral its digits and nothing else. -/
theorem subject_numeral (hb : 2 ≤ base ∧ base ≤ 36) (upCase : Bool) (i : Nat) :
    subject (numeral base upCase i) base = ⟨false, base, numeral base upCase i, []⟩ := by
  have hdig := isDigit_numeral hb upCase i
  have hpre : basePrefix base (numeral base upCase i) = (base, numeral base upCase i) := by
    by_cases hi : i = 0
    · rw [numeral, if_pos hi, basePrefix, if_neg (by omega)]
      simp
    · rw [basePrefix_digit (numeral_head hb upCase hi), if_neg (by omega)]
  have hsign : signPrefix ((numeral base upCase i).dropWhile isWhite) =
      (false, numeral base upCase i) := by
    have hpos : 0 < (numeral base upCase i).length := length_numeral_pos
    cases hc : numeral base upCase i with
    | nil => rw [hc] at hpos; exact absurd hpos (Nat.lt_irrefl 0)
    | cons c t =>
      apply signPrefix_alnum
      apply isalnum_of_isDigit (b := base)
      exact hdig c (by rw [hc]; exact List.mem_cons_self)
  rw [subject, hsign]
  dsimp only
  rw [hpre]
  dsimp only
  rw [List.takeWhile_eq_self_iff.2 hdig, List.dropWhile_eq_nil_iff.2 hdig]

theorem strtoul_numeral (hb : 2 ≤ base ∧ base ≤ 36) (upCase : Bool) {i : Nat} (hi : i < 2 ^ 64)
    (errno : Nat) : strtoul (numeral base upCase i) base errno = ⟨i, some [], errno⟩ := by
  have hne : numeral base upCase i ≠ [] := List.length_pos_iff.1 length_numeral_pos
  rw [strtoul_eq (.inr hb), subject_numeral hb]
  dsimp only
  rw [if_neg hne, ulongOf, Subject.value, value_numeral hb, if_pos hi]
  rfl

end

/-- **A number that is written is read back.** Both functions write the numeral of `i`, or as many of
its lowest digits as fit, and a NUL into `s[0..size)`, and return the length. The numeral has no
superfluous zero, and `strtoul` makes `i` of it and stops at its end. -/
theorem ltostr_strtoul {base size i : Nat} (hb : 2 ≤ base ∧ base ≤ 36) (hsize : 2 ≤ size)
    (hsize' : size < 2 ^ 32) (hi : i < 2 ^ 64) (m : Mem) (s : Nat) (upCase : Bool) (errno : Nat) :
    ∃ m', ltostr m s size i base upCase =
        some (m', min (size - 1) (numeral base upCase i).length) ∧
      lltostr m s size i base upCase =
        some (m', min (size - 1) (numeral base upCase i).length) ∧
      m'.load s (min (size - 1) (numeral base upCase i).length + 1) =
        lowest (size - 1) (numeral base upCase i) ++ [0] ∧
      (∀ a, a < s ∨ s + size ≤ a → m' a = m a) ∧
      (i ≠ 0 → peek (numeral base upCase i) ≠ 48) ∧
      ((numeral base upCase i).length < size →
        strtoul (m'.load s (numeral base upCase i).length) base errno = ⟨i, some [], errno⟩) := by
  obtain ⟨tmp, hs, hend, heq⟩ := tostr_eq m s (i := i) hb hsize hsize' upCase
  have hlen := length_lowest (size - 1) (numeral base upCase i)
  have hload : ((m.store tmp (lowest (size - 1) (numeral base upCase i) ++ [0])).copy s tmp
      ((lowest (size - 1) (numeral base upCase i)).length + 1)).load s
      ((lowest (size - 1) (numeral base upCase i)).length + 1) =
        lowest (size - 1) (numeral base upCase i) ++ [0] := by
    rw [load_copy]
    apply load_store_self
    rw [List.length_append, List.length_singleton]
  rw [← hlen]
  refine ⟨_, heq, heq, hload, fun a ha => ?_, numeral_head hb upCase, fun hfit => ?_⟩
  · rw [copy_out (by omega), store_out (by rw [List.length_append, List.length_singleton]; omega)]
  · have hall : lowest (size - 1) (numeral base upCase i) = numeral base upCase i := by
      rw [lowest, Nat.sub_eq_zero_of_le (by omega), List.drop_zero]
    rw [hall] at hload ⊢
    rw [load_succ] at hload
    rw [(List.append_inj' hload rfl).1, strtoul_numeral hb upCase hi]

/-- 255 in base 16, in four bytes and in two. -/
theorem ltostr_strtoul_ff : (∃ m', ltostr (fun _ => 1) 0 4 255 16 false = some (m', 2) ∧
      m'.load 0 3 = [102, 102, 0] ∧ strtoul (m'.load 0 2) 16 0 = ⟨255, some [], 0⟩) ∧
    ∃ m', lltostr (fun _ => 1) 0 2 255 16 true = some (m', 1) ∧ m'.load 0 2 = [70, 0] := by
  have hf : numeral 16 false 255 = [102, 102] := by
    norm_num [numeral, digitByte]
    rfl
  have hF : numeral 16 true 255 = [70, 70] := by
    norm_num [numeral, digitByte]
    rfl
  obtain ⟨m', h, -, hload, -, -, hback⟩ := ltostr_strtoul
    (by decide : 2 ≤ 16 ∧ 16 ≤ 36) (by decide : 2 ≤ 4) (by decide) (by decide : 255 < 2 ^ 64) (fun _ => 1) 0 false 0
  obtain ⟨m'', -, h', hload', -⟩ := ltostr_strtoul
    (by decide : 2 ≤ 16 ∧ 16 ≤ 36) (by decide : 2 ≤ 2) (by decide) (by decide : 255 < 2 ^ 64) (fun _ => 1) 0 true 0
  rw [hf] at h hload hback
  rw [hF] at h' hload'
  exact ⟨⟨m', h, hload, hback (by decide)⟩, m'', h', hload'⟩

end Dietlibc.Number
