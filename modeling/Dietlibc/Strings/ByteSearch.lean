import Dietlibc.Base.CInt
import Dietlibc.Base.Mem

/-!
# `memchr`, `memrchr` and `memccpy`

The buffer that is searched is the list of its bytes. What `memccpy` writes is another object, which
lies in the memory. `none` is undefined: a read behind the buffer, or an overflow of an `int`.
-/

namespace Dietlibc.Strings

/-- A byte read through a `char*`. Whether plain `char` has a sign depends on the target. -/
def charVal (signed : Bool) (b : UInt8) : Int :=
  if signed = true ∧ 128 ≤ b.toNat then (b.toNat : Int) - 256 else b.toNat

/-- The values of a plain `char`. -/
def IsChar (signed : Bool) (c : Int) : Prop :=
  if signed then -128 ≤ c ∧ c ≤ 127 else 0 ≤ c ∧ c ≤ 255

instance (signed : Bool) (c : Int) : Decidable (IsChar signed c) := by
  unfold IsChar
  infer_instance

section

variable (signed : Bool) (c : Int)

/-- The loop of `memchr` with `n` bytes left, `k` bytes behind `s`. -/
def memchrLoop : Nat → Nat → List UInt8 → Option (Option Nat)
  | 0, _, _ => some none
  | n + 1, k, b :: pc => if (b.toNat : Int) = c then some (some k) else memchrLoop n (k + 1) pc
  | _ + 1, _, [] => none

/-- `memchr`: the place of the byte it returns, `none` for a null pointer. -/
def memchr (s : List UInt8) (n : Nat) : Option (Option Nat) := memchrLoop c n 0 s

/-- The loop of `memrchr`, which counts with an `int`. -/
def memrchrLoop (i : Int) (k : Nat) (last : Option Nat) : List UInt8 → Option (Option Nat)
  | [] => if i = 0 then some last else none
  | b :: t =>
    if i = 0 then some last
    else
      (CInt.sval 32 (i - 1)).bind fun i =>
        memrchrLoop i (k + 1) (if charVal signed b = c then some k else last) t

/-- `memrchr`. -/
def memrchr (s : List UInt8) (n : Nat) : Option (Option Nat) :=
  memrchrLoop signed c (CInt.conv 32 n) 0 none s

/-- The loop of `memccpy`. -/
def memccpyLoop : Nat → Nat → List UInt8 → Mem → Option (Option Nat × Mem)
  | 0, _, _, m => some (none, m)
  | count + 1, a, x :: b, m =>
    let m := m.store a [x]
    if charVal signed x = c then some (some (a + 1), m) else memccpyLoop count (a + 1) b m
  | _ + 1, _, [], _ => none

/-- `memccpy`: the pointer it returns and the memory. -/
def memccpy (dst : Nat) (src : List UInt8) (count : Nat) (m : Mem) : Option (Option Nat × Mem) :=
  memccpyLoop signed c count dst src m

end

/-! ## What is asked of them -/

/-- The first `b` of `s`. -/
def FirstAt (s : List UInt8) (b : UInt8) : Option Nat → Prop
  | none => b ∉ s
  | some k => ∃ u v, s = u ++ b :: v ∧ u.length = k ∧ b ∉ u

/-- The last `b` of `s`. -/
def LastAt (s : List UInt8) (b : UInt8) : Option Nat → Prop
  | none => b ∉ s
  | some k => ∃ u v, s = u ++ b :: v ∧ u.length = k ∧ b ∉ v

/-- `memchr` finds the first byte `(unsigned char)c`. -/
def MemchrRight (c : Int) (s : List UInt8) : Prop :=
  ∃ r, memchr c s s.length = some r ∧ FirstAt s (UInt8.ofInt c) r

/-- `memrchr` finds the last byte `(unsigned char)c`. -/
def MemrchrRight (signed : Bool) (c : Int) (s : List UInt8) : Prop :=
  ∃ r, memrchr signed c s s.length = some r ∧ LastAt s (UInt8.ofInt c) r

/-- `memccpy` copies up to the first byte `(unsigned char)c`, and returns the place behind its copy. -/
def MemccpyRight (signed : Bool) (c : Int) (dst : Nat) (s : List UInt8) (m : Mem) : Prop :=
  ∃ k r m', FirstAt s (UInt8.ofInt c) k ∧ memccpy signed c dst s s.length m = some (r, m') ∧
    r = k.map (dst + · + 1) ∧ m' = m.store dst (s.take (k.elim s.length (· + 1)))

variable {signed : Bool} {c i : Int} {s t : List UInt8} {a b : UInt8} {j k dst : Nat} {r : Option Nat}
  {m : Mem}

/-! ## The key -/

theorem toNat_ofInt (c : Int) : ((UInt8.ofInt c).toNat : Int) = c % 256 := by
  rw [UInt8.ofInt, UInt8.toNat_ofNat']
  omega

/-- Only a key in the range of `char` is found by a comparison with it. -/
theorem charVal_eq : charVal signed b = c ↔ IsChar signed c ∧ b = UInt8.ofInt c := by
  have hb := b.toNat_lt
  have hc := toNat_ofInt c
  rw [← UInt8.toNat_inj]
  unfold charVal IsChar
  cases signed <;> simp only [true_and, Bool.false_eq_true, false_and, if_true, if_false]
  · omega
  · split <;> omega

theorem byte_eq : (b.toNat : Int) = c ↔ IsChar false c ∧ b = UInt8.ofInt c := by
  have h := @charVal_eq false c b
  rw [← h]
  unfold charVal
  simp

/-! ## The first and the last place -/

theorem firstAt_head (b : UInt8) (s : List UInt8) : FirstAt (b :: s) b (some 0) :=
  ⟨[], s, rfl, rfl, List.not_mem_nil⟩

theorem FirstAt.cons (h : FirstAt s b r) (hab : a ≠ b) : FirstAt (a :: s) b (r.map (· + 1)) := by
  cases r with
  | none => exact fun hmem => (List.mem_cons.mp hmem).elim (fun he => hab he.symm) h
  | some k =>
    obtain ⟨u, v, rfl, rfl, hu⟩ := h
    exact ⟨a :: u, v, rfl, rfl, fun hmem => (List.mem_cons.mp hmem).elim (fun he => hab he.symm) hu⟩

theorem LastAt.lt (h : LastAt s b (some k)) : k < s.length := by
  obtain ⟨u, v, rfl, rfl, -⟩ := h
  rw [List.length_append, List.length_cons]
  omega

theorem LastAt.append (h : LastAt s b r) (ht : b ∉ t) : LastAt (s ++ t) b r := by
  cases r with
  | none => exact fun hmem => (List.mem_append.mp hmem).elim h ht
  | some k =>
    obtain ⟨u, v, rfl, hu, hv⟩ := h
    refine ⟨u, v ++ t, by rw [List.append_assoc, List.cons_append], hu, fun hmem => ?_⟩
    exact (List.mem_append.mp hmem).elim hv ht

/-- If the second part has a `b`, the last one is there. -/
theorem LastAt.le (h : LastAt (s ++ t) b (some k)) (ht : b ∈ t) : s.length ≤ k := by
  obtain ⟨u, v, hst, rfl, hv⟩ := h
  by_contra hlt
  have hlen := congrArg List.length hst
  rw [List.length_append, List.length_append, List.length_cons] at hlen
  -- the second part would lie behind the last `b`
  have hend : v <:+ s ++ t := ⟨u ++ [b], by rw [hst]; simp⟩
  have hsuf : t <:+ v :=
    List.suffix_of_suffix_length_le (List.suffix_append s t) hend (by omega)
  exact hv (hsuf.subset ht)

/-! ## `memchr` -/

theorem memchrLoop_in (hc : IsChar false c) (s : List UInt8) (k : Nat) :
    ∃ r, FirstAt s (UInt8.ofInt c) r ∧ memchrLoop c s.length k s = some (r.map (k + ·)) := by
  induction s generalizing k with
  | nil => exact ⟨none, List.not_mem_nil, rfl⟩
  | cons b s ih =>
    rw [List.length_cons, memchrLoop]
    by_cases hb : b = UInt8.ofInt c
    · rw [if_pos (byte_eq.mpr ⟨hc, hb⟩), ← hb]
      exact ⟨some 0, firstAt_head b s, rfl⟩
    · rw [if_neg fun h => hb (byte_eq.mp h).2]
      obtain ⟨r, hr, hloop⟩ := ih (k + 1)
      refine ⟨_, hr.cons hb, ?_⟩
      rw [hloop, Option.map_map]
      exact congrArg (some <| r.map ·) (funext fun x => by simp only [Function.comp_apply]; omega)

theorem memchrLoop_out (hc : ¬IsChar false c) (s : List UInt8) (k : Nat) :
    memchrLoop c s.length k s = some none := by
  induction s generalizing k with
  | nil => rfl
  | cons b s ih =>
    rw [List.length_cons, memchrLoop, if_neg fun h => hc (byte_eq.mp h).1]
    exact ih (k + 1)

theorem memchr_right_iff : MemchrRight c s ↔ IsChar false c ∨ UInt8.ofInt c ∉ s := by
  unfold MemchrRight memchr
  by_cases hc : IsChar false c
  · obtain ⟨r, hr, hloop⟩ := memchrLoop_in hc s 0
    refine iff_of_true ⟨r, ?_, hr⟩ (.inl hc)
    rw [hloop]
    cases r <;> simp
  · rw [memchrLoop_out hc]
    constructor
    · rintro ⟨r, hr, hfirst⟩
      obtain rfl := Option.some.inj hr
      exact .inr hfirst
    · rintro (hc' | hmem)
      · exact absurd hc' hc
      · exact ⟨none, rfl, hmem⟩

/-! ## `memrchr` -/

theorem memrchrLoop_zero (k : Nat) (last : Option Nat) (s : List UInt8) :
    memrchrLoop signed c 0 k last s = some last := by
  cases s <;> rfl

theorem memrchrLoop_cons (hi : i ≠ 0) (k : Nat) (last : Option Nat) :
    memrchrLoop signed c i k last (b :: s) = (CInt.sval 32 (i - 1)).bind fun i =>
      memrchrLoop signed c i (k + 1) (if charVal signed b = c then some k else last) s := by
  rw [memrchrLoop, if_neg hi]

/-- A counter below zero overflows, if the buffer does not end before. -/
theorem memrchrLoop_neg (hi : i < 0) (k : Nat) (last : Option Nat) (s : List UInt8) :
    memrchrLoop signed c i k last s = none := by
  induction s generalizing i k last with
  | nil => exact if_neg (ne_of_lt hi)
  | cons b s ih =>
    rw [memrchrLoop_cons (ne_of_lt hi)]
    by_cases hfit : CInt.Fits 32 (i - 1)
    · rw [CInt.sval_of_fits hfit]
      exact ih (by omega) _ _
    · rw [CInt.sval_eq_none hfit]
      rfl

/-- The `j` bytes in front are searched. -/
theorem memrchrLoop_in (hc : IsChar signed c) (hj : j ≤ s.length) (hfit : j < 2 ^ 31) (k : Nat)
    (last : Option Nat) : ∃ r, LastAt (s.take j) (UInt8.ofInt c) r ∧
      memrchrLoop signed c j k last s = some ((r.map (k + ·)).or last) := by
  induction j generalizing s k last with
  | zero => exact ⟨none, by simp [LastAt], memrchrLoop_zero k last s⟩
  | succ j ih =>
    cases s with
    | nil => exact absurd hj (Nat.not_succ_le_zero j)
    | cons b s =>
      rw [memrchrLoop_cons (by omega), CInt.sval_of_fits (by rw [CInt.fits32]; omega),
        show ((j + 1 : Nat) : Int) - 1 = j by omega, Option.bind_some]
      obtain ⟨r, hr, hloop⟩ := ih (Nat.le_of_succ_le_succ hj) (Nat.lt_of_succ_lt hfit) (k + 1)
        (if charVal signed b = c then some k else last)
      rw [hloop, List.take_succ_cons]
      cases r with
      | some x =>
        obtain ⟨u, v, hu, rfl, hv⟩ := hr
        refine ⟨some (u.length + 1), ⟨b :: u, v, by rw [hu, List.cons_append], rfl, hv⟩, ?_⟩
        simp only [Option.map_some, Option.some_or, Option.some.injEq]
        omega
      | none =>
        by_cases hb : b = UInt8.ofInt c
        · rw [if_pos (charVal_eq.mpr ⟨hc, hb⟩), ← hb]
          exact ⟨some 0, ⟨[], _, rfl, rfl, hb ▸ hr⟩, rfl⟩
        · rw [if_neg fun h => hb (charVal_eq.mp h).2]
          exact ⟨none, fun h => (List.mem_cons.mp h).elim (fun he => hb he.symm) hr, rfl⟩

theorem memrchrLoop_out (hc : ¬IsChar signed c) (hj : j ≤ s.length) (hfit : j < 2 ^ 31) (k : Nat)
    (last : Option Nat) : memrchrLoop signed c j k last s = some last := by
  induction j generalizing s k with
  | zero => exact memrchrLoop_zero k last s
  | succ j ih =>
    cases s with
    | nil => exact absurd hj (Nat.not_succ_le_zero j)
    | cons b s =>
      rw [memrchrLoop_cons (by omega), CInt.sval_of_fits (by rw [CInt.fits32]; omega),
        show ((j + 1 : Nat) : Int) - 1 = j by omega, Option.bind_some,
        if_neg fun h => hc (charVal_eq.mp h).1]
      exact ih (Nat.le_of_succ_le_succ hj) (Nat.lt_of_succ_lt hfit) _

/-- How many bytes `memrchr` looks at, if its counter is not below zero. -/
theorem counter_eq (n : Nat) (h : 0 ≤ CInt.conv 32 n) :
    ∃ j : Nat, CInt.conv 32 n = j ∧ j ≤ n ∧ j < 2 ^ 31 := by
  obtain ⟨hlow, hhigh⟩ := CInt.conv_bounds32 n
  have hmod := CInt.conv_emod32 n
  exact ⟨(CInt.conv 32 n).toNat, by omega, by omega, by omega⟩

/-- `memrchr` finds the last one if all bytes are looked at that may be it, and none of them is missed
for its sign. -/
theorem memrchr_right_iff : MemrchrRight signed c s ↔ 0 ≤ CInt.conv 32 s.length ∧
    UInt8.ofInt c ∉ s.drop (CInt.conv 32 s.length).toNat ∧
    (IsChar signed c ∨ UInt8.ofInt c ∉ s) := by
  unfold MemrchrRight memrchr
  by_cases hneg : CInt.conv 32 s.length < 0
  · rw [memrchrLoop_neg hneg]
    exact iff_of_false (fun ⟨_, h, _⟩ => by cases h) fun h => absurd h.1 (not_le.mpr hneg)
  obtain ⟨j, hj, hle, hfit⟩ := counter_eq s.length (not_lt.mp hneg)
  rw [hj, Int.toNat_natCast]
  by_cases hc : IsChar signed c
  · obtain ⟨r, hr, hloop⟩ := memrchrLoop_in hc hle hfit 0 none
    rw [hloop]
    constructor
    · rintro ⟨r', he, hlast⟩
      refine ⟨by omega, fun hmem => ?_, .inl hc⟩
      rw [← List.take_append_drop j s] at hlast
      cases r with
      | none =>
        obtain rfl := Option.some.inj he
        exact hlast (List.mem_append_right _ hmem)
      | some x =>
        obtain rfl := Option.some.inj he
        simp only [Option.map_some, Nat.zero_add, Option.some_or] at hlast
        exact absurd hr.lt (not_lt.mpr (hlast.le hmem))
    · rintro ⟨-, hmem, -⟩
      refine ⟨r, ?_, ?_⟩
      · cases r <;> simp
      · rw [← List.take_append_drop j s]
        exact hr.append hmem
  · rw [memrchrLoop_out hc hle hfit]
    constructor
    · rintro ⟨r, hr, hlast⟩
      obtain rfl := Option.some.inj hr
      exact ⟨by omega, fun hmem => hlast (List.mem_of_mem_drop hmem), .inr hlast⟩
    · rintro ⟨-, -, hc' | hmem⟩
      · exact absurd hc' hc
      · exact ⟨none, rfl, hmem⟩

/-! ## `memccpy` -/

theorem store_cons (a : Nat) (b : UInt8) (s : List UInt8) (m : Mem) :
    (m.store a [b]).store (a + 1) s = m.store a (b :: s) :=
  Mem.store_append [b] s

theorem memccpyLoop_in (hc : IsChar signed c) (s : List UInt8) (dst : Nat) (m : Mem) :
    ∃ k, FirstAt s (UInt8.ofInt c) k ∧ memccpyLoop signed c s.length dst s m =
      some (k.map (dst + · + 1), m.store dst (s.take (k.elim s.length (· + 1)))) := by
  induction s generalizing dst m with
  | nil => exact ⟨none, List.not_mem_nil, by simp [memccpyLoop]⟩
  | cons b s ih =>
    rw [List.length_cons, memccpyLoop]
    by_cases hb : b = UInt8.ofInt c
    · rw [if_pos (charVal_eq.mpr ⟨hc, hb⟩), ← hb]
      exact ⟨some 0, firstAt_head b s, rfl⟩
    · rw [if_neg fun h => hb (charVal_eq.mp h).2]
      obtain ⟨k, hk, hloop⟩ := ih (dst + 1) (m.store dst [b])
      refine ⟨_, hk.cons hb, ?_⟩
      rw [hloop, store_cons]
      cases k with
      | none => rfl
      | some k =>
        simp only [Option.map_some, Option.elim_some, List.take_succ_cons, Option.some.injEq,
          Prod.mk.injEq, and_true]
        omega

theorem memccpyLoop_out (hc : ¬IsChar signed c) (s : List UInt8) (dst : Nat) (m : Mem) :
    memccpyLoop signed c s.length dst s m = some (none, m.store dst s) := by
  induction s generalizing dst m with
  | nil => simp [memccpyLoop]
  | cons b s ih =>
    rw [List.length_cons, memccpyLoop, if_neg fun h => hc (charVal_eq.mp h).1, ih, store_cons]

theorem memccpy_right_iff :
    MemccpyRight signed c dst s m ↔ IsChar signed c ∨ UInt8.ofInt c ∉ s := by
  unfold MemccpyRight memccpy
  by_cases hc : IsChar signed c
  · obtain ⟨k, hk, hloop⟩ := memccpyLoop_in hc s dst m
    exact iff_of_true ⟨k, _, _, hk, hloop, rfl, rfl⟩ (.inl hc)
  · rw [memccpyLoop_out hc]
    constructor
    · rintro ⟨k, r, m', hk, he, hr, -⟩
      obtain ⟨rfl, rfl⟩ := Prod.mk.inj (Option.some.inj he)
      cases k with
      | none => exact .inr hk
      | some k => cases hr
    · rintro (hc' | hmem)
      · exact absurd hc' hc
      · exact ⟨none, _, _, hmem, rfl, rfl, by simp⟩

/-! ## `memccpy` of a string -/

theorem charVal_eq_zero : charVal signed b = 0 ↔ b = 0 := by
  rw [charVal_eq, show UInt8.ofInt 0 = 0 from rfl]
  cases signed <;> simp [IsChar]

/-- The room ends in front of the NUL. -/
theorem memccpy_cut (hs : 0 ∉ s) (h : k ≤ s.length) (dst : Nat) (t : List UInt8) (m : Mem) :
    memccpy signed 0 dst (s ++ t) k m = some (none, m.store dst (s.take k)) := by
  unfold memccpy
  induction k generalizing s dst m with
  | zero => simp [memccpyLoop]
  | succ k ih =>
    cases s with
    | nil => cases h
    | cons b s =>
      obtain ⟨hb, hs⟩ := not_or.mp (mt List.mem_cons.mpr hs)
      rw [List.cons_append, memccpyLoop, if_neg (mt charVal_eq_zero.mp (Ne.symm hb)),
        ih hs (Nat.le_of_succ_le_succ h), List.take_succ_cons, store_cons]

/-- The NUL is the last byte copied. -/
theorem memccpy_whole (hs : 0 ∉ s) (h : s.length < k) (dst : Nat) (t : List UInt8) (m : Mem) :
    memccpy signed 0 dst (s ++ 0 :: t) k m =
      some (some (dst + s.length + 1), m.store dst (s ++ [0])) := by
  unfold memccpy
  induction s generalizing dst m k with
  | nil =>
    obtain ⟨n, rfl⟩ : ∃ n, k = n + 1 := ⟨k - 1, by rw [List.length_nil] at h; omega⟩
    rw [List.nil_append, memccpyLoop, if_pos (charVal_eq_zero.mpr rfl)]
    rfl
  | cons b s ih =>
    obtain ⟨hb, hs⟩ := not_or.mp (mt List.mem_cons.mpr hs)
    obtain ⟨n, rfl⟩ : ∃ n, k = n + 1 := ⟨k - 1, by omega⟩
    rw [List.length_cons] at h ⊢
    rw [List.cons_append, memccpyLoop, if_neg (mt charVal_eq_zero.mp (Ne.symm hb)),
      ih hs (by omega), store_cons]
    refine congrArg some (Prod.ext (congrArg some ?_) rfl)
    omega

/-! ## The three searches -/

/-- **Byte searches**: each finds its byte for the keys that the comparison sees as they are, and
`memrchr` for the lengths that its counter holds. -/
theorem searches_right_iff (signed : Bool) (c : Int) (s : List UInt8) (dst : Nat) (m : Mem) :
    (MemchrRight c s ↔ IsChar false c ∨ UInt8.ofInt c ∉ s) ∧
      (MemrchrRight signed c s ↔ 0 ≤ CInt.conv 32 s.length ∧
        UInt8.ofInt c ∉ s.drop (CInt.conv 32 s.length).toNat ∧
        (IsChar signed c ∨ UInt8.ofInt c ∉ s)) ∧
      (MemccpyRight signed c dst s m ↔ IsChar signed c ∨ UInt8.ofInt c ∉ s) :=
  ⟨memchr_right_iff, memrchr_right_iff, memccpy_right_iff⟩

/-- `memchr` misses the byte `255` under the key `-1`. -/
theorem searches_miss : ¬∀ (signed : Bool) (c : Int) (s : List UInt8) (dst : Nat) (m : Mem),
    MemchrRight c s ∧ MemrchrRight signed c s ∧ MemccpyRight signed c dst s m := by
  intro h
  obtain hc | hmem := memchr_right_iff.mp (h true (-1) [255] 0 fun _ => 0).1
  · exact absurd hc (by decide)
  · exact absurd hmem (by decide)

end Dietlibc.Strings
