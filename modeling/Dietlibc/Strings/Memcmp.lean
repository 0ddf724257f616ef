import Dietlibc.Base.CInt
import Dietlibc.Base.Difference

/-!
# `memcmp` and `timingsafe_memcmp`

An array is the list of its bytes, and a pointer into it is the rest of the list. `none` is a read
behind an array.
-/

namespace Dietlibc.Strings

open Difference

/-- The loop of `memcmp` with `count` behind `--count`. -/
def memcmpLoop : Nat → List UInt8 → List UInt8 → Option Int
  | 0, _, _ => some 0
  | count + 1, a :: d, b :: s =>
    if (a.toNat : Int) - b.toNat ≠ 0 then some (a.toNat - b.toNat) else memcmpLoop count d s
  | _ + 1, _, _ => none

/-- `memcmp`: `++count` before the loop, `--count` at its head. -/
def memcmp (dst src : List UInt8) (count : Nat) : Option Int :=
  memcmpLoop (CInt.usub 64 ((count + 1) % 2 ^ 64) 1) dst src

/-- The two variables of `timingsafe_memcmp`. -/
structure Frozen where
  r : BitVec 32
  done : BitVec 32

/-- One turn of the loop. The shift is an arithmetic one by `sizeof(int) - 1`. -/
def timingsafeTurn (a b : UInt8) (f : Frozen) : Frozen :=
  let t := BitVec.ofInt 32 (a.toNat - b.toNat)
  let minusone := (t ||| -t).sshiftRight (4 - 1)
  ⟨f.r ||| (t &&& ~~~f.done), f.done ||| minusone⟩

/-- The loop of `timingsafe_memcmp` with `n - i` turns left. -/
def timingsafeLoop : Nat → List UInt8 → List UInt8 → Frozen → Option Frozen
  | 0, _, _, f => some f
  | n + 1, a :: x, b :: y, f => timingsafeLoop n x y (timingsafeTurn a b f)
  | _ + 1, _, _, _ => none

/-- `timingsafe_memcmp`. -/
def timingsafeMemcmp (a b : List UInt8) (n : Nat) : Option Int :=
  (timingsafeLoop n a b ⟨0, 0⟩).map fun f => f.r.toInt

variable {x y p : List UInt8} {a b : UInt8} {n k : Nat} {f : Frozen} {neg : Bool}

/-! ## The sign of the first difference -/

/-- `r` is zero where the arrays agree, and has the sign of their first difference elsewhere. -/
def SignOfDifference (r : Int) (x y : List UInt8) : Prop :=
  (x = y ∧ r = 0) ∨ ∃ p a b, DifferAt x y p a b ∧ r.sign = ((a.toNat : Int) - b.toNat).sign

/-- The place of the difference is unique, so that two such values have the same sign. -/
theorem SignOfDifference.sign_unique {r m : Int} (h : SignOfDifference r x y)
    (h' : SignOfDifference m x y) : r.sign = m.sign := by
  rcases h with ⟨rfl, rfl⟩ | ⟨p, a, b, hd, hr⟩ <;> rcases h' with ⟨he, rfl⟩ | ⟨q, c, d, hd', hm⟩
  · rfl
  · exact absurd rfl hd'.ne
  · exact absurd he hd.ne
  · obtain ⟨rfl, rfl, rfl⟩ := hd.unique hd'
    rw [hr, hm]

theorem SignOfDifference.cons {r : Int} (h : SignOfDifference r x y) (a : UInt8) :
    SignOfDifference r (a :: x) (a :: y) := by
  rcases h with ⟨rfl, hr⟩ | ⟨p, b, c, hd, hr⟩
  · exact .inl ⟨rfl, hr⟩
  · exact .inr ⟨a :: p, b, c, hd.cons a, hr⟩

theorem signOfDifference_heads {r : Int} (hab : a ≠ b) (x y : List UInt8)
    (hr : r.sign = ((a.toNat : Int) - b.toNat).sign) : SignOfDifference r (a :: x) (b :: y) :=
  .inr ⟨[], a, b, differAt_heads hab x y, hr⟩

/-- Bytes are the same exactly if their difference is zero. -/
theorem sub_eq_zero_iff : (a.toNat : Int) - b.toNat = 0 ↔ a = b := by
  rw [← UInt8.toNat_inj]
  omega

/-- The counter after `++count` and `--count`. -/
theorem usub_succ (hk : k < 2 ^ 64) : CInt.usub 64 ((k + 1) % 2 ^ 64) 1 = k := by
  by_cases h : k + 1 = 2 ^ 64
  · rw [h, Nat.mod_self, show k = 2 ^ 64 - 1 by omega]
    rfl
  · rw [Nat.mod_eq_of_lt (by omega), CInt.usub_of_le (by omega) (by omega), Nat.add_sub_cancel]

theorem memcmpLoop_spec (hlen : x.length = y.length) :
    ∃ r, memcmpLoop x.length x y = some r ∧ SignOfDifference r x y := by
  induction x generalizing y with
  | nil =>
    obtain rfl := List.length_eq_zero_iff.mp hlen.symm
    exact ⟨0, rfl, .inl ⟨rfl, rfl⟩⟩
  | cons a x ih =>
    obtain ⟨b, y, rfl⟩ := List.exists_cons_of_length_pos (l := y) (by rw [← hlen]; simp)
    rw [List.length_cons, memcmpLoop]
    by_cases hab : a = b
    · subst hab
      rw [if_neg (by rw [not_not, sub_eq_zero_iff])]
      obtain ⟨r, hr, hsign⟩ := ih (Nat.succ.inj hlen)
      exact ⟨r, hr, hsign.cons a⟩
    · rw [if_pos (mt sub_eq_zero_iff.mp hab)]
      exact ⟨_, rfl, signOfDifference_heads hab x y rfl⟩

theorem memcmpLoop_take (n : Nat) (x y : List UInt8) :
    memcmpLoop n x y = memcmpLoop n (x.take n) (y.take n) := by
  induction n generalizing x y with
  | zero => rfl
  | succ n ih =>
    cases x with
    | nil => rw [List.take_nil]; cases y <;> rfl
    | cons a x =>
      cases y with
      | nil => rfl
      | cons b y =>
        rw [List.take_succ_cons, List.take_succ_cons, memcmpLoop, memcmpLoop, ih]

/-- `memcmp` is zero exactly if the first `n` bytes are the same. -/
theorem memcmp_eq_zero_iff (hx : n ≤ x.length) (hy : n ≤ y.length) (hn : n < 2 ^ 64) :
    ∃ r, memcmp x y n = some r ∧ (r = 0 ↔ x.take n = y.take n) := by
  have hlen : (x.take n).length = n := List.length_take_of_le hx
  obtain ⟨r, hr, hsign⟩ := memcmpLoop_spec (x := x.take n) (y := y.take n)
    (by rw [hlen, List.length_take_of_le hy])
  refine ⟨r, by rw [memcmp, usub_succ hn, memcmpLoop_take, ← hr, hlen], ?_⟩
  rcases hsign with ⟨he, h0⟩ | ⟨p, a, b, hd, hs⟩
  · exact iff_of_true h0 he
  · refine iff_of_false (fun h0 => hd.2.2 (sub_eq_zero_iff.mp ?_)) hd.ne
    rw [h0, Int.sign_zero] at hs
    exact Int.sign_eq_zero_iff_zero.mp hs.symm

/-! ## `timingsafe_memcmp` -/

/-- The difference of two bytes as an `int`. -/
theorem toInt_difference (a b : UInt8) :
    (BitVec.ofInt 32 (a.toNat - b.toNat)).toInt = a.toNat - b.toNat := by
  have ha := a.toNat_lt
  have hb := b.toNat_lt
  rw [BitVec.toInt_ofInt]
  exact Int.bmod_eq_of_le (by omega) (by omega)

/-- Whatever the lowest bit of a difference is, the sign bit of the mask is set. -/
theorem msb_minusone {t : BitVec 32} (h0 : t ≠ 0) (hmin : t ≠ BitVec.intMin 32) :
    ((t ||| -t).sshiftRight (4 - 1)).msb = true := by
  rw [BitVec.msb_sshiftRight, BitVec.msb_or, BitVec.msb_neg_of_ne_intMin_of_ne_zero hmin h0,
    Bool.or_not_self]

/-- No difference so far. -/
def Frozen.Open (f : Frozen) : Prop := f.r = 0 ∧ f.done = 0

/-- Behind the first difference `r` has its sign. The mask `done` need not be all ones, but it has
the sign bit, so that only lower bits of `r` can still change. -/
structure Frozen.Shut (f : Frozen) (neg : Bool) : Prop where
  r : f.r ≠ 0
  sign : f.r.msb = neg
  done : f.done.msb = true

theorem Frozen.Open.turn (h : f.Open) (a : UInt8) : (timingsafeTurn a a f).Open := by
  obtain ⟨hr, hdone⟩ := h
  unfold timingsafeTurn Frozen.Open
  rw [hr, hdone, sub_self]
  exact ⟨by decide, by decide⟩

theorem Frozen.Open.turn_ne (h : f.Open) (hab : a ≠ b) :
    (timingsafeTurn a b f).Shut (decide (a.toNat < b.toNat)) := by
  obtain ⟨hr, hdone⟩ := h
  have ht := toInt_difference a b
  have ha := a.toNat_lt
  have hb := b.toNat_lt
  have hne := mt sub_eq_zero_iff.mp hab
  have h0 : BitVec.ofInt 32 (a.toNat - b.toNat) ≠ 0 := fun h => by
    rw [h] at ht
    exact hne ht.symm
  have hmin : BitVec.ofInt 32 (a.toNat - b.toNat) ≠ BitVec.intMin 32 := fun h => by
    rw [h, show (BitVec.intMin 32).toInt = -2147483648 from rfl] at ht
    omega
  unfold timingsafeTurn
  dsimp only
  rw [hr, hdone, show (~~~(0 : BitVec 32)) = BitVec.allOnes 32 from rfl, BitVec.and_allOnes,
    show (0 : BitVec 32) = 0#32 from rfl, BitVec.zero_or, BitVec.zero_or]
  refine ⟨h0, ?_, msb_minusone h0 hmin⟩
  rw [BitVec.msb_eq_toInt, ht]
  exact decide_eq_decide.mpr (by omega)

theorem Frozen.Shut.turn (h : f.Shut neg) (a b : UInt8) : (timingsafeTurn a b f).Shut neg := by
  unfold timingsafeTurn
  dsimp only
  refine ⟨fun h0 => h.r (BitVec.or_eq_zero_iff.mp h0).1, ?_, ?_⟩
  · rw [BitVec.msb_or, BitVec.msb_and, BitVec.msb_not, h.done, h.sign]
    simp
  · rw [BitVec.msb_or, h.done, Bool.true_or]

theorem Frozen.Shut.loop (h : f.Shut neg) (hlen : x.length = y.length) :
    ∃ f', timingsafeLoop x.length x y f = some f' ∧ f'.Shut neg := by
  induction x generalizing y f with
  | nil => exact ⟨f, rfl, h⟩
  | cons a x ih =>
    obtain ⟨b, y, rfl⟩ := List.exists_cons_of_length_pos (l := y) (by rw [← hlen]; simp)
    exact ih (h.turn a b) (Nat.succ.inj hlen)

/-- The sign of `r` behind a difference of `a` and `b`. -/
theorem Frozen.Shut.sign_eq (h : f.Shut (decide (a.toNat < b.toNat))) (hab : a ≠ b) :
    f.r.toInt.sign = ((a.toNat : Int) - b.toNat).sign := by
  have hsign := h.sign
  rw [BitVec.msb_eq_toInt, decide_eq_decide] at hsign
  have hne := mt sub_eq_zero_iff.mp hab
  rcases lt_or_gt_of_ne hne with hlt | hgt
  · rw [Int.sign_eq_neg_one_of_neg hlt, Int.sign_eq_neg_one_of_neg (by omega)]
  · have h0 : f.r.toInt ≠ 0 := fun h0 => h.r (BitVec.eq_of_toInt_eq (by rw [h0]; rfl))
    rw [Int.sign_eq_one_of_pos hgt, Int.sign_eq_one_of_pos (by omega)]

theorem timingsafeLoop_spec (h : f.Open) (hlen : x.length = y.length) :
    ∃ f', timingsafeLoop x.length x y f = some f' ∧ SignOfDifference f'.r.toInt x y := by
  induction x generalizing y f with
  | nil =>
    obtain rfl := List.length_eq_zero_iff.mp hlen.symm
    exact ⟨f, rfl, .inl ⟨rfl, by rw [h.1]; rfl⟩⟩
  | cons a x ih =>
    obtain ⟨b, y, rfl⟩ := List.exists_cons_of_length_pos (l := y) (by rw [← hlen]; simp)
    by_cases hab : a = b
    · subst hab
      obtain ⟨f', hf', hsign⟩ := ih (h.turn a) (Nat.succ.inj hlen)
      exact ⟨f', hf', hsign.cons a⟩
    · obtain ⟨f', hf', hshut⟩ := (h.turn_ne hab).loop (Nat.succ.inj hlen)
      exact ⟨f', hf', signOfDifference_heads hab x y (hshut.sign_eq hab)⟩

/-- **The sign of `timingsafe_memcmp`** is that of `memcmp`, and of the first difference. -/
theorem timingsafe_sign (hx : x.length = n) (hy : y.length = n) (hn : n < 2 ^ 64) :
    ∃ r m, timingsafeMemcmp x y n = some r ∧ memcmp x y n = some m ∧ r.sign = m.sign ∧
      SignOfDifference r x y ∧ SignOfDifference m x y := by
  subst hx
  obtain ⟨f, hf, hr⟩ := timingsafeLoop_spec (f := ⟨0, 0⟩) ⟨rfl, rfl⟩ hy.symm
  obtain ⟨m, hm, hsign⟩ := memcmpLoop_spec hy.symm
  refine ⟨f.r.toInt, m, by rw [timingsafeMemcmp, hf]; rfl, ?_, ?_, hr, hsign⟩
  · rw [memcmp, usub_succ hn, hm]
  · exact hr.sign_unique hsign

/-- The second difference leaves its mark in the result. -/
theorem timingsafe_sign_polluted :
    ∃ r m, timingsafeMemcmp [128, 0] [0, 1] 2 = some r ∧ memcmp [128, 0] [0, 1] 2 = some m ∧
      r.sign = m.sign ∧ SignOfDifference r [128, 0] [0, 1] ∧ SignOfDifference m [128, 0] [0, 1] :=
  timingsafe_sign rfl rfl (by decide)

end Dietlibc.Strings
