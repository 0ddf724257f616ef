import Dietlibc.Base.Difference
import Dietlibc.Number.Ltostr
import Dietlibc.Number.Value
import Dietlibc.Strings.ByteSearch

/-!
# `strverscmp`

A string is an array with its terminator, and `i` and `j` are indices. `none` is undefined: a read
behind an array, or an overflow of a `long long`. Whether plain `char` has a sign depends on the target.
-/

namespace Dietlibc.Strings

open Difference
open Number (valueFrom valueFrom_append digit? le_valueFrom)
open Shell (isdigit)

/-- The first loop: the index of the mismatch, or `none` for a perfect match. -/
def mismatch : List UInt8 → List UInt8 → Option (Option Nat)
  | a :: s1, b :: s2 =>
    if a = b then if a = 0 then some none else (mismatch s1 s2).map (Option.map (· + 1))
    else some (some 0)
  | _, _ => none

/-- Backtrack over the matching digits. -/
def backtrack (s1 : List UInt8) : Nat → Option Nat
  | 0 => some 0
  | j + 1 => s1[j]?.bind fun c => if isdigit c then backtrack s1 j else some (j + 1)

/-- `a=a*10+c-'0'`. -/
def addDigit (signed : Bool) (a : Int) (c : UInt8) : Option Int :=
  (CInt.sval 64 (a * 10)).bind fun a =>
  (CInt.sval 64 (a + charVal signed c)).bind fun a => CInt.sval 64 (a - 48)

/-- The digits that match, with `i - j` of them left. -/
def matchingDigits (signed : Bool) (s1 : List UInt8) : Nat → Nat → Int → Option Int
  | 0, _, a => some a
  | n + 1, j, a =>
    s1[j]?.bind fun c => (addDigit signed a c).bind fun a => matchingDigits signed s1 n (j + 1) a

/-- The digits from the mismatch on. -/
def otherDigits (signed : Bool) : List UInt8 → Int → Option Int
  | [], _ => none
  | c :: s, a => if isdigit c then (addDigit signed a c).bind fun a => otherDigits signed s a else some a

/-- What follows the loop, with the index of the mismatch. -/
def compareAt (signed : Bool) (s1 s2 : List UInt8) (i : Nat) : Option Int :=
  s1[i]?.bind fun x => s2[i]?.bind fun y =>
  if isdigit x = false ∨ isdigit y = false then some (charVal signed x - charVal signed y)
  else
    (backtrack s1 i).bind fun j =>
    (matchingDigits signed s1 (i - j) j 0).bind fun n =>
    (otherDigits signed (s1.drop i) n).bind fun a =>
    (otherDigits signed (s2.drop i) n).bind fun b => some (if a < b then -1 else 1)

/-- `strverscmp`. -/
def strverscmp (signed : Bool) (s1 s2 : List UInt8) : Option Int :=
  (mismatch s1 s2).bind fun i => i.elim (some 0) (compareAt signed s1 s2)

/-! ## Runs of digits -/

/-- The number that is written with the digits. -/
def number (d : List UInt8) : Nat := valueFrom 10 0 d

/-- Behind `p` the string has the digits `d`, as many as there are, and then `q`. -/
structure RunAt (s p d q : List UInt8) : Prop where
  eq : s = p ++ (d ++ q)
  digits : ∀ c ∈ d, isdigit c = true
  before : ∀ c ∈ p.getLast?, isdigit c = false
  after : ∀ c ∈ q.head?, isdigit c = false

/-- No run of digits is longer than 18. -/
def ShortRuns (s : List UInt8) : Prop := ∀ p d q, RunAt s p d q → d.length ≤ 18

variable {signed : Bool} {s t p q q' d e w x y : List UInt8} {a b c : UInt8} {n m k : Nat}

theorem isdigit_iff : isdigit c = true ↔ 48 ≤ c.toNat ∧ c.toNat ≤ 57 := by
  unfold isdigit
  rw [Bool.and_eq_true, decide_eq_true_iff, decide_eq_true_iff, UInt8.le_iff_toNat_le,
    UInt8.lt_iff_toNat_lt]
  exact and_congr_right' Nat.lt_succ_iff

theorem digit?_of_isdigit (h : isdigit c = true) : (digit? c).getD 0 = c.toNat - 48 := by
  rw [digit?, if_pos (isdigit_iff.mp h), Option.getD_some]

theorem isdigit_zero : isdigit 0 = false := rfl

theorem charVal_of_isdigit (h : isdigit c = true) : charVal signed c = c.toNat := by
  have hc := isdigit_iff.mp h
  unfold charVal
  rw [if_neg]
  omega

theorem valueFrom_cons (h : isdigit c = true) (n : Nat) (d : List UInt8) :
    valueFrom 10 n (c :: d) = valueFrom 10 (n * 10 + (c.toNat - 48)) d := by
  rw [valueFrom, List.foldl_cons, digit?_of_isdigit h]
  rfl

theorem valueFrom_lt (hd : ∀ c ∈ d, isdigit c = true) (hn : n < 10 ^ k) :
    valueFrom 10 n d < 10 ^ (k + d.length) := by
  induction d generalizing n k with
  | nil => exact hn
  | cons c d ih =>
    obtain ⟨hc, hd⟩ := List.forall_mem_cons.mp hd
    have hdig := isdigit_iff.mp hc
    rw [valueFrom_cons hc, List.length_cons, ← Nat.succ_add_eq_add_succ]
    refine ih hd ?_
    rw [Nat.pow_succ]
    omega

theorem zero_lt_pow_zero : 0 < 10 ^ 0 := Nat.one_pos

/-! ## The code -/

theorem mismatch_self (hs : 0 ∉ s) : mismatch (s ++ [0]) (s ++ [0]) = some none := by
  induction s with
  | nil => rfl
  | cons c s ih =>
    obtain ⟨hc, hs⟩ := not_or.mp (mt List.mem_cons.mpr hs)
    rw [List.cons_append, mismatch, if_pos rfl, if_neg (Ne.symm hc), ih hs]
    rfl

theorem mismatch_eq (h : DifferAt s t p a b) (hp : 0 ∉ p) : mismatch s t = some (some p.length) := by
  obtain ⟨⟨x', rfl⟩, ⟨y', rfl⟩, hab⟩ := h
  induction p with
  | nil => exact if_neg hab
  | cons c p ih =>
    obtain ⟨hc, hp⟩ := not_or.mp (mt List.mem_cons.mpr hp)
    rw [List.cons_append, List.cons_append, mismatch, if_pos rfl, if_neg (Ne.symm hc), ih hp]
    rfl

theorem getElem?_differAt (h : DifferAt s t p a b) : s[p.length]? = some a := by
  obtain ⟨⟨x', rfl⟩, -, -⟩ := h
  rw [List.getElem?_append_right (le_refl _), Nat.sub_self]
  rfl

/-- A mismatch where one byte at least is no digit. -/
theorem strverscmp_chars (h : DifferAt (s ++ [0]) (t ++ [0]) p a b) (hp : 0 ∉ p)
    (hab : isdigit a = false ∨ isdigit b = false) :
    strverscmp signed (s ++ [0]) (t ++ [0]) = some (charVal signed a - charVal signed b) := by
  rw [strverscmp, mismatch_eq h hp, Option.bind_some, Option.elim_some, compareAt,
    getElem?_differAt h, getElem?_differAt h.symm, Option.bind_some, Option.bind_some, if_pos hab]

/-- The backtracking ends where the run starts. -/
theorem backtrack_eq (hw : ∀ c ∈ w, isdigit c = true) (hp : ∀ c ∈ p.getLast?, isdigit c = false)
    (x : List UInt8) : backtrack (p ++ w ++ x) (p ++ w).length = some p.length := by
  induction w using List.reverseRecOn generalizing x with
  | nil =>
    rw [List.append_nil]
    rcases List.eq_nil_or_concat p with rfl | ⟨p', c, rfl⟩
    · rfl
    · have hc : isdigit c = false := hp c (by simp)
      rw [List.concat_eq_append, List.length_append, List.length_singleton, backtrack,
        List.append_assoc, List.getElem?_append_right (le_refl _), Nat.sub_self]
      simp [hc]
  | append_singleton w c ih =>
    have hc : isdigit c = true := hw c (by simp)
    have ih := ih (fun b hb => hw b (by simp [hb])) (c :: x)
    rw [← List.append_assoc, List.length_append, List.length_singleton, backtrack, List.append_assoc,
      List.getElem?_append_right (le_refl _), Nat.sub_self, List.singleton_append]
    rw [List.getElem?_cons_zero, Option.bind_some, if_pos hc]
    exact ih

theorem addDigit_eq (hc : isdigit c = true) (hn : n < 10 ^ 17) :
    addDigit signed n c = some ((n * 10 + (c.toNat - 48) : Nat) : Int) := by
  have hdig := isdigit_iff.mp hc
  unfold addDigit
  rw [charVal_of_isdigit hc, CInt.sval_of_fits (by rw [CInt.fits64]; omega), Option.bind_some,
    CInt.sval_of_fits (by rw [CInt.fits64]; omega), Option.bind_some,
    CInt.sval_of_fits (by rw [CInt.fits64]; omega)]
  refine congrArg some ?_
  omega

theorem ten_pow_le (h : k ≤ 17) (hn : n < 10 ^ k) : n < 10 ^ 17 :=
  hn.trans_le (Nat.pow_le_pow_right (by decide) h)

theorem matchingDigits_eq (hw : ∀ c ∈ w, isdigit c = true) (hn : n < 10 ^ k) (hk : k + w.length ≤ 18)
    (p x : List UInt8) : matchingDigits signed (p ++ w ++ x) w.length p.length n =
      some ((valueFrom 10 n w : Nat) : Int) := by
  induction w generalizing p n k with
  | nil => rfl
  | cons c w ih =>
    obtain ⟨hc, hw⟩ := List.forall_mem_cons.mp hw
    have hdig := isdigit_iff.mp hc
    rw [List.length_cons] at hk
    have hget : (p ++ c :: w ++ x)[p.length]? = some c := by
      rw [List.append_assoc, List.getElem?_append_right (le_refl _), Nat.sub_self]
      rfl
    have hnext : n * 10 + (c.toNat - 48) < 10 ^ (k + 1) := by
      rw [Nat.pow_succ]
      omega
    have ih := ih hw hnext (by omega) (p ++ [c])
    rw [List.append_assoc p, List.singleton_append, List.length_append, List.length_singleton] at ih
    rw [List.length_cons, matchingDigits, hget, Option.bind_some,
      addDigit_eq hc (ten_pow_le (by omega) hn), Option.bind_some, ih, valueFrom_cons hc]

theorem otherDigits_eq (hd : ∀ c ∈ d, isdigit c = true) (hn : n < 10 ^ k) (hk : k + d.length ≤ 18)
    (hq : isdigit c = false) (x : List UInt8) :
    otherDigits signed (d ++ c :: x) n = some ((valueFrom 10 n d : Nat) : Int) := by
  induction d generalizing n k with
  | nil =>
    rw [List.nil_append, otherDigits, hq]
    rfl
  | cons b d ih =>
    obtain ⟨hb, hd⟩ := List.forall_mem_cons.mp hd
    have hdig := isdigit_iff.mp hb
    rw [List.length_cons] at hk
    have hnext : n * 10 + (b.toNat - 48) < 10 ^ (k + 1) := by
      rw [Nat.pow_succ]
      omega
    rw [List.cons_append, otherDigits, if_pos hb, addDigit_eq hb (ten_pow_le (by omega) hn),
      Option.bind_some, ih hd hnext (by omega), valueFrom_cons hb]

/-- Behind a run stands a byte, the terminator at least, that is no digit. -/
theorem RunAt.stop (h : RunAt s p d q) :
    ∃ c x, q ++ [0] = c :: x ∧ isdigit c = false := by
  cases q with
  | nil => exact ⟨0, [], rfl, isdigit_zero⟩
  | cons c q => exact ⟨c, q ++ [0], rfl, h.after c rfl⟩

/-- The rest of a run from the mismatch on. -/
theorem RunAt.otherDigits_eq (h : RunAt s p d q) (hd : d = w ++ x) (hlen : d.length ≤ 18) :
    otherDigits signed ((s ++ [0]).drop (p ++ w).length) (number w : Nat) =
      some ((number d : Nat) : Int) := by
  obtain ⟨c, y, hcy, hc⟩ := h.stop
  have hw : ∀ c ∈ w, isdigit c = true := fun c hmem => h.digits c (by simp [hd, hmem])
  have hx : ∀ c ∈ x, isdigit c = true := fun c hmem => h.digits c (by simp [hd, hmem])
  have hs : s ++ [0] = p ++ w ++ (x ++ c :: y) := by
    rw [h.eq, hd, ← hcy]
    simp only [List.append_assoc]
  have hlt := valueFrom_lt hw zero_lt_pow_zero
  rw [hd, List.length_append] at hlen
  rw [hs, List.drop_left, number, Strings.otherDigits_eq hx hlt (by omega) hc, ← valueFrom_append, ← hd]
  rfl

/-- A mismatch inside two runs of digits: the numbers are compared. -/
theorem strverscmp_numbers (signed : Bool) (hs : 0 ∉ s) (hrun : RunAt s p d q) (hrun' : RunAt t p e q')
    (hne : DifferAt d e w a b) (hd : d.length ≤ 18) (he : e.length ≤ 18) :
    strverscmp signed (s ++ [0]) (t ++ [0]) = some (if number d < number e then -1 else 1) := by
  have hdiff : DifferAt (s ++ [0]) (t ++ [0]) (p ++ w) a b := by
    rw [hrun.eq, hrun'.eq]
    exact ((hne.append q q').append_left p).append [0] [0]
  obtain ⟨⟨x, hx⟩, ⟨y, hy⟩, hab⟩ := hne
  have hw : ∀ c ∈ w, isdigit c = true := fun c hmem => hrun.digits c (by simp [hx, hmem])
  have ha : isdigit a = true := hrun.digits a (by simp [hx])
  have hb : isdigit b = true := hrun'.digits b (by simp [hy])
  have hp : 0 ∉ p ++ w := fun hmem => hs (by
    rw [hrun.eq, hx]
    rcases List.mem_append.mp hmem with hmem | hmem <;> simp [hmem])
  have hsplit : s ++ [0] = p ++ w ++ (a :: x ++ q ++ [0]) := by
    rw [hrun.eq, hx]
    simp only [List.append_assoc]
  have hback : backtrack (s ++ [0]) (p ++ w).length = some p.length := by
    rw [hsplit]
    exact backtrack_eq hw hrun.before _
  have hmatching : matchingDigits signed (s ++ [0]) ((p ++ w).length - p.length) p.length 0 =
      some ((number w : Nat) : Int) := by
    have hlen : w.length ≤ d.length := by rw [hx, List.length_append]; omega
    rw [hsplit, List.length_append, Nat.add_sub_cancel_left]
    exact matchingDigits_eq hw zero_lt_pow_zero (by omega) p _
  rw [strverscmp, mismatch_eq hdiff hp, Option.bind_some, Option.elim_some, compareAt,
    getElem?_differAt hdiff, getElem?_differAt hdiff.symm, Option.bind_some, Option.bind_some,
    if_neg (by simp [ha, hb]), hback, Option.bind_some, hmatching, Option.bind_some,
    hrun.otherDigits_eq hx hd, Option.bind_some, hrun'.otherDigits_eq hy he, Option.bind_some]
  simp only [Nat.cast_lt]

end Dietlibc.Strings
