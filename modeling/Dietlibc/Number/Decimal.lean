import Dietlibc.Number.Ltostr
import Dietlibc.Printf.Plain

/-!
# What `%d` prints and `strtol` reads

The text that `%d` prints of an `int` is a sign and a numeral in base 10. `strtol` in base 0 makes the
number of it again, and stops at what stands behind it, if that is no letter and no numeral.
-/

namespace Dietlibc.Number

open Shell (isalnum)
open Printf

variable {z : Int} {c : UInt8} {rest : List UInt8}

/-- The decimal text of a number. -/
def decimalText (z : Int) : List UInt8 :=
  (if z < 0 then [45] else []) ++ numeral 10 false z.natAbs

/-! ## The text -/

theorem numeral_ne_nil (i : Nat) : numeral 10 false i ≠ [] := List.length_pos_iff.mp length_numeral_pos

theorem decimalText_ne_nil (z : Int) : decimalText z ≠ [] := by
  unfold decimalText
  exact List.append_ne_nil_of_right_ne_nil _ (numeral_ne_nil _)

/-- A digit in base 10. -/
theorem mem_numeral {i : Nat} {b : UInt8} (h : b ∈ numeral 10 false i) : isalnum b = true :=
  isalnum_of_isDigit (isDigit_numeral (by decide) false i b h)

theorem mem_decimalText {b : UInt8} (h : b ∈ decimalText z) : b = 45 ∨ isalnum b = true := by
  rcases List.mem_append.mp h with h | h
  · split at h
    · exact .inl (List.mem_singleton.mp h)
    · cases h
  · exact .inr (mem_numeral h)

/-- The digits of `%d` and those of `strtol`. -/
theorem toUInt8_numeral (i : Nat) :
    (Printf.numeral 10 false i).map Char.toUInt8 = numeral 10 false i := by
  have hdigit : ∀ d < 10, (Lib.digitChar false d).toUInt8 = digitByte false d := by decide
  unfold Printf.numeral numeral
  by_cases h0 : i = 0
  · rw [if_pos h0, if_pos h0]
    rfl
  · rw [if_neg h0, if_neg h0, List.map_reverse, List.map_map]
    congr 1
    exact List.map_congr_left fun d hd => hdigit d (Nat.digits_lt_base (by decide) hd)

/-- What `%d` prints of an `int`. -/
theorem toUInt8_signedText (h : CInt.Fits 32 z) :
    (signedText (z % 2 ^ 64).toNat).map Char.toUInt8 = decimalText z := by
  have hread := readNumber_short (f := .init) (le_refl 0) z
  have hbits : shortBits Flags.init.long = 32 := rfl
  have hz := CInt.fits32.mp h
  rw [CInt.conv_of_fits (by decide) h, hbits, Nat.mod_eq_of_lt (by omega)] at hread
  unfold signedText decimalText
  rw [hread]
  dsimp only
  rw [Printf.ltostr_eq (by decide) (by decide) (by omega), List.map_append, toUInt8_numeral]
  by_cases hneg : z < 0
  · rw [if_pos (decide_eq_true hneg), if_pos hneg]
    rfl
  · rw [if_neg (by rwa [decide_eq_true_eq]), if_neg hneg]
    rfl

/-! ## The way back -/

theorem isDigit_of_not_alnum (hc : isalnum c = false) (b : Nat) : IsDigit b c = false := by
  rw [← Bool.not_eq_true]
  intro hd
  rw [isalnum_of_isDigit hd] at hc
  cases hc

/-- Digits come to their end at a byte that is no letter and no numeral. -/
theorem digits_append {b : Nat} {ds : List UInt8} (hd : ∀ d ∈ ds, IsDigit b d = true)
    (hc : isalnum c = false) (rest : List UInt8) :
    (ds ++ c :: rest).takeWhile (IsDigit b) = ds ∧
      (ds ++ c :: rest).dropWhile (IsDigit b) = c :: rest := by
  have hstop : ¬ IsDigit b c = true := by
    rw [isDigit_of_not_alnum hc]
    exact Bool.false_ne_true
  rw [List.takeWhile_append_of_pos hd, List.dropWhile_append_of_pos hd,
    List.takeWhile_cons_of_neg hstop, List.dropWhile_cons_of_neg hstop, List.append_nil]
  exact ⟨rfl, rfl⟩

/-- The text `0` is read in base 8. -/
theorem subject_zero (hc : isalnum c = false) (rest : List UInt8) :
    subject (48 :: c :: rest) 0 = ⟨false, 8, [48], c :: rest⟩ := by
  have hsign : signPrefix ((48 :: c :: rest).dropWhile isWhite) = (false, 48 :: c :: rest) :=
    signPrefix_alnum (by decide) _
  have hx : ¬ (c = 120 ∨ c = 88) := by
    rintro (rfl | rfl) <;> exact absurd hc (by decide)
  have hbase : basePrefix 0 (48 :: c :: rest) = (8, 48 :: c :: rest) := by
    cases rest with
    | nil => rfl
    | cons d rest =>
      rw [basePrefix, if_neg fun h => hx h.2.1, if_pos rfl]
  have hdig : ∀ d ∈ [(48 : UInt8)], IsDigit 8 d = true := List.forall_mem_singleton.mpr (by decide)
  obtain ⟨htake, hdrop⟩ := digits_append hdig hc rest
  rw [subject, hsign]
  dsimp only
  rw [hbase]
  exact congrArg₂ (Subject.mk false 8) htake hdrop

/-- The text of another number is read in base 10. -/
theorem subject_numeral_append {i : Nat} (h0 : i ≠ 0) (hc : isalnum c = false)
    (rest : List UInt8) : subject (numeral 10 false i ++ c :: rest) 0 =
      ⟨false, 10, numeral 10 false i, c :: rest⟩ := by
  have hhead : peek (numeral 10 false i) ≠ 48 := numeral_head (by decide) false h0
  have hdig : ∀ d ∈ numeral 10 false i, IsDigit 10 d = true := isDigit_numeral (by decide) false i
  obtain ⟨htake, hdrop⟩ := digits_append hdig hc rest
  obtain ⟨x, t, hx⟩ := List.exists_cons_of_ne_nil (numeral_ne_nil i)
  have hal : isalnum x = true := mem_numeral (i := i) (by rw [hx]; exact List.mem_cons_self)
  rw [hx] at hhead htake hdrop ⊢
  have hsign : signPrefix ((x :: t ++ c :: rest).dropWhile isWhite) = (false, x :: t ++ c :: rest) :=
    signPrefix_alnum hal _
  rw [subject, hsign]
  dsimp only
  rw [basePrefix_digit (s := x :: t ++ c :: rest) hhead, if_pos rfl]
  dsimp only
  rw [htake, hdrop]

/-- The number in a text that goes on behind its digits. -/
theorem subject_numeral_value (i : Nat) (hc : isalnum c = false) (rest : List UInt8) :
    ∃ base, subject (numeral 10 false i ++ c :: rest) 0 =
        ⟨false, base, numeral 10 false i, c :: rest⟩ ∧
      valueFrom base 0 (numeral 10 false i) = i := by
  by_cases h0 : i = 0
  · have hzero : numeral 10 false i = [48] := by
      rw [numeral, if_pos h0]
    rw [hzero, h0]
    exact ⟨8, subject_zero hc rest, rfl⟩
  · exact ⟨10, subject_numeral_append h0 hc rest, value_numeral (by decide) false i⟩

/-- The number in a decimal text. -/
theorem subject_decimalText (z : Int) (rest : List UInt8) (hc : isalnum c = false) :
    (subject (decimalText z ++ c :: rest) 0).digits ≠ [] ∧
      (subject (decimalText z ++ c :: rest) 0).signed = z ∧
      (subject (decimalText z ++ c :: rest) 0).rest = c :: rest := by
  obtain ⟨base, hsub, hval⟩ := subject_numeral_value z.natAbs hc rest
  unfold decimalText Subject.signed
  by_cases hneg : z < 0
  · obtain ⟨x, t, hx⟩ := List.exists_cons_of_ne_nil (numeral_ne_nil z.natAbs)
    have hal : isalnum x = true :=
      mem_numeral (i := z.natAbs) (by rw [hx]; exact List.mem_cons_self)
    have hdash : subject (45 :: (numeral 10 false z.natAbs ++ c :: rest)) 0 =
        ⟨true, base, numeral 10 false z.natAbs, c :: rest⟩ := by
      have hd := subject_dash (t := t ++ c :: rest) hal 0
      rw [← List.cons_append, ← hx, hsub] at hd
      exact hd
    rw [if_pos hneg, List.append_assoc, List.singleton_append, hdash]
    refine ⟨numeral_ne_nil _, ?_, rfl⟩
    dsimp only [Subject.value]
    rw [hval, if_pos rfl]
    omega
  · rw [if_neg hneg, List.nil_append, hsub]
    refine ⟨numeral_ne_nil _, ?_, rfl⟩
    dsimp only [Subject.value]
    rw [hval, if_neg Bool.false_ne_true]
    omega

/-- **`strtol` reads back what `%d` prints**, whatever follows it. -/
theorem strtol_decimalText (h : CInt.Fits 32 z) (hc : isalnum c = false) (errno : Nat) :
    strtol (decimalText z ++ c :: rest) 0 errno = ⟨z, some (c :: rest), errno⟩ := by
  obtain ⟨hdig, hval, hrest⟩ := subject_decimalText z rest hc
  have hz := CInt.fits32.mp h
  rw [strtol_eq (.inl rfl), if_neg hdig, longOf, hval, hrest, if_pos (by omega), if_neg (by omega)]

end Dietlibc.Number
