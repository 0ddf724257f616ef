import Dietlibc.Printf.Text

/-!
# Layouts of the code and of C99

Both arrange a sign or prefix, digits and padding. `Spec.LayoutOk` says when the two
arrangements agree for the same number.
-/

namespace Dietlibc.Printf

open Lib

variable {s : Spec} {v : Int}

/-! ## Arrangements -/

section

variable {left : Bool} {c : Char} {q q' : Nat} {a d : List Char}

/-- The characters that are not blank. -/
def visible (l : List Char) : Nat := l.countP (· ≠ ' ')

@[simp] theorem visible_append (l l' : List Char) : visible (l ++ l') = visible l + visible l' :=
  List.countP_append

@[simp] theorem visible_zeros (n : Nat) : visible (List.replicate n '0') = n := by
  simp [visible, List.countP_replicate]

@[simp] theorem visible_blanks (n : Nat) : visible (List.replicate n ' ') = 0 := by
  simp [visible, List.countP_replicate]

theorem visible_arrange (hc : c = ' ' ∨ c = '0') :
    visible (arrange left c q a d) = visible a + visible d + if c = '0' then q else 0 := by
  unfold arrange
  rcases hc with rfl | rfl
  · cases left <;> simp
  · cases left <;> (simp; omega)

theorem arrange_zero : arrange left c 0 a d = a ++ d := by
  unfold arrange
  split
  · simp
  · split <;> simp

/-- Padding of the two kinds looks alike only when there is none. -/
theorem arrange_blank_iff (hc : c = ' ' ∨ c = '0') :
    arrange left c q a d = arrange left ' ' q' a d ↔ q = q' ∧ (q = 0 ∨ c = ' ') := by
  constructor
  · intro h
    have hl := congrArg List.length h
    have hv := congrArg visible h
    rw [length_arrange, length_arrange] at hl
    rw [visible_arrange hc, visible_arrange (.inl rfl)] at hv
    refine ⟨by omega, ?_⟩
    rcases hc with rfl | rfl
    · exact .inr rfl
    · rw [if_pos rfl, if_neg (by decide)] at hv
      left
      omega
  · rintro ⟨rfl, rfl | rfl⟩
    · rw [arrange_zero, arrange_zero]
    · rfl

theorem zeros_cons (k : Nat) (l : List Char) :
    List.replicate k '0' ++ '0' :: l = '0' :: (List.replicate k '0' ++ l) := by
  induction k with
  | zero => rfl
  | succ k ih => simp [List.replicate_succ, ih]

/-- A leading zero may count as prefix or as digit. -/
theorem arrange_shift (hc : c = ' ' ∨ c = '0') :
    arrange left c q ['0'] d = arrange left c q [] ('0' :: d) := by
  unfold arrange
  rcases hc with rfl | rfl
  · cases left <;> simp
  · cases left
    · simp [zeros_cons]
    · simp

end

/-! ## Conditions -/

/-- The number of digits of `v`. -/
def Spec.numDigits (s : Spec) (v : Int) : Nat :=
  (numeral s.conv.base s.conv.upper v.natAbs).length

theorem numDigits_eq (s : Spec) (v : Int) :
    (numeral s.conv.base s.conv.upper v.natAbs).length = s.numDigits v := rfl

/-- The length of the sign or prefix. -/
def Spec.numBefore (s : Spec) (v : Int) : Nat :=
  (s.signText (decide (v < 0))).length + if v = 0 then 0 else s.altText.length

/-- Padding comes out as C99 has it.
* No precision: not padded with zeros on the right, as `0` before `-` does; a zero with `#` only
  for `o` among padding zeros.
* A precision: no padding, or one of blanks and no more digits than the precision; with `#` and
  `o` not more zeros than digits ask for.
* A negative precision argument, which the code takes for 0: no padding, or a zero that the
  padding happens to print. -/
def Spec.LayoutOk (s : Spec) (v : Int) : Prop :=
  match s.prec.given, s.prec.value with
  | false, _ =>
    if v = 0 ∧ s.altText ≠ [] then
      s.conv = .o ∧ s.left = false ∧ padZero s.flags = true ∧ 2 ≤ s.width.value
    else
      ¬ (s.left = true ∧ padZero s.flags = true ∧
        s.numBefore v + s.numDigits v < s.width.value)
  | true, some p =>
    if v = 0 then
      if s.altText = ['0'] ∧ p = 0 then s.width.value = 1 ∧ padZero s.flags = true
      else s.width.value ≤ s.numBefore v + p ∨ padZero s.flags = false
    else
      (s.altText = ['0'] → p ≤ s.numDigits v) ∧
        (s.width.value ≤ s.numBefore v + p ∨ (s.numDigits v ≤ p ∧ padZero s.flags = false))
  | true, none =>
    if v = 0 then
      padZero s.flags = true ∧
        if s.left then s.width.value = s.numBefore v + 1 else s.numBefore v < s.width.value
    else s.width.value ≤ s.numBefore v

/-! ## What C99 arranges -/

theorem digitChar_ne {up : Bool} {d : Nat} (hd : d < 16) : digitChar up d ≠ ' ' ∧
    digitChar up d ≠ '-' ∧ digitChar up d ≠ 'x' ∧ digitChar up d ≠ 'X' ∧
    digitVal (digitChar up d) = d := by
  revert up d
  decide

theorem mem_numeral {base n : Nat} (hb : 1 < base) {up : Bool} {x : Char}
    (hx : x ∈ numeral base up n) : ∃ d < base, x = digitChar up d := by
  unfold numeral at hx
  split at hx
  · exact ⟨0, by omega, List.mem_singleton.mp hx⟩
  · obtain ⟨d, hd, rfl⟩ := List.mem_map.mp (List.mem_reverse.mp hx)
    exact ⟨d, Nat.digits_lt_base hb hd, rfl⟩

/-- A number other than 0 starts with a digit other than 0. -/
theorem numeral_head {base n : Nat} (hb : 1 < base) (hb' : base ≤ 36) {up : Bool} (hn : n ≠ 0) :
    (numeral base up n).head? ≠ some '0' := by
  have hne : Nat.digits base n ≠ [] := Nat.digits_ne_nil_iff_ne_zero.mpr hn
  have hlast := Nat.getLast_digit_ne_zero base hn
  rw [numeral, if_neg hn, List.head?_reverse, List.getLast?_map, List.getLast?_eq_some_getLast hne,
    Option.map_some]
  intro h
  have hlt : (Nat.digits base n).getLast hne < base :=
    Nat.digits_lt_base hb (List.getLast_mem hne)
  exact hlast (digitChar_eq_zero (by omega) (Option.some.inj h))

theorem padZero_eq {fs : List Flag} (h : Flag.minus ∉ fs) :
    padZero fs = decide (Flag.zero ∈ fs) := by
  induction fs with
  | nil => rfl
  | cons fl fs ih =>
    have hfs : Flag.minus ∉ fs := fun hm => h (List.mem_cons_of_mem _ hm)
    cases fl with
    | minus => exact absurd List.mem_cons_self h
    | zero => simp [padZero]
    | plus => simpa [padZero] using ih hfs
    | space => simpa [padZero] using ih hfs
    | hash => simpa [padZero] using ih hfs

/-- The padding of C99. -/
def Spec.fill (s : Spec) : Char :=
  if s.left = false ∧ padZero s.flags = true ∧ s.prec.value = none then '0' else ' '

theorem c99_arrange (s : Spec) (v : Int) :
    s.c99 v = arrange s.left s.fill
      (s.width.value - ((s.before v).length + (s.digits v).length)) (s.before v) (s.digits v) := by
  unfold Spec.c99 Spec.fill arrange
  cases hl : s.left
  · have hm : Flag.minus ∉ s.flags := by
      intro hm
      simp [Spec.left, hm] at hl
    rw [padZero_eq hm]
    by_cases hz : Flag.zero ∈ s.flags ∧ s.prec.value = none
    · simp [hz.1, hz.2]
    · simp [hz]
  · simp

theorem oct_iff (s : Spec) : s.altText = ['0'] ↔ Flag.hash ∈ s.flags ∧ s.conv = .o := by
  unfold Spec.altText Spec.alt
  by_cases h : Flag.hash ∈ s.flags <;> cases s.conv <;> simp [h, altChars]

/-- With the `o` of `#` aside, C99 has the code's sign and prefix. -/
theorem before_eq (s : Spec) (v : Int) (hoct : s.altText ≠ ['0']) :
    s.before v = s.signText (decide (v < 0)) ++ if v = 0 then [] else s.altText := by
  unfold Spec.before Spec.signText Spec.altText Spec.alt at *
  by_cases h0 : v = 0 <;> by_cases h : Flag.hash ∈ s.flags <;>
    cases hc : s.conv <;> simp_all [altChars, Conv.signed]

theorem before_oct {s : Spec} (hoct : s.altText = ['0']) (v : Int) (b : Bool) :
    s.before v = [] ∧ s.signText b = [] := by
  obtain ⟨h, hc⟩ := (oct_iff s).mp hoct
  simp [Spec.before, Spec.signText, hc, Conv.signed]

/-! ## The layouts compared -/

theorem length_numeral_pos (base : Nat) (up : Bool) (n : Nat) :
    1 ≤ (numeral base up n).length := by
  unfold numeral
  split
  · simp
  · rename_i h0
    simp only [List.length_reverse, List.length_map]
    exact List.length_pos_iff.mpr (Nat.digits_ne_nil_iff_ne_zero.mpr h0)

theorem numeral_head_conv (s : Spec) {v : Int} (h0 : v ≠ 0) :
    (numeral s.conv.base s.conv.upper v.natAbs).head? ≠ some '0' := by
  obtain ⟨hb, hb'⟩ := s.conv.base_ok
  exact numeral_head hb (by omega) (Int.natAbs_ne_zero.mpr h0)

theorem digits_none (hp : s.prec.value = none) (v : Int) : s.digits v =
    if s.altText = ['0'] ∧ v ≠ 0 then '0' :: numeral s.conv.base s.conv.upper v.natAbs
    else numeral s.conv.base s.conv.upper v.natAbs := by
  unfold Spec.digits
  simp only [hp, reduceCtorEq, and_false, if_false, Option.getD_none, oct_iff]
  have hlen := length_numeral_pos s.conv.base s.conv.upper v.natAbs
  rw [show 1 - (numeral s.conv.base s.conv.upper v.natAbs).length = 0 by omega,
    List.replicate_zero, List.nil_append]
  by_cases h0 : v = 0
  · simp [h0, numeral]
  · simp [h0, numeral_head_conv s h0]

theorem digits_zero {p : Nat} (hp : s.prec.value = some p) : s.digits 0 =
    if s.altText = ['0'] ∧ p = 0 then ['0'] else List.replicate p '0' := by
  unfold Spec.digits
  simp only [hp, Option.some.injEq, true_and, Option.getD_some, oct_iff]
  cases p with
  | zero => by_cases h : Flag.hash ∈ s.flags ∧ s.conv = .o <;> simp [h]
  | succ p =>
    have hds : List.replicate p '0' ++ ['0'] = List.replicate (p + 1) '0' :=
      (List.replicate_succ' ..).symm
    simp only [Nat.succ_ne_zero, if_false, and_false, Int.natAbs_zero, numeral, if_true,
      List.length_singleton, Nat.add_sub_cancel, hds, List.replicate_succ, List.head?_cons, ne_eq,
      not_true_eq_false]

theorem digits_some {p : Nat} (hp : s.prec.value = some p) {v : Int} (h0 : v ≠ 0) : s.digits v =
    if s.altText = ['0'] ∧ p ≤ s.numDigits v then
      '0' :: numeral s.conv.base s.conv.upper v.natAbs
    else List.replicate (p - s.numDigits v) '0' ++ numeral s.conv.base s.conv.upper v.natAbs := by
  have hh := numeral_head_conv s h0
  unfold Spec.digits Spec.numDigits
  simp only [hp, h0, false_and, if_false, Option.getD_some, oct_iff]
  generalize numeral s.conv.base s.conv.upper v.natAbs = ds at *
  by_cases hle : p ≤ ds.length
  · rw [show p - ds.length = 0 by omega, List.replicate_zero, List.nil_append]
    simp [hle, hh]
  · obtain ⟨k, hk⟩ : ∃ k, p - ds.length = k + 1 := ⟨p - ds.length - 1, by omega⟩
    simp [hk, hle, List.replicate_succ]

/-- The character of the code's padding. -/
def Spec.pad (s : Spec) : Char := if padZero s.flags then '0' else ' '

theorem pad_ok (s : Spec) : s.pad = ' ' ∨ s.pad = '0' := by
  unfold Spec.pad
  cases padZero s.flags <;> simp

theorem pad_blank (s : Spec) : s.pad = ' ' ↔ padZero s.flags = false := by
  unfold Spec.pad
  cases padZero s.flags <;> simp

theorem pad_zero (s : Spec) : s.pad = '0' ↔ padZero s.flags = true := by
  unfold Spec.pad
  cases padZero s.flags <;> simp

theorem fill_ok (s : Spec) : s.fill = ' ' ∨ s.fill = '0' := by
  unfold Spec.fill
  split <;> simp

theorem text_free (hg : s.prec.given = false) (b : Bool) (m : Nat) :
    s.text b m = arrange s.left s.pad
      (s.width.value - ((s.signText b ++ s.altText).length +
        (numeral s.conv.base s.conv.upper m).length))
      (s.signText b ++ s.altText) (numeral s.conv.base s.conv.upper m) := by
  simp [Spec.text, hg, Spec.pad]

theorem text_zero (hg : s.prec.given = true) (b : Bool) :
    s.text b 0 = arrange s.left s.pad (s.width.value - ((s.signText b).length + s.prec.read))
      (s.signText b) (List.replicate s.prec.read '0') := by
  simp [Spec.text, hg, Spec.pad]

theorem text_given (hg : s.prec.given = true) (b : Bool) {m : Nat} (hm : m ≠ 0) :
    s.text b m = arrange s.left s.pad
      (s.width.value - ((s.signText b ++ s.altText).length + s.prec.read))
      (s.signText b ++ s.altText)
      (List.replicate (s.prec.read - (numeral s.conv.base s.conv.upper m).length) '0' ++
        numeral s.conv.base s.conv.upper m) := by
  simp [Spec.text, hg, hm, Spec.pad]

/-- Without a precision C99 arranges the code's sign, prefix and digits, except for a zero
with `#`. -/
theorem c99_none (hp : s.prec.value = none) (v : Int) (hz : ¬ (v = 0 ∧ s.altText ≠ [])) :
    s.c99 v = arrange s.left s.fill (s.width.value - (s.numBefore v + s.numDigits v))
      (s.signText (decide (v < 0)) ++ s.altText) (numeral s.conv.base s.conv.upper v.natAbs) := by
  rw [c99_arrange, digits_none hp]
  unfold Spec.numBefore Spec.numDigits
  by_cases hoct : s.altText = ['0']
  · have h0 : v ≠ 0 := fun h => hz ⟨h, by simp [hoct]⟩
    obtain ⟨hbef, hsg⟩ := before_oct hoct v (decide (v < 0))
    rw [hbef, hsg, hoct, if_pos ⟨rfl, h0⟩, if_neg h0, List.nil_append,
      arrange_shift (fill_ok s)]
    simp only [List.length_nil, List.length_cons]
    congr 1
    omega
  · rw [if_neg (fun h => hoct h.1), before_eq s v hoct]
    by_cases h0 : v = 0
    · have ha : s.altText = [] := by_contra fun ha => hz ⟨h0, ha⟩
      simp [h0, ha]
    · simp [h0]

/-- Without a precision only a zero with `#` and right-hand zeros go wrong. -/
theorem layout_free (hg : s.prec.given = false) (hp : s.prec.value = none) (v : Int)
    (hz : ¬ (v = 0 ∧ s.altText ≠ [])) :
    s.text (decide (v < 0)) v.natAbs = s.c99 v ↔
      ¬ (s.left = true ∧ padZero s.flags = true ∧
        s.numBefore v + s.numDigits v < s.width.value) := by
  have hq : (s.signText (decide (v < 0)) ++ s.altText).length = s.numBefore v := by
    unfold Spec.numBefore
    rw [List.length_append]
    by_cases h0 : v = 0
    · have ha : s.altText = [] := by_contra fun ha => hz ⟨h0, ha⟩
      simp [h0, ha]
    · rw [if_neg h0]
  rw [c99_none hp v hz, text_free hg, hq, numDigits_eq]
  cases hl : s.left
  · have hf : s.fill = s.pad := by simp [Spec.fill, Spec.pad, hl, hp]
    simp [hf]
  · have hf : s.fill = ' ' := by simp [Spec.fill, hl]
    rw [hf, arrange_blank_iff (pad_ok s), pad_blank]
    simp only [true_and, not_and]
    cases padZero s.flags <;> simp [Nat.sub_eq_zero_iff_le]

theorem altText_cases (s : Spec) : s.altText = [] ∨ s.altText = ['0'] ∨
    (s.conv.signed = false ∧ s.conv ≠ .o ∧ ∃ x, (x = 'x' ∨ x = 'X') ∧ s.altText = ['0', x]) := by
  unfold Spec.altText
  cases s.alt <;> cases s.conv <;> simp [altChars, Conv.signed]

theorem mem_arrange {left : Bool} {c x : Char} {q : Nat} {a d : List Char}
    (hx : x ≠ c ∧ x ≠ ' ' ∧ x ≠ '0') : x ∈ arrange left c q a d ↔ x ∈ a ∨ x ∈ d := by
  unfold arrange
  split
  · simp [hx.1]
  · split <;> simp [hx.2.1, hx.2.2]

/-- `%#x` of zero has a prefix, `%#o` of zero a digit too many. -/
theorem layout_free_zero (hg : s.prec.given = false) (hp : s.prec.value = none)
    (ha : s.altText ≠ []) : s.text false 0 = s.c99 0 ↔
      s.conv = .o ∧ s.left = false ∧ padZero s.flags = true ∧ 2 ≤ s.width.value := by
  have hd : s.digits 0 = ['0'] := by
    rw [digits_none hp]
    simp [numeral]
  have hn : numeral s.conv.base s.conv.upper 0 = ['0'] := by simp [numeral]
  rcases altText_cases s with h | hoct | ⟨hs, hno, x, hx, hax⟩
  · exact absurd h ha
  · obtain ⟨hbef, hsg⟩ := before_oct hoct 0 false
    obtain ⟨-, ho⟩ := (oct_iff s).mp hoct
    rw [text_free hg, c99_arrange, hbef, hd, hn, hsg, hoct]
    simp only [ho, true_and, List.nil_append, List.length_nil, List.length_singleton]
    constructor
    · intro h
      have hl := congrArg List.length h
      have hv := congrArg visible h
      rw [length_arrange, length_arrange] at hl
      rw [visible_arrange (pad_ok s), visible_arrange (fill_ok s)] at hv
      simp only [List.length_nil, List.length_singleton] at hl
      have hv0 : visible ['0'] = 1 := rfl
      have hvn : visible [] = 0 := rfl
      by_cases hf : s.fill = '0'
      · unfold Spec.fill at hf
        split at hf
        · rename_i hc
          exact ⟨hc.1, hc.2.1, by omega⟩
        · exact absurd hf (by decide)
      · rw [hv0, hvn, if_neg hf] at hv
        omega
    · rintro ⟨hl, hz, hw⟩
      have hf : s.fill = '0' := by simp [Spec.fill, hl, hz, hp]
      have hpd : s.pad = '0' := (pad_zero s).mpr hz
      rw [hf, hpd, hl, arrange_shift (.inr rfl)]
      unfold arrange
      obtain ⟨k, hk⟩ : ∃ k, s.width.value = k + 2 := ⟨s.width.value - 2, by omega⟩
      simp [hk, List.replicate_succ, zeros_cons]
  · refine iff_of_false (fun h => ?_) (fun h => hno h.1)
    have hne : x ≠ ' ' ∧ x ≠ '0' := by rcases hx with rfl | rfl <;> decide
    have hpx : x ≠ s.pad := by
      rcases pad_ok s with h | h <;> rw [h]
      · exact hne.1
      · exact hne.2
    have hfx : x ≠ s.fill := by
      rcases fill_ok s with h | h <;> rw [h]
      · exact hne.1
      · exact hne.2
    have hmem : x ∈ s.c99 0 := by
      rw [← h, text_free hg, mem_arrange ⟨hpx, hne⟩, hax]
      simp
    rw [c99_arrange, mem_arrange ⟨hfx, hne⟩, hd, before_eq s 0 (by simp [hax])] at hmem
    simp [Spec.signText, hs, hne.2] at hmem

theorem layout_zero {p : Nat} (hg : s.prec.given = true) (hp : s.prec.value = some p)
    (hr : s.prec.read = p) : s.text false 0 = s.c99 0 ↔
      if s.altText = ['0'] ∧ p = 0 then s.width.value = 1 ∧ padZero s.flags = true
      else s.width.value ≤ s.numBefore 0 + p ∨ padZero s.flags = false := by
  have hf : s.fill = ' ' := by simp [Spec.fill, hp]
  have hn : s.numBefore 0 = (s.signText false).length := by simp [Spec.numBefore]
  rw [text_zero hg, c99_arrange, hf, digits_zero hp, hr, hn]
  by_cases hoct : s.altText = ['0']
  · obtain ⟨hbef, hsg⟩ := before_oct hoct 0 false
    rw [hbef, hsg]
    by_cases h0 : p = 0
    · rw [if_pos ⟨hoct, h0⟩, if_pos ⟨hoct, h0⟩, h0, List.replicate_zero]
      constructor
      · intro h
        have hl := congrArg List.length h
        have hv := congrArg visible h
        rw [length_arrange, length_arrange] at hl
        rw [visible_arrange (pad_ok s), visible_arrange (.inl rfl), if_neg (by decide : ¬ ' ' = '0'),
          show visible ['0'] = 1 from rfl, show visible [] = 0 from rfl] at hv
        simp only [List.length_nil, List.length_singleton] at hl
        by_cases hz : s.pad = '0'
        · rw [if_pos hz] at hv
          simp only [List.length_nil] at hv
          exact ⟨by omega, (pad_zero s).mp hz⟩
        · rw [if_neg hz] at hv
          omega
      · rintro ⟨hw, hz⟩
        rw [hw, (pad_zero s).mpr hz]
        cases s.left <;> rfl
    · rw [if_neg (fun h => h0 h.2), if_neg (fun h => h0 h.2), arrange_blank_iff (pad_ok s),
        pad_blank]
      simp [Nat.sub_eq_zero_iff_le]
  · rw [if_neg (fun h => hoct h.1), if_neg (fun h => hoct h.1), before_eq s 0 hoct]
    simp only [if_true, List.append_nil, show decide ((0 : Int) < 0) = false from rfl]
    rw [arrange_blank_iff (pad_ok s), pad_blank]
    simp [Nat.sub_eq_zero_iff_le]

theorem layout_some {p : Nat} (hg : s.prec.given = true) (hp : s.prec.value = some p)
    (hr : s.prec.read = p) {v : Int} (h0 : v ≠ 0) :
    s.text (decide (v < 0)) v.natAbs = s.c99 v ↔ (s.altText = ['0'] → p ≤ s.numDigits v) ∧
      (s.width.value ≤ s.numBefore v + p ∨ (s.numDigits v ≤ p ∧ padZero s.flags = false)) := by
  have hf : s.fill = ' ' := by simp [Spec.fill, hp]
  have hn : s.numBefore v = (s.signText (decide (v < 0)) ++ s.altText).length := by
    simp [Spec.numBefore, h0]
  rw [text_given hg _ (Int.natAbs_ne_zero.mpr h0), c99_arrange, hf, digits_some hp h0, hr, hn,
    numDigits_eq]
  by_cases hoct : s.altText = ['0']
  · obtain ⟨hbef, hsg⟩ := before_oct hoct v (decide (v < 0))
    rw [hbef, hsg, hoct, List.nil_append]
    by_cases hle : p ≤ s.numDigits v
    · rw [if_pos ⟨rfl, hle⟩, show p - s.numDigits v = 0 by omega, List.replicate_zero,
        List.nil_append, arrange_shift (pad_ok s), arrange_blank_iff (pad_ok s), pad_blank]
      simp only [List.length_cons, List.length_nil, numDigits_eq, forall_const, hle, true_and]
      cases padZero s.flags <;> simp <;> omega
    · rw [if_neg (fun h => hle h.2)]
      refine iff_of_false (fun h => ?_) (fun h => hle (h.1 rfl))
      -- one zero more than the precision asks for
      have hv := congrArg visible h
      rw [visible_arrange (pad_ok s), visible_arrange (.inl rfl), if_neg (by decide : ¬ ' ' = '0'),
        show visible ['0'] = 1 from rfl, show visible [] = 0 from rfl] at hv
      omega
  · rw [if_neg (fun h => hoct h.1), before_eq s v hoct, if_neg h0, arrange_blank_iff (pad_ok s),
      pad_blank]
    simp only [List.length_append, List.length_replicate, numDigits_eq, hoct, false_implies,
      true_and]
    cases padZero s.flags <;> simp <;> omega

theorem layout_some_iff {p : Nat} (hg : s.prec.given = true) (hp : s.prec.value = some p)
    (hr : s.prec.read = p) (v : Int) : s.text (decide (v < 0)) v.natAbs = s.c99 v ↔
      if v = 0 then
        if s.altText = ['0'] ∧ p = 0 then s.width.value = 1 ∧ padZero s.flags = true
        else s.width.value ≤ s.numBefore v + p ∨ padZero s.flags = false
      else
        (s.altText = ['0'] → p ≤ s.numDigits v) ∧
          (s.width.value ≤ s.numBefore v + p ∨ (s.numDigits v ≤ p ∧ padZero s.flags = false)) := by
  split
  · rename_i h0
    subst h0
    exact layout_zero hg hp hr
  · rename_i h0
    exact layout_some hg hp hr h0

theorem layout_none (hg : s.prec.given = true) (hp : s.prec.value = none)
    (hr : s.prec.read = 0) (v : Int) : s.text (decide (v < 0)) v.natAbs = s.c99 v ↔
      if v = 0 then padZero s.flags = true ∧
        if s.left then s.width.value = s.numBefore v + 1 else s.numBefore v < s.width.value
      else s.width.value ≤ s.numBefore v := by
  have hd := digits_none hp v
  have hlen := length_numeral_pos s.conv.base s.conv.upper v.natAbs
  by_cases h0 : v = 0
  · subst h0
    have hn : s.numBefore 0 = (s.signText false).length := by simp [Spec.numBefore]
    have hbef : s.before 0 = s.signText false := by
      by_cases hoct : s.altText = ['0']
      · rw [(before_oct hoct 0 false).1, (before_oct hoct 0 false).2]
      · simp [before_eq s 0 hoct]
    rw [if_pos rfl, Int.natAbs_zero, show decide ((0 : Int) < 0) = false from rfl, text_zero hg,
      c99_arrange, hd, hbef, hr, hn, List.replicate_zero]
    simp only [ne_eq, not_true_eq_false, and_false, if_false, Int.natAbs_zero, numeral, if_true,
      List.length_singleton, Nat.add_zero]
    generalize s.signText false = a
    constructor
    · intro h
      have hl := congrArg List.length h
      have hv := congrArg visible h
      rw [length_arrange, length_arrange] at hl
      rw [visible_arrange (pad_ok s), visible_arrange (fill_ok s),
        show visible ['0'] = 1 from rfl, show visible [] = 0 from rfl] at hv
      simp only [List.length_nil, List.length_singleton] at hl
      have hz : s.pad = '0' := by
        by_contra hz
        rw [if_neg hz] at hv
        omega
      refine ⟨(pad_zero s).mp hz, ?_⟩
      rw [if_pos hz] at hv
      split
      · rename_i hleft
        rw [show s.fill = ' ' by simp [Spec.fill, hleft], if_neg (by decide)] at hv
        omega
      · omega
    · rintro ⟨hz, hw⟩
      rw [(pad_zero s).mpr hz]
      split at hw
      · rename_i hleft
        rw [hw, hleft, show s.fill = ' ' by simp [Spec.fill, hleft]]
        simp [arrange]
      · rename_i hleft
        rw [Bool.not_eq_true] at hleft
        obtain ⟨k, hk⟩ : ∃ k, s.width.value = a.length + 1 + k := ⟨_, (Nat.add_sub_of_le hw).symm⟩
        rw [hleft, show s.fill = '0' by simp [Spec.fill, hleft, hz, hp]]
        simp [arrange, hk, Nat.add_assoc, Nat.add_comm 1 k, List.replicate_succ']
        omega
  · have hn : s.numBefore v = (s.signText (decide (v < 0)) ++ s.altText).length := by
      simp [Spec.numBefore, h0]
    rw [if_neg h0, text_given hg _ (Int.natAbs_ne_zero.mpr h0), c99_none hp v (fun h => h0 h.1),
      hr, Nat.zero_sub, List.replicate_zero, List.nil_append, Nat.add_zero, ← hn]
    constructor
    · intro h
      have hl := congrArg List.length h
      rw [length_arrange, length_arrange, numDigits_eq] at hl
      rw [numDigits_eq] at hlen
      omega
    · intro hw
      rw [Nat.sub_eq_zero_of_le hw, Nat.sub_eq_zero_of_le (by omega), arrange_zero, arrange_zero]

/-- **For the same number** the layouts agree exactly under `LayoutOk`. -/
theorem layout_iff (s : Spec) (v : Int) :
    s.text (decide (v < 0)) v.natAbs = s.c99 v ↔ s.LayoutOk v := by
  unfold Spec.LayoutOk
  cases hprec : s.prec with
  | none =>
    have hg : s.prec.given = false := by rw [hprec]; rfl
    have hp : s.prec.value = none := by rw [hprec]; rfl
    rw [show Prec.none.given = false from rfl]
    dsimp only
    split
    · rename_i hz
      rw [hz.1]
      exact layout_free_zero hg hp hz.2
    · rename_i hz
      exact layout_free hg hp v hz
  | digits ds =>
    have hp : s.prec.value = some (decimal ds) := by rw [hprec]; rfl
    have hr : s.prec.read = decimal ds := by rw [hprec]; rfl
    rw [show (Prec.digits ds).given = true from rfl,
      show (Prec.digits ds).value = some (decimal ds) from rfl]
    exact layout_some_iff (by rw [hprec]; rfl) hp hr v
  | star n =>
    have hg : s.prec.given = true := by rw [hprec]; rfl
    by_cases hn : n < 0
    · have hp : s.prec.value = none := by rw [hprec, Prec.value, if_pos hn]
      have hr : s.prec.read = 0 := by
        rw [hprec, Prec.read]
        omega
      rw [show (Prec.star n).given = true from rfl, show (Prec.star n).value = none from if_pos hn]
      exact layout_none hg hp hr v
    · have hp : s.prec.value = some n.toNat := by rw [hprec, Prec.value, if_neg hn]
      have hr : s.prec.read = n.toNat := by rw [hprec, Prec.read]
      rw [show (Prec.star n).given = true from rfl,
        show (Prec.star n).value = some n.toNat from if_neg hn]
      exact layout_some_iff hg hp hr v

end Dietlibc.Printf
