import Dietlibc.Printf.Layout

/-!
# Where the integer conversions conform to C99

`Spec.ValueKept` says when the number read is the argument. With `Spec.LayoutOk` it is necessary
and sufficient: the digits of a text give back the number it was made of, so a wrong number is
never made up for by its layout.
-/

namespace Dietlibc.Printf

open Lib

variable {s : Spec} {v : Int}

/-! ## Reading a text back -/

/-- The number whose digits in `base` are those of the text; other characters are skipped. -/
def readBack (base n : Nat) (l : List Char) : Nat :=
  l.foldl (fun n c => if digitVal c < base then n * base + digitVal c else n) n

theorem readBack_append (base n : Nat) (l l' : List Char) :
    readBack base n (l ++ l') = readBack base (readBack base n l) l' :=
  List.foldl_append

theorem readBack_zeros {base : Nat} (hb : 0 < base) (n k : Nat) :
    readBack base n (List.replicate k '0') = n * base ^ k := by
  induction k generalizing n with
  | zero => simp [readBack]
  | succ k ih =>
    rw [List.replicate_succ', readBack_append, ih]
    have h0 : digitVal '0' = 0 := by decide
    simp [readBack, h0, hb, Nat.pow_succ, Nat.mul_assoc]

theorem readBack_skip {base n : Nat} {l : List Char} (h : ∀ c ∈ l, base ≤ digitVal c) :
    readBack base n l = n := by
  induction l with
  | nil => rfl
  | cons c l ih =>
    have hc : ¬ digitVal c < base := Nat.not_lt.mpr (h c List.mem_cons_self)
    have hl := ih fun x hx => h x (List.mem_cons_of_mem _ hx)
    unfold readBack at *
    rw [List.foldl_cons, if_neg hc, hl]

theorem readBack_blanks {base : Nat} (hb : base ≤ 16) (n k : Nat) :
    readBack base n (List.replicate k ' ') = n := by
  apply readBack_skip
  intro c hc
  rw [List.eq_of_mem_replicate hc]
  exact le_trans hb (by decide)

theorem readBack_numeral {base : Nat} (hb : 1 < base) (hb' : base ≤ 16) (up : Bool) (n : Nat) :
    readBack base 0 (numeral base up n) = n := by
  unfold numeral
  split
  · rename_i h0
    have hd : digitVal '0' = 0 := by decide
    simp [readBack, hd, h0]
  · unfold readBack
    rw [List.foldl_reverse, List.foldr_map]
    have hdig : ∀ l : List Nat, (∀ d ∈ l, d < base) →
        l.foldr (fun x y => if digitVal (digitChar up x) < base then
          y * base + digitVal (digitChar up x) else y) 0 = Nat.ofDigits base l := by
      intro l hl
      induction l with
      | nil => rfl
      | cons d l ih =>
        have hd : d < base := hl d List.mem_cons_self
        have hv : digitVal (digitChar up d) = d := (digitChar_ne (by omega)).2.2.2.2
        rw [List.foldr_cons, ih fun x hx => hl x (List.mem_cons_of_mem _ hx), hv, if_pos hd,
          Nat.ofDigits_cons]
        ring
    rw [hdig _ fun d hd => Nat.digits_lt_base hb hd, Nat.ofDigits_digits]

/-- Padding zeros on the right make a larger number. -/
theorem readBack_arrange {base : Nat} (hb : 1 < base) (hb' : base ≤ 16) {left : Bool} {c : Char}
    (hc : c = ' ' ∨ c = '0') (q : Nat) {a d : List Char} (ha : readBack base 0 a = 0) :
    readBack base 0 (arrange left c q a d) =
      readBack base 0 d * base ^ if left = true ∧ c = '0' then q else 0 := by
  unfold arrange
  cases left
  · rcases hc with rfl | rfl
    · simp [readBack_append, readBack_blanks hb', ha]
    · simp [readBack_append, readBack_zeros (by omega : 0 < base), ha]
  · rcases hc with rfl | rfl
    · simp [readBack_append, readBack_blanks hb', ha]
    · simp [readBack_append, readBack_zeros (by omega : 0 < base), ha]

/-! ## The number read -/

/-- The number read is the argument: `#` also counts as an `h`, so it takes a type one smaller. -/
def Spec.ValueKept (s : Spec) (v : Int) : Prop :=
  s.alt = true → match s.len with
    | .none => v.natAbs < 2 ^ 16
    | .h => v.natAbs < 2 ^ 8
    | .l => if s.conv.signed then CInt.Fits 32 v else v < 2 ^ 32
    | .hh | .ll => True

theorem conv32_spec (v : Int) :
    (∃ j, v = CInt.conv 32 v + 4294967296 * j) ∧
      -2147483648 ≤ CInt.conv 32 v ∧ CInt.conv 32 v ≤ 2147483647 := by
  have hsum := Int.bmod_add_bdiv v (2 ^ 32)
  have hle := Int.le_bmod (x := v) (by decide : 0 < 2 ^ 32)
  have hlt := Int.bmod_lt (x := v) (by decide : 0 < 2 ^ 32)
  unfold CInt.conv
  refine ⟨⟨Int.bdiv v (2 ^ 32), ?_⟩, ?_, ?_⟩ <;> omega

theorem conv64_mod (x : Int) : CInt.conv 64 x % 2 ^ 64 = x % 2 ^ 64 := by
  have h : Int.bmod x (2 ^ 64) % ((2 ^ 64 : Nat) : Int) = x % ((2 ^ 64 : Nat) : Int) :=
    Int.bmod_emod
  exact_mod_cast h

/-- `long` and `long long` are read whole. -/
theorem readNumber_long {f : Flags} (hf : 0 < f.long) (b : Bool)
    (hv : if b then CInt.Fits 64 v else 0 ≤ v ∧ v < 2 ^ 64) :
    readNumber f b (v % 2 ^ 64).toNat = (decide (v < 0), v.natAbs) := by
  have h1 : ¬ f.long < 0 := by omega
  have h2 : ¬ f.long < -1 := by omega
  unfold readNumber
  simp only [if_pos hf, conv_word (by decide : 64 ≤ 64), h1, h2, if_false]
  cases b with
  | true =>
    have hv : CInt.Fits 64 v := hv
    rw [CInt.conv_of_fits (by decide) hv]
    rw [CInt.fits64] at hv
    by_cases hn : v < 0
    · have hm : CInt.conv 64 (-v) % 2 ^ 64 = -v := by
        rw [conv64_mod]
        omega
      simp only [hn, decide_true, Bool.and_true, if_true, hm]
      congr 1
      omega
    · simp only [hn, decide_false, Bool.and_false, Bool.false_eq_true, if_false]
      congr 1
      omega
  | false =>
    have hv : 0 ≤ v ∧ v < 2 ^ 64 := hv
    have hm : CInt.conv 64 v % 2 ^ 64 = v := by
      rw [conv64_mod]
      omega
    have hn : ¬ v < 0 := by omega
    simp only [Bool.false_and, Bool.false_eq_true, if_false, hm, hn, decide_false]
    congr 1
    omega

/-- The bits of a shorter number that are printed. -/
def shortBits (long : Int) : Nat := if long < -1 then 8 else if long < 0 then 16 else 32

/-- The reductions of a number that is not negative. -/
theorem short_mod (long n : Int) (h0 : 0 ≤ n) (hn : n < 4294967296) :
    ((if long < -1 then (if long < 0 then n % 2 ^ 16 else n) % 2 ^ 8
      else if long < 0 then n % 2 ^ 16 else n) % 2 ^ 64).toNat =
      n.natAbs % 2 ^ shortBits long := by
  unfold shortBits
  split
  · rw [if_pos (by omega)]
    omega
  · split <;> omega

theorem readNumber_short {f : Flags} (hf : f.long ≤ 0) (v : Int) :
    readNumber f true (v % 2 ^ 64).toNat =
      (decide (CInt.conv 32 v < 0), (CInt.conv 32 v).natAbs % 2 ^ shortBits f.long) := by
  have h1 : ¬ 0 < f.long := by omega
  obtain ⟨-, h2, h3⟩ := conv32_spec v
  unfold readNumber
  simp only [h1, if_false, conv_word (by decide : 32 ≤ 64), Bool.true_and, if_true]
  generalize CInt.conv 32 v = x at *
  have hneg : CInt.conv 64 (-x) = -x :=
    CInt.conv_of_fits (by decide) (CInt.fits64.mpr (by omega))
  rw [hneg]
  by_cases hx : x < 0
  · simp only [hx, decide_true, if_true]
    rw [short_mod _ _ (by omega) (by omega), Int.natAbs_neg]
  · simp only [hx, decide_false, Bool.false_eq_true, if_false]
    rw [short_mod _ _ (by omega) (by omega)]

theorem readNumber_short_unsigned {f : Flags} (hf : f.long ≤ 0) (hv : 0 ≤ v) :
    readNumber f false (v % 2 ^ 64).toNat = (false, v.natAbs % 2 ^ shortBits f.long) := by
  have h1 : ¬ 0 < f.long := by omega
  obtain ⟨⟨j, hj⟩, h2, h3⟩ := conv32_spec v
  unfold readNumber
  simp only [h1, if_false, conv_word (by decide : 32 ≤ 64), Bool.false_and, Bool.false_eq_true]
  rw [short_mod _ _ (by omega) (by omega)]
  have hmod : CInt.conv 32 v % 2 ^ 32 = v % 2 ^ 32 := by omega
  rw [hmod]
  unfold shortBits
  congr 1
  split
  · omega
  · split <;> omega

theorem hasType_wide (hv : s.HasType v) :
    if s.conv.signed then CInt.Fits 64 v else 0 ≤ v ∧ v < 2 ^ 64 := by
  unfold Spec.HasType at hv
  cases hs : s.conv.signed <;> rw [hs] at hv
  · obtain ⟨h0, h1⟩ : 0 ≤ v ∧ v < 2 ^ s.len.bits := hv
    refine (⟨h0, lt_of_lt_of_le h1 ?_⟩ : 0 ≤ v ∧ v < 2 ^ 64)
    cases s.len <;> decide
  · have hv : CInt.Fits s.len.bits v := hv
    show CInt.Fits 64 v
    rw [CInt.fits64]
    unfold CInt.Fits at hv
    cases hn : s.len <;> rw [hn] at hv <;> simp [Len.bits] at hv <;> omega

/-- The three ways a number is read. -/
theorem seen_cases (hv : s.HasType v) :
    (0 < s.read.long ∧ s.seen v = (decide (v < 0), v.natAbs)) ∨
    (s.read.long ≤ 0 ∧ s.conv.signed = false ∧ 0 ≤ v ∧
      s.seen v = (false, v.natAbs % 2 ^ shortBits s.read.long)) ∨
    (s.read.long ≤ 0 ∧ s.conv.signed = true ∧ s.seen v =
      (decide (CInt.conv 32 v < 0), (CInt.conv 32 v).natAbs % 2 ^ shortBits s.read.long)) := by
  unfold Spec.seen
  have hw := hasType_wide hv
  rcases lt_or_ge 0 s.read.long with hl | hl
  · exact .inl ⟨hl, readNumber_long hl _ hw⟩
  · right
    cases hs : s.conv.signed <;> rw [hs] at hw
    · exact .inl ⟨hl, rfl, hw.1, readNumber_short_unsigned hl hw.1⟩
    · exact .inr ⟨hl, rfl, readNumber_short hl v⟩

/-- The number read is the argument up to a power of two, if its sign is right. -/
theorem seen_mod (hv : s.HasType v) : ∃ m, (s.seen v).2 < 2 ^ m ∧
    ((s.seen v).1 = decide (v < 0) → (s.seen v).2 ≡ v.natAbs [MOD 2 ^ m]) := by
  rcases seen_cases hv with ⟨-, h⟩ | ⟨-, -, -, h⟩ | ⟨-, -, h⟩
  · exact ⟨64, readNumber_lt _ _ _, fun _ => by rw [h]⟩
  · refine ⟨shortBits s.read.long, ?_, fun _ => ?_⟩ <;> rw [h]
    · exact Nat.mod_lt _ (Nat.pos_of_ne_zero (by simp))
    · exact Nat.mod_modEq _ _
  · refine ⟨shortBits s.read.long, ?_, fun hneg => ?_⟩ <;> rw [h] at *
    · exact Nat.mod_lt _ (Nat.pos_of_ne_zero (by simp))
    · refine (Nat.mod_modEq _ _).trans ?_
      have hsign : CInt.conv 32 v < 0 ↔ v < 0 := by simpa using hneg
      obtain ⟨⟨j, hj⟩, h1, h2⟩ := conv32_spec v
      generalize CInt.conv 32 v = x at *
      have hdvd : 2 ^ shortBits s.read.long ∣ 2 ^ 32 := by
        apply pow_dvd_pow
        unfold shortBits
        split
        · decide
        · split <;> decide
      have h32 : x.natAbs ≡ v.natAbs [MOD 2 ^ 32] := by
        unfold Nat.ModEq
        omega
      exact h32.of_dvd hdvd

theorem seen_iff (hv : s.HasType v) :
    s.seen v = (decide (v < 0), v.natAbs) ↔ s.ValueKept v := by
  have hcases := seen_cases hv
  unfold Spec.ValueKept Spec.HasType at *
  have hlong : s.read.long = (if s.alt then -1 else 0) + s.len.num := rfl
  generalize s.read.long = long at *
  rcases hcases with ⟨hl, h⟩ | ⟨hl, hs, h0, h⟩ | ⟨hl, hs, h⟩
  · refine iff_of_true h ?_
    cases ha : s.alt <;> cases hn : s.len <;> rw [ha, hn] at hlong <;> simp [Len.num] at * <;> omega
  · rw [h]
    rw [hs] at hv ⊢
    obtain ⟨-, h1⟩ : 0 ≤ v ∧ v < 2 ^ s.len.bits := hv
    cases ha : s.alt <;> cases hn : s.len <;> rw [ha, hn] at hlong <;> rw [hn] at h1 <;>
      simp [Len.num, Len.bits] at * <;> simp [hlong, shortBits] <;> omega
  · rw [h]
    rw [hs] at hv ⊢
    have hv : CInt.Fits s.len.bits v := hv
    obtain ⟨⟨j, hj⟩, h1, h2⟩ := conv32_spec v
    have hc := CInt.fits32 (x := v)
    generalize CInt.conv 32 v = x at *
    unfold CInt.Fits at hv
    cases ha : s.alt <;> cases hn : s.len <;> rw [ha, hn] at hlong <;> rw [hn] at hv <;>
      simp [Len.num, Len.bits] at * <;> simp [hlong, shortBits, hc] <;> omega

/-! ## A text gives its number back -/

/-- Signs and prefixes read as 0. -/
theorem readBack_before {base : Nat} (hb : base ≤ 16) {a : List Char}
    (ha : ∀ c ∈ a, c = '0' ∨ c = ' ' ∨ c = '+' ∨ c = '-' ∨ c = 'x' ∨ c = 'X') :
    readBack base 0 a = 0 := by
  induction a with
  | nil => rfl
  | cons c a ih =>
    have hl := ih fun x hx => ha x (List.mem_cons_of_mem _ hx)
    have hc : digitVal c = 0 ∨ base ≤ digitVal c := by
      rcases ha c List.mem_cons_self with rfl | rfl | rfl | rfl | rfl | rfl
      · exact .inl (by decide)
      all_goals exact .inr (le_trans hb (by decide))
    have hstep : (if digitVal c < base then 0 * base + digitVal c else 0) = 0 := by
      split <;> omega
    unfold readBack at *
    rw [List.foldl_cons, hstep, hl]

theorem mem_signText {b : Bool} {c : Char} (hc : c ∈ s.signText b) :
    c = ' ' ∨ c = '+' ∨ c = '-' := by
  unfold Spec.signText at hc
  split at hc
  · split at hc
    · simp_all
    · split at hc
      · simp_all
      · split at hc <;> simp_all
  · cases hc

theorem mem_altText {c : Char} (hc : c ∈ s.altText) : c = '0' ∨ c = 'x' ∨ c = 'X' := by
  rcases altText_cases s with h | h | ⟨-, -, x, hx, h⟩ <;> rw [h] at hc <;> simp at hc
  · exact .inl hc
  · rcases hc with rfl | rfl
    · exact .inl rfl
    · exact .inr hx

theorem readBack_text (s : Spec) (b : Bool) (m : Nat) :
    ∃ k, readBack s.conv.base 0 (s.text b m) = m * s.conv.base ^ k := by
  obtain ⟨hb, hb'⟩ := s.conv.base_ok
  have hsg : ∀ l : List Char, (∀ c ∈ l, c ∈ s.altText) →
      readBack s.conv.base 0 (s.signText b ++ l) = 0 := by
    intro l hl
    apply readBack_before hb'
    intro c hc
    rcases List.mem_append.mp hc with hc | hc
    · rcases mem_signText hc with h | h | h <;> simp [h]
    · rcases mem_altText (hl c hc) with h | h | h <;> simp [h]
  have hd : ∀ k (l : List Char), readBack s.conv.base 0 l = m →
      readBack s.conv.base 0 (List.replicate k '0' ++ l) = m := by
    intro k l hl
    rw [readBack_append, readBack_zeros (by omega), Nat.zero_mul, hl]
  unfold Spec.text
  dsimp only
  rw [← Spec.pad, readBack_arrange hb hb' (pad_ok s) _ (hsg _ ?_), hd]
  · exact ⟨_, rfl⟩
  · split
    · rename_i h
      rw [h.2]
      rfl
    · exact readBack_numeral hb hb' _ m
  · intro c hc
    split at hc
    · cases hc
    · exact hc

theorem readBack_c99 (s : Spec) (v : Int) : readBack s.conv.base 0 (s.c99 v) = v.natAbs := by
  obtain ⟨hb, hb'⟩ := s.conv.base_ok
  have hbef : readBack s.conv.base 0 (s.before v) = 0 := by
    apply readBack_before hb'
    intro c hc
    by_cases hoct : s.altText = ['0']
    · rw [(before_oct hoct v false).1] at hc
      cases hc
    · rw [before_eq s v hoct] at hc
      rcases List.mem_append.mp hc with hc | hc
      · rcases mem_signText hc with h | h | h <;> simp [h]
      · split at hc
        · cases hc
        · rcases mem_altText hc with h | h | h <;> simp [h]
  have hdig : readBack s.conv.base 0 (s.digits v) = v.natAbs := by
    have hnum : readBack s.conv.base 0 (if v = 0 ∧ s.prec.value = some 0 then []
        else numeral s.conv.base s.conv.upper v.natAbs) = v.natAbs := by
      split
      · rename_i h
        rw [h.1]
        rfl
      · exact readBack_numeral hb hb' _ _
    unfold Spec.digits
    dsimp only
    generalize (if v = 0 ∧ s.prec.value = some 0 then []
      else numeral s.conv.base s.conv.upper v.natAbs) = ds at *
    have hz : readBack s.conv.base 0
        (List.replicate (s.prec.value.getD 1 - ds.length) '0' ++ ds) = v.natAbs := by
      rw [readBack_append, readBack_zeros (by omega), Nat.zero_mul, hnum]
    split
    · rw [← List.singleton_append, readBack_append, show ['0'] = List.replicate 1 '0' from rfl,
        readBack_zeros (by omega), Nat.zero_mul, hz]
    · exact hz
  have hfill : ¬ (s.left = true ∧ s.fill = '0') := by
    rintro ⟨hl, hf⟩
    simp [Spec.fill, hl] at hf
  rw [c99_arrange, readBack_arrange hb hb' (fill_ok s) _ hbef, hdig, if_neg hfill, Nat.pow_zero,
    Nat.mul_one]

/-! ## Conformance -/

theorem minus_numeral (s : Spec) (k m : Nat) :
    '-' ∉ List.replicate k '0' ++ numeral s.conv.base s.conv.upper m := by
  obtain ⟨hb, hb'⟩ := s.conv.base_ok
  intro h
  rcases List.mem_append.mp h with h | h
  · exact absurd (List.eq_of_mem_replicate h) (by decide)
  · obtain ⟨d, hd, he⟩ := mem_numeral hb h
    exact (digitChar_ne (by omega)).2.1 he.symm

theorem minus_signText (s : Spec) (b : Bool) :
    '-' ∈ s.signText b ↔ s.conv.signed = true ∧ b = true := by
  unfold Spec.signText
  cases s.conv.signed
  · simp
  · cases b
    · by_cases h1 : Flag.plus ∈ s.flags <;> by_cases h2 : Flag.space ∈ s.flags <;> simp [h1, h2]
    · simp

theorem minus_altText (s : Spec) : '-' ∉ s.altText := by
  intro h
  rcases mem_altText h with h | h | h <;> exact absurd h (by decide)

theorem minus_arrange {left : Bool} {c : Char} (hc : c = ' ' ∨ c = '0') {q : Nat}
    {a d : List Char} : '-' ∈ arrange left c q a d ↔ '-' ∈ a ∨ '-' ∈ d := by
  apply mem_arrange
  rcases hc with rfl | rfl <;> decide

theorem minus_text (s : Spec) (b : Bool) (m : Nat) :
    '-' ∈ s.text b m ↔ s.conv.signed = true ∧ b = true := by
  have ha := minus_altText s
  cases hg : s.prec.given
  · have hd := minus_numeral s 0 m
    rw [List.replicate_zero, List.nil_append] at hd
    rw [text_free hg, minus_arrange (pad_ok s), List.mem_append, minus_signText]
    simp [ha, hd]
  · by_cases hm : m = 0
    · rw [hm, text_zero hg, minus_arrange (pad_ok s), minus_signText]
      simp
    · have hd := minus_numeral s
        (s.prec.read - (numeral s.conv.base s.conv.upper m).length) m
      rw [text_given hg b hm, minus_arrange (pad_ok s), List.mem_append, minus_signText]
      simp [ha, hd]

theorem minus_c99 (s : Spec) (v : Int) : '-' ∈ s.c99 v ↔ s.conv.signed = true ∧ v < 0 := by
  have hd : '-' ∉ s.digits v := by
    cases hp : s.prec.value with
    | none =>
      have h := minus_numeral s 0 v.natAbs
      rw [digits_none hp]
      split <;> simpa using h
    | some p =>
      by_cases h0 : v = 0
      · rw [h0, digits_zero hp]
        split <;> simp
      · have h := minus_numeral s (p - s.numDigits v) v.natAbs
        rw [digits_some hp h0]
        split <;> simpa using h
  rw [c99_arrange, minus_arrange (fill_ok s)]
  by_cases hoct : s.altText = ['0']
  · have hs := minus_signText s (decide (v < 0))
    rw [(before_oct hoct v (decide (v < 0))).2] at hs
    rw [(before_oct hoct v false).1]
    simpa [hd] using hs
  · rw [before_eq s v hoct, List.mem_append, minus_signText]
    have ha := minus_altText s
    split <;> simp [ha, hd]

/-- A power of an even number is odd less one, so zeros on the right cannot make up for bits
that were lost. -/
theorem eq_of_mul_pow {base m mag n k : Nat} (h0 : base ≠ 0) (hb : 2 ∣ base) (hm : mag < 2 ^ m)
    (hmod : mag ≡ n [MOD 2 ^ m]) (h : mag * base ^ k = n) : mag = n := by
  cases k with
  | zero => simpa using h
  | succ k =>
    have hpos : 1 ≤ base ^ (k + 1) := Nat.pos_of_ne_zero (pow_ne_zero _ h0)
    have heven : 2 ∣ base ^ (k + 1) := dvd_pow hb (by omega)
    have hcop : Nat.Coprime (2 ^ m) (base ^ (k + 1) - 1) := by
      apply Nat.Coprime.pow_left
      rw [Nat.coprime_two_left, Nat.odd_iff]
      omega
    have hdvd : 2 ^ m ∣ mag * (base ^ (k + 1) - 1) := by
      rw [Nat.mul_sub, Nat.mul_one, h]
      exact (Nat.modEq_iff_dvd' (by rw [← h]; exact Nat.le_mul_of_pos_right _ hpos)).mp hmod
    have hz : mag = 0 := Nat.eq_zero_of_dvd_of_lt (hcop.dvd_of_dvd_mul_right hdvd) hm
    rw [← h, hz, Nat.zero_mul]

theorem kept_of_eq (hv : s.HasType v) (h : s.text (s.seen v).1 (s.seen v).2 = s.c99 v) :
    s.seen v = (decide (v < 0), v.natAbs) := by
  obtain ⟨m, hlt, hmod⟩ := seen_mod hv
  obtain ⟨k, hk⟩ := readBack_text s (s.seen v).1 (s.seen v).2
  have hneg : (s.seen v).1 = decide (v < 0) := by
    cases hs : s.conv.signed
    · have h0 : ¬ v < 0 := by
        unfold Spec.HasType at hv
        rw [hs] at hv
        exact Int.not_lt.mpr hv.1
      rw [decide_eq_false h0, ← Bool.not_eq_true]
      intro hn
      rw [readNumber_neg hn] at hs
      cases hs
    · have hm := minus_text s (s.seen v).1 (s.seen v).2
      rw [h, minus_c99] at hm
      rw [Bool.eq_iff_iff, decide_eq_true_iff]
      exact ⟨fun hn => (hm.mpr ⟨hs, hn⟩).2, fun hn => (hm.mp ⟨hs, hn⟩).2⟩
  rw [h, readBack_c99] at hk
  have hb0 : s.conv.base ≠ 0 := by cases s.conv <;> decide
  have hbase : 2 ∣ s.conv.base := by cases s.conv <;> decide
  exact Prod.ext hneg (eq_of_mul_pow hb0 hbase hlt (hmod hneg) hk.symm)

end Dietlibc.Printf
