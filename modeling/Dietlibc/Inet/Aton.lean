import Dietlibc.Inet.Numbers
import Dietlibc.Number.Chars
import Mathlib.Data.List.TakeWhile

/-!
# What `inet_aton` accepts

The parts of the text between its dots are read by `strtoul` with base 0, any number of them.
`Lenient` and `Refused` say which texts are accepted and which are not, `orParts` what is stored.
The classic address with one to four literals (`Classic`) is accepted with its classic value.
-/

namespace Dietlibc.Inet

open Number

variable {p r t : List UInt8} {ps : List (List UInt8)} {c : UInt8} {i ip j : Nat}

/-! ## Parts -/

/-- `'.'` -/
def dot : UInt8 := 46

/-- `strtoul` reads the part to its end. Of an empty part nothing is read. -/
def Readable (p : List UInt8) : Prop :=
  p = [] ∨ (subject p 0).digits ≠ [] ∧ (subject p 0).rest = []

instance : DecidablePred Readable := fun p =>
  inferInstanceAs (Decidable (p = [] ∨ (subject p 0).digits ≠ [] ∧ (subject p 0).rest = []))

/-- What `strtoul` returns for a part. -/
def partValue (p : List UInt8) : Nat := (strtoul p 0 0).value

/-- The parts, shifted by `i`, `i - 8` and so on down to 0, and the last part, or-ed together. -/
def orParts : Nat → List (List UInt8) → Nat
  | _, [] => 0
  | _, [p] => partValue p % 2 ^ 32
  | i, p :: ps => (partValue p <<< i) % 2 ^ 32 ||| orParts (i - 8) ps

/-- All parts are read, and those in front of the last one are at most 255. -/
structure Lenient (ps : List (List UInt8)) : Prop where
  readable : ∀ p ∈ ps, Readable p
  leading : ∀ p ∈ ps.dropLast, partValue p ≤ 255

/-- A part is not read to its end, or one in front of the last is a `long` above 255. -/
def Refused (ps : List (List UInt8)) : Prop :=
  (∃ p ∈ ps, ¬ Readable p) ∨ ∃ p ∈ ps.dropLast, 255 < partValue p ∧ partValue p < 2 ^ 63

/-! ## The classic address -/

/-- An integer literal: decimal, octal behind a `0`, or hexadecimal behind `0x`. -/
def IsLiteral (p : List UInt8) : Prop :=
  (basePrefix 0 p).2 ≠ [] ∧ ∀ c ∈ (basePrefix 0 p).2, IsDigit (basePrefix 0 p).1 c

instance : DecidablePred IsLiteral := fun p => inferInstanceAs
  (Decidable ((basePrefix 0 p).2 ≠ [] ∧ ∀ c ∈ (basePrefix 0 p).2, IsDigit (basePrefix 0 p).1 c))

def literalValue (p : List UInt8) : Nat := valueFrom (basePrefix 0 p).1 0 (basePrefix 0 p).2

/-- One to four literals, of which the last fills what the others leave of the address. -/
structure Classic (ps : List (List UInt8)) : Prop where
  count : ps.length ≤ 4
  literal : ∀ p ∈ ps, IsLiteral p
  leading : ∀ p ∈ ps.dropLast, literalValue p ≤ 255
  last : ∀ p ∈ ps.getLast?, literalValue p < 256 ^ (5 - ps.length)

/-- The parts, shifted by `i`, `i - 8` and so on, and the last part, added up. -/
def sumParts : Nat → List (List UInt8) → Nat
  | _, [] => 0
  | _, [p] => literalValue p
  | i, p :: ps => literalValue p * 2 ^ i + sumParts (i - 8) ps

/-- `inet_aton` accepts the text exactly if it is a classic address, and computes its value. -/
def ComputesClassic (cp : List UInt8) : Prop :=
  ((inetAton (chars cp)).isSome ↔ Classic (cp.splitOn dot)) ∧
    (Classic (cp.splitOn dot) →
      inetAton (chars cp) = some (htonl (sumParts 24 (cp.splitOn dot))))

/-! ## A number in front of a dot -/

theorem takeWhile_stop {f : UInt8 → Bool} (h : f c = false) (p t : List UInt8) :
    (p ++ c :: t).takeWhile f = p.takeWhile f := by
  induction p with
  | nil => exact List.takeWhile_cons_of_neg (by simp [h])
  | cons d p ih =>
    rw [List.cons_append, List.takeWhile_cons, List.takeWhile_cons, ih]

theorem dropWhile_stop {f : UInt8 → Bool} (h : f c = false) (p t : List UInt8) :
    (p ++ c :: t).dropWhile f = p.dropWhile f ++ c :: t := by
  induction p with
  | nil => exact List.dropWhile_cons_of_neg (by simp [h])
  | cons d p ih =>
    rw [List.cons_append, List.dropWhile_cons, List.dropWhile_cons, ih]
    split <;> rfl

theorem signPrefix_stop (p t : List UInt8) :
    signPrefix (p ++ dot :: t) = ((signPrefix p).1, (signPrefix p).2 ++ dot :: t) := by
  cases p with
  | nil => rfl
  | cons c p =>
    by_cases h45 : c = 45
    · subst h45
      rfl
    by_cases h43 : c = 43
    · subst h43
      rfl
    rw [List.cons_append, signPrefix_none h45 h43, signPrefix_none h45 h43]
    rfl

theorem basePrefix_stop (p t : List UInt8) :
    basePrefix 0 (p ++ dot :: t) = ((basePrefix 0 p).1, (basePrefix 0 p).2 ++ dot :: t) := by
  match p with
  | [] => rfl
  | [c] =>
    by_cases h : c = 48
    · subst h
      cases t with
      | nil => rfl
      | cons d t => rfl
    · rw [basePrefix_digit (by simpa [peek] using h), basePrefix_digit (by simpa [peek] using h)]
  | [c, x] =>
    by_cases h : c = 48
    · subst h
      have hx : ¬((0 = 0 ∨ 0 = 16) ∧ (x = 120 ∨ x = 88) ∧ IsDigit 16 dot = true) :=
        fun h => absurd h.2.2 (by decide)
      exact if_neg hx
    · rw [basePrefix_digit (by simpa [peek] using h), basePrefix_digit (by simpa [peek] using h)]
  | c :: x :: d :: p =>
    by_cases h : c = 48
    · subst h
      have hlong : ∀ s, basePrefix 0 (48 :: x :: d :: s) =
          if (0 = 0 ∨ 0 = 16) ∧ (x = 120 ∨ x = 88) ∧ IsDigit 16 d then (16, d :: s)
          else (8, 48 :: x :: d :: s) := fun s => rfl
      rw [List.cons_append, List.cons_append, List.cons_append, hlong, hlong]
      split <;> rfl
    · rw [basePrefix_digit (by simpa [peek] using h), basePrefix_digit (by simpa [peek] using h)]

theorem isDigit_dot {b : Nat} : IsDigit b dot = false := rfl

/-- The number of a part does not depend on what follows behind the dot. -/
theorem subject_stop (p t : List UInt8) : subject (p ++ dot :: t) 0 =
    { subject p 0 with rest := (subject p 0).rest ++ dot :: t } := by
  unfold subject
  rw [dropWhile_stop (by decide), signPrefix_stop]
  dsimp only
  rw [basePrefix_stop]
  dsimp only
  rw [takeWhile_stop isDigit_dot, dropWhile_stop isDigit_dot]

theorem mem_of_mem_rest (h : c ∈ (subject p 0).rest) : c ∈ p := by
  have hsign : ∀ s : List UInt8, c ∈ (signPrefix s).2 → c ∈ s := by
    intro s hs
    unfold signPrefix at hs
    split at hs
    · exact List.mem_cons_of_mem _ hs
    · exact List.mem_cons_of_mem _ hs
    · exact hs
  have hbase : ∀ s : List UInt8, c ∈ (basePrefix 0 s).2 → c ∈ s := by
    intro s hs
    unfold basePrefix at hs
    split at hs
    · split at hs
      · exact List.mem_cons_of_mem _ (List.mem_cons_of_mem _ hs)
      · exact hs
    · exact hs
    · exact hs
  have hmem := (List.dropWhile_sublist _).subset h
  exact (List.dropWhile_sublist _).subset (hsign _ (hbase _ hmem))

/-! ## The loop -/

/-- What follows a part: nothing, or a dot. -/
def Ends (r : List UInt8) : Prop := r = [] ∨ ∃ t, r = dot :: t

/-- `strtoul` on a part: its value, and what it leaves of the part, which is nothing exactly if the
part is readable. -/
theorem strtoul_part (hp : dot ∉ p) (hr : Ends r) :
    (Lib.strtoul (chars (p ++ r)) 0).1 = partValue p ∧
      ∃ u, (Lib.strtoul (chars (p ++ r)) 0).2.1 = chars (u ++ r) ∧ (u = [] ↔ Readable p) ∧
        dot ∉ u := by
  have h0 : BaseOk 0 := .inl rfl
  have hsubject : subject (p ++ r) 0 =
      { subject p 0 with rest := (subject p 0).rest ++ r } := by
    rcases hr with rfl | ⟨t, rfl⟩
    · rw [List.append_nil, List.append_nil]
    · exact subject_stop p t
  obtain ⟨hval, hrest⟩ := strtoul_chars h0 (p ++ r)
  rw [strtoul_eq h0] at hval
  rw [hsubject] at hval hrest
  rw [partValue, strtoul_eq h0]
  dsimp only at hrest
  by_cases hd : (subject p 0).digits = []
  · rw [if_pos hd] at hval hrest ⊢
    refine ⟨hval, p, hrest, ⟨.inl, ?_⟩, hp⟩
    rintro (h | ⟨h, -⟩)
    · exact h
    · exact absurd hd h
  · rw [if_neg hd] at hval hrest ⊢
    refine ⟨hval.trans ?_, _, hrest, ⟨fun h => .inr ⟨hd, h⟩, ?_⟩, fun h => hp (mem_of_mem_rest h)⟩
    · unfold ulongOf Subject.value
      dsimp only
      split <;> rfl
    · rintro (h | ⟨-, h⟩)
      · rw [h] at hd
        exact absurd rfl hd
      · exact h

/-- The last part. -/
theorem atonLoop_end (hp : dot ∉ p) (i ip : Nat) : atonLoop (chars p) i ip =
    if Readable p then some (ip ||| partValue p % 2 ^ 32) else none := by
  obtain ⟨hval, u, hrest, hread, hu⟩ := strtoul_part hp (.inl rfl)
  rw [List.append_nil, List.append_nil] at hrest
  rw [List.append_nil] at hval
  rw [atonLoop_eq, hval, hrest]
  cases u with
  | nil => rw [if_pos (hread.mp rfl)]; rfl
  | cons c u =>
    have hc : Char.ofNat c.toNat ≠ '.' := fun h =>
      hu (List.mem_cons.mpr (.inl ((char_eq 46 rfl).mp h).symm))
    exact (if_neg hc).trans (if_neg fun h => absurd (hread.mpr h) (List.cons_ne_nil c u)).symm

/-- A part with a dot behind it. -/
theorem atonLoop_part (hp : dot ∉ p) (t : List UInt8) (i ip : Nat) :
    atonLoop (chars (p ++ dot :: t)) i ip =
      if Readable p ∧ ¬(255 < partValue p ∧ partValue p < 2 ^ 63) then
        atonLoop (chars t) (i - 8) (ip ||| (partValue p <<< i) % 2 ^ 32)
      else none := by
  obtain ⟨hval, u, hrest, hread, hu⟩ := strtoul_part hp (.inr ⟨t, rfl⟩)
  rw [atonLoop_eq, hval, hrest]
  cases u with
  | nil =>
    have hi : (if 0 < i then i - 8 else i) = i - 8 := by split <;> omega
    have hc : Char.ofNat dot.toNat = '.' := rfl
    rw [List.nil_append, chars_cons]
    dsimp only
    rw [if_pos hc, hi]
    by_cases hbig : 255 < partValue p ∧ partValue p < 2 ^ 63
    · rw [if_pos hbig, if_neg (fun h => h.2 hbig)]
    · rw [if_neg hbig, if_pos ⟨hread.mp rfl, hbig⟩]
  | cons c u =>
    have hc : Char.ofNat c.toNat ≠ '.' := fun h =>
      hu (List.mem_cons.mpr (.inl ((char_eq 46 rfl).mp h).symm))
    exact (if_neg hc).trans (if_neg fun h => absurd (hread.mpr h.1) (List.cons_ne_nil c u)).symm

/-- The parts are accepted, and or-ed together. -/
theorem atonLoop_lenient (hne : ps ≠ []) (hdot : ∀ p ∈ ps, dot ∉ p) (h : Lenient ps) (i ip : Nat) :
    atonLoop (chars ([dot].intercalate ps)) i ip = some (ip ||| orParts i ps) := by
  induction ps generalizing i ip with
  | nil => exact absurd rfl hne
  | cons p ps ih =>
    have hp := h.readable p List.mem_cons_self
    cases ps with
    | nil =>
      rw [List.intercalate_singleton, atonLoop_end (hdot p List.mem_cons_self), if_pos hp]
      rfl
    | cons q ps =>
      have hle := h.leading p List.mem_cons_self
      rw [List.intercalate_cons_cons, List.append_assoc, List.singleton_append,
        atonLoop_part (hdot p List.mem_cons_self), if_pos ⟨hp, by omega⟩,
        ih (List.cons_ne_nil q ps) (fun p hp => hdot p (List.mem_cons_of_mem _ hp)) ?_,
        Nat.or_assoc]
      · rfl
      · exact ⟨fun p hp => h.readable p (List.mem_cons_of_mem _ hp),
          fun p hp => h.leading p (List.mem_cons_of_mem _ hp)⟩

/-- A part that is refused ends the loop. -/
theorem atonLoop_refused (hdot : ∀ p ∈ ps, dot ∉ p) (h : Refused ps) (i ip : Nat) :
    atonLoop (chars ([dot].intercalate ps)) i ip = none := by
  induction ps generalizing i ip with
  | nil => rcases h with ⟨p, hp, -⟩ | ⟨p, hp, -⟩ <;> simp at hp
  | cons p ps ih =>
    cases ps with
    | nil =>
      rw [List.intercalate_singleton, atonLoop_end (hdot p List.mem_cons_self)]
      rcases h with ⟨q, hq, hread⟩ | ⟨q, hq, -⟩
      · rw [List.mem_singleton.mp hq] at hread
        exact if_neg hread
      · exact absurd hq List.not_mem_nil
    | cons q ps =>
      rw [List.intercalate_cons_cons, List.append_assoc, List.singleton_append,
        atonLoop_part (hdot p List.mem_cons_self)]
      by_cases hp : Readable p ∧ ¬(255 < partValue p ∧ partValue p < 2 ^ 63)
      · rw [if_pos hp]
        refine ih (fun p hp => hdot p (List.mem_cons_of_mem _ hp)) ?_ _ _
        rcases h with ⟨p', hmem, hread⟩ | ⟨p', hmem, hbig⟩
        · rcases List.mem_cons.mp hmem with rfl | hmem
          · exact absurd hp.1 hread
          · exact .inl ⟨p', hmem, hread⟩
        · rcases List.mem_cons.mp hmem with rfl | hmem
          · exact absurd hbig hp.2
          · exact .inr ⟨p', hmem, hbig⟩
      · exact if_neg hp

/-! ## The classic value -/

theorem isDigit_range {b : Nat} (h : IsDigit b c) : 48 ≤ c.toNat := by
  unfold IsDigit digit? at h
  split at h
  · omega
  · split at h
    · omega
    · split at h
      · omega
      · simp at h

theorem isWhite_lt (c : UInt8) : isWhite c = true → c.toNat < 48 := by
  apply CInt.forall_byte (P := fun c => isWhite c = true → c.toNat < 48)
  decide +kernel

theorem literal_head (h : IsLiteral p) : ∃ c t, p = c :: t ∧ 48 ≤ c.toNat := by
  obtain ⟨hne, hdigits⟩ := h
  cases p with
  | nil => exact absurd rfl hne
  | cons c t =>
    refine ⟨c, t, rfl, ?_⟩
    by_cases hc : c = 48
    · subst hc
      decide
    · rw [basePrefix_digit (by simpa [peek] using hc)] at hdigits
      exact isDigit_range (hdigits c List.mem_cons_self)

/-- A literal is a number without white space and sign. -/
theorem subject_literal (h : IsLiteral p) :
    subject p 0 = ⟨false, (basePrefix 0 p).1, (basePrefix 0 p).2, []⟩ := by
  obtain ⟨c, t, rfl, hc⟩ := literal_head h
  have hwhite : ¬ isWhite c = true := fun h => absurd (isWhite_lt c h) (by omega)
  have h45 : c ≠ 45 := by rintro rfl; exact absurd hc (by decide)
  have h43 : c ≠ 43 := by rintro rfl; exact absurd hc (by decide)
  rw [subject, List.dropWhile_cons_of_neg hwhite, signPrefix_none h45 h43]
  dsimp only
  rw [List.takeWhile_eq_self_iff.mpr h.2, List.dropWhile_eq_nil_iff.mpr h.2]

theorem readable_literal (h : IsLiteral p) : Readable p := by
  right
  rw [subject_literal h]
  exact ⟨h.1, rfl⟩

theorem partValue_literal (h : IsLiteral p) (hlt : literalValue p < 2 ^ 64) :
    partValue p = literalValue p := by
  rw [partValue, strtoul_eq (.inl rfl), subject_literal h, if_neg h.1, ulongOf, Subject.value]
  exact congrArg Outcome.value (if_pos hlt)

/-- The parts of a classic address fill disjoint bits: or-ing them adds them up. -/
theorem classic_parts (hj : j ≤ 3) (hlen : ps.length ≤ j + 1) (hlit : ∀ p ∈ ps, IsLiteral p)
    (hlead : ∀ p ∈ ps.dropLast, literalValue p ≤ 255)
    (hlast : ∀ p ∈ ps.getLast?, literalValue p < 256 ^ (j + 2 - ps.length)) (hne : ps ≠ []) :
    (∀ p ∈ ps.dropLast, partValue p ≤ 255) ∧ orParts (8 * j) ps = sumParts (8 * j) ps ∧
      sumParts (8 * j) ps < 2 ^ (8 * j + 8) := by
  induction ps generalizing j with
  | nil => exact absurd rfl hne
  | cons p ps ih =>
    have hp := hlit p List.mem_cons_self
    cases ps with
    | nil =>
      have hv : literalValue p < 256 ^ (j + 1) := hlast p rfl
      have hpow : (256 : Nat) ^ (j + 1) = 2 ^ (8 * j + 8) := by
        rw [show (256 : Nat) = 2 ^ 8 from rfl, ← pow_mul]
        congr 1
      have h32 : 2 ^ (8 * j + 8) ≤ 2 ^ 32 := Nat.pow_le_pow_right (by decide) (by omega)
      rw [hpow] at hv
      refine ⟨fun q hq => absurd hq List.not_mem_nil, ?_, hv⟩
      rw [orParts, sumParts, partValue_literal hp (by omega), Nat.mod_eq_of_lt (by omega)]
    | cons q ps =>
      obtain ⟨k, rfl⟩ : ∃ k, j = k + 1 := ⟨j - 1, by simp only [List.length_cons] at hlen; omega⟩
      have hv := hlead p List.mem_cons_self
      have hval := partValue_literal hp (by omega)
      have hexp : k + 1 + 2 - (p :: q :: ps).length = k + 2 - (q :: ps).length := by
        simp only [List.length_cons]
        omega
      rw [hexp] at hlast
      obtain ⟨hleads, hsum, hlt⟩ := ih (j := k) (by omega)
        (by simp only [List.length_cons] at hlen ⊢; omega)
        (fun p hp => hlit p (List.mem_cons_of_mem _ hp))
        (fun p hp => hlead p (List.mem_cons_of_mem _ hp)) hlast (List.cons_ne_nil q ps)
      have hshift : 8 * (k + 1) - 8 = 8 * k := by omega
      have hbits : 8 * (k + 1) = 8 * k + 8 := by omega
      have hbyte : (literalValue p <<< (8 * (k + 1))) % 2 ^ 32 =
          literalValue p <<< (8 * (k + 1)) := byte_shiftLeft (by omega) (by omega)
      refine ⟨?_, ?_, ?_⟩
      · intro r hr
        rcases List.mem_cons.mp hr with rfl | hr
        · rw [hval]
          exact hv
        · exact hleads r hr
      · rw [orParts, sumParts, hshift, hsum, hval, hbyte, hbits,
          ← Nat.shiftLeft_add_eq_or_of_lt hlt, Nat.shiftLeft_eq]
        · simp
        · simp
      · rw [sumParts, hshift, hbits]
        · calc literalValue p * 2 ^ (8 * k + 8) + sumParts (8 * k) (q :: ps)
              < literalValue p * 2 ^ (8 * k + 8) + 2 ^ (8 * k + 8) := Nat.add_lt_add_left hlt _
            _ = (literalValue p + 1) * 2 ^ (8 * k + 8) := (Nat.succ_mul _ _).symm
            _ ≤ 2 ^ 8 * 2 ^ (8 * k + 8) := Nat.mul_le_mul_right _ (by omega)
            _ = 2 ^ (8 * k + 8 + 8) := by rw [← Nat.pow_add, Nat.add_comm]
        · simp

theorem dot_not_mem_parts (cp : List UInt8) : ∀ p ∈ cp.splitOn dot, dot ∉ p := by
  induction cp with
  | nil => simp
  | cons c cp ih =>
    rw [List.splitOn_cons_eq_if_modifyHead]
    split
    · rintro p hp
      rcases List.mem_cons.mp hp with rfl | hp
      · exact List.not_mem_nil
      · exact ih p hp
    · rename_i hc
      obtain ⟨q, qs, hq⟩ := List.exists_cons_of_ne_nil (List.splitOn_ne_nil dot cp)
      rw [hq] at ih ⊢
      rintro p hp
      rcases List.mem_cons.mp hp with rfl | hp
      · intro hmem
        rcases List.mem_cons.mp hmem with h | h
        · exact hc (by simp [h])
        · exact ih q List.mem_cons_self h
      · exact ih p (List.mem_cons_of_mem _ hp)

theorem inetAton_of_lenient {cp : List UInt8} (h : Lenient (cp.splitOn dot)) :
    inetAton (chars cp) = some (htonl (orParts 24 (cp.splitOn dot))) := by
  have hloop := atonLoop_lenient (List.splitOn_ne_nil dot cp) (dot_not_mem_parts cp) h 24 0
  rw [List.intercalate_splitOn, Nat.zero_or] at hloop
  rw [inetAton, hloop]
  rfl

/-- **`inet_aton` is lenient**: it accepts any number of parts that `strtoul` reads, up to 255 each
in front of the last one, and stores them or-ed together. It refuses a text with a part that is not
read to its end, or with a larger part. A classic address has its classic value. -/
theorem inetAton_lenient (cp : List UInt8) :
    (Lenient (cp.splitOn dot) →
      inetAton (chars cp) = some (htonl (orParts 24 (cp.splitOn dot)))) ∧
    (Refused (cp.splitOn dot) → inetAton (chars cp) = none) ∧
    (Classic (cp.splitOn dot) → Lenient (cp.splitOn dot) ∧
      orParts 24 (cp.splitOn dot) = sumParts 24 (cp.splitOn dot)) := by
  refine ⟨inetAton_of_lenient, fun h => ?_, fun h => ?_⟩
  · have hloop := atonLoop_refused (dot_not_mem_parts cp) h 24 0
    rw [List.intercalate_splitOn] at hloop
    rw [inetAton, hloop]
    rfl
  · obtain ⟨hlead, hsum, -⟩ := classic_parts (j := 3) (le_refl 3) h.count h.literal h.leading
      h.last (List.splitOn_ne_nil dot cp)
    exact ⟨⟨fun p hp => readable_literal (h.literal p hp), hlead⟩, hsum⟩

/-- A text that is accepted is to be a classic address. -/
theorem not_computesClassic {cp : List UInt8} (h : Lenient (cp.splitOn dot))
    (hc : ¬ Classic (cp.splitOn dot)) : ¬ ComputesClassic cp := fun hcp =>
  hc (hcp.1.mp (by rw [inetAton_of_lenient h]; rfl))

/-- `127.0.0.1.0` has five parts, the second part of `1..2` is empty, that of `1.+2` has a sign,
and the last part of `1.2.3.256` does not fit. -/
theorem inetAton_classic_fails :
    (¬ ComputesClassic [49, 50, 55, 46, 48, 46, 48, 46, 49, 46, 48] ∧
      inetAton (chars [49, 50, 55, 46, 48, 46, 48, 46, 49, 46, 48]) = some [127, 0, 0, 1]) ∧
    ¬ ComputesClassic [49, 46, 46, 50] ∧ ¬ ComputesClassic [49, 46, 43, 50] ∧
    ¬ ComputesClassic [49, 46, 50, 46, 51, 46, 50, 53, 54] := by
  have hfive : Lenient (List.splitOn dot [49, 50, 55, 46, 48, 46, 48, 46, 49, 46, 48]) :=
    ⟨by decide, by decide⟩
  refine ⟨⟨not_computesClassic hfive fun h => absurd h.count (by decide), ?_⟩, ?_, ?_, ?_⟩
  · rw [inetAton_of_lenient hfive]
    decide
  · exact not_computesClassic ⟨by decide, by decide⟩
      fun h => absurd (h.literal [] (by decide)) (by decide)
  · exact not_computesClassic ⟨by decide, by decide⟩
      fun h => absurd (h.literal [43, 50] (by decide)) (by decide)
  · exact not_computesClassic ⟨by decide, by decide⟩
      fun h => absurd (h.last [50, 53, 54] rfl) (by decide)

end Dietlibc.Inet
