import Dietlibc.Number.Value

/-!
# The value of `strtol`

A `-` in front of a letter or a numeral is taken by `strtol`, every other sign by `strtoul`, which
then finds no digit behind a `-`. The magnitude that `strtoul` returns is tested afterwards.
-/

namespace Dietlibc.Number

open Shell (isspace isalnum isxdigit)
open CInt

theorem isalnum_eq (c : UInt8) : isalnum c = (digit? c).isSome := by
  apply CInt.forall_byte (P := fun c => isalnum c = (digit? c).isSome)
  decide +kernel

theorem isalnum_of_isDigit {b : Nat} {c : UInt8} (h : IsDigit b c = true) : isalnum c = true := by
  rw [isalnum_eq]
  unfold IsDigit at h
  cases hd : digit? c with
  | none => rw [hd] at h; exact absurd h Bool.false_ne_true
  | some d => rfl

theorem isWhite_of_isalnum {c : UInt8} (h : isalnum c = true) : isWhite c = false := by
  revert h
  apply CInt.forall_byte (P := fun c => isalnum c = true → isWhite c = false)
  decide +kernel

theorem dropWhile_twice (p : UInt8 → Bool) (s : List UInt8) :
    (s.dropWhile p).dropWhile p = s.dropWhile p := by
  induction s with
  | nil => rfl
  | cons c s ih =>
    cases h : p c with
    | true => rw [List.dropWhile_cons_of_pos h, ih]
    | false =>
      rw [List.dropWhile_cons_of_neg (by simp [h]), List.dropWhile_cons_of_neg (by simp [h])]

/-- White space in front of the string does not change its number. -/
theorem subject_dropWhile (s : List UInt8) (base : Nat) :
    subject (s.dropWhile isWhite) base = subject s base := by
  rw [subject, dropWhile_twice, subject]

theorem subject_neg (s : List UInt8) (base : Nat) :
    (subject s base).neg = (signPrefix (s.dropWhile isWhite)).1 := rfl

/-- A letter or a numeral is neither white space nor a sign. -/
theorem signPrefix_alnum {c : UInt8} (h : isalnum c = true) (t : List UInt8) :
    signPrefix ((c :: t).dropWhile isWhite) = (false, c :: t) := by
  rw [List.dropWhile_cons_of_neg (by simp [isWhite_of_isalnum h])]
  apply signPrefix_none
  · rintro rfl; exact absurd h (by decide)
  · rintro rfl; exact absurd h (by decide)

/-- Behind a `-` in front of a letter or a numeral stands the number without its sign. -/
theorem subject_dash {c : UInt8} {t : List UInt8} (h : isalnum c = true) (base : Nat) :
    subject (45 :: c :: t) base = { subject (c :: t) base with neg := true } := by
  have h1 : (45 :: c :: t).dropWhile isWhite = 45 :: c :: t :=
    List.dropWhile_cons_of_neg (by decide)
  rw [subject, h1, subject, signPrefix_alnum h]
  rfl

/-- Behind a `-` in front of another byte there is no digit. -/
theorem digits_dash {t : List UInt8} (h : isalnum (peek t) = false) (base : Nat) :
    (subject (45 :: t) base).digits = [] := by
  have h1 : (45 :: t).dropWhile isWhite = 45 :: t := List.dropWhile_cons_of_neg (by decide)
  have h48 : peek t ≠ 48 := by
    intro h48
    rw [h48] at h
    exact absurd h (by decide)
  rw [subject, h1, signPrefix]
  simp only [basePrefix_digit h48]
  cases t with
  | nil => rfl
  | cons c t =>
    apply List.takeWhile_cons_of_neg
    intro hc
    rw [show peek (c :: t) = c from rfl, isalnum_of_isDigit hc] at h
    exact absurd h (by decide)

/-- The rest is behind the sign, and behind at least a digit if there is one. -/
theorem rest_lt {base : Nat} {s : List UInt8} (h : (subject s base).digits ≠ []) :
    (subject s base).rest.length < (signPrefix (s.dropWhile isWhite)).2.length := by
  unfold subject at h ⊢
  generalize signPrefix (s.dropWhile isWhite) = p at h ⊢
  obtain ⟨neg, t⟩ := p
  have hlen := basePrefix_length base t
  dsimp only at h hlen ⊢
  have hsum := length_takeWhile_add (IsDigit (basePrefix base t).1) (basePrefix base t).2
  have hpos := List.length_pos_of_ne_nil h
  omega

theorem signPrefix_length (s : List UInt8) : (signPrefix s).2.length ≤ s.length := by
  unfold signPrefix
  split
  · exact Nat.le_succ _
  · exact Nat.le_succ _
  · exact Nat.le_refl _

theorem dash_of_signPrefix {s : List UInt8} (h : (signPrefix s).1 = true) : ∃ t, s = 45 :: t := by
  unfold signPrefix at h
  split at h
  · exact ⟨_, rfl⟩
  · exact absurd h Bool.false_ne_true
  · exact absurd h Bool.false_ne_true

/-- The value of a number with its sign. -/
def Subject.signed (p : Subject) : Int := if p.neg then -p.value else p.value

/-- What a parser of `long`s returns for a number: its value, or the nearest `long`. -/
def longOf (p : Subject) (errno : Nat) : Outcome Int :=
  if -2 ^ 63 ≤ p.signed ∧ p.signed < 2 ^ 63 then
    ⟨p.signed, some p.rest, if p.signed = -2 ^ 63 then 0 else errno⟩
  else ⟨if p.neg then -2 ^ 63 else 2 ^ 63 - 1, some p.rest, ERANGE⟩

theorem conv_neg {v : Nat} (h : v ≤ 2 ^ 63) : conv 64 (-v) = -v := by
  apply conv_of_fits (by decide)
  rw [fits64]
  omega

theorem clamp_small {v : Nat} (h : v < 2 ^ 63) (neg : Bool) (errno : Nat) :
    clamp (decide (2 ^ 63 ≤ v)) neg v errno = (if neg then -(v : Int) else v, errno) := by
  have hl : decide (2 ^ 63 ≤ v) = false := decide_eq_false (by omega)
  rw [hl, clamp, if_neg Bool.false_ne_true]
  cases neg
  · exact congrArg (·, errno) (conv_low (by decide) h)
  · exact congrArg (·, errno) (conv_neg (by omega))

theorem clamp_min (errno : Nat) : clamp true true (2 ^ 63) errno = (-2 ^ 63, 0) := by
  rw [clamp, if_pos rfl, if_pos ⟨rfl, rfl⟩, conv_high (by decide) (by norm_num) (by norm_num)]
  norm_num

theorem clamp_large {v : Nat} {neg : Bool} (h : ¬(v = 2 ^ 63 ∧ neg = true)) (errno : Nat) :
    clamp true neg v errno = (if neg then -2 ^ 63 else 2 ^ 63 - 1, ERANGE) := by
  rw [clamp, if_pos rfl, if_neg h]

/-- What `clamp` makes of the value and `errno` that `strtoul` returns for digits behind no sign. -/
theorem clamp_subject (p : Subject) (errno : Nat) :
    (if p.value < 2 ^ 64 then clamp (decide (2 ^ 63 ≤ p.value)) p.neg p.value errno
    else clamp (decide (2 ^ 63 ≤ 2 ^ 64 - 1)) p.neg (2 ^ 64 - 1) ERANGE) =
    ((longOf p errno).value, (longOf p errno).errno) := by
  unfold longOf Subject.signed
  generalize p.value = v
  generalize p.neg = neg
  by_cases hs : v < 2 ^ 63
  · have hx : -2 ^ 63 < (if neg then -(v : Int) else v) ∧
        (if neg then -(v : Int) else v) < 2 ^ 63 := by
      cases neg
      · simp only [Bool.false_eq_true, if_false]; omega
      · simp only [if_true]; omega
    have hne : (if neg then -(v : Int) else v) ≠ -2 ^ 63 := by omega
    rw [if_pos (by omega), clamp_small hs, if_pos (c := _ ∧ _) ⟨by omega, hx.2⟩, if_neg hne]
  · by_cases hm : v = 2 ^ 63 ∧ neg = true
    · obtain ⟨hv, hneg⟩ := hm
      have hx : (if neg then -(v : Int) else v) = -2 ^ 63 := by
        rw [if_pos hneg, hv]
        norm_num
      have hl : decide (2 ^ 63 ≤ v) = true := decide_eq_true (by omega)
      rw [hx, if_pos (by omega), hl, hneg, hv, clamp_min, if_pos (by norm_num), if_pos rfl]
    · have hx : ¬(-2 ^ 63 ≤ (if neg then -(v : Int) else v) ∧
          (if neg then -(v : Int) else v) < 2 ^ 63) := by
        cases neg
        · simp only [Bool.false_eq_true, if_false]; omega
        · simp only [and_true] at hm
          simp only [if_true]
          omega
      have hl : decide (2 ^ 63 ≤ v) = true := decide_eq_true (by omega)
      rw [if_neg hx, hl, clamp_large hm, decide_eq_true (by norm_num), clamp_large (by norm_num),
        ite_self]

/-- The outcome of `strtol`, which leaves the string at `t` to `strtoul`, if that finds the digits of
the number there and no other sign. -/
theorem strtol_from {base : Nat} (h : BaseOk base) {s t : List UInt8} {p : Subject} {neg : Bool}
    (hp : (subject t base).digits = p.digits ∧ (subject t base).rest = p.rest ∧
      (subject t base).value = p.value)
    (hneg : p.digits ≠ [] → p.neg = neg ∧ (subject t base).neg = false)
    (hlt : p.digits ≠ [] → p.rest.length < t.length) (errno : Nat) {o : Outcome Nat}
    (ho : strtoul t base errno = o) :
    (⟨(clamp (decide (2 ^ 63 ≤ o.value)) neg o.value o.errno).1,
      o.endptr.map fun e => if e.length = t.length then s else e,
      (clamp (decide (2 ^ 63 ≤ o.value)) neg o.value o.errno).2⟩ : Outcome Int) =
    if p.digits = [] then ⟨0, some s, EINVAL⟩ else longOf p errno := by
  rw [strtoul_eq h, ulongOf, hp.1, hp.2.1, hp.2.2] at ho
  by_cases hd : p.digits = []
  · rw [if_pos hd] at ho ⊢
    rw [← ho, clamp_small (by norm_num)]
    simp
  · obtain ⟨hn, hf⟩ := hneg hd
    have hne : p.rest.length ≠ t.length := by have := hlt hd; omega
    have hc := clamp_subject p errno
    rw [if_neg hd, hf] at ho
    rw [if_neg hd, ← hn]
    by_cases hv : p.value < 2 ^ 64
    · rw [if_pos hv] at ho hc
      rw [show unsignedOf false p.value = p.value from rfl] at ho
      rw [← ho]
      dsimp only
      rw [hc, Option.map_some, if_neg hne]
      unfold longOf
      split <;> rfl
    · rw [if_neg hv] at ho hc
      rw [← ho]
      dsimp only
      rw [hc, Option.map_some, if_neg hne]
      unfold longOf
      split <;> rfl

theorem strtol_eq {base : Nat} (h : BaseOk base) (s : List UInt8) (errno : Nat) :
    strtol s base errno =
      if (subject s base).digits = [] then ⟨0, some s, EINVAL⟩
      else longOf (subject s base) errno := by
  have hs := subject_dropWhile s base
  have hlt (h : (subject (s.dropWhile isWhite) base).digits ≠ []) := rest_lt h
  have htw := dropWhile_twice isWhite s
  rw [htw] at hlt
  unfold strtol strto
  rw [dropWhile_isspace]
  generalize s.dropWhile isWhite = t at hs hlt htw ⊢
  rw [← hs]
  by_cases hneg : peek t = 45 ∧ isalnum (peek t.tail)
  · obtain ⟨c, t', rfl, hal⟩ : ∃ c t', t = 45 :: c :: t' ∧ isalnum c := by
      rcases t with - | ⟨x, - | ⟨c, t'⟩⟩
      · exact absurd hneg.1 (by decide)
      · exact absurd hneg.2 (by simp [peek]; decide)
      · exact ⟨c, t', by rw [show x = 45 from hneg.1], hneg.2⟩
    have hsub := subject_dash (t := t') hal base
    dsimp only
    rw [if_pos hneg]
    apply strtol_from h _ _ hlt errno rfl
    · rw [hsub]; exact ⟨rfl, rfl, rfl⟩
    · intro _
      exact ⟨by rw [hsub], congrArg Prod.fst (signPrefix_alnum hal t')⟩
  · dsimp only
    rw [if_neg hneg]
    apply strtol_from h _ _ _ errno rfl
    · exact ⟨rfl, rfl, rfl⟩
    · intro hd
      have hf : (subject t base).neg = false := by
        rw [subject_neg, htw, ← Bool.not_eq_true]
        intro hn
        obtain ⟨t', rfl⟩ := dash_of_signPrefix hn
        have hal : isalnum (peek t') = false := by
          rw [← Bool.not_eq_true]
          exact fun h' => hneg ⟨rfl, h'⟩
        exact hd (digits_dash hal base)
      exact ⟨hf, hf⟩
    · intro hd
      have := signPrefix_length t
      have := hlt hd
      dsimp only
      omega

theorem strtoll_eq {base : Nat} (h : BaseOk base) (s : List UInt8) (errno : Nat) :
    strtoll s base errno = strtol s base errno := by
  have hl : (fun v => decide (2 ^ 63 - 1 < v)) = fun v => decide (2 ^ 63 ≤ v) := by
    funext v
    rw [decide_eq_decide]
    omega
  unfold strtoll strtol strto
  rw [hl]
  dsimp only
  rw [strtoull_eq h]

/-- **`strtol` computes the value of the number in front of the string** if a `long` holds it, and
the nearest `long` with `ERANGE` otherwise; `*endptr` is behind the number, or at the start if there
is none. -/
theorem strtol_computes {base : Nat} (h : BaseOk base) (s : List UInt8) {errno : Nat}
    (he : errno ≠ ERANGE) :
    strtol s base errno = (if (subject s base).digits = [] then ⟨0, some s, EINVAL⟩
      else longOf (subject s base) errno) ∧
    ((strtol s base errno).errno = ERANGE ↔ (subject s base).digits ≠ [] ∧
      ¬(-2 ^ 63 ≤ (subject s base).signed ∧ (subject s base).signed < 2 ^ 63)) := by
  refine ⟨strtol_eq h s errno, ?_⟩
  rw [strtol_eq h]
  by_cases hd : (subject s base).digits = []
  · rw [if_pos hd]
    exact iff_of_false (show EINVAL ≠ ERANGE by decide) fun h' => h'.1 hd
  · rw [if_neg hd, longOf]
    by_cases hr : -2 ^ 63 ≤ (subject s base).signed ∧ (subject s base).signed < 2 ^ 63
    · rw [if_pos hr]
      refine iff_of_false ?_ fun h' => h'.2 hr
      show (if (subject s base).signed = -2 ^ 63 then 0 else errno) ≠ ERANGE
      split
      · decide
      · exact he
    · rw [if_neg hr]
      exact iff_of_true rfl ⟨hd, hr⟩

/-- `-9223372036854775809` -/
theorem strtol_computes_min : strtol [45, 57, 50, 50, 51, 51, 55, 50, 48, 51, 54, 56, 53, 52, 55, 55,
    53, 56, 48, 57] 10 0 = ⟨-2 ^ 63, some [], ERANGE⟩ := by
  rw [(strtol_computes (.inr (by decide)) _ (by decide)).1]
  decide

/-- **The parsers of `long long` agree with those of `long`**, in the value, `*endptr` and `errno`. -/
theorem longlong_agrees {base : Nat} (h : BaseOk base) (s : List UInt8) (errno : Nat) :
    strtoull s base errno = strtoul s base errno ∧ strtoll s base errno = strtol s base errno :=
  ⟨strtoull_eq h s errno, strtoll_eq h s errno⟩

/-- `0x1` in base 0. -/
theorem longlong_agrees_hex : strtoull [48, 120, 49] 0 0 = ⟨1, some [], 0⟩ ∧
    strtoll [48, 120, 49] 0 0 = ⟨1, some [], 0⟩ := by
  rw [(longlong_agrees (.inl rfl) _ _).1, (longlong_agrees (.inl rfl) _ _).2]
  decide

end Dietlibc.Number
