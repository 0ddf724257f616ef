import Dietlibc.Base.CInt
import Mathlib.Data.Nat.Digits.Defs

/-!
# Numbers and text

`strtoul` and `strtol` for the bases the source accepts (`0` and `2` to `36`), and `__ltostr`.
A C string is the list of its characters; its end plays the part of the terminator. A pointer
into a string is the rest of the list.
-/

namespace Dietlibc.Lib

/-- `__isspace_ascii`. -/
def isspace (c : Char) : Bool := (9 ≤ c.toNat && c.toNat < 14) || c = ' '

def isalnum (c : Char) : Bool :=
  (97 ≤ c.toNat ||| 32 && c.toNat ||| 32 < 123) || (48 ≤ c.toNat && c.toNat < 58)

/-- `__isxdigit_ascii`. -/
def isxdigit (c : Char) : Bool :=
  (48 ≤ c.toNat && c.toNat < 58) || (97 ≤ c.toNat ||| 32 && c.toNat ||| 32 < 103)

/-- What `strtoul` and `strtol` set `errno` to, if anything. -/
inductive Errno where
  | unset
  | einval
  | erange
  deriving DecidableEq

/-- The digit of `strtoul`, an `unsigned char`. -/
def digitVal (c : Char) : Nat :=
  if 'a' ≤ c then (c.toNat - 97 + 10) % 256
  else if 'A' ≤ c then c.toNat - 65 + 10
  else if c ≤ '9' then (c.toNat + 256 - 48) % 256
  else 255

/-- The digit loop of `strtoul`: the value, whether it overflowed, and the rest. -/
def strtoulLoop (base : Nat) : List Char → Nat → Bool → Nat × Bool × List Char
  | [], v, overflow => (v, overflow, [])
  | c :: cs, v, overflow =>
    if base ≤ digitVal c then (v, overflow, c :: cs)
    else
      let x := v % 256 * base + digitVal c
      let w := v / 256 * base + x / 256
      strtoulLoop base cs (w * 256 % 2 ^ 64 + x % 256) (overflow || (2 ^ 64 - 1) / 256 < w)

/-- The base that is used, and where the digits start. -/
def strtoulBase (base : Nat) (nptr : List Char) : Nat × List Char :=
  match nptr with
  | '0' :: x :: d :: cs =>
    if (base = 0 ∨ base = 16) ∧ (x = 'x' ∨ x = 'X') ∧ isxdigit d then (16, d :: cs)
    else (if base = 0 then 8 else base, nptr)
  | '0' :: _ => (if base = 0 then 8 else base, nptr)
  | _ => (if base = 0 then 10 else base, nptr)

/-- An optional sign. -/
def strtoulSign : List Char → Bool × List Char
  | '-' :: cs => (true, cs)
  | '+' :: cs => (false, cs)
  | cs => (false, cs)

/-- `strtoul`: the value, `*endptr` and `errno`. -/
def strtoul (ptr : List Char) (base : Nat) : Nat × List Char × Errno :=
  let (neg, orig) := strtoulSign (ptr.dropWhile isspace)
  let (base, nptr) := strtoulBase base orig
  let (v, overflow, rest) := strtoulLoop base nptr 0 false
  if rest.length = orig.length then (0, ptr, .einval)
  else if overflow then (2 ^ 64 - 1, rest, .erange)
  else (if neg then CInt.usub 64 0 v else v, rest, .unset)

/-- `strtol` where a `-` follows the white space. -/
def strtolSign : List Char → Bool × List Char
  | '-' :: c :: cs => if isalnum c then (true, c :: cs) else (false, '-' :: c :: cs)
  | cs => (false, cs)

/-- `strtol`: the value and `*endptr`. -/
def strtol (orig : List Char) (base : Nat) : Int × List Char :=
  let (neg, nptr) := strtolSign (orig.dropWhile isspace)
  let (v, rest, _) := strtoul nptr base
  let rest := if rest.length = nptr.length then orig else rest
  if 2 ^ 63 ≤ v then (if neg then -2 ^ 63 else 2 ^ 63 - 1, rest)
  else (if neg then -v else v, rest)

/-! ## `__ltostr` -/

/-- A digit as `__ltostr` writes it. -/
def digitChar (upCase : Bool) (d : Nat) : Char :=
  if d < 10 then Char.ofNat (48 + d) else Char.ofNat ((if upCase then 55 else 87) + d)

/-- The loop of `__ltostr` with `room` places left. -/
def ltostrLoop (base : Nat) (upCase : Bool) : Nat → Nat → List Char → List Char
  | 0, _, s => s
  | room + 1, i, s =>
    if i = 0 then s else ltostrLoop base upCase room (i / base) (digitChar upCase (i % base) :: s)

/-- `__ltostr` and `__lltostr`: the text written for `i`, without its terminator. -/
def ltostr (size i base : Nat) (upCase : Bool) : List Char :=
  let base := if base = 0 ∨ 36 < base then 10 else base
  if i = 0 then ['0'] else ltostrLoop base upCase (size - 1) i []

/-! ## Decimal numbers -/

/-- The value of decimal digits read on from `v`. -/
def decimalFrom : Nat → List Char → Nat
  | v, [] => v
  | v, c :: cs => decimalFrom (v * 10 + (c.toNat - 48)) cs

/-- The value of decimal digits. -/
def decimal (ds : List Char) : Nat := decimalFrom 0 ds

theorem digitVal_digit {c : Char} (h : c.isDigit) : digitVal c = c.toNat - 48 ∧ digitVal c < 10 := by
  simp only [Char.isDigit, Bool.and_eq_true, decide_eq_true_eq] at h
  obtain ⟨h0, h9⟩ := h
  have h0' : 48 ≤ c.toNat := h0
  have h9' : c.toNat ≤ 57 := h9
  have ha : ¬ 'a' ≤ c := fun hc => by
    have hc' : 97 ≤ c.toNat := hc
    omega
  have hA : ¬ 'A' ≤ c := fun hc => by
    have hc' : 65 ≤ c.toNat := hc
    omega
  have h9c : c ≤ '9' := h9
  unfold digitVal
  rw [if_neg ha, if_neg hA, if_pos h9c]
  omega

theorem strtoulLoop_le (base : Nat) (s : List Char) (v : Nat) (o : Bool) :
    (strtoulLoop base s v o).2.2.length ≤ s.length := by
  induction s generalizing v o with
  | nil => exact le_refl _
  | cons c cs ih =>
    unfold strtoulLoop
    split
    · exact le_refl _
    · exact le_trans (ih _ _) (Nat.le_succ _)

theorem strtoulSign_le (s : List Char) : (strtoulSign s).2.length ≤ s.length := by
  unfold strtoulSign
  split <;> simp

theorem strtoulBase_le (base : Nat) (s : List Char) : (strtoulBase base s).2.length ≤ s.length := by
  unfold strtoulBase
  split
  · split
    · simp only [List.length_cons]
      omega
    · exact le_refl _
  · exact le_refl _
  · exact le_refl _

/-- `*endptr` points into the string. -/
theorem strtoul_le (s : List Char) (base : Nat) : (strtoul s base).2.1.length ≤ s.length := by
  unfold strtoul
  simp only
  have h1 := strtoulLoop_le (strtoulBase base (strtoulSign (s.dropWhile isspace)).2).1
    (strtoulBase base (strtoulSign (s.dropWhile isspace)).2).2 0 false
  have h2 := strtoulBase_le base (strtoulSign (s.dropWhile isspace)).2
  have h3 := strtoulSign_le (s.dropWhile isspace)
  have h4 := (List.dropWhile_sublist isspace (l := s)).length_le
  split
  · exact le_refl _
  · split <;> exact h1.trans (h2.trans (h3.trans h4))

theorem strtolSign_le (s : List Char) : (strtolSign s).2.length ≤ s.length := by
  unfold strtolSign
  split
  · split <;> simp
  · exact le_refl _

theorem strtol_le (s : List Char) (base : Nat) : (strtol s base).2.length ≤ s.length := by
  unfold strtol
  simp only
  have h1 := strtoul_le (strtolSign (s.dropWhile isspace)).2 base
  have h2 := strtolSign_le (s.dropWhile isspace)
  have h3 := (List.dropWhile_sublist isspace (l := s)).length_le
  have h4 : (if (strtoul (strtolSign (s.dropWhile isspace)).2 base).2.1.length =
      (strtolSign (s.dropWhile isspace)).2.length then s
      else (strtoul (strtolSign (s.dropWhile isspace)).2 base).2.1).length ≤ s.length := by
    split
    · exact le_refl _
    · exact h1.trans (h2.trans h3)
  split <;> exact h4

/-- One digit, as `strtoul` adds it in two parts. -/
theorem strtoul_digit {v d : Nat} (h : v * 10 + d < 2 ^ 64) :
    (v / 256 * 10 + (v % 256 * 10 + d) / 256) * 256 % 2 ^ 64 + (v % 256 * 10 + d) % 256 =
        v * 10 + d ∧
      ¬ (2 ^ 64 - 1) / 256 < v / 256 * 10 + (v % 256 * 10 + d) / 256 := by
  omega

theorem le_decimal (ds : List Char) (v : Nat) :
    v ≤ decimalFrom v ds := by
  induction ds generalizing v with
  | nil => exact le_refl v
  | cons c ds ih =>
    unfold decimalFrom
    exact le_trans (by omega) (ih _)

/-- The text that follows a number in a format: it does not go on with a digit. -/
def NoDigit (r : List Char) : Prop := ∀ c, r.head? = some c → 10 ≤ digitVal c

theorem strtoulLoop_cons {c : Char} {v : Nat} (hc : digitVal c < 10)
    (hv : v * 10 + digitVal c < 2 ^ 64) (cs : List Char) :
    strtoulLoop 10 (c :: cs) v false = strtoulLoop 10 cs (v * 10 + digitVal c) false := by
  obtain ⟨h1, h2⟩ := strtoul_digit hv
  conv_lhs => rw [strtoulLoop]
  rw [if_neg (Nat.not_le_of_lt hc)]
  dsimp only
  rw [h1, decide_eq_false h2, Bool.false_or]

theorem strtoulLoop_digits {ds r : List Char} (hd : ∀ c ∈ ds, c.isDigit) (hr : NoDigit r) {v : Nat}
    (hv : decimalFrom v ds < 2 ^ 64) :
    strtoulLoop 10 (ds ++ r) v false = (decimalFrom v ds, false, r) := by
  induction ds generalizing v with
  | nil =>
    cases r with
    | nil => rfl
    | cons c r =>
      rw [List.nil_append, strtoulLoop, if_pos (hr c rfl)]
      rfl
  | cons c ds ih =>
    obtain ⟨he, hlt⟩ := digitVal_digit (hd c List.mem_cons_self)
    have hv' : decimalFrom (v * 10 + (c.toNat - 48)) ds < 2 ^ 64 := hv
    have hle : v * 10 + (c.toNat - 48) < 2 ^ 64 := lt_of_le_of_lt (le_decimal ds _) hv'
    rw [← he] at hle
    have hrec := ih (fun x hx => hd x (List.mem_cons_of_mem _ hx)) hv'
    rw [List.cons_append, strtoulLoop_cons hlt hle, he]
    exact hrec

theorem digit_not_space {c : Char} (h : c.isDigit) : isspace c = false := by
  simp only [Char.isDigit, Bool.and_eq_true, decide_eq_true_eq] at h
  have h0 : 48 ≤ c.toNat := h.1
  have hne : c ≠ ' ' := by rintro rfl; exact absurd h0 (by decide)
  simp only [isspace, hne, decide_false, Bool.or_false, Bool.and_eq_false_iff,
    decide_eq_false_iff_not]
  omega

theorem digit_sign {c : Char} (h : c.isDigit) (cs : List Char) :
    strtoulSign (c :: cs) = (false, c :: cs) := by
  unfold strtoulSign
  split
  · rename_i he; cases he; exact absurd h (by decide)
  · rename_i he; cases he; exact absurd h (by decide)
  · rfl

theorem strtoulBase_ten (s : List Char) : strtoulBase 10 s = (10, s) := by
  unfold strtoulBase
  split <;> simp

/-- A number that starts with a digit is not empty. -/
theorem strtoul_lt {c : Char} (hc : c.isDigit) (cs : List Char) :
    (strtoul (c :: cs) 10).2.1.length ≤ cs.length := by
  have hlt := (digitVal_digit hc).2
  have hle : (strtoulLoop 10 (c :: cs) 0 false).2.2.length ≤ cs.length := by
    rw [strtoulLoop, if_neg (Nat.not_le_of_lt hlt)]
    exact strtoulLoop_le _ _ _ _
  unfold strtoul
  rw [List.dropWhile_cons_of_neg (by simp [digit_not_space hc])]
  simp only [digit_sign hc, strtoulBase_ten]
  have hne : ¬ (strtoulLoop 10 (c :: cs) 0 false).2.2.length = (c :: cs).length :=
    Nat.ne_of_lt (Nat.lt_succ_of_le hle)
  rw [if_neg hne]
  split <;> exact hle

/-- `strtoul` reads a decimal number to its end. -/
theorem strtoul_digits {c : Char} {ds r : List Char} (hd : ∀ x ∈ c :: ds, x.isDigit)
    (hr : NoDigit r) (hv : decimal (c :: ds) < 2 ^ 64) :
    strtoul (c :: ds ++ r) 10 = (decimal (c :: ds), r, .unset) := by
  have hc := hd c List.mem_cons_self
  unfold strtoul
  rw [List.cons_append, List.dropWhile_cons_of_neg (by simp [digit_not_space hc])]
  simp only [digit_sign hc, strtoulBase_ten]
  rw [← List.cons_append, strtoulLoop_digits hd hr hv]
  simp only [List.length_append, List.length_cons]
  rw [if_neg (by omega)]
  rfl

theorem strtolSign_of_ne {s : List Char} (h : ∀ c, s.head? = some c → c ≠ '-') :
    strtolSign s = (false, s) := by
  unfold strtolSign
  split
  · exact absurd rfl (h '-' rfl)
  · rfl

/-- `strtol` reads a decimal number to its end, and nothing where there is none. -/
theorem strtol_digits {ds r : List Char} (hd : ∀ x ∈ ds, x.isDigit) (hr : NoDigit r)
    (hsp : ∀ c, r.head? = some c → isspace c = false ∧ c ≠ '-' ∧ c ≠ '+')
    (hv : decimal ds < 2 ^ 63) : strtol (ds ++ r) 10 = ((decimal ds : Int), r) := by
  have hspace : ∀ s : List Char, (∀ c, s.head? = some c → isspace c = false) →
      s.dropWhile isspace = s := by
    intro s hs
    cases s with
    | nil => rfl
    | cons c s => exact List.dropWhile_cons_of_neg (by simp [hs c rfl])
  cases ds with
  | nil =>
    have hsign : strtoulSign r = (false, r) := by
      unfold strtoulSign
      split
      · exact absurd rfl (hsp _ rfl).2.1
      · exact absurd rfl (hsp _ rfl).2.2
      · rfl
    have hloop : strtoulLoop 10 r 0 false = (0, false, r) := by
      cases r with
      | nil => rfl
      | cons c r => rw [strtoulLoop, if_pos (hr c rfl)]
    have hul : strtoul r 10 = (0, r, .einval) := by
      unfold strtoul
      simp only [hspace r fun c hc => (hsp c hc).1, hsign, strtoulBase_ten, hloop, if_true]
    unfold strtol
    rw [List.nil_append, hspace r fun c hc => (hsp c hc).1,
      strtolSign_of_ne fun c hc => (hsp c hc).2.1]
    simp only [hul, if_true]
    rfl
  | cons c ds =>
    have hc := hd c List.mem_cons_self
    have hul := strtoul_digits hd hr (lt_trans hv (by decide))
    have hhead : ∀ x, (c :: ds ++ r).head? = some x → x = c := by
      intro x hx
      cases hx
      rfl
    unfold strtol
    rw [hspace _ fun x hx => hhead x hx ▸ digit_not_space hc, strtolSign_of_ne fun x hx => ?_]
    · simp only [hul]
      have hlen : ¬ r.length = (c :: ds ++ r).length := by
        simp only [List.length_append, List.length_cons]
        omega
      rw [if_neg (by omega), if_neg (by simp), if_neg hlen]
    · rw [hhead x hx]
      rintro rfl
      exact absurd hc (by decide)

end Dietlibc.Lib
