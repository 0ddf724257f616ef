import Dietlibc.Number.Strtoul

/-!
# The value of `strtoul`

One invariant carries the digit loop: the overflow flag is still clear and `v` stands for the number
of the digits so far, or that number has reached `2 ^ 64` and the flag stays set. A `long long` that
is shifted with its sign keeps it as well, since its top bit is set only where the next digit
overflows.
-/

namespace Dietlibc.Number

open Shell (isspace isalnum isxdigit)
open CInt

theorem isspace_eq (c : UInt8) : isspace c = isWhite c := by
  apply forall_byte (P := fun c => isspace c = isWhite c)
  decide +kernel

theorem isxdigit_eq (c : UInt8) : isxdigit c = IsDigit 16 c := by
  apply forall_byte (P := fun c => isxdigit c = IsDigit 16 c)
  decide +kernel

/-- A byte is a digit exactly if its number is below the base, and then that is its value. -/
theorem digitOf_eq (c : UInt8) :
    (digit? c = none ∧ 36 ≤ (digitOf c).toNat) ∨ digit? c = some (digitOf c).toNat := by
  apply forall_byte (P := fun c => (digit? c = none ∧ 36 ≤ (digitOf c).toNat) ∨
    digit? c = some (digitOf c).toNat)
  decide +kernel

theorem digitOf_lt {b : Nat} (hb : b ≤ 36) (c : UInt8) :
    (digitOf c).toNat < b ↔ IsDigit b c = true := by
  unfold IsDigit
  rcases digitOf_eq c with ⟨h, h36⟩ | h
  · rw [h]; simp; omega
  · rw [h]; simp

theorem digitOf_value {b : Nat} {c : UInt8} (h : IsDigit b c = true) :
    (digit? c).getD 0 = (digitOf c).toNat := by
  rcases digitOf_eq c with ⟨h', -⟩ | h'
  · rw [IsDigit, h'] at h; simp at h
  · rw [h', Option.getD_some]

/-! ## The digits -/

section

variable {V : Type} {zero : V} {add : Nat → V → Nat → V × Bool} {R : V → Nat → Prop}

/-- `add` computes with the numbers below `2 ^ 64` that the values of `V` stand for, and tells when
one leaves them. -/
structure Adds (zero : V) (add : Nat → V → Nat → V × Bool) (R : V → Nat → Prop) : Prop where
  start : R zero 0
  small {b n d : Nat} {v : V} : 2 ≤ b → b ≤ 36 → d < b → R v n → n * b + d < 2 ^ 64 →
    (add b v d).2 = false ∧ R (add b v d).1 (n * b + d)
  large {b n d : Nat} {v : V} : 2 ≤ b → b ≤ 36 → d < b → R v n → 2 ^ 64 ≤ n * b + d →
    (add b v d).2 = true

theorem digitLoop_stop {b : Nat} (hb : b ≤ 36) {c : UInt8} (h : IsDigit b c = false)
    (s : List UInt8) (v : V) (o : Bool) : digitLoop add b (c :: s) v o = (v, o, c :: s) := by
  rw [digitLoop, if_pos]
  by_contra hc
  rw [(digitOf_lt hb c).1 (by omega)] at h
  exact absurd h (by decide)

theorem digitLoop_digit {b : Nat} (hb : b ≤ 36) {c : UInt8} (h : IsDigit b c = true)
    (s : List UInt8) (v : V) (o : Bool) : digitLoop add b (c :: s) v o =
      digitLoop add b s (add b v (digitOf c).toNat).1 (o || (add b v (digitOf c).toNat).2) := by
  rw [digitLoop, if_neg]
  have := (digitOf_lt hb c).2 h
  omega

/-- A number that was too large stays it. -/
theorem digitLoop_over {b : Nat} (hb : b ≤ 36) (s : List UInt8) (v : V) :
    ∃ w, digitLoop add b s v true = (w, true, s.dropWhile (IsDigit b)) := by
  induction s generalizing v with
  | nil => exact ⟨v, rfl⟩
  | cons c s ih =>
    cases h : IsDigit b c with
    | false =>
      rw [digitLoop_stop hb h, List.dropWhile_cons_of_neg (by simp [h])]
      exact ⟨v, rfl⟩
    | true =>
      rw [digitLoop_digit hb h, List.dropWhile_cons_of_pos h]
      exact ih _

theorem le_valueFrom {b : Nat} (hb : 0 < b) (n : Nat) (ds : List UInt8) : n ≤ valueFrom b n ds := by
  induction ds generalizing n with
  | nil => exact Nat.le_refl n
  | cons c ds ih =>
    calc n ≤ n * b := Nat.le_mul_of_pos_right n hb
      _ ≤ n * b + (digit? c).getD 0 := Nat.le_add_right _ _
      _ ≤ valueFrom b n (c :: ds) := ih _

/-- The loop ends behind the digits. It has their value if that is below `2 ^ 64`, and otherwise it
has seen that it is not. -/
theorem digitLoop_spec (ha : Adds zero add R) {b : Nat} (h2 : 2 ≤ b) (hb : b ≤ 36)
    (s : List UInt8) {v : V} {n : Nat} (hv : R v n) (hn : n < 2 ^ 64) :
    ∃ w, digitLoop add b s v false =
        (w, decide (2 ^ 64 ≤ valueFrom b n (s.takeWhile (IsDigit b))), s.dropWhile (IsDigit b)) ∧
      (valueFrom b n (s.takeWhile (IsDigit b)) < 2 ^ 64 →
        R w (valueFrom b n (s.takeWhile (IsDigit b)))) := by
  induction s generalizing v n with
  | nil => exact ⟨v, by rw [digitLoop, List.takeWhile_nil, valueFrom, List.foldl_nil,
      decide_eq_false (by omega), List.dropWhile_nil], fun _ => hv⟩
  | cons c s ih =>
    cases h : IsDigit b c with
    | false =>
      rw [digitLoop_stop hb h, List.dropWhile_cons_of_neg (by simp [h]),
        List.takeWhile_cons_of_neg (by simp [h])]
      exact ⟨v, by rw [valueFrom, List.foldl_nil, decide_eq_false (by omega)], fun _ => hv⟩
    | true =>
      have hd : (digitOf c).toNat < b := (digitOf_lt hb c).2 h
      have hval : valueFrom b n (c :: s.takeWhile (IsDigit b)) =
          valueFrom b (n * b + (digitOf c).toNat) (s.takeWhile (IsDigit b)) := by
        rw [valueFrom, List.foldl_cons, digitOf_value h, valueFrom]
      rw [digitLoop_digit hb h, List.dropWhile_cons_of_pos h, List.takeWhile_cons_of_pos h, hval]
      by_cases hlt : n * b + (digitOf c).toNat < 2 ^ 64
      · obtain ⟨hf, hR⟩ := ha.small h2 hb hd hv hlt
        rw [hf, Bool.false_or]
        exact ih hR hlt
      · rw [ha.large h2 hb hd hv (by omega), Bool.false_or]
        obtain ⟨w, hw⟩ : ∃ w, digitLoop add b s (add b v (digitOf c).toNat).1 true =
            (w, true, s.dropWhile (IsDigit b)) := digitLoop_over hb s _
        have hle := le_valueFrom (b := b) (by omega) (n * b + (digitOf c).toNat)
          (s.takeWhile (IsDigit b))
        refine ⟨w, ?_, fun h' => absurd h' (by omega)⟩
        rw [hw, decide_eq_true (by omega)]

end

/-! ## The parts in front of the digits -/

theorem signPrefix_none {c : UInt8} (h45 : c ≠ 45) (h43 : c ≠ 43) (s : List UInt8) :
    signPrefix (c :: s) = (false, c :: s) := by
  unfold signPrefix
  split
  · rename_i h; exact absurd (List.cons.inj h).1 h45
  · rename_i h; exact absurd (List.cons.inj h).1 h43
  · rfl

theorem scanSign_eq (s : List UInt8) : scanSign s = signPrefix s := by
  cases s with
  | nil => rfl
  | cons c s =>
    by_cases h45 : c = 45
    · rw [h45]; rfl
    · by_cases h43 : c = 43
      · rw [h43]; rfl
      · rw [signPrefix_none h45 h43]
        exact (if_neg h45).trans (if_neg h43)

/-- The prefix `0x` counts only in front of a hexadecimal digit. -/
theorem skip0x_hit {x d : UInt8} (h : (x = 120 ∨ x = 88) ∧ IsDigit 16 d) (b : Nat)
    (s : List UInt8) : skip0x b (48 :: x :: d :: s) = (16, d :: s) := by
  rw [skip0x, if_pos]
  · rfl
  · rw [isxdigit_eq]; exact h

theorem skip0x_miss {x d : UInt8} (h : ¬((x = 120 ∨ x = 88) ∧ IsDigit 16 d)) (b : Nat)
    (s : List UInt8) : skip0x b (48 :: x :: d :: s) = (b, 48 :: x :: d :: s) := by
  rw [skip0x, if_neg]
  rw [isxdigit_eq]; exact h

theorem skip0x_short {s : List UInt8} (h : s.length ≤ 1) (b : Nat) :
    skip0x b (48 :: s) = (b, 48 :: s) := by
  rw [skip0x, if_neg]
  rintro ⟨-, hx⟩
  have hd : s.tail = [] := List.eq_nil_of_length_eq_zero (by simp; omega)
  rw [List.tail_cons, hd] at hx
  exact absurd hx (by decide)

theorem scanBase_digit {base : Nat} (h : BaseOk base) {s : List UInt8} (hs : peek s ≠ 48) :
    scanBase base s = some (if base = 0 then 10 else base, s) := by
  rw [scanBase, if_neg (by tauto)]
  by_cases h0 : base = 0
  · rw [if_neg (by omega), if_neg hs, if_pos h0]
  · have hb : usub 32 base 2 = base - 2 := usub_of_le (by unfold BaseOk at h; omega)
      (by unfold BaseOk at h; omega)
    rw [if_pos h0, if_neg (by unfold BaseOk at h; omega), if_neg h0]

theorem scanBase_zero {base : Nat} (h : BaseOk base) (s : List UInt8) :
    scanBase base (48 :: s) = some (if base = 0 ∨ base = 16 then
      skip0x (if base = 0 then 8 else base) (48 :: s) else (base, 48 :: s)) := by
  have hp : peek (48 :: s) = 48 := rfl
  unfold scanBase
  by_cases h16 : base = 16
  · rw [if_pos ⟨h16, hp⟩, if_pos (.inr h16), if_neg (by omega), h16]
  · rw [if_neg (fun h' => h16 h'.1)]
    by_cases h0 : base = 0
    · rw [if_neg (by omega), if_pos hp, if_pos (.inl h0), if_pos h0]
    · have hb : usub 32 base 2 = base - 2 := usub_of_le (by unfold BaseOk at h; omega)
        (by unfold BaseOk at h; omega)
      rw [if_pos h0, if_neg (by unfold BaseOk at h; omega), if_neg (by omega)]

theorem basePrefix_digit {s : List UInt8} (hs : peek s ≠ 48) (base : Nat) :
    basePrefix base s = (if base = 0 then 10 else base, s) := by
  unfold basePrefix
  split
  · exact absurd rfl hs
  · exact absurd rfl hs
  · rfl

theorem scanBase_eq {base : Nat} (h : BaseOk base) (s : List UInt8) :
    scanBase base s = some (basePrefix base s) := by
  by_cases hs : peek s = 48
  · obtain ⟨s', rfl⟩ : ∃ s', s = 48 :: s' := by
      cases s with
      | nil => exact absurd hs (by decide)
      | cons c s' => exact ⟨s', by rw [show c = 48 from hs]⟩
    rw [scanBase_zero h]
    rcases s' with - | ⟨x, - | ⟨d, s'⟩⟩
    · rw [skip0x_short (by simp), basePrefix]
      · by_cases h0 : base = 0 <;> simp [h0]
      · simp
    · rw [skip0x_short (by simp), basePrefix]
      · by_cases h0 : base = 0 <;> simp [h0]
      · simp
    · rw [basePrefix]
      by_cases hx : (x = 120 ∨ x = 88) ∧ IsDigit 16 d
      · rw [skip0x_hit hx]
        by_cases h0 : base = 0 ∨ base = 16
        · rw [if_pos h0, if_pos ⟨h0, hx⟩]
        · rw [if_neg h0, if_neg (fun h' => h0 h'.1), if_neg (by tauto)]
      · rw [skip0x_miss hx, if_neg (c := _ ∧ _) (fun h' => hx h'.2)]
        by_cases h0 : base = 0
        · rw [if_pos (.inl h0)]
        · rw [if_neg h0, ite_self]
  · rw [scanBase_digit h hs, basePrefix_digit hs]

theorem basePrefix_ok {base : Nat} (h : BaseOk base) (s : List UInt8) :
    2 ≤ (basePrefix base s).1 ∧ (basePrefix base s).1 ≤ 36 := by
  unfold BaseOk at h
  unfold basePrefix
  split <;> split <;> simp only <;> (try split) <;> omega

/-- A prefix that is skipped has a digit behind it. -/
theorem basePrefix_skips (base : Nat) (s : List UInt8) : (basePrefix base s).2 = s ∨
    ∃ d s', (basePrefix base s).2 = d :: s' ∧ IsDigit (basePrefix base s).1 d ∧
      s'.length + 1 < s.length := by
  unfold basePrefix
  split
  · split
    · rename_i s' h
      exact .inr ⟨_, s', rfl, h.2.2, by simp⟩
    · exact .inl rfl
  · exact .inl rfl
  · exact .inl rfl

theorem basePrefix_length (base : Nat) (s : List UInt8) :
    (basePrefix base s).2.length ≤ s.length := by
  rcases basePrefix_skips base s with h | ⟨d, s', h, -, hlt⟩
  · rw [h]
  · rw [h, List.length_cons]; omega

theorem length_takeWhile_add (p : UInt8 → Bool) (s : List UInt8) :
    (s.takeWhile p).length + (s.dropWhile p).length = s.length := by
  rw [← List.length_append, List.takeWhile_append_dropWhile]

/-- The pointer is back where it was in front of the prefix exactly if there is no digit. -/
theorem noDigits_iff (base : Nat) (s : List UInt8) :
    ((basePrefix base s).2.dropWhile (IsDigit (basePrefix base s).1)).length = s.length ↔
      (basePrefix base s).2.takeWhile (IsDigit (basePrefix base s).1) = [] := by
  have hsum := length_takeWhile_add (IsDigit (basePrefix base s).1) (basePrefix base s).2
  rcases basePrefix_skips base s with h | ⟨d, s', h, hd, hlen⟩
  · rw [h] at hsum ⊢
    rw [← List.length_eq_zero_iff]
    omega
  · rw [h] at hsum ⊢
    rw [List.takeWhile_cons_of_pos hd] at hsum ⊢
    simp only [List.length_cons] at hsum
    constructor
    · intro h'; omega
    · intro h'; exact absurd h' (by simp)

theorem dropWhile_isspace (s : List UInt8) : s.dropWhile isspace = s.dropWhile isWhite := by
  rw [show isspace = isWhite from funext isspace_eq]

/-! ## The result -/

/-- The number behind its sign, as an `unsigned long`. -/
def unsignedOf (neg : Bool) (n : Nat) : Nat := if neg then (2 ^ 64 - n) % 2 ^ 64 else n

/-- What `strtoul` returns for a number: its value, or the largest `unsigned long`. -/
def ulongOf (p : Subject) (errno : Nat) : Outcome Nat :=
  if p.value < 2 ^ 64 then ⟨unsignedOf p.neg p.value, some p.rest, errno⟩
  else ⟨2 ^ 64 - 1, some p.rest, ERANGE⟩

section

variable {V : Type} {zero : V} {add : Nat → V → Nat → V × Bool} {value : Bool → V → Nat}
  {R : V → Nat → Prop}

theorem strtou_eq (ha : Adds zero add R)
    (hv : ∀ neg v n, R v n → n < 2 ^ 64 → value neg v = unsignedOf neg n)
    {base : Nat} (h : BaseOk base) (s : List UInt8) (errno : Nat) :
    strtou zero add value s base errno =
      if (subject s base).digits = [] then ⟨0, some s, EINVAL⟩
      else ulongOf (subject s base) errno := by
  unfold strtou ulongOf subject Subject.value
  rw [dropWhile_isspace, scanSign_eq]
  obtain ⟨neg, orig⟩ := signPrefix (s.dropWhile isWhite)
  have hok := basePrefix_ok h orig
  have hno := noDigits_iff base orig
  simp only [scanBase_eq h]
  generalize basePrefix base orig = p at hok hno ⊢
  obtain ⟨b, t⟩ := p
  obtain ⟨w, hloop, hw⟩ := digitLoop_spec ha hok.1 hok.2 t ha.start (by norm_num)
  simp only at hloop hw hno ⊢
  rw [hloop]
  by_cases hd : t.takeWhile (IsDigit b) = []
  · rw [if_pos hd, hd]
    simp only [if_pos (hno.2 hd)]
    rw [if_neg (by simp [valueFrom]), hv neg zero 0 ha.start (by norm_num)]
    cases neg <;> rfl
  · rw [if_neg hd]
    simp only [if_neg (fun h' => hd (hno.1 h'))]
    by_cases hlt : valueFrom b 0 (t.takeWhile (IsDigit b)) < 2 ^ 64
    · rw [if_neg (by simp; omega), if_pos hlt, hv neg w _ (hw hlt) hlt]
    · rw [if_pos (by simp; omega), if_neg hlt]
end

/-! ## The two ways to put a digit behind a number -/

theorem split_digit (n b d : Nat) : n * b + d = n / 2 ^ 8 * b * 2 ^ 8 + (n % 2 ^ 8 * b + d) := by
  conv_lhs => rw [← Nat.div_add_mod n (2 ^ 8)]
  ring

theorem high_bound {n b : Nat} (hn : n < 2 ^ 64) (hb : b ≤ 36) : n / 2 ^ 8 * b ≤ 36 * 2 ^ 56 :=
  calc n / 2 ^ 8 * b ≤ 2 ^ 56 * 36 := Nat.mul_le_mul (by omega) hb
    _ = 36 * 2 ^ 56 := Nat.mul_comm _ _

theorem low_bound {n b d : Nat} (hb : b ≤ 36) (hd : d < b) : n % 2 ^ 8 * b + d ≤ 9215 :=
  calc n % 2 ^ 8 * b + d ≤ 255 * 36 + 35 :=
        Nat.add_le_add (Nat.mul_le_mul (by omega) hb) (by omega)
    _ = 9215 := rfl

theorem addUlong_small {v b d : Nat} (hb : b ≤ 36) (hd : d < b) (hv : v < 2 ^ 64)
    (hN : v * b + d < 2 ^ 64) : addUlong b v d = (v * b + d, false) := by
  have hs := split_digit v b d
  have hp := high_bound hv hb
  have hq := low_bound (n := v) hb hd
  unfold addUlong
  generalize v / 2 ^ 8 * b = p at hs hp ⊢
  generalize v % 2 ^ 8 * b + d = q at hs hq ⊢
  rw [Prod.mk.injEq, decide_eq_false_iff_not]
  omega

theorem addUlong_large {v b d : Nat} (hb : b ≤ 36) (hd : d < b) (hv : v < 2 ^ 64)
    (hN : 2 ^ 64 ≤ v * b + d) : (addUlong b v d).2 = true := by
  have hs := split_digit v b d
  have hp := high_bound hv hb
  have hq := low_bound (n := v) hb hd
  unfold addUlong
  generalize v / 2 ^ 8 * b = p at hs hp ⊢
  generalize v % 2 ^ 8 * b + d = q at hs hq ⊢
  simp only [decide_eq_true_eq]
  omega

/-- An `unsigned long` is the number it stands for. -/
def Holds (v n : Nat) : Prop := v = n ∧ n < 2 ^ 64

theorem adds_ulong : Adds 0 addUlong Holds where
  start := ⟨rfl, by norm_num⟩
  small {b n d v} h2 hb hd hv hN := by
    obtain ⟨rfl, hn⟩ := hv
    rw [addUlong_small hb hd hn hN]
    exact ⟨rfl, rfl, hN⟩
  large {b n d v} h2 hb hd hv hN := by
    obtain ⟨rfl, hn⟩ := hv
    exact addUlong_large hb hd hn hN

/-- Below `2 ^ 63` a `long long` does what an `unsigned long` does. -/
theorem addLonglong_low {n b d : Nat} (h : n < 2 ^ 63) : addLonglong b (conv 64 n) d =
    (conv 64 (addUlong b n d).1, (addUlong b n d).2) := by
  have hr : ((n : Int) % 2 ^ 8).toNat = n % 2 ^ 8 := by omega
  have hw (x : Nat) : (((n : Int) / 2 ^ 8 * b + x) % 2 ^ 64).toNat =
      (n / 2 ^ 8 * b + x) % 2 ^ 64 := by
    rw [show (n : Int) / 2 ^ 8 * b + x = ((n / 2 ^ 8 * b + x : Nat) : Int) by push_cast; rfl]
    generalize n / 2 ^ 8 * b + x = y
    omega
  rw [conv_low (by decide) h, addLonglong, addUlong, hr, hw]

/-- From `2 ^ 63` on the shifted value is negative, and the sum is seen to be too large. -/
theorem addLonglong_high {n b d : Nat} (h2 : 2 ≤ b) (hb : b ≤ 36) (hd : d < b) (h : 2 ^ 63 ≤ n)
    (h' : n < 2 ^ 64) : (addLonglong b (conv 64 n) d).2 = true := by
  have hr : (((n : Int) - 2 ^ 64) % 2 ^ 8).toNat = n % 2 ^ 8 := by omega
  have hq : ((n : Int) - 2 ^ 64) / 2 ^ 8 = -((2 ^ 56 - n / 2 ^ 8 : Nat) : Int) := by omega
  have hp : (2 ^ 56 - n / 2 ^ 8) * b ≤ 2 ^ 55 * 36 := Nat.mul_le_mul (by omega) hb
  have hlow : 1 * b ≤ (2 ^ 56 - n / 2 ^ 8) * b := Nat.mul_le_mul (by omega) (Nat.le_refl b)
  have hx : (n % 2 ^ 8 * b + d) / 2 ^ 8 < b := by
    rw [Nat.div_lt_iff_lt_mul (by decide)]
    calc n % 2 ^ 8 * b + d < 255 * b + b :=
          Nat.add_lt_add_of_le_of_lt (Nat.mul_le_mul (by omega) (Nat.le_refl b)) hd
      _ = b * 2 ^ 8 := by ring
  have hxs := low_bound (n := n) hb hd
  rw [conv_high (by decide) h h', addLonglong, hr, hq, Int.neg_mul, ← Int.natCast_mul]
  generalize (2 ^ 56 - n / 2 ^ 8) * b = p at hp hlow ⊢
  generalize n % 2 ^ 8 * b + d = q at hx hxs ⊢
  simp only [decide_eq_true_eq]
  omega

/-- A `long long` holds the bits of the number it stands for. -/
structure HoldsSigned (v : Int) (n : Nat) : Prop where
  bits : v = conv 64 n
  bound : n < 2 ^ 64

theorem adds_longlong : Adds 0 addLonglong HoldsSigned where
  start := ⟨rfl, by norm_num⟩
  small {b n d v} h2 hb hd hv hN := by
    obtain ⟨hv, hn⟩ := hv
    have hlow : n < 2 ^ 63 := by
      have : n * 2 ≤ n * b := Nat.mul_le_mul_left n h2
      omega
    rw [hv, addLonglong_low hlow, addUlong_small hb hd hn hN]
    dsimp only
    exact ⟨rfl, ⟨rfl, hN⟩⟩
  large {b n d v} h2 hb hd hv hN := by
    obtain ⟨hv, hn⟩ := hv
    rw [hv]
    by_cases hlow : n < 2 ^ 63
    · rw [addLonglong_low hlow]
      dsimp only
      exact addUlong_large hb hd hn hN
    · exact addLonglong_high h2 hb hd (by omega) hn

theorem value_ulong (neg : Bool) (v n : Nat) (h : Holds v n) (hn : n < 2 ^ 64) :
    (if neg then usub 64 0 v else v) = unsignedOf neg n := by
  obtain ⟨rfl, -⟩ := h
  rw [usub, unsignedOf, Nat.zero_add]

theorem value_longlong (neg : Bool) (v : Int) (n : Nat) (h : HoldsSigned v n) (hn : n < 2 ^ 64) :
    ((if neg then -v else v) % 2 ^ 64).toNat = unsignedOf neg n := by
  unfold unsignedOf
  rw [h.bits]
  by_cases h63 : n < 2 ^ 63
  · rw [conv_low (by decide) h63]
    cases neg
    · simp only [Bool.false_eq_true, if_false]; omega
    · simp only [if_true]; omega
  · rw [conv_high (by decide) (by omega) hn]
    cases neg
    · simp only [Bool.false_eq_true, if_false]; omega
    · simp only [if_true]; omega

/-! ## `strtoul` and `strtoull` -/

theorem strtoul_eq {base : Nat} (h : BaseOk base) (s : List UInt8) (errno : Nat) :
    strtoul s base errno = if (subject s base).digits = [] then ⟨0, some s, EINVAL⟩
      else ulongOf (subject s base) errno :=
  strtou_eq adds_ulong value_ulong h s errno

theorem strtoull_eq {base : Nat} (h : BaseOk base) (s : List UInt8) (errno : Nat) :
    strtoull s base errno = strtoul s base errno := by
  rw [strtoull, strtou_eq adds_longlong value_longlong h, strtoul,
    strtou_eq adds_ulong value_ulong h]


/-- **`strtoul` computes the value of the number in front of the string**: the number of its digits,
negated as an `unsigned long` behind a `-`, with `*endptr` behind them; `ULONG_MAX` and `ERANGE` if
they are too many; and 0 with `*endptr` at the start if there are none. -/
theorem strtoul_computes {base : Nat} (h : BaseOk base) (s : List UInt8) (errno : Nat) :
    strtoul s base errno = (if (subject s base).digits = [] then ⟨0, some s, EINVAL⟩
      else ulongOf (subject s base) errno) ∧
    (errno ≠ ERANGE → ((strtoul s base errno).errno = ERANGE ↔
      (subject s base).digits ≠ [] ∧ 2 ^ 64 ≤ (subject s base).value)) := by
  refine ⟨strtoul_eq h s errno, fun he => ?_⟩
  rw [strtoul_eq h]
  by_cases hd : (subject s base).digits = []
  · rw [if_pos hd]
    exact iff_of_false (show EINVAL ≠ ERANGE by decide) fun h' => h'.1 hd
  · rw [if_neg hd, ulongOf]
    by_cases hv : (subject s base).value < 2 ^ 64
    · rw [if_pos hv]
      exact iff_of_false he fun h' => by omega
    · rw [if_neg hv]
      exact iff_of_true rfl ⟨hd, by omega⟩

/-- ` -0x1fg` -/
theorem strtoul_computes_hex : strtoul [32, 45, 48, 120, 49, 102, 103] 16 0 =
    ⟨2 ^ 64 - 31, some [103], 0⟩ := by
  rw [(strtoul_computes (.inr (by decide)) _ _).1]
  decide

end Dietlibc.Number
