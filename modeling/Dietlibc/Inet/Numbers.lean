import Dietlibc.Inet.Address

/-!
# Groups and octets

The numbers of an address text: a group is one to four hexadecimal digits, an octet a decimal
number up to 255 without leading zeros, and a quad four octets with dots. `strtoul`, `strtol` and
`inet_aton` read them up to what follows.
-/

namespace Dietlibc.Inet

open Lib

variable {c : Char} {t r : List Char} {b : UInt8}

/-- A hexadecimal digit. -/
def HexDigit (c : Char) : Prop := c.isDigit ∨ ('a' ≤ c ∧ c ≤ 'f') ∨ ('A' ≤ c ∧ c ≤ 'F')

instance (c : Char) : Decidable (HexDigit c) := inferInstanceAs (Decidable (_ ∨ _))

/-- The value of a hexadecimal digit. -/
def hexVal (c : Char) : Nat :=
  if c.isDigit then c.toNat - 48 else if 'a' ≤ c then c.toNat - 97 + 10 else c.toNat - 65 + 10

/-- The value of hexadecimal digits read on from `v`. -/
def hexFrom : Nat → List Char → Nat
  | v, [] => v
  | v, c :: cs => hexFrom (v * 16 + hexVal c) cs

/-- The value of hexadecimal digits. -/
def hexadecimal (t : List Char) : Nat := hexFrom 0 t

/-- A group of an address: one to four hexadecimal digits. -/
structure Group (t : List Char) : Prop where
  nonempty : t ≠ []
  length_le : t.length ≤ 4
  digits : ∀ c ∈ t, HexDigit c

/-- `t` is the byte `b` in decimal, without leading zeros. -/
structure Octet (t : List Char) (b : UInt8) : Prop where
  nonempty : t ≠ []
  length_le : t.length ≤ 3
  digits : ∀ c ∈ t, c.isDigit
  lead : t.head? = some '0' → t = ['0']
  value : decimal t = b.toNat

/-- A dotted quad and its bytes. -/
inductive Quad : List Char → List UInt8 → Prop where
  | mk {t₀ t₁ t₂ t₃ : List Char} {b₀ b₁ b₂ b₃ : UInt8} : Octet t₀ b₀ → Octet t₁ b₁ →
      Octet t₂ b₂ → Octet t₃ b₃ →
      Quad (t₀ ++ '.' :: (t₁ ++ '.' :: (t₂ ++ '.' :: t₃))) [b₀, b₁, b₂, b₃]

/-- What follows a number in an address text. -/
def Delim (r : List Char) : Prop := ∀ c, r.head? = some c → c = ':' ∨ c = '.' ∨ c = '%'

/-! ## Digits -/

theorem hexDigit_cases (h : HexDigit c) :
    (48 ≤ c.toNat ∧ c.toNat ≤ 57) ∨ (97 ≤ c.toNat ∧ c.toNat ≤ 102) ∨
      (65 ≤ c.toNat ∧ c.toNat ≤ 70) := by
  rcases h with h | h | h
  · simp only [Char.isDigit, Bool.and_eq_true, decide_eq_true_eq] at h
    exact .inl h
  · exact .inr (.inl h)
  · exact .inr (.inr h)

theorem digitVal_hex (h : HexDigit c) : digitVal c = hexVal c ∧ hexVal c < 16 := by
  by_cases hd : c.isDigit
  · obtain ⟨h1, h2⟩ := digitVal_digit hd
    rw [hexVal, if_pos hd]
    omega
  · have hn : ¬ (48 ≤ c.toNat ∧ c.toNat ≤ 57) := by
      intro hn
      apply hd
      simp only [Char.isDigit, Bool.and_eq_true, decide_eq_true_eq]
      exact hn
    have hcases := (hexDigit_cases h).resolve_left hn
    have ha : 'a' ≤ c ↔ 97 ≤ c.toNat := Iff.rfl
    have hA : 'A' ≤ c ↔ 65 ≤ c.toNat := Iff.rfl
    unfold digitVal hexVal
    rw [if_neg hd]
    by_cases h97 : 97 ≤ c.toNat
    · rw [if_pos (ha.mpr h97), if_pos (ha.mpr h97)]
      omega
    · rw [if_neg (fun h => h97 (ha.mp h)), if_neg (fun h => h97 (ha.mp h)),
        if_pos (hA.mpr (by omega))]
      omega

theorem hexDigit_ne (h : HexDigit c) :
    isspace c = false ∧ c ≠ '-' ∧ c ≠ '+' ∧ c ≠ 'x' ∧ c ≠ 'X' ∧ c ≠ ':' ∧ c ≠ '.' ∧ c ≠ '%' := by
  have hcases := hexDigit_cases h
  have hne : ∀ d : Char, ¬ ((48 ≤ d.toNat ∧ d.toNat ≤ 57) ∨ (97 ≤ d.toNat ∧ d.toNat ≤ 102) ∨
      (65 ≤ d.toNat ∧ d.toNat ≤ 70)) → c ≠ d := by
    rintro d hd rfl
    exact hd hcases
  refine ⟨?_, hne _ (by decide), hne _ (by decide), hne _ (by decide), hne _ (by decide),
    hne _ (by decide), hne _ (by decide), hne _ (by decide)⟩
  simp only [isspace, hne ' ' (by decide), decide_false, Bool.or_false, Bool.and_eq_false_iff,
    decide_eq_false_iff_not]
  omega

theorem hexDigit_of_isDigit (h : c.isDigit) : HexDigit c := .inl h

theorem delim_nil : Delim [] := fun _ h => by cases h

theorem delim_cons (hc : c = ':' ∨ c = '.' ∨ c = '%') (cs : List Char) : Delim (c :: cs) := by
  intro x hx
  cases hx
  exact hc

theorem delim_digitVal (h : Delim r) : ∀ c, r.head? = some c → 16 ≤ digitVal c := by
  intro c hc
  rcases h c hc with rfl | rfl | rfl <;> decide

theorem delim_noDigit (h : Delim r) : NoDigit r := fun c hc =>
  le_trans (by decide) (delim_digitVal h c hc)

/-! ## Groups -/

theorem strtoulLoop_hex (hd : ∀ c ∈ t, HexDigit c) (hr : Delim r) {v n : Nat}
    (hv : v < 16 ^ n) (hn : n + t.length ≤ 15) :
    strtoulLoop 16 (t ++ r) v false = (hexFrom v t, false, r) ∧
      hexFrom v t < 16 ^ (n + t.length) := by
  induction t generalizing v n with
  | nil =>
    refine ⟨?_, hv⟩
    cases r with
    | nil => rfl
    | cons c r =>
      rw [List.nil_append, strtoulLoop, if_pos (delim_digitVal hr c rfl)]
      rfl
  | cons c t ih =>
    obtain ⟨he, hlt⟩ := digitVal_hex (hd c List.mem_cons_self)
    rw [List.length_cons] at hn
    have hpow : v * 16 + hexVal c < 16 ^ (n + 1) := by
      rw [pow_succ]
      omega
    have hle : 16 ^ (n + 1) ≤ 16 ^ 15 := Nat.pow_le_pow_right (by decide) (by omega)
    have hstep : strtoulLoop 16 (c :: (t ++ r)) v false =
        strtoulLoop 16 (t ++ r) (v * 16 + hexVal c) false := by
      conv_lhs => rw [strtoulLoop]
      rw [he, if_neg (by omega)]
      dsimp only
      have h1 : (v / 256 * 16 + (v % 256 * 16 + hexVal c) / 256) * 256 % 2 ^ 64 +
          (v % 256 * 16 + hexVal c) % 256 = v * 16 + hexVal c := by omega
      have h2 : ¬ (2 ^ 64 - 1) / 256 < v / 256 * 16 + (v % 256 * 16 + hexVal c) / 256 := by omega
      rw [h1, decide_eq_false h2, Bool.false_or]
    obtain ⟨ih1, ih2⟩ := ih (fun x hx => hd x (List.mem_cons_of_mem _ hx)) hpow
      (by omega)
    refine ⟨?_, ?_⟩
    · rw [List.cons_append, hstep]
      exact ih1
    · rw [List.length_cons, show n + (t.length + 1) = n + 1 + t.length by omega]
      exact ih2

theorem strtoulBase_hex (hd : ∀ c ∈ t, HexDigit c) (hne : t ≠ []) (hr : Delim r) :
    strtoulBase 16 (t ++ r) = (16, t ++ r) := by
  unfold strtoulBase
  split
  · rename_i x d cs he
    -- the character behind a leading zero is a digit or what follows the number
    have hx : x ≠ 'x' ∧ x ≠ 'X' := by
      match t, hne with
      | [c], _ =>
        rw [List.singleton_append, List.cons.injEq] at he
        rcases hr x (by rw [he.2]; rfl) with rfl | rfl | rfl <;> decide
      | c :: c' :: t', _ =>
        simp only [List.cons_append, List.cons.injEq] at he
        have hc' := hexDigit_ne (hd c' (by simp))
        rw [he.2.1] at hc'
        exact ⟨hc'.2.2.2.1, hc'.2.2.2.2.1⟩
    rw [if_neg (fun h => by simp [hx] at h)]
    rfl
  · rfl
  · rfl

theorem strtoulSign_hex (h : HexDigit c) (cs : List Char) :
    strtoulSign (c :: cs) = (false, c :: cs) := by
  have hne := hexDigit_ne h
  unfold strtoulSign
  split
  · rename_i he
    cases he
    exact absurd rfl hne.2.1
  · rename_i he
    cases he
    exact absurd rfl hne.2.2.1
  · rfl

/-- `strtoul` reads a group to its end. -/
theorem strtoul_group (ht : Group t) (hr : Delim r) :
    strtoul (t ++ r) 16 = (hexadecimal t, r, .unset) ∧ hexadecimal t < 65536 := by
  obtain ⟨hloop, hlt⟩ := strtoulLoop_hex ht.digits hr (v := 0) (n := 0) (by decide)
    (by have := ht.length_le; omega)
  refine ⟨?_, lt_of_lt_of_le hlt ?_⟩
  · have hbase := strtoulBase_hex ht.digits ht.nonempty hr
    obtain ⟨c, t', rfl⟩ := List.exists_cons_of_ne_nil ht.nonempty
    have hc := ht.digits c List.mem_cons_self
    unfold strtoul
    rw [List.cons_append, List.dropWhile_cons_of_neg (by simp [(hexDigit_ne hc).1])]
    simp only [strtoulSign_hex hc]
    rw [← List.cons_append, hbase]
    simp only [hloop]
    rw [if_neg (by simp only [List.length_append, List.length_cons]; omega)]
    rfl
  · rw [show 65536 = 16 ^ 4 by decide]
    exact Nat.pow_le_pow_right (by decide) (by have := ht.length_le; omega)

/-- `strtol` reads a group to its end. -/
theorem strtol_group (ht : Group t) (hr : Delim r) :
    strtol (t ++ r) 16 = ((hexadecimal t : Int), r) := by
  obtain ⟨hul, hlt⟩ := strtoul_group ht hr
  obtain ⟨c, t', rfl⟩ := List.exists_cons_of_ne_nil ht.nonempty
  have hne := hexDigit_ne (ht.digits c List.mem_cons_self)
  unfold strtol
  rw [List.cons_append, List.dropWhile_cons_of_neg (by simp [hne.1]), ← List.cons_append,
    strtolSign_of_ne (fun x hx => by cases hx; exact hne.2.1)]
  simp only [hul]
  have hlen : ¬ r.length = (c :: t' ++ r).length := by
    simp only [List.length_append, List.length_cons]
    omega
  rw [if_neg (by omega), if_neg (by simp), if_neg hlen]

/-- No number starts with a delimiter. -/
theorem strtoul_delim (hc : c = ':' ∨ c = '.' ∨ c = '%') (cs : List Char) :
    strtoul (c :: cs) 16 = (0, c :: cs, .einval) ∧ strtol (c :: cs) 16 = (0, c :: cs) := by
  have hsp : isspace c = false := by rcases hc with rfl | rfl | rfl <;> decide
  have hminus : c ≠ '-' := by rcases hc with rfl | rfl | rfl <;> decide
  have hplus : c ≠ '+' := by rcases hc with rfl | rfl | rfl <;> decide
  have hzero : c ≠ '0' := by rcases hc with rfl | rfl | rfl <;> decide
  have hdig := delim_digitVal (delim_cons hc cs) c rfl
  have hdrop : (c :: cs).dropWhile isspace = c :: cs := List.dropWhile_cons_of_neg (by simp [hsp])
  have hsign : strtoulSign (c :: cs) = (false, c :: cs) := by
    unfold strtoulSign
    split
    · rename_i he
      exact absurd (List.cons.inj he).1 hminus
    · rename_i he
      exact absurd (List.cons.inj he).1 hplus
    · rfl
  have hbase : strtoulBase 16 (c :: cs) = (16, c :: cs) := by
    unfold strtoulBase
    split
    · rename_i he
      exact absurd (List.cons.inj he).1 hzero
    · rfl
    · rfl
  have hloop : strtoulLoop 16 (c :: cs) 0 false = (0, false, c :: cs) := by
    rw [strtoulLoop, if_pos hdig]
  have hul : strtoul (c :: cs) 16 = (0, c :: cs, .einval) := by
    unfold strtoul
    simp only [hdrop, hsign, hbase, hloop, if_true]
  refine ⟨hul, ?_⟩
  unfold strtol
  rw [hdrop, strtolSign_of_ne (fun x hx => by cases hx; exact hminus)]
  simp only [hul, if_true]
  rfl

/-! ## Octets and quads -/

theorem Octet.group (ht : Octet t b) : Group t :=
  ⟨ht.nonempty, le_trans ht.length_le (by decide), fun c hc => hexDigit_of_isDigit (ht.digits c hc)⟩

theorem strtoulBase_lead (hc : c ≠ '0') (cs : List Char) :
    strtoulBase 0 (c :: cs) = (10, c :: cs) := by
  unfold strtoulBase
  split
  · rename_i he
    exact absurd (List.cons.inj he).1 hc
  · rename_i he
    exact absurd (List.cons.inj he).1 hc
  · rfl

/-- A lone zero is read as an octal number. -/
theorem strtoul_zero (hr : Delim r) : strtoul ('0' :: r) 0 = (0, r, .unset) := by
  have hbase : strtoulBase 0 ('0' :: r) = (8, '0' :: r) := by
    unfold strtoulBase
    split
    · rename_i x d cs he
      cases he
      rw [if_neg ?_]
      · rfl
      · rintro ⟨-, hx, -⟩
        rcases hr x rfl with rfl | rfl | rfl <;> exact absurd hx (by decide)
    · rfl
    · rename_i h1 h2
      exact absurd rfl (h2 r)
  have hloop : strtoulLoop 8 ('0' :: r) 0 false = (0, false, r) := by
    rw [strtoulLoop, if_neg (by decide)]
    cases r with
    | nil => rfl
    | cons c r =>
      rw [strtoulLoop, if_pos (le_trans (by decide) (delim_digitVal hr c rfl))]
      rfl
  unfold strtoul
  rw [List.dropWhile_cons_of_neg (by decide)]
  simp only [strtoulSign_hex (c := '0') (by decide), hbase, hloop]
  rw [if_neg (by simp)]
  rfl

/-- `strtoul` reads an octet to its end. -/
theorem strtoul_octet (ht : Octet t b) (hr : Delim r) :
    strtoul (t ++ r) 0 = (b.toNat, r, .unset) := by
  obtain ⟨c, ds, rfl⟩ := List.exists_cons_of_ne_nil ht.nonempty
  by_cases h0 : c = '0'
  · subst h0
    have hds := ht.lead rfl
    have hv := ht.value
    rw [hds] at hv ⊢
    rw [← hv, List.singleton_append, strtoul_zero hr]
    rfl
  · have hc := ht.digits c List.mem_cons_self
    have hb := b.toNat_lt
    have hv : decimal (c :: ds) < 2 ^ 64 := by
      rw [ht.value]
      omega
    unfold strtoul
    rw [List.cons_append, List.dropWhile_cons_of_neg (by simp [digit_not_space hc])]
    simp only [digit_sign hc, strtoulBase_lead h0]
    rw [← List.cons_append, strtoulLoop_digits ht.digits (delim_noDigit hr) hv]
    simp only [List.length_append, List.length_cons]
    rw [if_neg (by omega), ← ht.value]
    rfl

/-- A turn of `inet_aton` at an octet with a dot behind it. -/
theorem atonLoop_dot (ht : Octet t b) (r : List Char) (i ip : Nat) :
    atonLoop (t ++ '.' :: r) i ip =
      atonLoop r (if 0 < i then i - 8 else i) (ip ||| (b.toNat <<< i) % 2 ^ 32) := by
  have hs := strtoul_octet ht (delim_cons (.inr (.inl rfl)) r)
  have hb := b.toNat_lt
  rw [atonLoop_eq, hs]
  dsimp only
  rw [if_pos rfl, if_neg (by omega)]

/-- The last turn of `inet_aton`. -/
theorem atonLoop_last (ht : Octet t b) (i ip : Nat) :
    atonLoop t i ip = some (ip ||| b.toNat % 2 ^ 32) := by
  have hs := strtoul_octet ht delim_nil
  rw [List.append_nil] at hs
  rw [atonLoop_eq, hs]

theorem atonLoop_zone (ht : Octet t b) (z : List Char) (i ip : Nat) :
    atonLoop (t ++ '%' :: z) i ip = none := by
  have hs := strtoul_octet ht (delim_cons (.inr (.inr rfl)) z)
  rw [atonLoop_eq, hs]
  dsimp only
  rw [if_neg (by decide)]

/-- One more byte below the others. -/
theorem or_byte (a k : Nat) {n : Nat} (hn : n < 256) :
    a <<< (k + 8) ||| n <<< k = (a * 256 + n) <<< k := by
  have h := Nat.shiftLeft_add_eq_or_of_lt (i := 8) hn a
  rw [show a * 256 + n = a <<< 8 ||| n from h ▸ by rw [Nat.shiftLeft_eq],
    Nat.shiftLeft_or_distrib, ← Nat.shiftLeft_add, Nat.add_comm]

theorem byte_shiftLeft {n k : Nat} (hn : n < 256) (hk : k ≤ 24) : (n <<< k) % 2 ^ 32 = n <<< k := by
  apply Nat.mod_eq_of_lt
  rw [Nat.shiftLeft_eq]
  calc n * 2 ^ k < 2 ^ 8 * 2 ^ k := Nat.mul_lt_mul_of_pos_right hn (Nat.two_pow_pos k)
    _ = 2 ^ (8 + k) := (Nat.pow_add 2 8 k).symm
    _ ≤ 2 ^ 32 := Nat.pow_le_pow_right (by decide) (by omega)

theorem ofNat_byte {n : Nat} (h : n % 256 = b.toNat) : UInt8.ofNat n = b := by
  apply UInt8.toNat_inj.mp
  rw [UInt8.toNat_ofNat']
  exact h

/-- Four bytes put together are taken apart again. -/
theorem htonl_bytes (b₀ b₁ b₂ b₃ : UInt8) :
    htonl ((((0 ||| (b₀.toNat <<< 24) % 2 ^ 32) ||| (b₁.toNat <<< 16) % 2 ^ 32) |||
      (b₂.toNat <<< 8) % 2 ^ 32) ||| b₃.toNat % 2 ^ 32) = [b₀, b₁, b₂, b₃] := by
  have h₀ := b₀.toNat_lt
  have h₁ := b₁.toNat_lt
  have h₂ := b₂.toNat_lt
  have h₃ := b₃.toNat_lt
  have h := byte_shiftLeft h₃ (k := 0) (by decide)
  rw [Nat.shiftLeft_zero] at h
  rw [byte_shiftLeft h₀ (by decide), byte_shiftLeft h₁ (by decide), byte_shiftLeft h₂ (by decide), h,
    Nat.zero_or, or_byte _ 16 h₁, or_byte _ 8 h₂]
  have hlast := or_byte ((b₀.toNat * 256 + b₁.toNat) * 256 + b₂.toNat) 0 h₃
  rw [Nat.shiftLeft_zero, Nat.shiftLeft_zero] at hlast
  rw [hlast, htonl]
  simp only [Nat.shiftRight_eq_div_pow]
  rw [ofNat_byte (b := b₀) (by omega), ofNat_byte (b := b₁) (by omega),
    ofNat_byte (b := b₂) (by omega), ofNat_byte (b := b₃) (by omega)]

/-- `inet_aton` of a quad. -/
theorem inetAton_quad {q : List UInt8} (h : Quad t q) : inetAton t = some q := by
  obtain ⟨h₀, h₁, h₂, h₃⟩ := h
  rw [inetAton, atonLoop_dot h₀, atonLoop_dot h₁, atonLoop_dot h₂, atonLoop_last h₃,
    Option.map_some]
  exact congrArg some (htonl_bytes _ _ _ _)

/-- `inet_aton` of a quad with a zone. -/
theorem inetAton_zone {q : List UInt8} (h : Quad t q) (z : List Char) :
    inetAton (t ++ '%' :: z) = none := by
  obtain ⟨h₀, h₁, h₂, h₃⟩ := h
  simp only [List.append_assoc, List.cons_append]
  rw [inetAton, atonLoop_dot h₀, atonLoop_dot h₁, atonLoop_dot h₂, atonLoop_zone h₃]
  rfl

end Dietlibc.Inet
