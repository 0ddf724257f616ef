import Dietlibc.Scanf.Integers

/-!
# When the integer directives agree with `strtol`

The code takes `-+` for a sign, knows no prefix behind a width, counts only the digits against the
width, takes `0x` for a prefix without a digit behind it, reads `%u` as it reads `%i`, computes the
limits without using them and does not negate what it reads for `%u` and `%x`. `Directive.Fine` says
which inputs go wrong in none of these ways.
-/

namespace Dietlibc.Scanf

open Shell (isspace isdigit dash)
open Number (IsDigit valueFrom Subject)

/-! ## The values -/

/-- The digits behind `n`, all of which fit, or the first that does not makes the product smaller. -/
def OverflowSeen (b : Nat) : Nat → List UInt8 → Prop
  | _, [] => True
  | n, c :: ds =>
    if n * b + digit c < 2 ^ 64 then OverflowSeen b (n * b + digit c) ds else n * b % 2 ^ 64 < n

/-- What is stored is what `strtol` or `strtoul` returns for the number `n`, in so many bits. -/
def ValueFine (conv : IntConv) (bits : Nat) (neg : Bool) (n : Nat) : Prop :=
  match conv with
  | .d | .i =>
    n < 2 ^ 63 ∨ (min n (2 ^ 64 - 1) + if neg then 0 else 1) % 2 ^ bits = 2 ^ 63 % 2 ^ bits
  | .o => neg = false ∨ n < 2 ^ 63 ∨ 2 ^ 64 ≤ n ∨ 2 * n % 2 ^ bits = 0
  | .u | .x => neg = false ∨ 2 ^ 64 ≤ n ∨ 2 * n % 2 ^ bits = 0

theorem digit_value {b : Nat} {c : UInt8} (h : IsDigit b c = true) :
    (Number.digit? c).getD 0 = digit c := by
  rcases digit_eq c with ⟨h', -⟩ | h'
  · rw [IsDigit, h'] at h
    cases h
  · rw [h', Option.getD_some]

theorem valueFrom_cons {b : Nat} {c : UInt8} (h : IsDigit b c = true) (n : Nat) (ds : List UInt8) :
    valueFrom b n (c :: ds) = valueFrom b (n * b + digit c) ds := by
  rw [← digit_value h]
  rfl

/-- The largest number stays. -/
theorem accum_max {b : Nat} (h2 : 2 ≤ b) (hb : b ≤ 36) (ds : List UInt8) :
    accum b (2 ^ 64 - 1) ds = 2 ^ 64 - 1 := by
  have hstep : (2 ^ 64 - 1) * b % 2 ^ 64 < 2 ^ 64 - 1 := by omega
  induction ds with
  | nil => rfl
  | cons c ds ih =>
    unfold accum at ih ⊢
    rw [List.foldl_cons, if_pos hstep]
    exact ih

theorem accum_eq {b : Nat} (h2 : 2 ≤ b) (hb : b ≤ 36) {ds : List UInt8}
    (hds : ∀ c ∈ ds, IsDigit b c = true) {n : Nat} (hn : n < 2 ^ 64) (hs : OverflowSeen b n ds) :
    accum b n ds = min (valueFrom b n ds) (2 ^ 64 - 1) := by
  induction ds generalizing n with
  | nil => exact (Nat.min_eq_left (by show n ≤ _; omega)).symm
  | cons c ds ih =>
    have hc := hds c List.mem_cons_self
    have hds' : ∀ c ∈ ds, IsDigit b c = true := fun x hx => hds x (List.mem_cons_of_mem c hx)
    rw [valueFrom_cons hc]
    rw [OverflowSeen] at hs
    have hcons (v : Nat) : accum b v (c :: ds) = accum b (if v * b % 2 ^ 64 < v then 2 ^ 64 - 1
        else (v * b % 2 ^ 64 + digit c) % 2 ^ 64) ds := rfl
    have hle : n ≤ n * b := Nat.le_mul_of_pos_right n (by omega)
    rw [hcons]
    by_cases hfit : n * b + digit c < 2 ^ 64
    · rw [if_pos hfit] at hs
      rw [Nat.mod_eq_of_lt (show n * b < 2 ^ 64 by omega), if_neg (by omega), Nat.mod_eq_of_lt hfit]
      exact ih hds' hfit hs
    · rw [if_neg hfit] at hs
      have hlarge := Number.le_valueFrom (b := b) (by omega) (n * b + digit c) ds
      rw [if_pos hs, accum_max h2 hb]
      omega

theorem signed_char (conv : IntConv) (neg : Bool) (v : Nat) : signed conv.char neg v =
    if (conv ≠ .u ∧ conv ≠ .x) ∧ v < 2 ^ 63 ∧ neg then (2 ^ 64 - v) % 2 ^ 64 else v := by
  have h : conv.char ||| 32 < charp ↔ conv ≠ .u ∧ conv ≠ .x := by cases conv <;> decide
  rw [signed]
  simp only [h]

theorem longOf_small {p : Subject} (h : p.value < 2 ^ 63) :
    (Number.longOf p 0).value = if p.neg then -(p.value : Int) else p.value := by
  have hx : -2 ^ 63 ≤ p.signed ∧ p.signed < 2 ^ 63 := by
    unfold Subject.signed
    cases p.neg
    · simp only [Bool.false_eq_true, if_false]; omega
    · simp only [if_true]; omega
  rw [Number.longOf, if_pos hx]
  rfl

theorem longOf_large {p : Subject} (h : 2 ^ 63 ≤ p.value) :
    (Number.longOf p 0).value = if p.neg then -2 ^ 63 else 2 ^ 63 - 1 := by
  unfold Number.longOf Subject.signed
  cases hn : p.neg
  · simp only [Bool.false_eq_true, if_false]
    rw [if_neg (by omega)]
  · simp only [if_true]
    by_cases h' : p.value = 2 ^ 63
    · rw [if_pos (by omega)]
      show -(p.value : Int) = _
      omega
    · rw [if_neg (by omega)]

theorem value_long {conv : IntConv} (hc : conv = .d ∨ conv = .i) (size : Size) (p : Subject) :
    signed conv.char p.neg (min p.value (2 ^ 64 - 1)) % 2 ^ size.bits =
        (conv.valueOf p % 2 ^ size.bits).toNat ↔
      ValueFine conv size.bits p.neg p.value := by
  have hs : conv.valueOf p = (Number.longOf p 0).value := by rcases hc with rfl | rfl <;> rfl
  have hf : ValueFine conv size.bits p.neg p.value ↔ p.value < 2 ^ 63 ∨
      (min p.value (2 ^ 64 - 1) + if p.neg then 0 else 1) % 2 ^ size.bits =
        2 ^ 63 % 2 ^ size.bits := by rcases hc with rfl | rfl <;> rfl
  have hu : conv ≠ .u ∧ conv ≠ .x := by rcases hc with rfl | rfl <;> decide
  rw [hs, hf, signed_char]
  by_cases h63 : p.value < 2 ^ 63
  · rw [longOf_small h63, Nat.min_eq_left (by omega)]
    refine iff_of_true ?_ (.inl h63)
    cases p.neg
    · simp only [Bool.false_eq_true, and_false, if_false]
      cases size <;> simp only [Size.bits] <;> omega
    · rw [if_pos ⟨hu, h63, rfl⟩, if_pos rfl]
      cases size <;> simp only [Size.bits] <;> omega
  · rw [longOf_large (by omega), if_neg (fun h => h63 (by omega))]
    cases p.neg
    · simp only [Bool.false_eq_true, if_false]
      cases size <;> simp only [Size.bits] <;> omega
    · simp only [if_true]
      cases size <;> simp only [Size.bits] <;> omega

theorem ulongOf_value (p : Subject) : (Number.ulongOf p 0).value =
    if p.value < 2 ^ 64 then if p.neg then (2 ^ 64 - p.value) % 2 ^ 64 else p.value
    else 2 ^ 64 - 1 := by
  unfold Number.ulongOf Number.unsignedOf
  split <;> rfl

theorem value_o (size : Size) (p : Subject) :
    signed IntConv.o.char p.neg (min p.value (2 ^ 64 - 1)) % 2 ^ size.bits =
        (IntConv.o.valueOf p % 2 ^ size.bits).toNat ↔
      ValueFine .o size.bits p.neg p.value := by
  have hs : IntConv.o.valueOf p = (Number.ulongOf p 0).value := rfl
  rw [hs, ulongOf_value, signed_char, ValueFine]
  cases p.neg
  · simp only [Bool.false_eq_true, and_false, if_false, true_or, iff_true]
    split <;> cases size <;> simp only [Size.bits] <;> omega
  · simp only [Bool.true_eq_false, false_or, if_true]
    by_cases h63 : p.value < 2 ^ 63
    · rw [if_pos ⟨by decide, by omega, trivial⟩, if_pos (by omega), Nat.min_eq_left (by omega)]
      cases size <;> simp only [Size.bits] <;> omega
    · rw [if_neg (fun h => h63 (by omega))]
      split <;> cases size <;> simp only [Size.bits] <;> omega

theorem value_x (size : Size) (p : Subject) :
    signed IntConv.x.char p.neg (min p.value (2 ^ 64 - 1)) % 2 ^ size.bits =
        (IntConv.x.valueOf p % 2 ^ size.bits).toNat ↔
      ValueFine .x size.bits p.neg p.value := by
  have hs : IntConv.x.valueOf p = (Number.ulongOf p 0).value := rfl
  rw [hs, ulongOf_value, signed_char, if_neg (fun h => h.1.2 rfl), ValueFine]
  cases p.neg
  · simp only [Bool.false_eq_true, if_false, true_or, iff_true]
    split <;> cases size <;> simp only [Size.bits] <;> omega
  · simp only [Bool.true_eq_false, false_or, if_true]
    split <;> cases size <;> simp only [Size.bits] <;> omega

/-- The value stored for a number is that of `strtol` or `strtoul` exactly if it is fine. -/
theorem value_iff (conv : IntConv) (size : Size) (p : Subject) :
    signed conv.char p.neg (min p.value (2 ^ 64 - 1)) % 2 ^ size.bits =
        (conv.valueOf p % 2 ^ size.bits).toNat ↔
      ValueFine conv size.bits p.neg p.value := by
  cases conv with
  | d => exact value_long (.inl rfl) size p
  | i => exact value_long (.inr rfl) size p
  | u => exact value_x size p
  | o => exact value_o size p
  | x => exact value_x size p

/-! ## The signs -/

/-- The code and the grammar find the same sign, except in `-+`. -/
theorem signs (body : List UInt8) : (∃ r, body = dash :: plus :: r) ∨
    (pass plus (pass dash body) = (Number.signPrefix body).2 ∧
      decide (body.head? = some dash) = (Number.signPrefix body).1) := by
  rcases body with - | ⟨c, t⟩
  · exact .inr ⟨rfl, rfl⟩
  · by_cases hd : c = dash
    · subst hd
      rcases t with - | ⟨x, r⟩
      · exact .inr ⟨rfl, rfl⟩
      · by_cases hp : x = plus
        · exact .inl ⟨r, by rw [hp]⟩
        · refine .inr ⟨?_, rfl⟩
          show pass plus (x :: r) = x :: r
          exact if_neg fun h => hp (Option.some.inj h)
    · have hpass : pass dash (c :: t) = c :: t := if_neg fun h => hd (Option.some.inj h)
      have hdec : decide ((c :: t).head? = some dash) = false :=
        decide_eq_false fun h => hd (Option.some.inj h)
      rw [hpass, hdec]
      by_cases hp : c = plus
      · rw [hp]
        exact .inr ⟨rfl, rfl⟩
      · rw [Number.signPrefix_none hd hp]
        exact .inr ⟨if_neg fun h => hp (Option.some.inj h), rfl⟩

theorem isspace_eq : isspace = Number.isWhite := funext Number.isspace_eq

theorem dropWhile_cut (width : Option Nat) (l : List UInt8) :
    (cutTo width (l.dropWhile isspace)).dropWhile Number.isWhite =
      cutTo width (l.dropWhile isspace) := by
  rw [isspace_eq]
  cases width with
  | none => exact Number.dropWhile_twice Number.isWhite l
  | some w =>
    show ((l.dropWhile Number.isWhite).take w).dropWhile Number.isWhite = _
    have h := List.head?_dropWhile_not Number.isWhite l
    rcases hb : l.dropWhile Number.isWhite with - | ⟨c, t⟩
    · rw [cutTo, List.take_nil]; rfl
    · rw [hb] at h
      have hc : Number.isWhite c = false := by simpa using h
      cases w with
      | zero => rfl
      | succ w =>
        rw [List.take_succ_cons, List.dropWhile_cons_of_neg (by simp [hc])]
        rfl

/-- The width behind a sign. -/
def Directive.tail (d : Directive) (body t : List UInt8) : List UInt8 :=
  match d.width with
  | none => t
  | some w => t.take (w - (body.length - t.length))

theorem signPrefix_cut {d : Directive} (h1 : ∀ w ∈ d.width, 1 ≤ w) (body : List UInt8) :
    Number.signPrefix (cutTo d.width body) =
      ((Number.signPrefix body).1, d.tail body (Number.signPrefix body).2) := by
  unfold Directive.tail
  cases hw : d.width with
  | none => rfl
  | some w =>
    obtain ⟨v, rfl⟩ : ∃ v, w = v + 1 := ⟨w - 1, by have := h1 w hw; omega⟩
    rcases body with - | ⟨c, t⟩
    · rfl
    · have hk : (c :: t).length - t.length = 1 := by rw [List.length_cons]; omega
      show Number.signPrefix (c :: t.take v) = _
      by_cases hd : c = 45
      · subst hd
        show (true, t.take v) = (true, t.take (v + 1 - ((45 :: t).length - t.length)))
        rw [hk, Nat.add_sub_cancel]
      · by_cases hp : c = 43
        · subst hp
          show (false, t.take v) = (false, t.take (v + 1 - ((43 :: t).length - t.length)))
          rw [hk, Nat.add_sub_cancel]
        · rw [Number.signPrefix_none hd hp, Number.signPrefix_none hd hp]
          dsimp only
          rw [Nat.sub_self, Nat.sub_zero, List.take_succ_cons]

/-- The number that `strtol` or `strtoul` finds. -/
def Directive.found (d : Directive) (body : List UInt8) : Subject :=
  let (neg, t) := Number.signPrefix body
  let (b, s) := Number.basePrefix d.conv.base (d.tail body t)
  ⟨neg, b, s.takeWhile (IsDigit b), s.dropWhile (IsDigit b)⟩

theorem subject_cut {d : Directive} (h1 : ∀ w ∈ d.width, 1 ≤ w) (l : List UInt8) :
    Number.subject (d.cut l) d.conv.base = d.found (l.dropWhile isspace) := by
  unfold Number.subject Directive.cut Directive.found
  rw [dropWhile_cut, signPrefix_cut h1]

/-- What is to be stored, and left, in terms of the grammar. -/
theorem wants_eq {d : Directive} (h1 : ∀ w ∈ d.width, 1 ≤ w) (l : List UInt8) : d.wants l =
    if (d.found (l.dropWhile isspace)).digits = [] then none
    else some ((d.conv.valueOf (d.found (l.dropWhile isspace)) % 2 ^ d.size.bits).toNat,
      (d.found (l.dropWhile isspace)).rest ++ (l.dropWhile isspace).drop (d.cut l).length) := by
  rw [Directive.wants, number_eq, subject_cut h1]
  split <;> rfl

theorem valueFine_zero (conv : IntConv) (bits : Nat) (neg : Bool) : ValueFine conv bits neg 0 := by
  cases conv with
  | d => exact .inl (by decide)
  | i => exact .inl (by decide)
  | u => exact .inr (.inr (Nat.zero_mod _))
  | o => exact .inr (.inl (by decide))
  | x => exact .inr (.inr (Nat.zero_mod _))

section

variable {d : Directive} {l t : List UInt8} {neg : Bool}

/-- The signs of the body of the input are those of the grammar. -/
structure Signed (l : List UInt8) (neg : Bool) (t : List UInt8) : Prop where
  grammar : Number.signPrefix (l.dropWhile isspace) = (neg, t)
  behind : pass plus (pass dash (l.dropWhile isspace)) = t
  dash : decide ((l.dropWhile isspace).head? = some dash) = neg

theorem reads_signed (hs : Signed l neg t) {b : Nat} {ds left : List UInt8}
    (hcode : d.scanned t = (b, ds, left)) : d.reads l = if left.length = t.length then none
      else some (signed d.conv.char neg (accum b 0 ds) % 2 ^ d.size.bits, left) := by
  unfold Directive.reads
  dsimp only
  rw [hs.behind, hs.dash, hcode]

/-- Where the same is read, the value decides. -/
theorem same_iff (h1 : ∀ w ∈ d.width, 1 ≤ w) (hs : Signed l neg t) {b b' : Nat}
    {ds ds' left rest : List UInt8} (hcode : d.scanned t = (b, ds, left))
    (hfound : d.found (l.dropWhile isspace) = ⟨neg, b', ds', rest⟩)
    (hleft : rest ++ (l.dropWhile isspace).drop (d.cut l).length = left)
    (hnone : left.length = t.length ↔ ds' = []) (hvalue : valueFrom b 0 ds = valueFrom b' 0 ds')
    (haccum : accum b 0 ds = min (valueFrom b 0 ds) (2 ^ 64 - 1)) :
    d.reads l = d.wants l ↔ ValueFine d.conv d.size.bits neg (valueFrom b' 0 ds') := by
  rw [reads_signed hs hcode, wants_eq h1, hfound]
  dsimp only
  by_cases hd : ds' = []
  · rw [if_pos (hnone.2 hd), if_pos hd, hd]
    exact iff_of_true rfl (valueFine_zero _ _ _)
  · rw [if_neg (fun h => hd (hnone.1 h)), if_neg hd, haccum, hleft, hvalue]
    refine Iff.trans ?_ (value_iff d.conv d.size ⟨neg, b', ds', rest⟩)
    constructor
    · intro h
      exact (Prod.mk.inj (Option.some.inj h)).1
    · intro h
      rw [← h]
      rfl

/-- Where something is converted and something else is left, they differ. -/
theorem differ (h1 : ∀ w ∈ d.width, 1 ≤ w) (hs : Signed l neg t) {b : Nat}
    {ds left : List UInt8} (hcode : d.scanned t = (b, ds, left)) (hconv : left.length < t.length)
    (hleft : (d.found (l.dropWhile isspace)).digits ≠ [] →
      (d.found (l.dropWhile isspace)).rest ++ (l.dropWhile isspace).drop (d.cut l).length ≠ left) :
    d.reads l ≠ d.wants l := by
  rw [reads_signed hs hcode, wants_eq h1, if_neg (by omega)]
  intro h
  by_cases hd : (d.found (l.dropWhile isspace)).digits = []
  · rw [if_pos hd] at h
    cases h
  · rw [if_neg hd] at h
    exact hleft hd (Prod.mk.inj (Option.some.inj h)).2.symm

/-- At most one character is a sign. -/
theorem signPrefix_drop (body : List UInt8) : ∃ k, k ≤ 1 ∧ k ≤ body.length ∧
    (Number.signPrefix body).2 = body.drop k ∧
    body.length - (Number.signPrefix body).2.length = k := by
  unfold Number.signPrefix
  split
  · exact ⟨1, Nat.le_refl 1, by simp, rfl, by simp⟩
  · exact ⟨1, Nat.le_refl 1, by simp, rfl, by simp⟩
  · exact ⟨0, Nat.zero_le 1, Nat.zero_le _, rfl, Nat.sub_self _⟩

/-- The input behind the sign is what the width allows and what is behind that. -/
theorem tail_append (h1 : ∀ w ∈ d.width, 1 ≤ w) (body : List UInt8) :
    d.tail body (Number.signPrefix body).2 ++ body.drop (cutTo d.width body).length =
      (Number.signPrefix body).2 := by
  obtain ⟨k, hk, -, hdrop, hlen⟩ := signPrefix_drop body
  unfold Directive.tail
  rw [hlen, hdrop]
  cases hw : d.width with
  | none =>
    show body.drop k ++ body.drop body.length = _
    rw [List.drop_length, List.append_nil]
  | some w =>
    have hpos := h1 w hw
    have hw' : body.drop (body.take w).length = (body.drop k).drop (w - k) := by
      rw [List.drop_drop, List.length_take, show k + (w - k) = w by omega]
      rcases Nat.le_total w body.length with h | h
      · rw [Nat.min_eq_left h]
      · rw [Nat.min_eq_right h, List.drop_length, List.drop_eq_nil_of_le h]
    show (body.drop k).take (w - k) ++ body.drop (body.take w).length = _
    rw [hw', List.take_append_drop]

/-- A reading without a prefix, of which the width cuts the digits as it cuts the grammar's. -/
theorem plain_iff (h1 : ∀ w ∈ d.width, 1 ≤ w) (hs : Signed l neg t) {b : Nat} (h2 : 2 ≤ b)
    (hb : b ≤ 36) (hcode : basePrefix d.flags (divOf d.conv.char) t = (b, t))
    (hgrammar : Number.basePrefix d.conv.base (d.tail (l.dropWhile isspace) t) =
      (b, d.tail (l.dropWhile isspace) t))
    (hcut : (cutTo d.width t).takeWhile (IsDigit b) =
      (d.tail (l.dropWhile isspace) t).takeWhile (IsDigit b))
    (hseen : OverflowSeen b 0 ((cutTo d.width t).takeWhile (IsDigit b))) :
    d.reads l = d.wants l ↔ ValueFine d.conv d.size.bits neg
      (valueFrom b 0 ((cutTo d.width t).takeWhile (IsDigit b))) := by
  have happ := tail_append h1 (l.dropWhile isspace)
  rw [hs.grammar] at happ
  dsimp only at happ
  have hscan : d.scanned t = (b, (cutTo d.width t).takeWhile (IsDigit b),
      t.drop ((cutTo d.width t).takeWhile (IsDigit b)).length) := by
    unfold Directive.scanned
    rw [hcode]
  have hfound : d.found (l.dropWhile isspace) = ⟨neg, b, (cutTo d.width t).takeWhile (IsDigit b),
      (d.tail (l.dropWhile isspace) t).dropWhile (IsDigit b)⟩ := by
    unfold Directive.found
    rw [hs.grammar]
    dsimp only
    rw [hgrammar, hcut]
  have hall : ∀ c ∈ (cutTo d.width t).takeWhile (IsDigit b), IsDigit b c = true :=
    fun c hc => List.mem_takeWhile_imp hc
  rw [hcut] at *
  generalize d.tail (l.dropWhile isspace) t = u at *
  have hsplit : t = u.takeWhile (IsDigit b) ++
      (u.dropWhile (IsDigit b) ++ (l.dropWhile isspace).drop (d.cut l).length) := by
    rw [← List.append_assoc, List.takeWhile_append_dropWhile]
    exact happ.symm
  have hleft : u.dropWhile (IsDigit b) ++ (l.dropWhile isspace).drop (d.cut l).length =
      t.drop (u.takeWhile (IsDigit b)).length := by
    conv_rhs => rw [hsplit]
    rw [List.drop_left]
  have hlen := congrArg List.length hsplit
  rw [List.length_append] at hlen
  apply same_iff h1 hs hscan hfound hleft _ rfl
    (accum_eq h2 hb hall (by norm_num) hseen)
  rw [← hleft, ← List.length_eq_zero_iff]
  omega

/-! ## Without a width -/

/-- A zero and an `x`, which the code takes for a prefix. -/
def hexMark (t : List UInt8) : Bool :=
  t.head? = some zero && t.tail.head?.any fun c => c ||| 32 = charx

/-- The prefix is one for `strtol` or `strtoul` as well. -/
def PrefixFine (conv : IntConv) (t : List UInt8) : Prop :=
  match conv with
  | .d | .o => True
  | .i | .x => hexMark t = true → (t.drop 2).head?.any (IsDigit 16) = true
  | .u => hexMark t = false ∧
      (t.head? = some zero → ∀ c ∈ t.takeWhile (IsDigit 10), IsDigit 8 c = true)

/-- The digits of `%u` behind a zero mean in base 8 what they mean in base 10. -/
def OctalFine (bits : Nat) (neg : Bool) (ds : List UInt8) : Prop :=
  min (valueFrom 8 0 ds) (2 ^ 64 - 1) % 2 ^ bits = (Number.ulongOf ⟨neg, 10, ds, []⟩ 0).value % 2 ^ bits

/-- Without a width: the prefix and the value. -/
def Directive.FreeFine (d : Directive) (neg : Bool) (t : List UInt8) : Prop :=
  PrefixFine d.conv t ∧
    if d.conv = .u ∧ t.head? = some zero then OctalFine d.size.bits neg (t.takeWhile (IsDigit 10))
    else ValueFine d.conv d.size.bits neg (valueFrom (Number.basePrefix d.conv.base t).1 0
      ((Number.basePrefix d.conv.base t).2.takeWhile (IsDigit (Number.basePrefix d.conv.base t).1)))

theorem basePrefix_const {b : Nat} (h0 : b ≠ 0) (h16 : b ≠ 16) (s : List UInt8) :
    Number.basePrefix b s = (b, s) := by
  unfold Number.basePrefix
  split
  · rw [if_neg (by tauto), if_neg h0]
  · rw [if_neg h0]
  · rw [if_neg h0]

theorem letter_x (c : UInt8) : c ||| 32 = charx ↔ c = 120 ∨ c = 88 := by
  apply CInt.forall_byte (P := fun c => c ||| 32 = charx ↔ c = 120 ∨ c = 88)
  decide +kernel

/-- A free directive: the code without the test for a width. -/
theorem free_base (hw : d.width = none) (t : List UInt8) :
    basePrefix d.flags (divOf d.conv.char) t =
      if divOf d.conv.char = 16 ∧ t.head? = some zero then hexPrefix 16 t
      else if divOf d.conv.char = 0 then if t.head? = some zero then hexPrefix 8 t else (10, t)
      else (divOf d.conv.char, t) := by
  have hf : d.flags.flagWidth = false := by
    show d.width.isSome = false
    rw [hw]
    rfl
  rw [basePrefix, hf, if_neg Bool.false_ne_true]

theorem free_cut (hw : d.width = none) (body t : List UInt8) :
    cutTo d.width t = t ∧ d.tail body t = t := by
  unfold Directive.tail
  rw [hw]
  exact ⟨rfl, rfl⟩

theorem free_behind (hw : d.width = none) (l : List UInt8) :
    (l.dropWhile isspace).drop (d.cut l).length = [] := by
  rw [Directive.cut, (free_cut hw [] _).1, List.drop_length]

theorem drop_takeWhile (p : UInt8 → Bool) (s : List UInt8) :
    s.drop (s.takeWhile p).length = s.dropWhile p := by
  have h := congrArg (List.drop (s.takeWhile p).length)
    (List.takeWhile_append_dropWhile (p := p) (l := s))
  rw [List.drop_left] at h
  exact h.symm

theorem scanned_free (hw : d.width = none) {b : Nat} {digits : List UInt8}
    (hcode : basePrefix d.flags (divOf d.conv.char) t = (b, digits)) :
    d.scanned t = (b, digits.takeWhile (IsDigit b), digits.dropWhile (IsDigit b)) := by
  unfold Directive.scanned
  rw [hcode]
  dsimp only
  rw [(free_cut hw [] digits).1, drop_takeWhile]

theorem found_free (hw : d.width = none) (hs : Signed l neg t) {b : Nat} {s : List UInt8}
    (hgrammar : Number.basePrefix d.conv.base t = (b, s)) : d.found (l.dropWhile isspace) =
      ⟨neg, b, s.takeWhile (IsDigit b), s.dropWhile (IsDigit b)⟩ := by
  unfold Directive.found
  rw [hs.grammar]
  dsimp only
  rw [(free_cut hw _ t).2, hgrammar]

theorem free_wide (hw : d.width = none) : ∀ w ∈ d.width, 1 ≤ w := fun w h => by
  rw [hw] at h
  cases h

/-- Where there is no prefix. -/
theorem free_plain (hw : d.width = none) (hs : Signed l neg t) {b : Nat} (h2 : 2 ≤ b) (hb : b ≤ 36)
    (hcode : basePrefix d.flags (divOf d.conv.char) t = (b, t))
    (hgrammar : Number.basePrefix d.conv.base t = (b, t)) (hu : ¬(d.conv = .u ∧ t.head? = some zero))
    (hfine : PrefixFine d.conv t) (hseen : OverflowSeen b 0 (d.scanned t).2.1) :
    d.reads l = d.wants l ↔ d.FreeFine neg t := by
  obtain ⟨hcut, htail⟩ := free_cut hw (l.dropWhile isspace) t
  rw [scanned_free hw hcode] at hseen
  have h := plain_iff (free_wide hw) hs h2 hb hcode (by rw [htail]; exact hgrammar)
    (by rw [htail, hcut]) (by rw [hcut]; exact hseen)
  rw [h, hcut, Directive.FreeFine, if_neg hu, hgrammar]
  exact ⟨fun h => ⟨hfine, h⟩, fun h => h.2⟩

/-- A prefix that both skip, or a zero that only the code does. -/
theorem free_skip (hw : d.width = none) (hs : Signed l neg t) {b : Nat} (h2 : 2 ≤ b) (hb : b ≤ 36)
    {digits s : List UInt8} (hcode : basePrefix d.flags (divOf d.conv.char) t = (b, digits))
    (hgrammar : Number.basePrefix d.conv.base t = (b, s)) (hlt : digits.length < t.length)
    (hne : s.takeWhile (IsDigit b) ≠ []) (hrest : s.dropWhile (IsDigit b) = digits.dropWhile (IsDigit b))
    (hvalue : valueFrom b 0 (digits.takeWhile (IsDigit b)) = valueFrom b 0 (s.takeWhile (IsDigit b)))
    (hu : ¬(d.conv = .u ∧ t.head? = some zero))
    (hfine : PrefixFine d.conv t) (hseen : OverflowSeen b 0 (d.scanned t).2.1) :
    d.reads l = d.wants l ↔ d.FreeFine neg t := by
  rw [scanned_free hw hcode] at hseen
  have hdrop := (List.dropWhile_sublist (IsDigit b) (l := digits)).length_le
  have h := same_iff (free_wide hw) hs (scanned_free hw hcode) (found_free hw hs hgrammar)
    (by rw [free_behind hw, List.append_nil, hrest])
    (iff_of_false (by omega) hne) hvalue
    (accum_eq h2 hb (fun c hc => List.mem_takeWhile_imp hc) (by norm_num) hseen)
  rw [h, Directive.FreeFine, if_neg hu, hgrammar]
  exact ⟨fun h => ⟨hfine, h⟩, fun h => h.2⟩

/-- A prefix for the code alone. -/
theorem free_differ (hw : d.width = none) (hs : Signed l neg t) {b b' : Nat}
    {digits s : List UInt8} (hcode : basePrefix d.flags (divOf d.conv.char) t = (b, digits))
    (hgrammar : Number.basePrefix d.conv.base t = (b', s)) (hlt : digits.length < t.length)
    (hrest : s.dropWhile (IsDigit b') ≠ digits.dropWhile (IsDigit b)) :
    d.reads l ≠ d.wants l := by
  have hdrop := (List.dropWhile_sublist (IsDigit b) (l := digits)).length_le
  apply differ (free_wide hw) hs (scanned_free hw hcode) (by omega)
  intro _
  rw [free_behind hw, List.append_nil, found_free hw hs hgrammar]
  exact hrest

theorem valueFrom_zero (b : Nat) (ds : List UInt8) :
    valueFrom b 0 (zero :: ds) = valueFrom b 0 ds := by
  show valueFrom b (0 * b + 0) ds = _
  rw [Nat.zero_mul]

theorem isDigit_zero {b : Nat} (h : 1 ≤ b) : IsDigit b zero = true := decide_eq_true h

theorem not_isDigit_x {b : Nat} (h : b ≤ 16) {c : UInt8} (hx : c ||| 32 = charx) :
    IsDigit b c = false := by
  rcases (letter_x c).1 hx with rfl | rfl
  · exact decide_eq_false (show ¬33 < b by omega)
  · exact decide_eq_false (show ¬33 < b by omega)

theorem hexMark_cons (y : UInt8) (r : List UInt8) :
    hexMark (zero :: y :: r) = decide (y ||| 32 = charx) := by
  simp [hexMark]

theorem mark_cons {r : List UInt8} (h : hexMark (zero :: r) = true) :
    ∃ y r', r = y :: r' ∧ y ||| 32 = charx := by
  rcases r with - | ⟨y, r⟩
  · cases h
  · rw [hexMark_cons] at h
    exact ⟨y, r, rfl, of_decide_eq_true h⟩

theorem hexPrefix_mark {b : Nat} {y : UInt8} (h : y ||| 32 = charx) (r : List UInt8) :
    hexPrefix b (zero :: y :: r) = (16, r) := by
  unfold hexPrefix
  exact if_pos (by simpa using h)

theorem hexPrefix_plain {b : Nat} {r : List UInt8} (h : hexMark (zero :: r) = false) :
    hexPrefix b (zero :: r) = (b, r) := by
  unfold hexPrefix
  exact if_neg (by simpa [hexMark] using h)

/-- The grammar's prefix in base 16 or 0. -/
theorem grammar_digit {base : Nat} (h : base = 16 ∨ base = 0) {y c : UInt8} (hy : y ||| 32 = charx)
    (hc : IsDigit 16 c = true) (r : List UInt8) :
    Number.basePrefix base (zero :: y :: c :: r) = (16, c :: r) :=
  if_pos ⟨h.symm, (letter_x y).1 hy, hc⟩

theorem grammar_zero (base : Nat) {r : List UInt8}
    (h : hexMark (zero :: r) = true → r.tail.head?.any (IsDigit 16) = false) :
    Number.basePrefix base (zero :: r) = (if base = 0 then 8 else base, zero :: r) := by
  rcases r with - | ⟨y, - | ⟨c, r⟩⟩
  · rfl
  · rfl
  · apply if_neg
    rintro ⟨-, hy, hc⟩
    have h' := h (by rw [hexMark_cons]; exact decide_eq_true ((letter_x y).2 hy))
    rw [show (y :: c :: r).tail.head?.any (IsDigit 16) = IsDigit 16 c from rfl, hc] at h'
    cases h'

/-- `%x` and `%i` without a width. -/
theorem free_iff_xi (hw : d.width = none) (hc : d.conv = .x ∨ d.conv = .i) (hs : Signed l neg t)
    (hseen : OverflowSeen (d.scanned t).1 0 (d.scanned t).2.1) :
    d.reads l = d.wants l ↔ d.FreeFine neg t := by
  have hu : ¬(d.conv = .u ∧ t.head? = some zero) := by rcases hc with h | h <;> rw [h] <;> simp
  have hbase : d.conv.base = 16 ∨ d.conv.base = 0 := by
    rcases hc with h | h <;> rw [h] <;> simp [IntConv.base]
  have hfine : PrefixFine d.conv t ↔
      (hexMark t = true → (t.drop 2).head?.any (IsDigit 16) = true) := by
    rcases hc with h | h <;> rw [h] <;> rfl
  have hcode : basePrefix d.flags (divOf d.conv.char) t = if t.head? = some zero then
      hexPrefix (if d.conv.base = 0 then 8 else d.conv.base) t
      else (if d.conv.base = 0 then 10 else d.conv.base, t) := by
    have hdiv : divOf d.conv.char = d.conv.base := by rcases hc with h | h <;> rw [h] <;> rfl
    rw [free_base hw, hdiv]
    rcases hbase with h | h <;> by_cases hz : t.head? = some zero <;> simp [h, hz]
  have hbN : 2 ≤ (if d.conv.base = 0 then 10 else d.conv.base) ∧
      (if d.conv.base = 0 then 10 else d.conv.base) ≤ 36 := by
    rcases hbase with h | h <;> rw [h] <;> decide
  have hb0 : 2 ≤ (if d.conv.base = 0 then 8 else d.conv.base) ∧
      (if d.conv.base = 0 then 8 else d.conv.base) ≤ 16 := by
    rcases hbase with h | h <;> rw [h] <;> decide
  by_cases hz : t.head? = some zero
  · obtain ⟨r, rfl⟩ := List.head?_eq_some_iff.1 hz
    rw [if_pos hz] at hcode
    by_cases hm : hexMark (zero :: r) = true
    · obtain ⟨y, r, rfl, hy⟩ := mark_cons hm
      rw [hexPrefix_mark hy] at hcode
      by_cases hd : r.head?.any (IsDigit 16) = true
      · -- a prefix for both
        obtain ⟨c, r, rfl, hc16⟩ : ∃ c r', r = c :: r' ∧ IsDigit 16 c = true := by
          rcases r with - | ⟨c, r⟩
          · cases hd
          · exact ⟨c, r, rfl, hd⟩
        rw [scanned_free hw hcode] at hseen
        apply free_skip hw hs (by decide) (by decide) hcode (grammar_digit hbase hy hc16 r)
        · simp
        · rw [List.takeWhile_cons_of_pos hc16]
          exact List.cons_ne_nil _ _
        · rfl
        · rfl
        · exact hu
        · exact hfine.2 fun _ => hd
        · rw [scanned_free hw hcode]
          exact hseen
      · -- a prefix for the code alone
        have hg := grammar_zero d.conv.base (r := y :: r) fun _ => by simpa using hd
        refine iff_of_false (free_differ hw hs hcode hg (by simp) ?_) fun h => hd (hfine.1 h.1 hm)
        rw [List.dropWhile_cons_of_pos (isDigit_zero (by omega)),
          List.dropWhile_cons_of_neg (by simp [not_isDigit_x hb0.2 hy])]
        intro heq
        have hlen := congrArg List.length heq
        have hle := (List.dropWhile_sublist (IsDigit 16) (l := r)).length_le
        rw [List.length_cons] at hlen
        omega
    · -- a zero
      have hm' : hexMark (zero :: r) = false := by simpa using hm
      have hg := grammar_zero d.conv.base (r := r) fun h => absurd h hm
      rw [hexPrefix_plain hm'] at hcode
      apply free_skip hw hs hb0.1 (by omega) hcode hg
      · simp
      · rw [List.takeWhile_cons_of_pos (isDigit_zero (by omega))]
        exact List.cons_ne_nil _ _
      · rw [List.dropWhile_cons_of_pos (isDigit_zero (by omega))]
      · rw [List.takeWhile_cons_of_pos (isDigit_zero (by omega)), valueFrom_zero]
      · exact hu
      · exact hfine.2 fun h => absurd h hm
      · rw [scanned_free hw hcode] at hseen ⊢
        exact hseen
  · rw [if_neg hz] at hcode
    have hg : Number.basePrefix d.conv.base t =
        (if d.conv.base = 0 then 10 else d.conv.base, t) := by
      apply Number.basePrefix_digit
      intro h48
      rcases t with - | ⟨c, r⟩
      · cases h48
      · exact hz (congrArg some h48)
    have hm : hexMark t = false := by
      rw [hexMark, decide_eq_false hz]
      rfl
    apply free_plain hw hs hbN.1 hbN.2 hcode hg hu
    · exact hfine.2 fun h => by rw [hm] at h; cases h
    · rw [scanned_free hw hcode] at hseen ⊢
      exact hseen

/-- `%d` and `%o` without a width. -/
theorem free_iff_do (hw : d.width = none) (hc : d.conv = .d ∨ d.conv = .o) (hs : Signed l neg t)
    (hseen : OverflowSeen (d.scanned t).1 0 (d.scanned t).2.1) :
    d.reads l = d.wants l ↔ d.FreeFine neg t := by
  have hdiv : divOf d.conv.char = d.conv.base := by rcases hc with h | h <;> rw [h] <;> rfl
  have hbase : d.conv.base = 10 ∨ d.conv.base = 8 := by
    rcases hc with h | h <;> rw [h] <;> simp [IntConv.base]
  have hcode : basePrefix d.flags (divOf d.conv.char) t = (d.conv.base, t) := by
    rw [free_base hw, hdiv, if_neg (by omega), if_neg (by omega)]
  apply free_plain hw hs (by omega) (by omega) hcode (basePrefix_const (by omega) (by omega) t)
  · rintro ⟨h, -⟩
    rcases hc with h' | h' <;> rw [h'] at h <;> cases h
  · rcases hc with h | h <;> rw [h] <;> exact trivial
  · rw [scanned_free hw hcode] at hseen ⊢
    exact hseen

theorem isDigit_mono {b b' : Nat} (h : b ≤ b') {c : UInt8} (hc : IsDigit b c = true) :
    IsDigit b' c = true := by
  unfold IsDigit at hc ⊢
  cases hd : Number.digit? c with
  | none => rw [hd] at hc; cases hc
  | some k =>
    rw [hd] at hc
    exact decide_eq_true (lt_of_lt_of_le (of_decide_eq_true hc) h)

/-- A run of octal digits in a run of decimal ones is all of it, or leaves another rest. -/
theorem octal_run (r : List UInt8) : (∀ c ∈ r.takeWhile (IsDigit 10), IsDigit 8 c = true) ↔
    r.dropWhile (IsDigit 10) = r.dropWhile (IsDigit 8) := by
  induction r with
  | nil => simp
  | cons c r ih =>
    cases h8 : IsDigit 8 c with
    | true =>
      have h10 : IsDigit 10 c = true := isDigit_mono (by decide) h8
      rw [List.takeWhile_cons_of_pos h10, List.dropWhile_cons_of_pos h10,
        List.dropWhile_cons_of_pos h8, ← ih, List.forall_mem_cons]
      exact ⟨fun h => h.2, fun h => ⟨h8, h⟩⟩
    | false =>
      rw [List.dropWhile_cons_of_neg (a := c) (p := IsDigit 8) (by simp [h8])]
      cases h10 : IsDigit 10 c with
      | true =>
        rw [List.takeWhile_cons_of_pos h10, List.dropWhile_cons_of_pos h10]
        refine iff_of_false (fun h => ?_) fun h => ?_
        · rw [h c List.mem_cons_self] at h8
          cases h8
        · have hlen := congrArg List.length h
          have hle := (List.dropWhile_sublist (IsDigit 10) (l := r)).length_le
          rw [List.length_cons] at hlen
          omega
      | false =>
        rw [List.takeWhile_cons_of_neg (by simp [h10]), List.dropWhile_cons_of_neg (by simp [h10])]
        simp

/-- `%u` reading to the same end in another base. -/
theorem u_iff (hw : d.width = none) (hc : d.conv = .u) (hs : Signed l neg t) {b : Nat}
    {ds ds' left rest : List UInt8} (hcode : d.scanned t = (b, ds, left))
    (hfound : d.found (l.dropWhile isspace) = ⟨neg, 10, ds', rest⟩) (hleft : rest = left)
    (hlt : left.length < t.length) (hne : ds' ≠ [])
    (haccum : accum b 0 ds = min (valueFrom b 0 ds) (2 ^ 64 - 1)) :
    d.reads l = d.wants l ↔ min (valueFrom b 0 ds) (2 ^ 64 - 1) % 2 ^ d.size.bits =
      (Number.ulongOf ⟨neg, 10, ds', []⟩ 0).value % 2 ^ d.size.bits := by
  have hval : d.conv.valueOf ⟨neg, 10, ds', rest⟩ =
      ((Number.ulongOf ⟨neg, 10, ds', []⟩ 0).value : Int) := by
    rw [hc, IntConv.valueOf, if_neg (by decide), ulongOf_value, ulongOf_value]
    rfl
  have hmod (x : Nat) : ((x : Int) % 2 ^ d.size.bits).toNat = x % 2 ^ d.size.bits := by
    cases d.size <;> simp only [Size.bits] <;> omega
  rw [reads_signed hs hcode, wants_eq (free_wide hw), hfound, if_neg (by omega)]
  dsimp only
  rw [if_neg hne, hval, hmod, haccum, hleft, free_behind hw, List.append_nil, signed_char,
    if_neg (fun h => h.1.1 hc)]
  exact ⟨fun h => (Prod.mk.inj (Option.some.inj h)).1, fun h => by rw [h]⟩

/-- `%u` without a width. -/
theorem free_iff_u (hw : d.width = none) (hc : d.conv = .u) (hs : Signed l neg t)
    (hseen : OverflowSeen (d.scanned t).1 0 (d.scanned t).2.1) :
    d.reads l = d.wants l ↔ d.FreeFine neg t := by
  have hbase : d.conv.base = 10 := by rw [hc]; rfl
  have hcode : basePrefix d.flags (divOf d.conv.char) t =
      if t.head? = some zero then hexPrefix 8 t else (10, t) := by
    rw [free_base hw, hc]
    rfl
  have hg := basePrefix_const (b := d.conv.base) (by omega) (by omega) t
  have hfine : PrefixFine d.conv t ↔ hexMark t = false ∧
      (t.head? = some zero → ∀ c ∈ t.takeWhile (IsDigit 10), IsDigit 8 c = true) := by
    rw [hc]; rfl
  by_cases hz : t.head? = some zero
  · obtain ⟨r, rfl⟩ := List.head?_eq_some_iff.1 hz
    rw [if_pos hz] at hcode
    have hz10 : IsDigit d.conv.base zero = true := isDigit_zero (by omega)
    by_cases hm : hexMark (zero :: r) = true
    · -- a prefix for the code alone
      obtain ⟨y, r, rfl, hy⟩ := mark_cons hm
      rw [hexPrefix_mark hy] at hcode
      refine iff_of_false (free_differ hw hs hcode hg (by simp) ?_) fun h => by
        rw [(hfine.1 h.1).1] at hm; cases hm
      rw [List.dropWhile_cons_of_pos hz10,
        List.dropWhile_cons_of_neg (by simp [not_isDigit_x (show d.conv.base ≤ 16 by omega) hy])]
      intro heq
      have hlen := congrArg List.length heq
      have hle := (List.dropWhile_sublist (IsDigit 16) (l := r)).length_le
      rw [List.length_cons] at hlen
      omega
    · have hm' : hexMark (zero :: r) = false := by simpa using hm
      have hdrop8 : (zero :: r).dropWhile (IsDigit 8) = r.dropWhile (IsDigit 8) :=
        List.dropWhile_cons_of_pos (isDigit_zero (by decide))
      rw [hexPrefix_plain hm'] at hcode
      rw [scanned_free hw hcode] at hseen
      have hoct := octal_run (zero :: r)
      by_cases hall : ∀ c ∈ (zero :: r).takeWhile (IsDigit 10), IsDigit 8 c = true
      · -- read to the same end, in base 8
        have hrest := hoct.1 hall
        have htake : (zero :: r).takeWhile (IsDigit 10) = zero :: r.takeWhile (IsDigit 8) := by
          have h10 := List.takeWhile_append_dropWhile (p := IsDigit 10) (l := zero :: r)
          have h8 := List.takeWhile_append_dropWhile (p := IsDigit 8) (l := zero :: r)
          rw [hrest] at h10
          rw [← List.takeWhile_cons_of_pos (isDigit_zero (by decide))]
          exact List.append_cancel_right (h10.trans h8.symm)
        rw [hbase] at hg
        rw [u_iff hw hc hs (scanned_free hw hcode) (found_free hw hs (by rw [hbase]; exact hg))
          (hrest.trans hdrop8) (by
            have := (List.dropWhile_sublist (IsDigit 8) (l := r)).length_le
            rw [List.length_cons]; omega) (by rw [htake]; exact List.cons_ne_nil _ _)
          (accum_eq (by decide) (by decide) (fun c hc => List.mem_takeWhile_imp hc) (by norm_num) hseen),
          Directive.FreeFine, if_pos ⟨hc, hz⟩, OctalFine, htake, valueFrom_zero]
        exact ⟨fun h => ⟨hfine.2 ⟨hm', fun _ => htake ▸ hall⟩, h⟩, fun h => h.2⟩
      · refine iff_of_false (free_differ hw hs hcode hg (by simp) ?_) fun h =>
          hall ((hfine.1 h.1).2 hz)
        rw [← hdrop8, hbase]
        exact fun h => hall (hoct.2 h)
  · rw [if_neg hz] at hcode
    apply free_plain hw hs (by decide) (by decide) hcode (by rw [hbase] at hg ⊢; exact hg)
      (fun h => hz h.2)
    · rw [hfine, hexMark, decide_eq_false hz]
      exact ⟨rfl, fun h => absurd h hz⟩
    · rw [scanned_free hw hcode] at hseen ⊢
      exact hseen

/-! ## With a width -/

/-- With a width `w`, behind `k` characters of a sign. -/
def Directive.WidthFine (d : Directive) (w : Nat) (neg : Bool) (k : Nat) (t : List UInt8) : Prop :=
  if d.conv = .u ∨ d.conv = .i then (t.take (w - k)).head?.any (IsDigit 10) = false
  else (k = 0 ∨ (t.takeWhile (IsDigit d.conv.base)).length < w) ∧
    Number.basePrefix d.conv.base (t.take (w - k)) = (d.conv.base, t.take (w - k)) ∧
    ValueFine d.conv d.size.bits neg
      (valueFrom d.conv.base 0 ((t.take w).takeWhile (IsDigit d.conv.base)))

/-- A conversion finds no digits exactly if the first character is none. -/
theorem digits_nil_iff {base : Nat} (h : Number.BaseOk base) (s : List UInt8) :
    (Number.basePrefix base s).2.takeWhile (IsDigit (Number.basePrefix base s).1) = [] ↔
      s.head?.any (IsDigit (if base = 0 then 10 else base)) = false := by
  unfold Number.BaseOk at h
  by_cases h48 : Number.peek s = 48
  · rcases s with - | ⟨c, s⟩
    · cases h48
    · obtain rfl : c = zero := h48
      refine iff_of_false (fun hnil => ?_) ?_
      · have hno := Number.noDigits_iff base (zero :: s)
        have hskip := Number.basePrefix_skips base (zero :: s)
        have hok := Number.basePrefix_ok h (zero :: s)
        rcases hskip with hsame | ⟨c, s', hskip, hc, -⟩
        · rw [hsame, List.takeWhile_cons_of_pos (isDigit_zero (by omega))] at hnil
          cases hnil
        · rw [hskip, List.takeWhile_cons_of_pos hc] at hnil
          cases hnil
      · rw [show (zero :: s).head?.any (IsDigit (if base = 0 then 10 else base)) =
          IsDigit (if base = 0 then 10 else base) zero from rfl, isDigit_zero (by split <;> omega)]
        exact Bool.noConfusion
  · rw [Number.basePrefix_digit h48]
    rcases s with - | ⟨c, s⟩
    · simp
    · dsimp only
      cases hc : IsDigit (if base = 0 then 10 else base) c with
      | true =>
        rw [List.takeWhile_cons_of_pos hc]
        exact iff_of_false (List.cons_ne_nil _ _) (by simp [hc])
      | false =>
        rw [List.takeWhile_cons_of_neg (by simp [hc])]
        exact iff_of_true rfl (by simp [hc])

theorem isDigit_none (c : UInt8) : IsDigit 0 c = false := by
  unfold IsDigit
  cases Number.digit? c <;> rfl

theorem width_code {w : Nat} (hw : d.width = some w) (t : List UInt8) :
    basePrefix d.flags (divOf d.conv.char) t = (divOf d.conv.char, t) := by
  have hf : d.flags.flagWidth = true := by
    show d.width.isSome = true
    rw [hw]
    rfl
  rw [basePrefix, hf, if_pos rfl]

theorem width_pos {w : Nat} (hw : d.width = some w) (h1 : 1 ≤ w) : ∀ w ∈ d.width, 1 ≤ w :=
  fun v hv => by
    rw [hw] at hv
    rw [← Option.some.inj hv]
    exact h1

/-- `%u` and `%i` with a width read nothing. -/
theorem width_iff_ui {w : Nat} (hw : d.width = some w) (h1 : 1 ≤ w) (hc : d.conv = .u ∨ d.conv = .i)
    (hs : Signed l neg t) : d.reads l = d.wants l ↔
      d.WidthFine w neg ((l.dropWhile isspace).length - t.length) t := by
  have h1' := width_pos hw h1
  have hdiv : divOf d.conv.char = 0 := by rcases hc with h | h <;> rw [h] <;> rfl
  have hnil : (cutTo d.width t).takeWhile (IsDigit 0) = [] := by
    rcases cutTo d.width t with - | ⟨c, s⟩
    · rfl
    · exact List.takeWhile_cons_of_neg (by simp [isDigit_none])
  have hscan : d.scanned t = (0, [], t) := by
    unfold Directive.scanned
    rw [width_code hw, hdiv]
    dsimp only
    rw [hnil]
    rfl
  have hbase : (if d.conv.base = 0 then 10 else d.conv.base) = 10 := by
    rcases hc with h | h <;> rw [h] <;> rfl
  have hdig := digits_nil_iff (baseOk d.conv) (t.take (w - ((l.dropWhile isspace).length - t.length)))
  rw [hbase] at hdig
  rw [reads_signed hs hscan, if_pos rfl, wants_eq h1', Directive.WidthFine, if_pos hc, ← hdig]
  unfold Directive.found Directive.tail
  rw [hs.grammar, hw]
  dsimp only
  constructor
  · intro h
    by_contra hne
    rw [if_neg hne] at h
    cases h
  · intro h
    rw [if_pos h]

/-- A prefix in a base that is given. -/
theorem prefix_ne {b : Nat} (h0 : b ≠ 0) {s : List UInt8} (h : Number.basePrefix b s ≠ (b, s)) :
    ∃ y c s', s = zero :: y :: c :: s' ∧ y ||| 32 = charx ∧ IsDigit 16 c = true ∧
      Number.basePrefix b s = (16, c :: s') := by
  by_cases h16 : b = 16
  · by_cases hz : Number.peek s = 48
    · obtain ⟨r, rfl⟩ : ∃ r, s = zero :: r := by
        rcases s with - | ⟨c, r⟩
        · cases hz
        · exact ⟨r, by rw [show c = zero from hz]⟩
      by_cases hm : hexMark (zero :: r) = true ∧ r.tail.head?.any (IsDigit 16) = true
      · obtain ⟨y, r, rfl, hy⟩ := mark_cons hm.1
        obtain ⟨c, r, rfl, hc⟩ : ∃ c r', r = c :: r' ∧ IsDigit 16 c = true := by
          rcases r with - | ⟨c, r⟩
          · cases hm.2
          · exact ⟨c, r, rfl, hm.2⟩
        exact ⟨y, c, r, rfl, hy, hc, grammar_digit (.inl h16) hy hc r⟩
      · refine absurd ?_ h
        rw [grammar_zero b fun h' => by simpa using fun h'' => hm ⟨h', h''⟩, if_neg h0]
    · refine absurd ?_ h
      rw [Number.basePrefix_digit hz, if_neg h0]
  · exact absurd (basePrefix_const h0 h16 s) h

theorem base_given (hc : ¬(d.conv = .u ∨ d.conv = .i)) :
    divOf d.conv.char = d.conv.base ∧ 2 ≤ d.conv.base ∧ d.conv.base ≤ 16 := by
  cases hconv : d.conv with
  | u => exact absurd (.inl hconv) hc
  | i => exact absurd (.inr hconv) hc
  | d => exact ⟨rfl, by decide⟩
  | o => exact ⟨rfl, by decide⟩
  | x => exact ⟨rfl, by decide⟩

/-- A prefix inside the width is read as a number, and is none in the code. -/
theorem prefix_differs {k w : Nat} (h1 : ∀ w ∈ d.width, 1 ≤ w)
    (hs : Signed l neg t) (hb : 2 ≤ d.conv.base ∧ d.conv.base ≤ 16)
    (hscan : d.scanned t = (d.conv.base, (t.take w).takeWhile (IsDigit d.conv.base),
      t.drop ((t.take w).takeWhile (IsDigit d.conv.base)).length))
    (htail : d.tail (l.dropWhile isspace) t = t.take (w - k))
    (hpre : Number.basePrefix d.conv.base (t.take (w - k)) ≠ (d.conv.base, t.take (w - k))) :
    d.reads l ≠ d.wants l := by
  have happ := tail_append h1 (l.dropWhile isspace)
  rw [hs.grammar] at happ
  dsimp only at happ
  obtain ⟨y, c, s, hs', hy, hc16, hskip⟩ := prefix_ne (by omega) hpre
  obtain ⟨t, rfl⟩ : ∃ t', t = zero :: y :: t' := by
    have hsplit := (List.take_append_drop (w - k) t).symm
    rw [hs'] at hsplit
    exact ⟨_, hsplit⟩
  have hw2 : 2 ≤ w := by
    have hlen := congrArg List.length hs'
    rw [List.length_take] at hlen
    simp only [List.length_cons] at hlen
    omega
  have hds : ((zero :: y :: t).take w).takeWhile (IsDigit d.conv.base) = [zero] := by
    obtain ⟨v, rfl⟩ : ∃ v, w = v + 2 := ⟨w - 2, by omega⟩
    rw [List.take_succ_cons, List.take_succ_cons,
      List.takeWhile_cons_of_pos (isDigit_zero (by omega)),
      List.takeWhile_cons_of_neg (by simp [not_isDigit_x hb.2 hy])]
  rw [hds] at hscan
  apply differ h1 hs hscan
  · show (y :: t).length < (zero :: y :: t).length
    simp
  · intro _ heq
    have hrest : (d.found (l.dropWhile isspace)).rest = s.dropWhile (IsDigit 16) := by
      unfold Directive.found
      rw [hs.grammar]
      dsimp only
      rw [htail, hskip]
      exact List.dropWhile_cons_of_pos hc16
    have hle := (List.dropWhile_sublist (IsDigit 16) (l := s)).length_le
    have hcut' : (cutTo d.width (l.dropWhile isspace)).length = (d.cut l).length := rfl
    have happ' := congrArg List.length happ
    have hlong := congrArg List.length heq
    rw [htail, hs'] at happ'
    rw [hrest] at hlong
    simp only [hcut', List.length_append, List.length_drop, List.length_cons] at happ'
    simp only [List.length_append, List.length_drop, List.length_cons, List.length_nil] at hlong
    omega

/-- More digits than the width leaves behind the sign: the code takes one more. -/
theorem overlong_differs {k w : Nat} (h1 : ∀ w ∈ d.width, 1 ≤ w)
    (hs : Signed l neg t) (hk : 1 ≤ k) (hw : 1 ≤ w)
    (hscan : d.scanned t = (d.conv.base, (t.take w).takeWhile (IsDigit d.conv.base),
      t.drop ((t.take w).takeWhile (IsDigit d.conv.base)).length))
    (htail : d.tail (l.dropWhile isspace) t = t.take (w - k))
    (hlen : w ≤ (t.takeWhile (IsDigit d.conv.base)).length) : d.reads l ≠ d.wants l := by
  have happ := tail_append h1 (l.dropWhile isspace)
  rw [hs.grammar] at happ
  dsimp only at happ
  have hle := (List.takeWhile_sublist (IsDigit d.conv.base) (l := t)).length_le
  have htake : ((t.take w).takeWhile (IsDigit d.conv.base)).length = w := by
    rw [← List.take_takeWhile, List.length_take]
    omega
  apply differ h1 hs hscan
  · rw [List.length_drop]; omega
  · intro _ heq
    have hlong := congrArg List.length heq
    have happ' := congrArg List.length happ
    have hcut' : (cutTo d.width (l.dropWhile isspace)).length = (d.cut l).length := rfl
    simp only [htail, hcut', List.length_append, List.length_take, List.length_drop] at happ'
    simp only [List.length_append, List.length_drop, htake] at hlong
    omega

/-- `%d`, `%o` and `%x` with a width. -/
theorem width_iff {w : Nat} (hw : d.width = some w) (h1 : 1 ≤ w) (hc : ¬(d.conv = .u ∨ d.conv = .i))
    (hs : Signed l neg t) (hseen : OverflowSeen (d.scanned t).1 0 (d.scanned t).2.1) :
    d.reads l = d.wants l ↔ d.WidthFine w neg ((l.dropWhile isspace).length - t.length) t := by
  have h1' := width_pos hw h1
  obtain ⟨hdiv, hb⟩ := base_given hc
  obtain ⟨k, hk1, -, -, hklen⟩ := signPrefix_drop (l.dropWhile isspace)
  rw [hs.grammar] at hklen
  dsimp only at hklen
  have hcode := (width_code hw t).trans (congrArg (·, t) hdiv)
  have hcut : cutTo d.width t = t.take w := by rw [hw]; rfl
  have htail : d.tail (l.dropWhile isspace) t = t.take (w - k) := by
    rw [Directive.tail, hw, ← hklen]
  have hscan : d.scanned t = (d.conv.base, (t.take w).takeWhile (IsDigit d.conv.base),
      t.drop ((t.take w).takeWhile (IsDigit d.conv.base)).length) := by
    unfold Directive.scanned
    rw [hcode]
    dsimp only
    rw [hcut]
  rw [hscan] at hseen
  rw [Directive.WidthFine, if_neg hc, hklen]
  by_cases hrun : k = 0 ∨ (t.takeWhile (IsDigit d.conv.base)).length < w
  · have hsame : (t.take w).takeWhile (IsDigit d.conv.base) =
        (t.take (w - k)).takeWhile (IsDigit d.conv.base) := by
      rw [← List.take_takeWhile, ← List.take_takeWhile]
      rcases hrun with h0 | hlt
      · rw [h0, Nat.sub_zero]
      · rw [List.take_of_length_le (by omega), List.take_of_length_le (by omega)]
    by_cases hpre : Number.basePrefix d.conv.base (t.take (w - k)) =
        (d.conv.base, t.take (w - k))
    · have h := plain_iff h1' hs hb.1 (by omega) hcode (by rw [htail]; exact hpre)
        (by rw [hcut, htail]; exact hsame) (by rw [hcut]; exact hseen)
      rw [h, hcut]
      exact ⟨fun h => ⟨hrun, hpre, h⟩, fun h => h.2.2⟩
    · exact iff_of_false (prefix_differs h1' hs hb hscan htail hpre) fun h => hpre h.2.1
  · have hlen : w ≤ (t.takeWhile (IsDigit d.conv.base)).length := by omega
    exact iff_of_false (overlong_differs h1' hs (by omega) h1 hscan htail hlen) fun h => hrun h.1

/-! ## Behind two signs -/

/-- The base in which the first digit is read. -/
def Directive.readBase (d : Directive) : Nat :=
  if d.width = none ∧ divOf d.conv.char = 0 then 10 else divOf d.conv.char

theorem takeWhile_nil_iff (p : UInt8 → Bool) (s : List UInt8) :
    s.takeWhile p = [] ↔ s.head?.any p = false := by
  rcases s with - | ⟨c, s⟩
  · simp
  · cases h : p c with
    | true =>
      rw [List.takeWhile_cons_of_pos h]
      exact iff_of_false (List.cons_ne_nil _ _) (by simp [h])
    | false =>
      rw [List.takeWhile_cons_of_neg (by simp [h])]
      exact iff_of_true rfl (by simp [h])

theorem hexPrefix_lt {b : Nat} {r : List UInt8} (h : r.head? = some zero) :
    (hexPrefix b r).2.length < r.length := by
  obtain ⟨r, rfl⟩ := List.head?_eq_some_iff.1 h
  unfold hexPrefix
  split
  · simp only [List.tail_cons, List.length_tail, List.length_cons]; omega
  · simp

/-- Nothing is read exactly if the first character is not a digit. -/
theorem scanned_iff (h1 : ∀ w ∈ d.width, 1 ≤ w) (r : List UInt8) :
    (d.scanned r).2.2.length = r.length ↔ r.head?.any (IsDigit d.readBase) = false := by
  have hplain (hcode : basePrefix d.flags (divOf d.conv.char) r = (d.readBase, r)) :
      (d.scanned r).2.2.length = r.length ↔ r.head?.any (IsDigit d.readBase) = false := by
    unfold Directive.scanned
    rw [hcode]
    dsimp only
    have hsub : ((cutTo d.width r).takeWhile (IsDigit d.readBase)).length ≤ r.length := by
      have h := (List.takeWhile_sublist (IsDigit d.readBase) (l := cutTo d.width r)).length_le
      have h' : (cutTo d.width r).length ≤ r.length := by
        cases d.width with
        | none => exact Nat.le_refl _
        | some w => exact (List.take_sublist w r).length_le
      omega
    have hhead : (cutTo d.width r).head? = r.head? := by
      cases hw : d.width with
      | none => rfl
      | some w =>
        obtain ⟨v, rfl⟩ : ∃ v, w = v + 1 := ⟨w - 1, by have := h1 w hw; omega⟩
        cases r <;> rfl
    have hpos : (cutTo d.width r).takeWhile (IsDigit d.readBase) ≠ [] → 0 < r.length := fun h => by
      have := List.length_pos_iff.2 h
      omega
    rw [← hhead, ← takeWhile_nil_iff, List.length_drop]
    generalize (cutTo d.width r).takeWhile (IsDigit d.readBase) = ds at *
    rw [← List.length_eq_zero_iff]
    omega
  cases hw : d.width with
  | some w =>
    apply hplain
    rw [width_code hw, Directive.readBase, if_neg (fun h => by rw [hw] at h; cases h.1)]
  | none =>
    have hskip {b : Nat} (hz : r.head? = some zero) (hpos : 1 ≤ d.readBase)
        (hcode : basePrefix d.flags (divOf d.conv.char) r = hexPrefix b r) :
        (d.scanned r).2.2.length = r.length ↔ r.head?.any (IsDigit d.readBase) = false := by
      have hlt := hexPrefix_lt (b := b) hz
      refine iff_of_false ?_ ?_
      · rw [scanned_free hw (hcode.trans Prod.mk.eta.symm)]
        have := (List.dropWhile_sublist (IsDigit (hexPrefix b r).1) (l := (hexPrefix b r).2)).length_le
        dsimp only
        omega
      · rw [hz]
        show IsDigit d.readBase zero ≠ false
        rw [isDigit_zero hpos]
        exact Bool.noConfusion
    have hcode := free_base hw r
    by_cases h0 : divOf d.conv.char = 0
    · have hread : d.readBase = 10 := if_pos ⟨hw, h0⟩
      rw [h0, if_neg (by omega), if_pos rfl] at hcode
      by_cases hz : r.head? = some zero
      · rw [if_pos hz] at hcode
        exact hskip hz (by omega) (by rw [h0]; exact hcode)
      · rw [if_neg hz] at hcode
        exact hplain (by rw [h0, hread]; exact hcode)
    · have hread : d.readBase = divOf d.conv.char := if_neg fun h => h0 h.2
      rw [if_neg h0] at hcode
      by_cases h16 : divOf d.conv.char = 16 ∧ r.head? = some zero
      · rw [if_pos h16] at hcode
        exact hskip h16.2 (by omega) hcode
      · rw [if_neg h16] at hcode
        exact hplain (by rw [hread]; exact hcode)

/-- Behind `-+` there is a number for the code alone. -/
theorem doubled_iff (h1 : ∀ w ∈ d.width, 1 ≤ w) {r : List UInt8}
    (hbody : l.dropWhile isspace = dash :: plus :: r) :
    d.reads l = d.wants l ↔ r.head?.any (IsDigit d.readBase) = false := by
  have hwants : d.wants l = none := by
    have hplus (b : Nat) (s : List UInt8) : (plus :: s).head?.any (IsDigit b) = false := rfl
    have hsign : Number.signPrefix (dash :: plus :: r) = (true, plus :: r) := rfl
    rw [wants_eq h1, hbody, Directive.found, hsign]
    dsimp only
    rw [if_pos]
    apply (digits_nil_iff (baseOk d.conv) _).2
    unfold Directive.tail
    cases d.width with
    | none => exact hplus _ r
    | some w =>
      dsimp only
      cases w - ((dash :: plus :: r).length - (plus :: r).length) with
      | zero => rfl
      | succ v => exact hplus _ (r.take v)
  have hafter : pass plus (pass dash (dash :: plus :: r)) = r := rfl
  rw [← scanned_iff h1 r, hwants]
  unfold Directive.reads
  rw [hbody]
  dsimp only
  rw [hafter]
  by_cases h : (d.scanned r).2.2.length = r.length
  · rw [if_pos h]
    exact iff_of_true rfl h
  · rw [if_neg h]
    exact iff_of_false (Option.some_ne_none _) h

/-! ## The condition -/

/-- The input goes wrong in no way that the directive has. -/
def Directive.Fine (d : Directive) (l : List UInt8) : Prop :=
  let body := l.dropWhile isspace
  if body.take 2 = [dash, plus] then (body.drop 2).head?.any (IsDigit d.readBase) = false
  else
    let (neg, t) := Number.signPrefix body
    match d.width with
    | none => d.FreeFine neg t
    | some w => d.WidthFine w neg (body.length - t.length) t

/-- The `int`s of the code hold what they count, and the product of the digits shows its overflow. -/
structure Directive.Tame (d : Directive) (l : List UInt8) (c : Nat) : Prop extends d.Fits l c where
  seen : OverflowSeen (d.scanned (afterSigns l)).1 0 (d.scanned (afterSigns l)).2.1

theorem reads_iff (h1 : ∀ w ∈ d.width, 1 ≤ w)
    (hseen : OverflowSeen (d.scanned (afterSigns l)).1 0 (d.scanned (afterSigns l)).2.1) :
    d.reads l = d.wants l ↔ d.Fine l := by
  unfold Directive.Fine
  dsimp only
  by_cases hdouble : (l.dropWhile isspace).take 2 = [dash, plus]
  · obtain ⟨r, hr⟩ : ∃ r, l.dropWhile isspace = dash :: plus :: r :=
      ⟨_, (hdouble ▸ (List.take_append_drop 2 (l.dropWhile isspace)).symm)⟩
    rw [if_pos hdouble, doubled_iff h1 hr, hr]
    rfl
  · rw [if_neg hdouble]
    obtain ⟨r, hr⟩ | ⟨hbehind, hdash⟩ := signs (l.dropWhile isspace)
    · exact absurd (by rw [hr]; rfl) hdouble
    · generalize hsign : Number.signPrefix (l.dropWhile isspace) = sign at hbehind hdash
      obtain ⟨neg, t⟩ := sign
      have hs : Signed l neg t := ⟨hsign, hbehind, hdash⟩
      have hafter : afterSigns l = t := hbehind
      rw [hafter] at hseen
      dsimp only
      cases hw : d.width with
      | none =>
        cases hc : d.conv with
        | d => exact free_iff_do hw (.inl hc) hs hseen
        | i => exact free_iff_xi hw (.inr hc) hs hseen
        | u => exact free_iff_u hw hc hs hseen
        | o => exact free_iff_do hw (.inr hc) hs hseen
        | x => exact free_iff_xi hw (.inl hc) hs hseen
      | some w =>
        by_cases hc : d.conv = .u ∨ d.conv = .i
        · exact width_iff_ui hw (h1 w hw) hc hs
        · exact width_iff hw (h1 w hw) hc hs hseen

end

/-- **When an integer directive agrees with `strtol`.** -/
theorem scanf_agrees {d : Directive} (h1 : ∀ w ∈ d.width, 1 ≤ w) {s : St} {l : List UInt8}
    {c n : Nat} (h : At s l c n) (format : List UInt8) :
    (d.Tame l c ∧ d.Fine l → d.Agrees format l n s) ∧
      (d.Tame l c → d.Agrees format l n s → d.Fine l) := by
  have hiff (ht : d.Tame l c) : d.Agrees format l n s ↔ d.Fine l :=
    (agrees_iff ht.toFits h format).trans (reads_iff h1 ht.seen)
  exact ⟨fun h => (hiff h.1).2 h.2, fun ht => (hiff ht).1⟩

/-- `%3d` agrees on `-12`. -/
theorem scanf_agrees_minus : Directive.Agrees ⟨.d, .int, some 3⟩ [] [45, 49, 50] 0
    { tpch := some 45, rest := [49, 50], consumed := 1, n := 0, stored := [] } := by
  have hat : At { tpch := some 45, rest := [49, 50], consumed := 1, n := 0, stored := [] }
    [45, 49, 50] 0 0 := ⟨rfl, rfl, rfl, rfl⟩
  have h := scanf_agrees (d := ⟨.d, .int, some 3⟩) (fun w h => by cases h; decide) hat []
  apply h.1
  refine ⟨⟨Directive.fits_small (fun w h => by cases h; decide) (by decide), ?_⟩, ?_⟩
  · show OverflowSeen 10 0 [49, 50]
    simp only [OverflowSeen]
    decide
  · show (1 = 0 ∨ 2 < 3) ∧ _ ∧ ValueFine .d 32 true 12
    exact ⟨.inr (by decide), rfl, .inl (by decide)⟩

/-- `%3i` does not agree on `12`: it converts nothing. -/
theorem scanf_agrees_width : ¬Directive.Agrees ⟨.i, .int, some 3⟩ [] [49, 50] 0
    { tpch := some 49, rest := [50], consumed := 1, n := 0, stored := [] } := by
  have hat : At { tpch := some 49, rest := [50], consumed := 1, n := 0, stored := [] }
    [49, 50] 0 0 := ⟨rfl, rfl, rfl, rfl⟩
  have hw : ∀ w ∈ (⟨.i, .int, some 3⟩ : Directive).width, 1 ≤ w ∧ w < 2 ^ 31 := fun w h => by
    cases h
    decide
  rw [agrees_iff (Directive.fits_small (fun w h => (hw w h).2) (by decide)) hat [],
    reads_iff (l := [49, 50]) (fun w h => (hw w h).1) trivial]
  exact fun h => by cases h

end Dietlibc.Scanf
