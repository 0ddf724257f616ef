import Dietlibc.Scanf.Stream
import Dietlibc.Number.Ltostr

/-!
# What the integer directives store

A directive `%d`, `%i`, `%u`, `%o` or `%x` with a width and a size on the plain input: the number it
reads and what it leaves (`Directive.reads`), beside what `strtol` or `strtoul` make of the same input
(`Directive.number`). The number is built in 64 bits by `accum`.
-/

namespace Dietlibc.Scanf

open Shell (isspace isdigit dash)
open Number (IsDigit valueFrom numeral)

/-! ## Directives -/

/-- The conversions of integers. -/
inductive IntConv where
  | d
  | i
  | u
  | o
  | x
  deriving DecidableEq

def IntConv.char : IntConv → UInt8
  | .d => chard
  | .i => chari
  | .u => charu
  | .o => charo
  | .x => charx

/-- The base for `strtol`. -/
def IntConv.base : IntConv → Nat
  | .d => 10
  | .i => 0
  | .u => 10
  | .o => 8
  | .x => 16

/-- Whether it is `strtol`, and not `strtoul`. -/
def IntConv.signed : IntConv → Bool
  | .d | .i => true
  | .u | .o | .x => false

/-- The length modifiers. -/
inductive Size where
  | int
  | half
  | long
  | longlong
  deriving DecidableEq

def Size.text : Size → List UInt8
  | .int => []
  | .half => [charh]
  | .long => [charl]
  | .longlong => [charl, charl]

def Size.bits : Size → Nat
  | .int => 32
  | .half => 16
  | .long | .longlong => 64

/-- A directive without `%`. -/
structure Directive where
  conv : IntConv
  size : Size
  width : Option Nat

/-- The text of a width. -/
def widthText : Option Nat → List UInt8
  | none => []
  | some w => numeral 10 false w

def Directive.text (d : Directive) : List UInt8 := widthText d.width ++ (d.size.text ++ [d.conv.char])

/-- The `int` that a width comes to. -/
@[irreducible] def widthNumber (w : Nat) : Int := CInt.conv 32 (min w (2 ^ 63 - 1) : Nat)

/-- The flags that the text sets. -/
def Directive.flags (d : Directive) : Flags where
  width := d.width.elim (-1) widthNumber
  flagWidth := d.width.isSome
  discard := false
  half := d.size = .half
  long := d.size = .long ∨ d.size = .longlong
  longlong := d.size = .longlong

/-! ## The flags of a text -/

theorem isdigit_eq (c : UInt8) : isdigit c = IsDigit 10 c := by
  apply CInt.forall_byte (P := fun c => isdigit c = IsDigit 10 c)
  decide +kernel

theorem digit?_of_isdigit {c : UInt8} (h : IsDigit 10 c = true) :
    c.toNat - 48 = (Number.digit? c).getD 0 := by
  revert h
  apply CInt.forall_byte (P := fun c => IsDigit 10 c = true → c.toNat - 48 = (Number.digit? c).getD 0)
  decide +kernel

theorem foldl_eq_valueFrom (v : Nat) {ds : List UInt8} (h : ∀ c ∈ ds, IsDigit 10 c = true) :
    ds.foldl (fun v c => v * 10 + (c.toNat - 48)) v = valueFrom 10 v ds := by
  induction ds generalizing v with
  | nil => rfl
  | cons c ds ih =>
    rw [List.foldl_cons, digit?_of_isdigit (h c List.mem_cons_self),
      ih _ fun x hx => h x (List.mem_cons_of_mem c hx)]
    rfl

theorem widthOf_eq (l : List UInt8) : widthOf l =
    widthNumber ((l.takeWhile isdigit).foldl (fun v c => v * 10 + (c.toNat - 48)) 0) := by
  unfold widthOf
  generalize (l.takeWhile isdigit).foldl (fun v c => v * 10 + (c.toNat - 48)) 0 = v
  unfold widthNumber
  dsimp only

/-- The width of a numeral. -/
theorem widthOf_numeral (w : Nat) {rest : List UInt8} (h : ∀ c ∈ rest.head?, isdigit c = false) :
    widthOf (numeral 10 false w ++ rest) = widthNumber w ∧
      (numeral 10 false w ++ rest).dropWhile isdigit = rest := by
  have hdig := Number.isDigit_numeral (by decide : 2 ≤ 10 ∧ 10 ≤ 36) false w
  have hall : ∀ c ∈ numeral 10 false w, isdigit c = true := fun c hc => by
    rw [isdigit_eq]; exact hdig c hc
  have htake : (numeral 10 false w ++ rest).takeWhile isdigit = numeral 10 false w := by
    rw [List.takeWhile_append_of_pos hall]
    rcases rest with - | ⟨c, rest⟩
    · rw [List.takeWhile_nil, List.append_nil]
    · rw [List.takeWhile_cons_of_neg (by simp [h c rfl]), List.append_nil]
  constructor
  · rw [widthOf_eq, htake, foldl_eq_valueFrom 0 hdig, Number.value_numeral (by decide)]
  · rw [List.dropWhile_append_of_pos hall]
    rcases rest with - | ⟨c, rest⟩
    · rfl
    · rw [List.dropWhile_cons_of_neg (by simp [h c rfl])]

theorem inScan_flag {ch : UInt8} {f f' : Flags} {format format' : List UInt8} {s : St}
    (h : s.tpch ≠ none) (hf : flag ch f format = some (f', format')) :
    inScan f (ch :: format) s = inScan f' format' s := by
  rw [inScan, if_neg (fun h' => h h'.2)]
  split
  · rename_i he
    rw [hf] at he
    obtain ⟨rfl, rfl⟩ := Prod.mk.inj (Option.some.inj he)
    rfl
  · rename_i he
    rw [hf] at he
    cases he

theorem inScan_conv {ch : UInt8} {f : Flags} {format : List UInt8} {s : St}
    (h : s.tpch ≠ none) (hf : flag ch f format = none) :
    inScan f (ch :: format) s = convert ch f format s := by
  rw [inScan, if_neg (fun h' => h h'.2)]
  split
  · rename_i he
    rw [hf] at he
    cases he
  · rfl

/-- The flags with a width. -/
def widthFlags (width : Option Nat) : Flags :=
  { noFlags with
    width := width.elim (-1) widthNumber
    flagWidth := width.isSome }

theorem flag_digit {ch : UInt8} (h : isdigit ch = true) (f : Flags) (format : List UInt8) :
    flag ch f format = some ({ f with width := widthOf (ch :: format), flagWidth := true },
      format.dropWhile isdigit) := by
  have hne {x : UInt8} (hx : isdigit x = false) : ch ≠ x := by
    rintro rfl
    rw [h] at hx
    cases hx
  rw [flag, if_neg (hne (by decide)), if_neg (hne (by decide)), if_neg (hne (by decide)), if_neg,
    if_pos h]
  rintro (h' | h')
  · exact hne (by decide) h'
  · exact hne (by decide) h'

theorem elim_some (g : Nat → Int) (w : Nat) :
    ({ noFlags with width := (some w).elim (-1) g, flagWidth := (some w).isSome } : Flags) =
      { noFlags with width := g w, flagWidth := true } := rfl

theorem inScan_width (width : Option Nat) {rest : List UInt8}
    (hrest : ∀ c ∈ rest.head?, isdigit c = false) {s : St} (h : s.tpch ≠ none) :
    inScan noFlags (widthText width ++ rest) s = inScan (widthFlags width) rest s := by
  cases width with
  | none => rfl
  | some w =>
    obtain ⟨hw, hdrop⟩ := widthOf_numeral w hrest
    have hdig := Number.isDigit_numeral (by decide : 2 ≤ 10 ∧ 10 ≤ 36) false w
    have hpos : 0 < (numeral 10 false w).length := Number.length_numeral_pos
    rw [widthText]
    cases hn : numeral 10 false w with
    | nil => rw [hn] at hpos; exact absurd hpos (Nat.lt_irrefl 0)
    | cons c t =>
      rw [hn] at hw hdrop hdig
      have hc : isdigit c = true := by rw [isdigit_eq]; exact hdig c List.mem_cons_self
      rw [List.cons_append] at hw hdrop ⊢
      rw [List.dropWhile_cons_of_pos hc] at hdrop
      rw [inScan_flag h (flag_digit hc noFlags _), hw, hdrop, widthFlags, elim_some]

/-- A conversion is reached behind its flags, if there is still input. -/
theorem inScan_text (d : Directive) (format : List UInt8) {s : St} (h : s.tpch ≠ none) :
    inScan noFlags (d.text ++ format) s = .ok (convInt d.conv.char d.flags format s) := by
  obtain ⟨conv, size, width⟩ := d
  have hlast : flag conv.char (Directive.flags ⟨conv, size, width⟩) format = none := by
    cases conv <;> rfl
  have hconv : convert conv.char (Directive.flags ⟨conv, size, width⟩) format s =
      .ok (convInt conv.char (Directive.flags ⟨conv, size, width⟩) format s) := by
    cases conv <;> rfl
  have hhead : ∀ c ∈ (size.text ++ [conv.char] ++ format).head?, isdigit c = false := by
    cases size <;> cases conv <;> exact fun c hc => by cases hc; rfl
  rw [Directive.text, List.append_assoc, inScan_width width hhead h]
  dsimp only
  rw [← hconv, ← inScan_conv h hlast, List.append_assoc, List.singleton_append]
  cases size with
  | int => rfl
  | half => exact inScan_flag h rfl
  | long => exact inScan_flag h rfl
  | longlong => exact (inScan_flag h rfl).trans (inScan_flag h rfl)

/-! ## The number that is read -/

/-- The number that the loop makes of digits behind `v`. -/
def accum (b v : Nat) (ds : List UInt8) : Nat :=
  ds.foldl (fun v c => if v * b % 2 ^ 64 < v then 2 ^ 64 - 1 else (v * b % 2 ^ 64 + digit c) % 2 ^ 64) v

/-- `l`, or as much of it as the width allows. -/
def cutTo (width : Option Nat) (l : List UInt8) : List UInt8 :=
  match width with
  | none => l
  | some w => l.take w

/-- The base, the digits that are read behind the signs, and what is left. -/
def Directive.scanned (d : Directive) (after : List UInt8) : Nat × List UInt8 × List UInt8 :=
  let (div, digits) := basePrefix d.flags (divOf d.conv.char) after
  let ds := (cutTo d.width digits).takeWhile (IsDigit div)
  (div, ds, digits.drop ds.length)

/-- What the code stores and leaves, if it converts. -/
def Directive.reads (d : Directive) (l : List UInt8) : Option (Nat × List UInt8) :=
  let body := l.dropWhile isspace
  let after := pass plus (pass dash body)
  let (div, ds, left) := d.scanned after
  if left.length = after.length then none
  else some (signed d.conv.char (body.head? = some dash) (accum div 0 ds) % 2 ^ d.size.bits, left)

/-- A character counts as the same digit here and in `strtol`. -/
theorem digit_eq (c : UInt8) : (Number.digit? c = none ∧ 36 ≤ digit c) ∨
    Number.digit? c = some (digit c) := by
  apply CInt.forall_byte (P := fun c => (Number.digit? c = none ∧ 36 ≤ digit c) ∨
    Number.digit? c = some (digit c))
  decide +kernel

theorem digit_lt {b : Nat} (hb : b ≤ 36) (c : UInt8) : decide (digit c < b) = IsDigit b c := by
  unfold IsDigit
  rcases digit_eq c with ⟨h, h36⟩ | h
  · rw [h]; simp; omega
  · rw [h]; simp

variable {s s' : St} {l left format : List UInt8} {c n k v : Nat} {i : Int} {f : Flags}

theorem divOf_le (conv : IntConv) : divOf conv.char ≤ 16 := by cases conv <;> decide

theorem hexPrefix_le {b : Nat} (hb : b ≤ 36) : (hexPrefix b l).1 ≤ 36 := by
  unfold hexPrefix
  split
  · exact show 16 ≤ 36 by decide
  · exact hb

theorem basePrefix_le {b : Nat} (hb : b ≤ 36) : (basePrefix f b l).1 ≤ 36 := by
  unfold basePrefix
  split
  · exact hb
  · split
    · exact hexPrefix_le (by decide)
    · split
      · split
        · exact hexPrefix_le (by decide)
        · exact show 10 ≤ 36 by decide
      · exact hb

/-- The longest prefix with `p`, of at most `width` characters. A negative width is no bound. -/
def run (p : UInt8 → Bool) (width : Int) (l : List UInt8) : List UInt8 :=
  (if width < 0 then l else l.take width.toNat).takeWhile p

theorem behind_eq (p : UInt8 → Bool) (i : Int) (l : List UInt8) :
    behind p i l = l.drop (run p i l).length := rfl

theorem run_nil (p : UInt8 → Bool) (i : Int) : run p i [] = [] := by
  unfold run
  simp

theorem run_cons (p : UInt8 → Bool) (i : Int) (x : UInt8) (l : List UInt8) : run p i (x :: l) =
    if i = 0 ∨ p x = false then [] else x :: run p (i - 1) l := by
  unfold run
  by_cases hneg : i < 0
  · rw [if_pos hneg, if_pos (show i - 1 < 0 by omega)]
    cases hp : p x with
    | true => rw [List.takeWhile_cons_of_pos hp, if_neg (by simp; omega)]
    | false => rw [List.takeWhile_cons_of_neg (by simp [hp]), if_pos (.inr rfl)]
  · rw [if_neg hneg]
    by_cases h0 : i = 0
    · rw [if_pos (.inl h0), h0]
      rfl
    · obtain ⟨w, rfl⟩ : ∃ w : Nat, i = (w + 1 : Nat) := ⟨(i - 1).toNat, by omega⟩
      rw [if_neg (show ¬ ((w + 1 : Nat) : Int) - 1 < 0 by omega), Int.toNat_natCast,
        List.take_succ_cons, show (((w + 1 : Nat) : Int) - 1).toNat = w by omega]
      cases hp : p x with
      | true => rw [List.takeWhile_cons_of_pos hp, if_neg (by simp; omega)]
      | false => rw [List.takeWhile_cons_of_neg (by simp [hp]), if_pos (.inr rfl)]

/-- The value that the loop over the digits returns. -/
theorem digitLoop_value {b : Nat} (h : At s l c n) (hk : l.length ≤ k) :
    (digitLoop b k i v s).1 = accum b v (run (fun c => digit c < b) i l) := by
  induction k generalizing s l c i v with
  | zero =>
    obtain rfl := List.length_eq_zero_iff.mp (by omega : l.length = 0)
    rw [run_nil]
    rfl
  | succ k ih =>
    rcases l with - | ⟨x, l⟩
    · simp only [digitLoop, h.tpch, List.head?_nil]
      rw [run_nil]
      rfl
    · simp only [digitLoop, h.tpch, List.head?_cons]
      rw [run_cons]
      have hiff : (i = 0 ∨ b ≤ digit x) ↔ (i = 0 ∨ decide (digit x < b) = false) := by
        rw [decide_eq_false_iff_not, not_lt]
      by_cases hstop : i = 0 ∨ b ≤ digit x
      · rw [if_pos hstop, if_pos (hiff.mp hstop)]
        rfl
      · rw [if_neg hstop, if_neg (hiff.not.mp hstop), ih h.getc (by simpa using hk)]
        rfl

theorem digitLoop_stored {b : Nat} : (digitLoop b k i v s).2.stored = s.stored := by
  induction k generalizing i v s with
  | zero => rfl
  | succ k ih =>
    rw [digitLoop]
    split
    · rfl
    · split
      · rfl
      · exact ih

theorem whileGetc_stored {p : UInt8 → Bool} : (whileGetc p k s).stored = s.stored := by
  induction k generalizing s with
  | zero => rfl
  | succ k ih =>
    rw [whileGetc]
    split
    · exact ih
    · rfl

theorem scanSign_stored : (scanSign s).2.stored = s.stored := by
  unfold scanSign
  by_cases hd : s.tpch = some dash
  · rw [if_pos hd]
    dsimp only
    split <;> rfl
  · rw [if_neg hd]
    dsimp only
    split <;> rfl

theorem scanSign_neg (h : At s l c n) : (scanSign s).1 = decide (l.head? = some dash) := by
  unfold scanSign
  rw [h.tpch]
  by_cases hd : l.head? = some dash
  · rw [if_pos hd, decide_eq_true hd]
  · rw [if_neg hd, decide_eq_false hd]

theorem scanHex_stored {b : Nat} : (scanHex b s).2.stored = s.stored := by
  unfold scanHex
  dsimp only
  split <;> rfl

theorem scanPrefix_stored {b : Nat} : (scanPrefix f b s).2.stored = s.stored := by
  unfold scanPrefix
  split
  · rfl
  · split
    · exact scanHex_stored
    · split
      · split
        · exact scanHex_stored
        · rfl
      · rfl

theorem widthNumber_small {w : Nat} (h : w < 2 ^ 31) : widthNumber w = w := by
  have hmin : min w (2 ^ 63 - 1) = w := Nat.min_eq_left (by omega)
  unfold widthNumber
  rw [hmin]
  apply CInt.conv_of_fits (by decide)
  rw [CInt.fits32]
  omega

/-- A width that an `int` holds is the bound of the loop. -/
theorem run_cut {d : Directive} (hw : ∀ w ∈ d.width, w < 2 ^ 31) (p : UInt8 → Bool)
    (l : List UInt8) : run p d.flags.width l = (cutTo d.width l).takeWhile p := by
  obtain ⟨conv, size, width⟩ := d
  cases width with
  | none => rfl
  | some w =>
    have hf : (Directive.flags ⟨conv, size, some w⟩).width = (some w).elim (-1) widthNumber := rfl
    rw [hf, Option.elim_some, widthNumber_small (hw w rfl), run, if_neg (by omega), Int.toNat_natCast]
    rfl

theorem bitsOf_flags (d : Directive) : bitsOf d.flags = d.size.bits := by
  obtain ⟨conv, size, width⟩ := d
  cases size <;> rfl

theorem length_pass (ch : UInt8) (l : List UInt8) : (pass ch l).length ≤ l.length := by
  unfold pass
  split
  · rw [List.length_tail]; omega
  · exact Nat.le_refl _

theorem length_hexPrefix (b : Nat) (l : List UInt8) : (hexPrefix b l).2.length ≤ l.length := by
  unfold hexPrefix
  split
  · simp only [List.length_tail]; omega
  · simp only [List.length_tail]; omega

theorem length_basePrefix (f : Flags) (b : Nat) (l : List UInt8) :
    (basePrefix f b l).2.length ≤ l.length := by
  unfold basePrefix
  split
  · exact Nat.le_refl _
  · split
    · exact length_hexPrefix 16 l
    · split
      · split
        · exact length_hexPrefix 8 l
        · exact Nat.le_refl _
      · exact Nat.le_refl _

/-- The input behind white space and signs. -/
def afterSigns (l : List UInt8) : List UInt8 := pass plus (pass dash (l.dropWhile isspace))

/-- The `int`s of the code hold what they count, when `c` characters were consumed: the width lets the
digits through that it should, and the count grows over the digits. -/
structure Directive.Fits (d : Directive) (l : List UInt8) (c : Nat) : Prop where
  width : let (div, digits) := basePrefix d.flags (divOf d.conv.char) (afterSigns l)
    run (IsDigit div) d.flags.width digits = (cutTo d.width digits).takeWhile (IsDigit div)
  counted : (d.scanned (afterSigns l)).2.2.length = (afterSigns l).length ∨
    (c + (l.length - (afterSigns l).length) + 1) % 2 ^ 32 <
      (c + (l.length - (d.scanned (afterSigns l)).2.2.length) + 1) % 2 ^ 32

/-- They do for a width of 31 bits and fewer than `2 ^ 32` characters. -/
theorem Directive.fits_small {d : Directive} (hw : ∀ w ∈ d.width, w < 2 ^ 31)
    (hlen : c + l.length + 1 < 2 ^ 32) : d.Fits l c := by
  refine ⟨run_cut hw _ _, ?_⟩
  have hafter : (afterSigns l).length ≤ l.length :=
    (length_pass _ _).trans ((length_pass _ _).trans (List.dropWhile_sublist isspace (l := l)).length_le)
  have hleft : (d.scanned (afterSigns l)).2.2.length ≤ (afterSigns l).length := by
    unfold Directive.scanned
    have := length_basePrefix d.flags (divOf d.conv.char) (afterSigns l)
    rw [List.length_drop]
    omega
  rw [Nat.mod_eq_of_lt (by omega), Nat.mod_eq_of_lt (by omega)]
  omega

/-- What `convInt` does on the plain input. -/
theorem convInt_reads {d : Directive} (hf : d.Fits l c) (h : At s l c n) (format : List UInt8) :
    (d.reads l = none → ∃ e, convInt d.conv.char d.flags format s = .stop e) ∧
    ∀ v left, d.reads l = some (v, left) → ∃ s' c', convInt d.conv.char d.flags format s =
      .go format s' ∧ At s' left c' (n + 1) ∧ s'.stored = s.stored ++ [.int d.size.bits v] := by
  have hspace := skipSpace_moved h
  have hstored : (skipSpace s).stored = s.stored := whileGetc_stored
  have hsign := hspace.trans (scanSign_moved hspace.2)
  have hneg := scanSign_neg hspace.2
  have hstored' := (scanSign_stored (s := skipSpace s)).trans hstored
  obtain ⟨hwidth, hcounted⟩ := hf
  unfold afterSigns Directive.scanned at hcounted
  unfold afterSigns at hwidth
  unfold convInt Directive.reads Directive.scanned
  generalize scanSign (skipSpace s) = signs at hsign hneg hstored' ⊢
  obtain ⟨neg, s₁⟩ := signs
  simp only at hsign hneg hstored' ⊢
  generalize pass plus (pass dash (l.dropWhile isspace)) = after at hsign hwidth hcounted ⊢
  obtain ⟨hle, hat⟩ := hsign
  by_cases hnil : after = []
  · subst hnil
    have hnone : s₁.tpch = none := hat.tpch
    have hdrop : ∀ k, (List.drop k ([] : List UInt8)).length = ([] : List UInt8).length :=
      fun k => congrArg List.length List.drop_nil
    rw [if_pos hnone, basePrefix_nil, if_pos (hdrop _)]
    exact ⟨fun _ => ⟨leave s₁.n s₁, rfl⟩, fun v left h => by cases h⟩
  have htpch : s₁.tpch ≠ none := by
    rw [hat.tpch]
    simpa using hnil
  rw [if_neg htpch]
  obtain ⟨hbase, hprefix⟩ := scanPrefix_moved (f := d.flags) (b := divOf d.conv.char) hat
  have hb36 : (basePrefix d.flags (divOf d.conv.char) after).1 ≤ 36 :=
    basePrefix_le ((divOf_le d.conv).trans (by decide))
  have hstored'' := (scanPrefix_stored (f := d.flags) (b := divOf d.conv.char) (s := s₁)).trans
    hstored'
  generalize scanPrefix d.flags (divOf d.conv.char) s₁ = r at hbase hprefix hstored'' ⊢
  generalize basePrefix d.flags (divOf d.conv.char) after = r'
    at hbase hprefix hb36 hwidth hcounted ⊢
  obtain ⟨base, s₂⟩ := r
  obtain ⟨base', digits⟩ := r'
  obtain rfl : base = base' := hbase
  simp only at hprefix hb36 hstored'' hwidth hcounted ⊢
  have hp : (fun c => decide (digit c < base)) = IsDigit base := funext fun c => digit_lt hb36 c
  have hdigits := digitLoop_moved (b := base) (i := d.flags.width) (v := 0) hprefix.2 hprefix.2.fuel
  have hvalue := digitLoop_value (b := base) (i := d.flags.width) (v := 0) hprefix.2 hprefix.2.fuel
  have hstored₃ := (digitLoop_stored (k := s₂.rest.length + 1) (i := d.flags.width) (v := 0)
    (s := s₂) (b := base)).trans hstored''
  rw [behind_eq, hp, hwidth] at hdigits
  rw [hp, hwidth] at hvalue
  generalize digitLoop base (s₂.rest.length + 1) d.flags.width 0 s₂ = r at hdigits hvalue hstored₃ ⊢
  obtain ⟨v, s₃⟩ := r
  simp only at hdigits hvalue hstored₃ ⊢
  generalize hds : (cutTo d.width digits).takeWhile (IsDigit base) = ds
    at hdigits hvalue hcounted ⊢
  obtain ⟨hle', hat'⟩ := hprefix.trans hdigits
  have hmoved : Moved s₃ l (digits.drop ds.length) c n := Moved.trans ⟨hle, hat⟩ ⟨hle', hat'⟩
  have hc := hat.consumed
  have hc' := hmoved.2.consumed
  by_cases heq : (digits.drop ds.length).length = after.length
  · rw [if_pos heq, if_pos (by rw [hc, hc', heq])]
    exact ⟨fun _ => ⟨leave s₃.n s₃, rfl⟩, fun v left h => by cases h⟩
  · have hd : d.flags.discard = false := rfl
    have hlt : s₁.consumed < s₃.consumed := by
      rw [hc, hc']
      exact hcounted.resolve_left heq
    rw [if_neg heq, if_neg (Nat.ne_of_lt hlt), hd, if_neg Bool.false_ne_true, if_pos (by exact hlt)]
    refine ⟨fun h => (by cases h), fun v' left h => ?_⟩
    obtain ⟨rfl, rfl⟩ := Prod.mk.inj (Option.some.inj h)
    refine ⟨_, _, rfl, hmoved.2.with_n rfl rfl rfl ?_, ?_⟩
    · show s₃.n + 1 = n + 1
      rw [hat'.stored]
    · show s₃.stored ++ [.int (bitsOf d.flags) (signed d.conv.char neg v % 2 ^ bitsOf d.flags)] = _
      rw [hstored₃, bitsOf_flags, hvalue, hneg]

theorem reads_nil (d : Directive) : d.reads [] = none := by
  have hdrop : ∀ k, (List.drop k ([] : List UInt8)).length = ([] : List UInt8).length :=
    fun k => congrArg List.length List.drop_nil
  have hnil : pass plus (pass dash (([] : List UInt8).dropWhile isspace)) = [] := rfl
  unfold Directive.reads Directive.scanned
  dsimp only
  rw [hnil, basePrefix_nil, if_pos (hdrop _)]

theorem text_head (d : Directive) (format : List UInt8) :
    (d.text ++ format).head? ≠ some charn := by
  obtain ⟨conv, size, width⟩ := d
  cases width with
  | none => cases size <;> cases conv <;> exact fun h => by cases h
  | some w =>
    have hdig := Number.isDigit_numeral (by decide : 2 ≤ 10 ∧ 10 ≤ 36) false w
    have hpos : 0 < (numeral 10 false w).length := Number.length_numeral_pos
    show ((numeral 10 false w ++ _) ++ format).head? ≠ _
    cases hn : numeral 10 false w with
    | nil => rw [hn] at hpos; exact absurd hpos (Nat.lt_irrefl 0)
    | cons c t =>
      have hc := hdig c (by rw [hn]; exact List.mem_cons_self)
      intro h
      obtain rfl : c = charn := Option.some.inj h
      exact absurd hc (by decide)

/-- **What a directive does on the plain input.** -/
theorem inScan_reads {d : Directive} (hf : d.Fits l c) (h : At s l c n) (format : List UInt8) :
    (d.reads l = none → ∃ e, inScan noFlags (d.text ++ format) s = .ok (.stop e)) ∧
    ∀ v left, d.reads l = some (v, left) → ∃ s' c', inScan noFlags (d.text ++ format) s =
      .ok (.go format s') ∧ At s' left c' (n + 1) ∧ s'.stored = s.stored ++ [.int d.size.bits v] := by
  by_cases hnone : s.tpch = none
  · have hnil : l = [] := List.head?_eq_none_iff.1 (h.tpch ▸ hnone)
    rw [inScan_end hnone (text_head d format), hnil, reads_nil]
    exact ⟨fun _ => ⟨errOut s, rfl⟩, fun v left h => by cases h⟩
  · obtain ⟨hstop, hgo⟩ := convInt_reads hf h format
    rw [inScan_text d format hnone]
    refine ⟨fun hr => ?_, fun v left hr => ?_⟩
    · obtain ⟨e, he⟩ := hstop hr
      exact ⟨e, by rw [he]⟩
    · obtain ⟨s', c', hs', hat, hstored⟩ := hgo v left hr
      exact ⟨s', c', by rw [hs'], hat, hstored⟩

/-! ## What `strtol` makes of the input -/

/-- The input behind white space, cut to the width. -/
def Directive.cut (d : Directive) (l : List UInt8) : List UInt8 :=
  cutTo d.width (l.dropWhile isspace)

/-- The value and what is left, if a conversion was performed. -/
def converted {R : Type} (val : R → Int) (nptr : List UInt8) (r : Number.Outcome R) :
    Option (Int × List UInt8) :=
  r.endptr.bind fun e => if e.length = nptr.length then none else some (val r.value, e)

/-- The conversion that `strtol` or `strtoul` performs. -/
def Directive.number (d : Directive) (l : List UInt8) : Option (Int × List UInt8) :=
  if d.conv.signed then converted id (d.cut l) (Number.strtol (d.cut l) d.conv.base 0)
  else converted Int.ofNat (d.cut l) (Number.strtoul (d.cut l) d.conv.base 0)

/-- A directive in front of `format` agrees with `strtol`, for the input `l` and `n` values stored so
far: it converts if that does, goes on behind the same characters, and stores its value as an integer
of the size. -/
def Directive.Agrees (d : Directive) (format l : List UInt8) (n : Nat) (s : St) : Prop :=
  match d.number l with
  | none => ∃ e, inScan noFlags (d.text ++ format) s = .ok (.stop e)
  | some (v, left) => ∃ s' c', inScan noFlags (d.text ++ format) s = .ok (.go format s') ∧
      At s' (left ++ (l.dropWhile isspace).drop (d.cut l).length) c' (n + 1) ∧
      s'.stored = s.stored ++ [.int d.size.bits (v % 2 ^ d.size.bits).toNat]

/-- What is to be stored, and left. -/
def Directive.wants (d : Directive) (l : List UInt8) : Option (Nat × List UInt8) :=
  (d.number l).map fun (v, left) =>
    ((v % 2 ^ d.size.bits).toNat, left ++ (l.dropWhile isspace).drop (d.cut l).length)

theorem At.unique {l' : List UInt8} {c' n' : Nat} (h : At s l c n) (h' : At s l' c' n') : l = l' := by
  have hh := h.tpch.symm.trans h'.tpch
  have ht := h.rest.symm.trans h'.rest
  cases l <;> cases l'
  · rfl
  · cases hh
  · cases hh
  · rw [Option.some.inj hh]
    exact congrArg _ ht

theorem agrees_iff {d : Directive} (hf : d.Fits l c) (h : At s l c n) (format : List UInt8) :
    d.Agrees format l n s ↔ d.reads l = d.wants l := by
  obtain ⟨hstop, hgo⟩ := inScan_reads hf h format
  unfold Directive.Agrees Directive.wants
  cases hnum : d.number l with
  | none =>
    cases hr : d.reads l with
    | none => exact iff_of_true (hstop hr) rfl
    | some r =>
      obtain ⟨s', c', hs', -⟩ := hgo r.1 r.2 hr
      refine iff_of_false ?_ (Option.some_ne_none r)
      rintro ⟨e, he⟩
      rw [hs'] at he
      cases he
  | some r =>
    obtain ⟨v, left⟩ := r
    cases hr : d.reads l with
    | none =>
      obtain ⟨e, he⟩ := hstop hr
      refine iff_of_false ?_ fun h => by cases h
      rintro ⟨s', c', hs', -⟩
      rw [he] at hs'
      cases hs'
    | some r =>
      obtain ⟨v', left'⟩ := r
      obtain ⟨s', c', hs', hat, hstored⟩ := hgo v' left' hr
      constructor
      · rintro ⟨s'', c'', hs'', hat', hstored'⟩
        rw [hs'] at hs''
        cases hs''
        rw [hstored] at hstored'
        have hv := List.append_cancel_left hstored'
        rw [hat.unique hat', (Stored.int.inj (List.cons.inj hv).1).2]
        rfl
      · intro heq
        obtain ⟨rfl, rfl⟩ := Prod.mk.inj (Option.some.inj heq)
        exact ⟨s', c', hs', hat, hstored⟩

theorem baseOk (conv : IntConv) : Number.BaseOk conv.base := by
  cases conv
  · exact .inr (by decide)
  · exact .inl rfl
  · exact .inr (by decide)
  · exact .inr (by decide)
  · exact .inr (by decide)

/-- The value that `strtol` or `strtoul` returns for a number. -/
def IntConv.valueOf (conv : IntConv) (p : Number.Subject) : Int :=
  if conv.signed then (Number.longOf p 0).value else (Number.ulongOf p 0).value

theorem converted_long {nptr : List UInt8} (p : Number.Subject) (h : p.rest.length ≠ nptr.length) :
    converted id nptr (Number.longOf p 0) = some ((Number.longOf p 0).value, p.rest) := by
  unfold Number.longOf
  split
  · rw [converted, Option.bind_some, if_neg h]
    rfl
  · rw [converted, Option.bind_some, if_neg h]
    rfl

theorem converted_ulong {nptr : List UInt8} (p : Number.Subject) (h : p.rest.length ≠ nptr.length) :
    converted Int.ofNat nptr (Number.ulongOf p 0) =
      some (((Number.ulongOf p 0).value : Int), p.rest) := by
  unfold Number.ulongOf
  split
  · rw [converted, Option.bind_some, if_neg h]
    rfl
  · rw [converted, Option.bind_some, if_neg h]
    rfl

theorem number_eq (d : Directive) (l : List UInt8) : d.number l =
    if (Number.subject (d.cut l) d.conv.base).digits = [] then none
    else some (d.conv.valueOf (Number.subject (d.cut l) d.conv.base),
      (Number.subject (d.cut l) d.conv.base).rest) := by
  have hlt (h : (Number.subject (d.cut l) d.conv.base).digits ≠ []) := Number.rest_lt h
  have hsign := Number.signPrefix_length ((d.cut l).dropWhile Number.isWhite)
  have hdrop := (List.dropWhile_sublist Number.isWhite (l := d.cut l)).length_le
  unfold Directive.number IntConv.valueOf
  rw [Number.strtol_eq (baseOk d.conv), Number.strtoul_eq (baseOk d.conv)]
  by_cases hd : (Number.subject (d.cut l) d.conv.base).digits = []
  · simp only [if_pos hd]
    rw [converted, converted, Option.bind_some, Option.bind_some, if_pos rfl, if_pos rfl, ite_self]
  · have hne : (Number.subject (d.cut l) d.conv.base).rest.length ≠ (d.cut l).length := by
      have := hlt hd
      omega
    simp only [if_neg hd]
    rw [converted_long _ hne, converted_ulong _ hne]
    split <;> rfl

end Dietlibc.Scanf
