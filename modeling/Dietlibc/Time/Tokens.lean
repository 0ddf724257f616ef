import Mathlib.Data.List.TakeWhile
import Dietlibc.Time.Expansion
import Dietlibc.Time.Parsing

/-!
# Formats for a date and a time

A format is a list of separators and directives here. Its bytes are what `strftime` and `strptime` are
given, and its text is what `strftime` makes of it, for a time whose fields are in range.
-/

namespace Dietlibc.Time

open CInt Calendar
open Lib (text)

/-! ## Formats -/

/-- A literal character between directives. -/
inductive Sep where
  | slash | dash | colon | blank
  deriving DecidableEq

def Sep.byte : Sep → UInt8
  | slash => 47
  | dash => 45
  | colon => 58
  | blank => 32

inductive Token (δ : Type) where
  | sep (c : Sep)
  | dir (d : δ)
  deriving DecidableEq

/-- The directives for one field, with two kinds of month name and with padding by a blank. -/
inductive Field where
  | year | century | year2 | mon | monAbbr | monName | mday | mdayPad | hour | hourPad | hour12 | ampm
  | min | sec
  deriving DecidableEq

def Field.letter : Field → UInt8
  | year => 89
  | century => 67
  | year2 => 121
  | mon => 109
  | monAbbr => 98
  | monName => 66
  | mday => 100
  | mdayPad => 101
  | hour => 72
  | hourPad => 107
  | hour12 => 73
  | ampm => 112
  | min => 77
  | sec => 83

/-- The composite directives `%D`, `%R`, `%T` and `%r`. -/
inductive Combined where
  | date | hourMin | time | time12
  deriving DecidableEq

def Combined.letter : Combined → UInt8
  | date => 68
  | hourMin => 82
  | time => 84
  | time12 => 114

def Combined.tokens : Combined → List (Token Field)
  | date => [.dir .mon, .sep .slash, .dir .mday, .sep .slash, .dir .year2]
  | hourMin => [.dir .hour, .sep .colon, .dir .min]
  | time => [.dir .hour, .sep .colon, .dir .min, .sep .colon, .dir .sec]
  | time12 => [.dir .hour12, .sep .colon, .dir .min, .sep .colon, .dir .sec, .sep .blank, .dir .ampm]

abbrev Dir := Field ⊕ Combined

def Dir.letter : Dir → UInt8 := Sum.elim Field.letter Combined.letter

section

variable {δ : Type}

/-- The bytes of a format. -/
def bytes (letter : δ → UInt8) : List (Token δ) → List UInt8
  | [] => []
  | .sep c :: ts => c.byte :: bytes letter ts
  | .dir d :: ts => 37 :: letter d :: bytes letter ts

/-- The text of a format. -/
def texts (text : δ → List UInt8) : List (Token δ) → List UInt8
  | [] => []
  | .sep c :: ts => c.byte :: texts text ts
  | .dir d :: ts => text d ++ texts text ts

end

/-! ## Times -/

/-- A date and a time of day. -/
structure Moment where
  year : Nat
  mon : Nat
  mday : Nat
  hour : Nat
  min : Nat
  sec : Nat
  wday : Nat
  yday : Nat
  year_range : 1970 ≤ year ∧ year ≤ 2068
  mon_lt : mon < 12
  mday_range : 1 ≤ mday ∧ (mday : Int) ≤ monthDays year mon
  hour_lt : hour < 24
  min_lt : min < 60
  sec_lt : sec < 60
  wday_lt : wday < 7
  yday_lt : yday < 366

namespace Moment

variable (t : Moment)

def tm : Tm := ⟨t.sec, t.min, t.hour, t.mday, t.mon, t.year - 1900, t.wday, t.yday⟩

/-- Two digits, the first one a blank if it is 0. -/
def padded (n : Nat) : List UInt8 := if n < 10 then [32, digit n] else dec2 n

/-- The text of a directive. -/
def text : Field → List UInt8
  | .year => dec4 t.year
  | .century => dec2 (t.year / 100)
  | .year2 => dec2 (t.year % 100)
  | .mon => dec2 (t.mon + 1)
  | .monAbbr => smonths.getD t.mon []
  | .monName => months.getD t.mon []
  | .mday => dec2 t.mday
  | .mdayPad => padded t.mday
  | .hour => dec2 t.hour
  | .hourPad => padded t.hour
  | .hour12 => dec2 (t.hour % 12)
  | .ampm => if 12 < t.hour then Lib.text "PM" else Lib.text "AM"
  | .min => dec2 t.min
  | .sec => dec2 t.sec

def dirText : Dir → List UInt8 := Sum.elim t.text fun c => texts t.text c.tokens

theorem mday_le : t.mday ≤ 31 := by
  have hle := t.mday_range.2.trans (monthDays_le t.year t.mon)
  omega

theorem fields_tm : Fields t.tm := by
  have hyear := t.year_range
  have hmday := t.mday_range.1
  have hmday' := t.mday_le
  have hmon := t.mon_lt
  have hhour := t.hour_lt
  have hmin := t.min_lt
  have hsec := t.sec_lt
  have hwday := t.wday_lt
  have hyday := t.yday_lt
  unfold tm
  refine ⟨?_, ?_, ?_, ?_, ?_, ⟨fits32.2 ?_, fits32.2 ?_⟩, ?_, ?_⟩ <;> (dsimp only; omega)

end Moment

/-! ## Texts -/

theorem digit_ne_zero {d : Nat} (h : d < 10) : digit d ≠ 0 := by
  intro hz
  have hd := toNat_digit h
  rw [hz] at hd
  exact absurd hd (by rw [UInt8.toNat_zero]; omega)

theorem dec2_ne_zero {n : Nat} (h : n < 100) : ∀ c ∈ dec2 n, c ≠ 0 := by
  unfold dec2
  rw [List.forall_mem_cons, List.forall_mem_singleton]
  exact ⟨digit_ne_zero (by omega), digit_ne_zero (by omega)⟩

theorem cstring_of_ne_zero {s : List UInt8} (h : ∀ c ∈ s, c ≠ 0) : cstring s = s :=
  List.takeWhile_eq_self_iff.2 fun c hc => bne_iff_ne.2 (h c hc)

theorem unsigned_natCast {w n : Nat} (h : n < 2 ^ w) : unsigned w n = n := by
  have hcast : ((n : Int) % 2 ^ w) = ((n % 2 ^ w : Nat) : Int) := by push_cast; rfl
  unfold unsigned
  rw [hcast, Int.toNat_natCast, Nat.mod_eq_of_lt h]

theorem no_natCast {x : Int} {n : Nat} (hx : x = n) (h : n < 100) : no x = some (.str (dec2 n)) := by
  unfold no
  rw [hx, unsigned_natCast (by norm_num; omega)]
  rfl

theorem nos_natCast {x : Int} {n : Nat} (hx : x = n) (h : n < 100) :
    nos x = some (.str (Moment.padded n)) := by
  unfold nos Moment.padded
  rw [hx, unsigned_natCast (by norm_num; omega)]
  show some (Piece.str (if (dec2 n).head? = some 48 then 32 :: (dec2 n).tail else dec2 n)) = _
  by_cases hn : n < 10
  · rw [if_pos hn]
    unfold dec2
    rw [Nat.div_eq_of_lt hn, Nat.mod_eq_of_lt hn]
    rfl
  · have hhead : (dec2 n).head? ≠ some 48 := by
      unfold dec2
      intro heq
      have hd := toNat_digit (d := n / 10) (by omega)
      rw [Option.some.inj heq] at hd
      exact absurd hd (by rw [show (48 : UInt8).toNat = 48 from rfl]; omega)
    rw [if_neg hn, if_neg hhead]

theorem padded_ne_zero {n : Nat} (h : n < 100) : ∀ c ∈ Moment.padded n, c ≠ 0 := by
  unfold Moment.padded
  split
  · rename_i hn
    rw [List.forall_mem_cons, List.forall_mem_singleton]
    exact ⟨by decide, digit_ne_zero hn⟩
  · exact dec2_ne_zero h

/-! ## Expansions -/

section

variable {sub : Expander} {l : Locale} {tm tm' : Tm} {c : UInt8} {src : List UInt8}

theorem directiveText_str (hc : c ≠ 115) (h : Time.piece l c tm = some (.str src))
    (hz : ∀ d ∈ src, d ≠ 0) : directiveText sub l c tm = some (src, tm) := by
  unfold directiveText conversion
  rw [if_neg hc, h, Option.map_some, Option.bind_some]
  show some (cstring src, tm) = _
  rw [cstring_of_ne_zero hz]

theorem entry_getD {table : List (List UInt8)} {x : Int} {i : Nat} (hx : x = i)
    (h : i < table.length) : entry table x = some (.str (table.getD i [])) := by
  unfold entry
  rw [hx, if_pos (Int.natCast_nonneg i), Int.toNat_natCast, List.getD_eq_getElem?_getD,
    List.getElem?_eq_getElem h]
  rfl

theorem names_ne_zero {table : List (List UInt8)} {i : Nat}
    (h : table.all (fun name => name.all (· != 0)) = true) : ∀ d ∈ table.getD i [], d ≠ 0 := by
  intro d hd
  by_cases hi : i < table.length
  · rw [List.getD_eq_getElem?_getD, List.getElem?_eq_getElem hi, Option.getD_some] at hd
    have hname := List.all_eq_true.1 h _ (List.getElem_mem hi)
    exact bne_iff_ne.1 (List.all_eq_true.1 hname d hd)
  · rw [List.getD_eq_getElem?_getD, List.getElem?_eq_none (Nat.le_of_not_lt hi)] at hd
    cases hd

/-- A text is a string. -/
theorem text_ne_zero (t : Moment) (f : Field) : ∀ c ∈ t.text f, c ≠ 0 := by
  have hyear := t.year_range
  have hmday := t.mday_le
  have hmon := t.mon_lt
  have hhour := t.hour_lt
  have hmin := t.min_lt
  have hsec := t.sec_lt
  cases f with
  | year => exact List.forall_mem_append.2 ⟨dec2_ne_zero (by omega), dec2_ne_zero (by omega)⟩
  | monAbbr | monName => exact names_ne_zero (by decide)
  | mdayPad | hourPad => exact padded_ne_zero (by omega)
  | ampm =>
    unfold Moment.text
    dsimp only
    split
    · exact List.forall_mem_cons.2 ⟨by decide, List.forall_mem_singleton.2 (by decide)⟩
    · exact List.forall_mem_cons.2 ⟨by decide, List.forall_mem_singleton.2 (by decide)⟩
  | century | year2 | mon | mday | hour | hour12 | min | sec => exact dec2_ne_zero (by omega)

/-- What `strftime` makes of a directive for one field. -/
theorem directiveText_field (t : Moment) (f : Field) :
    directiveText sub l f.letter t.tm = some (t.text f, t.tm) := by
  have hyear := t.year_range
  have hmday := t.mday_le
  have hmon := t.mon_lt
  have hhour := t.hour_lt
  have hmin := t.min_lt
  have hsec := t.sec_lt
  have hdiv : ((t.year : Int) - 1900).tdiv 100 = (t.year : Int) / 100 - 19 := by
    rw [Int.tdiv_eq_ediv_of_nonneg (by omega)]
    omega
  have hmod : ((t.year : Int) - 1900).tmod 100 = (t.year % 100 : Nat) := by
    rw [Int.tmod_eq_emod_of_nonneg (by omega)]
    omega
  have hhalf : (t.hour : Int).tmod 12 = (t.hour % 12 : Nat) := by
    rw [Int.tmod_eq_emod_of_nonneg (by omega)]
    omega
  refine directiveText_str (by cases f <;> decide) ?_ (text_ne_zero t f)
  cases f with
  | year =>
    show some (Piece.str (i2a (unsigned 32 (((t.year : Int) - 1900).tdiv 100 + 19)) ++
      i2a (unsigned 32 (((t.year : Int) - 1900).tmod 100)))) = _
    rw [hdiv, hmod, show (t.year : Int) / 100 - 19 + 19 = (t.year / 100 : Nat) by omega,
      unsigned_natCast (by norm_num; omega), unsigned_natCast (by norm_num; omega)]
    rfl
  | century =>
    exact no_natCast (n := t.year / 100)
      (by show ((t.year : Int) - 1900).tdiv 100 + 19 = _; omega) (by omega)
  | year2 => exact no_natCast hmod (by omega)
  | mon => exact no_natCast (n := t.mon + 1) (by push_cast; rfl) (by omega)
  | monAbbr | monName => exact entry_getD rfl hmon
  | mday | hour | min | sec => exact no_natCast rfl (by omega)
  | mdayPad | hourPad => exact nos_natCast rfl (by omega)
  | hour12 => exact no_natCast hhalf (by omega)
  | ampm =>
    have hhigh : (12 : Int) < t.hour ↔ 12 < t.hour := by omega
    have hpiece : Time.piece l Field.ampm.letter t.tm =
        entry ampm (if (12 : Int) < t.hour then 3 else 2) := rfl
    have htext : t.text .ampm = if 12 < t.hour then Lib.text "PM" else Lib.text "AM" := rfl
    rw [hpiece, htext]
    by_cases h12 : 12 < t.hour
    · rw [if_pos (hhigh.2 h12), if_pos h12]
      rfl
    · rw [if_neg (mt hhigh.1 h12), if_neg h12]
      rfl

/-- What `strftime` makes of a format, if it makes that of its directives. -/
theorem expandLoop_tokens {δ : Type} {letter : δ → UInt8} {text : δ → List UInt8}
    (hl : ∀ d, Letter .percent (letter d))
    (hd : ∀ d, directiveText sub l (letter d) tm = some (text d, tm)) (ts : List (Token δ)) :
    expandLoop sub l .plain (bytes letter ts) tm = some (texts text ts, tm) := by
  induction ts with
  | nil => rfl
  | cons token ts ih =>
    cases token with
    | sep c =>
      have hlit : Literal .plain c.byte := .inl ⟨rfl, by cases c <;> decide⟩
      unfold bytes texts
      rw [expandLoop_literal hlit, ih]
      rfl
    | dir d =>
      unfold bytes texts
      rw [expandLoop, if_pos rfl, expandLoop_letter (hl d), hd d, Option.bind_some]
      dsimp only
      rw [ih]
      rfl

theorem letter_field (f : Field) : Letter .percent f.letter := by
  cases f <;> exact ⟨by decide, by decide, by decide⟩

/-- What `strftime` makes of any directive. -/
theorem directiveText_dir (t : Moment) (d : Dir) :
    directiveText (expandLoop (fun _ _ => none) l .plain) l (Dir.letter d) t.tm =
      some (t.dirText d, t.tm) := by
  cases d with
  | inl f => exact directiveText_field t f
  | inr c =>
    have hformat : conversion l c.letter t.tm =
        some (.format (bytes Field.letter c.tokens), t.tm) := by
      cases c <;> rfl
    show directiveText _ l c.letter t.tm = _
    unfold directiveText
    rw [hformat, Option.bind_some]
    exact expandLoop_tokens letter_field (directiveText_field t) c.tokens

theorem expand_tokens (t : Moment) (l : Locale) (ts : List (Token Dir)) :
    expand l (bytes Dir.letter ts) t.tm = some (texts t.dirText ts, t.tm) := by
  refine expandLoop_tokens (fun d => ?_) (directiveText_dir t) ts
  rcases d with f | c
  · exact letter_field f
  · cases c <;> exact ⟨by decide, by decide, by decide⟩

theorem complete_tokens (ts : List (Token Dir)) : ¬Incomplete (bytes Dir.letter ts) := by
  have hfold : (bytes Dir.letter ts).foldl Mode.next .plain = .plain := by
    induction ts with
    | nil => rfl
    | cons token ts ih =>
      cases token with
      | sep c =>
        unfold bytes
        rw [List.foldl_cons, next_literal (.inl ⟨rfl, by cases c <;> decide⟩), ih]
      | dir d =>
        have hletter : Mode.next .percent (Dir.letter d) = .plain := by
          rcases d with f | c
          · exact next_letter (letter_field f)
          · cases c <;> rfl
        unfold bytes
        rw [List.foldl_cons, List.foldl_cons, show Mode.next .plain 37 = .percent from rfl, hletter, ih]
  exact not_not.2 hfold

end

end Dietlibc.Time
