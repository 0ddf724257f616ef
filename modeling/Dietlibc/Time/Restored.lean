import Mathlib.Data.List.DropRight
import Dietlibc.Time.Tokens
import Dietlibc.Time.Stays

/-!
# `strptime` undoes `strftime`

A format sets each part of a date and a time by one directive, or by two. `strptime` reads the text that
`strftime` makes of it, directive by directive, and each directive changes its part of the structure.
There are two ways to fail: a single digit behind its blank, which is read only if the format has a
blank too, and noon on the twelve hour clock, which `strftime` calls AM.
-/

namespace Dietlibc.Time

open CInt Machine
open Lib (text)
open Shell (isblank isdigit)

/-! ## Parts of a time -/

/-- The fields that are restored. -/
inductive Part where
  | year | mon | mday | hour | min | sec
  deriving DecidableEq

def Tm.get (tm : Tm) : Part → Int
  | .year => tm.tmYear
  | .mon => tm.tmMon
  | .mday => tm.tmMday
  | .hour => tm.tmHour
  | .min => tm.tmMin
  | .sec => tm.tmSec

def Tm.set (tm : Tm) (p : Part) (x : Int) : Tm :=
  match p with
  | .year => { tm with tmYear := x }
  | .mon => { tm with tmMon := x }
  | .mday => { tm with tmMday := x }
  | .hour => { tm with tmHour := x }
  | .min => { tm with tmMin := x }
  | .sec => { tm with tmSec := x }

theorem Tm.get_set (tm : Tm) (p q : Part) (x : Int) :
    (tm.set p x).get q = if p = q then x else tm.get q := by
  cases p <;> cases q <;> rfl

def Field.part : Field → Part
  | year | century | year2 => .year
  | mon | monAbbr | monName => .mon
  | mday | mdayPad => .mday
  | hour | hourPad | hour12 | ampm => .hour
  | min => .min
  | sec => .sec

section

variable {δ : Type}

/-- The directives of a format. -/
def dirs : List (Token δ) → List δ
  | [] => []
  | .sep _ :: ts => dirs ts
  | .dir d :: ts => d :: dirs ts

/-- The format does not go on with a directive. -/
def startsPlain : List (Token δ) → Bool
  | .dir _ :: _ => false
  | _ => true

/-- Directives whose text does not tell where it ends have a separator behind them. -/
def separated (free : δ → Bool) : List (Token δ) → Bool
  | [] => true
  | .sep _ :: ts => separated free ts
  | .dir d :: ts => (free d || startsPlain ts) && separated free ts

/-- Directives with a blank in front of their text have a blank in front of them. -/
def readable (pads : δ → Bool) : Bool → List (Token δ) → Bool
  | _, [] => true
  | _, .sep c :: ts => readable pads (c == .blank) ts
  | b, .dir d :: ts => (b || !pads d) && readable pads false ts

/-- A blank is the last token, or there is none and one is in front. -/
def behindBlank (b : Bool) (ts : List (Token δ)) : Bool :=
  ts.foldl (fun _ token => match token with | .sep c => c == .blank | .dir _ => false) b

end

/-- The directives for one field that a format consists of. -/
def fields (ts : List (Token Dir)) : List Field :=
  (dirs ts).flatMap (Sum.elim (fun f => [f]) fun c => dirs c.tokens)

/-- The directives for a part. -/
def fieldsOf (p : Part) (ts : List (Token Dir)) : List Field := (fields ts).filter (·.part == p)

/-- Neither an abbreviation, nor a number that may have one digit. -/
def Field.free : Field → Bool
  | monAbbr | mdayPad | hourPad => false
  | _ => true

def Dir.free : Dir → Bool := Sum.elim Field.free fun _ => true

/-- A format with directives for every part of a time. -/
structure Wellformed (ts : List (Token Dir)) : Prop where
  separated : separated Dir.free ts = true
  year : fieldsOf .year ts ∈ [[Field.year], [.century, .year2], [.year2]]
  mon : fieldsOf .mon ts ∈ [[Field.mon], [.monAbbr], [.monName]]
  mday : fieldsOf .mday ts ∈ [[Field.mday], [.mdayPad]]
  hour : fieldsOf .hour ts ∈ [[Field.hour], [.hourPad], [.hour12, .ampm], [.ampm, .hour12]]
  min : fieldsOf .min ts = [Field.min]
  sec : fieldsOf .sec ts = [Field.sec]

namespace Moment

variable (t : Moment)

/-- `strftime` puts a blank for the first digit. -/
def pads : Field → Bool
  | .mdayPad => t.mday < 10
  | .hourPad => t.hour < 10
  | _ => false

def dirPads : Dir → Bool := Sum.elim t.pads fun _ => false

/-- What a directive makes of the value of its part. -/
def change (x : Int) : Field → Int
  | .year => t.year - 1900
  | .century => x.tmod 100 + (t.year / 100 : Nat) * 100
  | .year2 => if t.year % 100 < 69 then (t.year % 100 : Nat) + 100 else (t.year % 100 : Nat)
  | .mon | .monAbbr | .monName => t.mon
  | .mday | .mdayPad => t.mday
  | .hour | .hourPad => t.hour
  | .hour12 => x.tdiv 12 * 12 + (t.hour % 12 : Nat)
  | .ampm => if 12 < t.hour then x.tmod 12 + 12 else x
  | .min => t.min
  | .sec => t.sec

def effect (f : Field) (tm : Tm) : Tm := tm.set f.part (t.change (tm.get f.part) f)

end Moment

/-- What the directives of a format make of a structure. -/
def effects {δ : Type} (effect : δ → Tm → Tm) (ts : List (Token δ)) (tm : Tm) : Tm :=
  (dirs ts).foldl (fun tm d => effect d tm) tm

/-- The structure with its derived fields. -/
def Tm.derived (tm : Tm) : Tm := (derive tm).getD tm

def Moment.dirEffect (t : Moment) : Dir → Tm → Tm :=
  Sum.elim t.effect fun c tm => (effects t.effect c.tokens tm).derived

/-! ## Structures on the way -/

/-- What a part is between two directives. -/
def Within : Part → Int → Prop
  | .year, x => -5000000 ≤ x ∧ x ≤ 5000000
  | .mon, x => 0 ≤ x ∧ x < 12
  | .mday, x => 0 ≤ x ∧ x ≤ 31
  | .hour, x => 0 ≤ x ∧ x < 24
  | .min, _ | .sec, _ => True

def Partial (tm : Tm) : Prop := ∀ p, Within p (tm.get p)

variable {tm tm' : Tm} {t : Moment} {s rest : List UInt8}

theorem partial_zeroed : Partial zeroed := by
  intro p
  cases p with
  | min | sec => trivial
  | year | mon | mday | hour => exact ⟨by decide, by decide⟩

theorem within_change (t : Moment) (f : Field) {x : Int} (h : Within f.part x) :
    Within f.part (t.change x f) := by
  have hyear := t.year_range
  have hmday := t.mday_le
  have hmon := t.mon_lt
  have hhour := t.hour_lt
  cases f with
  | year => exact ⟨by dsimp only [Moment.change]; omega, by dsimp only [Moment.change]; omega⟩
  | century =>
    obtain ⟨hlow, hhigh⟩ := h
    have hmod := Int.tmod_lt_of_pos x (b := 100) (by decide)
    have hmod' := Int.lt_tmod_of_pos x (b := 100) (by decide)
    exact ⟨by dsimp only [Moment.change]; omega, by dsimp only [Moment.change]; omega⟩
  | year2 =>
    unfold Moment.change
    dsimp only
    split <;> exact ⟨by omega, by omega⟩
  | mon | monAbbr | monName => exact ⟨Int.natCast_nonneg _, Int.ofNat_lt.2 hmon⟩
  | mday | mdayPad => exact ⟨Int.natCast_nonneg _, Int.ofNat_le.2 hmday⟩
  | hour | hourPad => exact ⟨Int.natCast_nonneg _, Int.ofNat_lt.2 hhour⟩
  | hour12 =>
    obtain ⟨hlow, hhigh⟩ := h
    have hdiv : x.tdiv 12 = x / 12 := Int.tdiv_eq_ediv_of_nonneg hlow
    exact ⟨by dsimp only [Moment.change]; omega, by dsimp only [Moment.change]; omega⟩
  | ampm =>
    obtain ⟨hlow, hhigh⟩ := h
    have hmod : x.tmod 12 = x % 12 := Int.tmod_eq_emod_of_nonneg hlow
    unfold Moment.change
    dsimp only
    split <;> exact ⟨by omega, by omega⟩
  | min | sec => trivial

theorem get_effect (f : Field) (p : Part) :
    (t.effect f tm).get p = if f.part = p then t.change (tm.get p) f else tm.get p := by
  unfold Moment.effect
  rw [Tm.get_set]
  split
  · rename_i h
    rw [h]
  · rfl

theorem partial_effect (h : Partial tm) (f : Field) : Partial (t.effect f tm) := by
  intro p
  rw [get_effect]
  split
  · rename_i hp
    subst hp
    exact within_change t f (h _)
  · exact h p

theorem partial_derive (h : Partial tm) :
    derive tm = some tm.derived ∧ ∀ p, tm.derived.get p = tm.get p := by
  have hmon := h .mon
  have hyear := h .year
  have hderive := derive_of_fits tm (m := tm.tmMon.toNat) (Int.toNat_of_nonneg hmon.1).symm
    (by have := hmon.2; dsimp only [Tm.get] at this; omega) (h .mday)
    (yearFits_of_le hyear.1 hyear.2)
  unfold Tm.derived
  rw [hderive]
  refine ⟨rfl, fun p => ?_⟩
  cases p <;> rfl

theorem partial_effects {δ : Type} {effect : δ → Tm → Tm}
    (heffect : ∀ d tm, Partial tm → Partial (effect d tm)) (ts : List (Token δ)) (h : Partial tm) :
    Partial (effects effect ts tm) := by
  unfold effects
  induction dirs ts generalizing tm with
  | nil => exact h
  | cons d ds ih => exact ih (heffect d tm h)

theorem partial_dirEffect (h : Partial tm) (d : Dir) : Partial (t.dirEffect d tm) := by
  cases d with
  | inl f => exact partial_effect h f
  | inr c =>
    have hpartial := partial_effects (fun f tm h => partial_effect (t := t) h f) c.tokens h
    intro p
    show Within p ((effects t.effect c.tokens tm).derived.get p)
    rw [(partial_derive hpartial).2 p]
    exact hpartial p

/-! ## Reading one text -/

/-- What follows does not continue a number or a name. -/
def Plain (rest : List UInt8) : Prop := rest = [] ∨ ∃ c u, rest = Sep.byte c :: u

theorem isblank_digit {d : Nat} (h : d < 10) : isblank (digit d) = false := by
  have hd := toNat_digit h
  unfold isblank
  rw [Bool.or_eq_false_iff, decide_eq_false_iff_not, decide_eq_false_iff_not]
  constructor <;> intro hc <;> rw [hc] at hd <;> simp only [UInt8.reduceToNat] at hd <;> omega

theorem dropWhile_dec2 {n : Nat} (h : n < 100) : (dec2 n).dropWhile isblank = dec2 n := by
  unfold dec2
  rw [List.dropWhile_cons, isblank_digit (by omega), if_neg Bool.false_ne_true]

theorem dropWhile_padded {n : Nat} (h : n < 100) :
    (Moment.padded n).dropWhile isblank = if n < 10 then [digit n] else dec2 n := by
  unfold Moment.padded
  split
  · rename_i hn
    rw [List.dropWhile_cons, if_pos (by decide), List.dropWhile_cons, isblank_digit hn,
      if_neg Bool.false_ne_true]
  · exact dropWhile_dec2 h

theorem isdigit_sep (c : Sep) : isdigit c.byte = false := by cases c <;> decide

/-- One digit behind its blank, or two. -/
theorem getint_padded {n : Nat} (h : n < 100) (hrest : Plain rest) :
    getint 2 ((Moment.padded n).dropWhile isblank ++ rest) = ((n : Int), rest) := by
  rw [dropWhile_padded h]
  split
  · rename_i hn
    refine getint_digit_end hn ?_
    rcases hrest with rfl | ⟨c, u, rfl⟩
    · rfl
    · exact isdigit_sep c
  · exact getint_dec2 h

/-- The name of a month. -/
theorem monthAt_name {m : Nat} (h : m < 12) (rest : List UInt8) :
    monthAt (months.getD m [] ++ rest) = some (m, (months.getD m []).length) := by
  interval_cases m <;> rfl

/-- What follows is no letter of a name. -/
theorem sameCase_plain {k : Nat} {w name : List UInt8} (hrest : Plain rest) (hk : k ≤ name.length)
    (hname : ∀ b ∈ name, Shell.isalpha b = true) :
    sameCase k (w ++ rest) name = sameCase k w name := by
  have hstop : ∀ b : UInt8, Shell.isalpha b = true → ∀ x ∈ ([0, 47, 45, 58, 32] : List UInt8),
      (Shell.tolower x == Shell.tolower b) = false := by
    apply forall_byte (P := fun b => Shell.isalpha b = true → ∀ x ∈ ([0, 47, 45, 58, 32] : List UInt8),
      (Shell.tolower x == Shell.tolower b) = false)
    decide +kernel
  induction w generalizing k name with
  | nil =>
    cases k with
    | zero => rfl
    | succ k =>
      obtain ⟨b, name, rfl⟩ := List.exists_cons_of_length_pos (Nat.lt_of_lt_of_le k.succ_pos hk)
      have hb := hstop b (hname b List.mem_cons_self)
      rcases hrest with rfl | ⟨c, u, rfl⟩
      · rfl
      · have hsep := hb c.byte (by cases c <;> decide)
        simp [sameCase, hsep, hb 0 List.mem_cons_self]
  | cons a w ih =>
    cases k with
    | zero => rfl
    | succ k =>
      obtain ⟨b, name, rfl⟩ := List.exists_cons_of_length_pos (Nat.lt_of_lt_of_le k.succ_pos hk)
      have hrec := ih (Nat.le_of_succ_le_succ hk) fun b hb => hname b (List.mem_cons_of_mem _ hb)
      simp only [List.cons_append, sameCase, List.headD_cons, List.tail_cons, hrec]

/-- An abbreviation, and no more of the name. -/
theorem monthAt_abbr {m : Nat} (h : m < 12) (hrest : Plain rest) :
    monthAt (smonths.getD m [] ++ rest) = some (m, 3) := by
  have hnames : ∀ i < 12, 3 ≤ (months.getD i []).length ∧
      ∀ b ∈ months.getD i [], Shell.isalpha b = true := by decide +kernel
  have halone : ∀ m < 12, monthAt (smonths.getD m []) = some (m, 3) := by decide +kernel
  rw [← halone m h]
  unfold monthAt
  rw [← List.head?_filterMap, ← List.head?_filterMap]
  refine congrArg List.head? (List.filterMap_congr fun i hi => ?_)
  obtain ⟨hlen, halpha⟩ := hnames i (List.mem_range.mp hi)
  dsimp only
  rw [sameCase_plain hrest le_rfl halpha, sameCase_plain hrest hlen halpha]

theorem directive_month {call : Callee} {name : List UInt8} {m : Nat}
    (h : monthAt (name ++ rest) = some (m, name.length)) :
    directive call .month (some (name ++ rest)) tm = .next (some rest) { tm with tmMon := m } := by
  show simple .month (name ++ rest) tm = _
  unfold simple
  rw [h]
  dsimp only
  rw [advance_of_le (by rw [List.length_append]; exact Nat.le_add_right _ _), List.drop_left]

/-- Only a blank for a digit is skipped, and never the whole text. -/
theorem dropWhile_text (t : Moment) (f : Field) :
    (t.text f).dropWhile isblank ≠ [] ∧
      (t.pads f = false → (t.text f).dropWhile isblank = t.text f) := by
  have hyear := t.year_range
  have hmday := t.mday_le
  have hmon := t.mon_lt
  have hhour := t.hour_lt
  have hmin := t.min_lt
  have hsec := t.sec_lt
  have hdec : ∀ n < 100, (dec2 n).dropWhile isblank ≠ [] := fun n hn => by
    rw [dropWhile_dec2 hn]
    exact List.cons_ne_nil _ _
  have hpad : ∀ n < 100, (Moment.padded n).dropWhile isblank ≠ [] ∧
      (decide (n < 10) = false → (Moment.padded n).dropWhile isblank = Moment.padded n) :=
    fun n hn => by
      rw [dropWhile_padded hn]
      refine ⟨?_, fun hten => ?_⟩
      · split <;> exact List.cons_ne_nil _ _
      · have hten := of_decide_eq_false hten
        unfold Moment.padded
        rw [if_neg hten, if_neg hten]
  cases f with
  | year =>
    have hdrop : (dec4 t.year).dropWhile isblank = dec4 t.year := by
      unfold dec4 dec2
      rw [List.cons_append, List.dropWhile_cons, isblank_digit (by omega), if_neg Bool.false_ne_true]
    exact ⟨hdrop ▸ List.cons_ne_nil _ _, fun _ => hdrop⟩
  | monAbbr =>
    unfold Moment.text
    interval_cases t.mon <;> exact ⟨List.cons_ne_nil _ _, fun _ => rfl⟩
  | monName =>
    unfold Moment.text
    interval_cases t.mon <;> exact ⟨List.cons_ne_nil _ _, fun _ => rfl⟩
  | mdayPad | hourPad => exact hpad _ (by omega)
  | ampm =>
    unfold Moment.text
    dsimp only
    split <;> exact ⟨List.cons_ne_nil _ _, fun _ => rfl⟩
  | century | year2 | mon | mday | hour | hour12 | min | sec =>
    exact ⟨hdec _ (by omega), fun _ => dropWhile_dec2 (by omega)⟩

/-- **What a directive reads is what it wrote.** -/
theorem directive_field {call : Callee} (t : Moment) (f : Field) (h : Partial tm)
    (hrest : f.free = true ∨ Plain rest) :
    directive call (directiveOf f.letter) (some ((t.text f).dropWhile isblank ++ rest)) tm =
      .next (some rest) (t.effect f tm) := by
  have hyear := t.year_range
  have hmday := t.mday_le
  have hmon := t.mon_lt
  have hhour := t.hour_lt
  have hmin := t.min_lt
  have hsec := t.sec_lt
  have hdrop := (dropWhile_text t f).2
  cases f with
  | year =>
    rw [hdrop rfl]
    exact directive_year (by omega)
  | year2 =>
    have hcentury : ((t.year % 100 : Nat) : Int) < 69 ↔ t.year % 100 < 69 := by omega
    rw [hdrop rfl]
    unfold directive simple
    refine number_dec2 (by omega) (by omega) (by omega) ?_
    unfold Moment.effect Moment.change
    by_cases h69 : t.year % 100 < 69
    · simp only [if_pos h69, if_pos (hcentury.2 h69)]
      rfl
    · simp only [if_neg h69, if_neg (mt hcentury.1 h69)]
      rfl
  | mon =>
    rw [hdrop rfl]
    exact directive_mon hmon
  | monAbbr =>
    have hlen : (smonths.getD t.mon []).length = 3 := by
      clear hdrop
      interval_cases t.mon <;> rfl
    rw [hdrop rfl]
    exact directive_month (hlen ▸ monthAt_abbr hmon (hrest.resolve_left Bool.false_ne_true))
  | monName =>
    rw [hdrop rfl]
    exact directive_month (monthAt_name hmon rest)
  | mday =>
    rw [hdrop rfl]
    exact directive_mday hmday
  | mdayPad | hourPad =>
    have hrest := hrest.resolve_left Bool.false_ne_true
    unfold directive simple
    exact number_of_getint (getint_padded (by omega) hrest) (by omega) (by omega) rfl
  | hour12 =>
    obtain ⟨hlow, hhigh⟩ := h .hour
    dsimp only [Tm.get] at hlow hhigh
    have hdiv : tm.tmHour.tdiv 12 = tm.tmHour / 12 := Int.tdiv_eq_ediv_of_nonneg hlow
    rw [hdrop rfl]
    unfold directive simple
    refine number_dec2 (by omega) (by omega) (by omega) ?_
    rw [sval_of_fits (fits32.2 (by omega))]
    rfl
  | ampm =>
    rw [hdrop rfl]
    unfold Moment.text Moment.effect Moment.change
    by_cases h12 : 12 < t.hour
    · simp only [if_pos h12]
      rfl
    · simp only [if_neg h12]
      rfl
  | century | hour | min | sec =>
    rw [hdrop rfl]
    unfold directive simple
    exact number_dec2 (by omega) (by omega) (by omega) rfl

/-! ## Reading a format -/

/-- What `strptime` has in front of it behind a token. -/
def skipped (b : Bool) (s : List UInt8) : List UInt8 := if b then s.dropWhile isblank else s

theorem dropWhile_skipped (b : Bool) (s : List UInt8) :
    (skipped b s).dropWhile isblank = s.dropWhile isblank := by
  cases b
  · rfl
  · exact List.dropWhile_idempotent _ _

section

variable {δ : Type}

/-- How directives are read: `free` ones without regard to what follows, and ones with a blank in front
of them not at all, unless the blank is skipped. -/
structure Reads (call : Callee) (letter : δ → UInt8) (text : δ → List UInt8)
    (free pads : δ → Bool) (effect : δ → Tm → Tm) : Prop where
  next : ∀ d rest tm, Partial tm → (free d = true ∨ Plain rest) →
    directive call (directiveOf (letter d)) (some ((text d).dropWhile isblank ++ rest)) tm =
      .next (some rest) (effect d tm)
  null : ∀ d rest tm, pads d = true →
    directive call (directiveOf (letter d)) (some (text d ++ rest)) tm = .null tm
  skip : ∀ d, (text d).dropWhile isblank ≠ []
  keep : ∀ d, pads d = false → (text d).dropWhile isblank = text d
  kept : ∀ d tm, Partial tm → Partial (effect d tm)

variable {call : Callee} {letter : δ → UInt8} {text : δ → List UInt8} {free pads : δ → Bool}
  {effect : δ → Tm → Tm} {ts : List (Token δ)} {b : Bool} {r : Answer}

theorem skipped_text (h : Reads call letter text free pads effect) {d : δ}
    (hb : b = true ∨ pads d = false) (s : List UInt8) :
    skipped b (text d ++ s) = (text d).dropWhile isblank ++ s := by
  cases b with
  | true =>
    show (text d ++ s).dropWhile isblank = _
    rw [List.dropWhile_append, if_neg]
    rw [List.isEmpty_iff]
    exact h.skip d
  | false =>
    rw [h.keep d (hb.resolve_left Bool.false_ne_true)]
    rfl

theorem plain_texts (hrest : Plain rest) (h : startsPlain ts = true) :
    Plain (texts text ts ++ rest) := by
  rcases ts with _ | ⟨c | d, ts⟩
  · exact hrest
  · exact .inr ⟨c, _, rfl⟩
  · cases h

/-- A separator is read. -/
theorem stops_sep (c : Sep) {format s : List UInt8} :
    Stops (step call) ⟨c.byte :: format, some (skipped b (c.byte :: s)), tm⟩ r ↔
      Stops (step call) ⟨format, some (skipped (c == .blank) s), tm⟩ r := by
  cases c with
  | blank =>
    rw [show Sep.blank.byte = 32 from rfl, stops_blank (.inl rfl), dropWhile_skipped]
    rfl
  | slash | dash | colon =>
    have hskip : ∀ d : Sep, isblank d.byte = false →
        skipped b (d.byte :: s) = d.byte :: s := fun d hd => by
      cases b
      · rfl
      · show (d.byte :: s).dropWhile isblank = _
        rw [List.dropWhile_cons, hd, if_neg Bool.false_ne_true]
    rw [hskip _ (by decide), stops_literal (by decide) (by decide)]
    rfl

/-- **A format that is readable is read to its end, and any other one is not.** -/
theorem stops_tokens (h : Reads call letter text free pads effect)
    (hsep : separated free ts = true) (hrest : Plain rest ∨ ∀ d ∈ dirs ts, free d = true)
    (htm : Partial tm) :
    (readable pads b ts = true →
      (Stops (step call) ⟨bytes letter ts, some (skipped b (texts text ts ++ rest)), tm⟩ r ↔
        Stops (step call) ⟨[], some (skipped (behindBlank b ts) rest), effects effect ts tm⟩ r)) ∧
    (readable pads b ts = false →
      Stops (step call) ⟨bytes letter ts, some (skipped b (texts text ts ++ rest)), tm⟩ r →
        r.1 = none) := by
  induction ts generalizing b tm with
  | nil => exact ⟨fun _ => Iff.rfl, nofun⟩
  | cons token ts ih =>
    cases token with
    | sep c =>
      unfold bytes texts
      rw [List.cons_append, stops_sep]
      exact ih hsep hrest htm
    | dir d =>
      obtain ⟨hend, hsep⟩ := Bool.and_eq_true_iff.1 hsep
      have hrest' : Plain rest ∨ ∀ d ∈ dirs ts, free d = true :=
        hrest.imp_right fun hall e he => hall e (List.mem_cons_of_mem d he)
      have hend' : free d = true ∨ Plain (texts text ts ++ rest) := by
        rcases hrest with hrest | hall
        · exact (Bool.or_eq_true_iff.1 hend).imp_right (plain_texts hrest)
        · exact .inl (hall d List.mem_cons_self)
      unfold bytes texts readable
      rw [List.append_assoc]
      by_cases hb : b = true ∨ pads d = false
      · have hread : (b || !pads d) = true := by
          rcases hb with hb | hb <;> rw [hb]
          · rfl
          · exact Bool.or_true b
        rw [hread, Bool.true_and, skipped_text h hb, stops_next rfl (h.next d _ tm htm hend')]
        exact ih hsep hrest' (h.kept d tm htm)
      · rw [not_or, Bool.not_eq_true, Bool.not_eq_false] at hb
        rw [hb.1, hb.2]
        refine ⟨fun hr => absurd hr Bool.false_ne_true, fun _ hstops => ?_⟩
        have hnull := (stops_null rfl (h.null d (texts text ts ++ rest) tm hb.2)).1 hstops
        rw [hnull]

end

/-! ## The directives -/

theorem reads_field (t : Moment) (call : Callee) :
    Reads call Field.letter t.text Field.free t.pads t.effect where
  next f rest _ h hrest := directive_field t f h hrest
  null f rest tm h := by
    have hblank : ∀ n u, n < 10 → getint 2 (Moment.padded n ++ u) = (-1, Moment.padded n ++ u) := by
      intro n u hn
      unfold Moment.padded
      rw [if_pos hn]
      rfl
    cases f with
    | mdayPad =>
      show simple .mday (Moment.padded t.mday ++ rest) tm = _
      unfold simple number
      rw [hblank _ _ (of_decide_eq_true h)]
      rfl
    | hourPad =>
      show simple .hour (Moment.padded t.hour ++ rest) tm = _
      unfold simple number
      rw [hblank _ _ (of_decide_eq_true h)]
      rfl
    | _ => cases h
  skip f := (dropWhile_text t f).1
  keep f := (dropWhile_text t f).2
  kept f _ h := partial_effect h f

theorem keep_combined (t : Moment) (c : Combined) :
    (texts t.text c.tokens).dropWhile isblank = texts t.text c.tokens := by
  have hfirst : ∀ f s, t.pads f = false → (t.text f ++ s).dropWhile isblank = t.text f ++ s :=
    fun f s hf => by
      have hread := skipped_text (reads_field t nested) (d := f) (.inl rfl) s
      rw [(dropWhile_text t f).2 hf] at hread
      exact hread
  cases c <;> exact hfirst _ _ rfl

/-- A composite directive is read by the call for its format. -/
theorem directive_combined (t : Moment) (c : Combined) (h : Partial tm) (rest : List UInt8) :
    directive nested (directiveOf c.letter) (some (texts t.text c.tokens ++ rest)) tm =
      .next (some rest) (t.dirEffect (.inr c) tm) := by
  have hread := stops_tokens (b := false) (r := (some rest, (effects t.effect c.tokens tm).derived))
    (reads_field t fun _ _ _ => none) (show separated _ c.tokens = true by cases c <;> rfl)
    (show Plain rest ∨ _ from .inr (by cases c <;> decide)) h
  have hderive := (partial_derive
    (partial_effects (fun f tm h => partial_effect (t := t) h f) c.tokens h)).1
  have hend : behindBlank false c.tokens = false := by cases c <;> rfl
  have hcall : nested (bytes Field.letter c.tokens) (some (texts t.text c.tokens ++ rest)) tm =
      some (some rest, (effects t.effect c.tokens tm).derived) := by
    refine result_eq_some_iff.2 ((hread.1 ?_).2 ?_)
    · cases c <;> rfl
    · rw [hend, stops_end hderive]
      rfl
  have hdir : directiveOf c.letter = .composite (bytes Field.letter c.tokens) := by cases c <;> rfl
  rw [hdir]
  unfold directive
  dsimp only
  rw [hcall]
  rfl

theorem reads_dir (t : Moment) :
    Reads nested Dir.letter t.dirText Dir.free t.dirPads t.dirEffect where
  next d rest tm h hrest := by
    cases d with
    | inl f => exact directive_field t f h hrest
    | inr c =>
      show directive nested (directiveOf c.letter)
        (some ((texts t.text c.tokens).dropWhile isblank ++ rest)) tm = _
      rw [keep_combined t c]
      exact directive_combined t c h rest
  null d rest tm h := by
    cases d with
    | inl f => exact (reads_field t nested).null f rest tm h
    | inr c => cases h
  skip d := by
    cases d with
    | inl f => exact (dropWhile_text t f).1
    | inr c =>
      show (texts t.text c.tokens).dropWhile isblank ≠ []
      rw [keep_combined t c]
      cases c <;> exact List.cons_ne_nil _ _
  keep d h := by
    cases d with
    | inl f => exact (dropWhile_text t f).2 h
    | inr c => exact keep_combined t c
  kept d _ h := partial_dirEffect h d

/-! ## The parts behind the format -/

theorem get_foldl (fs : List Field) (tm : Tm) (p : Part) :
    (fs.foldl (fun tm f => t.effect f tm) tm).get p =
      (fs.filter (·.part == p)).foldl t.change (tm.get p) := by
  induction fs generalizing tm with
  | nil => rfl
  | cons f fs ih =>
    rw [List.foldl_cons, ih, get_effect, List.filter_cons]
    by_cases hp : f.part = p
    · rw [if_pos hp, if_pos (beq_iff_eq.2 hp), List.foldl_cons]
    · rw [if_neg hp, if_neg (by rw [beq_iff_eq]; exact hp)]

/-- A part is changed by its own directives only, in their order. -/
theorem get_effects (ts : List (Token Dir)) (h : Partial tm) (p : Part) :
    (effects t.dirEffect ts tm).get p = (fieldsOf p ts).foldl t.change (tm.get p) := by
  unfold effects fieldsOf fields
  induction dirs ts generalizing tm with
  | nil => rfl
  | cons d ds ih =>
    have hone : (t.dirEffect d tm).get p =
        ((Sum.elim (fun f => [f]) (fun c => dirs c.tokens) d).filter (·.part == p)).foldl t.change
          (tm.get p) := by
      rw [← get_foldl]
      cases d with
      | inl f => rfl
      | inr c =>
        exact (partial_derive
          (partial_effects (fun f tm h => partial_effect (t := t) h f) c.tokens h)).2 p
    rw [List.foldl_cons, ih (partial_dirEffect h d), List.flatMap_cons, List.filter_append,
      List.foldl_append, hone]

/-- The directives for a part make it what it was, unless they are for noon on the twelve hour
clock. -/
theorem foldl_change {ts : List (Token Dir)} (h : Wellformed ts) :
    (∀ p, (fieldsOf p ts).foldl t.change (zeroed.get p) = t.tm.get p) ↔
      ¬(t.hour = 12 ∧ Field.hour12 ∈ fields ts) := by
  have hyear := t.year_range
  have hhour := t.hour_lt
  have hmem : Field.hour12 ∈ fields ts ↔ Field.hour12 ∈ fieldsOf .hour ts := by
    unfold fieldsOf
    rw [List.mem_filter]
    exact (and_iff_left rfl).symm
  have hother : ∀ p, p ≠ .hour → (fieldsOf p ts).foldl t.change (zeroed.get p) = t.tm.get p := by
    intro p hp
    cases p with
    | year =>
      have hset := h.year
      simp only [List.mem_cons, List.not_mem_nil, or_false] at hset
      rcases hset with hset | hset | hset <;> rw [hset]
      · rfl
      all_goals
        show (if t.year % 100 < 69 then ((t.year % 100 : Nat) : Int) + 100
          else (t.year % 100 : Nat)) = (t.year : Int) - 1900
        split <;> omega
    | mon =>
      have hset := h.mon
      simp only [List.mem_cons, List.not_mem_nil, or_false] at hset
      rcases hset with hset | hset | hset <;> (rw [hset]; rfl)
    | mday =>
      have hset := h.mday
      simp only [List.mem_cons, List.not_mem_nil, or_false] at hset
      rcases hset with hset | hset <;> (rw [hset]; rfl)
    | hour => exact absurd rfl hp
    | min => rw [h.min]; rfl
    | sec => rw [h.sec]; rfl
  have hset := h.hour
  have hsplit : (∀ p, (fieldsOf p ts).foldl t.change (zeroed.get p) = t.tm.get p) ↔
      (fieldsOf .hour ts).foldl t.change 0 = t.hour :=
    ⟨fun hall => hall .hour, fun hh p => by
      by_cases hp : p = .hour
      · rw [hp]
        exact hh
      · exact hother p hp⟩
  rw [hsplit, hmem]
  simp only [List.mem_cons, List.not_mem_nil, or_false] at hset
  rcases hset with hset | hset | hset | hset <;> rw [hset]
  · exact iff_of_true rfl fun hnoon => absurd hnoon.2 (by decide)
  · exact iff_of_true rfl fun hnoon => absurd hnoon.2 (by decide)
  · have hmod : (((t.hour % 12 : Nat) : Int)).tmod 12 = (t.hour % 12 : Nat) := by
      rw [Int.tmod_eq_emod_of_nonneg (by omega)]
      omega
    rw [and_iff_left (show Field.hour12 ∈ [Field.hour12, .ampm] by decide)]
    show (if 12 < t.hour then ((0 : Int).tdiv 12 * 12 + (t.hour % 12 : Nat)).tmod 12 + 12
      else (0 : Int).tdiv 12 * 12 + (t.hour % 12 : Nat)) = t.hour ↔ _
    rw [Int.zero_tdiv, Int.zero_mul, Int.zero_add, hmod]
    split <;> omega
  · rw [and_iff_left (show Field.hour12 ∈ [Field.ampm, .hour12] by decide)]
    show (if 12 < t.hour then (0 : Int).tmod 12 + 12 else 0).tdiv 12 * 12 + (t.hour % 12 : Nat) =
      t.hour ↔ _
    split
    · rw [show ((0 : Int).tmod 12 + 12).tdiv 12 = 1 from rfl]
      omega
    · rw [Int.zero_tdiv]
      omega

/-! ## The claim -/

/-- `strptime`, called on the string that `strftime` left in a buffer with room for it, and on a
structure filled with zeros, reads all of the string and restores the time. -/
def Restores (l : Locale) (t : Moment) (ts : List (Token Dir)) : Prop :=
  ∀ dst max m, (texts t.dirText ts).length < max →
    ∃ w tm', strftime l dst max (bytes Dir.letter ts) m t.tm = some w ∧
      strptime (cstring (w.2.1.load dst max)) (bytes Dir.letter ts) zeroed = some (some [], tm') ∧
        ∀ p, tm'.get p = t.tm.get p

theorem texts_ne_zero {δ : Type} {text : δ → List UInt8} (h : ∀ d, ∀ c ∈ text d, c ≠ 0)
    (ts : List (Token δ)) : ∀ c ∈ texts text ts, c ≠ 0 := by
  induction ts with
  | nil => exact List.forall_mem_nil _
  | cons token ts ih =>
    cases token with
    | sep c => exact List.forall_mem_cons.2 ⟨by cases c <;> decide, ih⟩
    | dir d => exact List.forall_mem_append.2 ⟨h d, ih⟩

theorem dirText_ne_zero (t : Moment) (d : Dir) : ∀ c ∈ t.dirText d, c ≠ 0 := by
  cases d with
  | inl f => exact text_ne_zero t f
  | inr c => exact texts_ne_zero (text_ne_zero t) c.tokens

/-- The string in the buffer is the text of the format. -/
theorem restores_iff_strptime (l : Locale) (t : Moment) (ts : List (Token Dir)) :
    Restores l t ts ↔ ∃ tm', strptime (texts t.dirText ts) (bytes Dir.letter ts) zeroed =
      some (some [], tm') ∧ ∀ p, tm'.get p = t.tm.get p := by
  have hstring : ∀ dst max m, (texts t.dirText ts).length < max →
      ∃ w, strftime l dst max (bytes Dir.letter ts) m t.tm = some w ∧
        cstring (w.2.1.load dst max) = texts t.dirText ts := by
    intro dst max m hroom
    have hspec := strftime_spec dst m (Nat.zero_lt_of_lt hroom) t.fields_tm (expand_tokens t l ts)
    rw [if_pos (.inl (complete_tokens ts))] at hspec
    obtain ⟨w, hret, hleft⟩ := hspec
    refine ⟨w, hret, ?_⟩
    obtain ⟨hw, hload, -⟩ := hleft.wrote.short (by omega)
    dsimp only at hw hload
    have hlen : w.1 = (texts t.dirText ts).length := by omega
    have hnul := hleft.nul (hlen ▸ hroom)
    rw [hlen] at hnul
    rw [show max = (texts t.dirText ts).length + ((max - (texts t.dirText ts).length - 1) + 1) by omega,
      Mem.load_add, hload, Mem.load_cons, hnul]
    unfold cstring
    rw [List.takeWhile_append_of_pos fun c hc =>
      bne_iff_ne.2 (texts_ne_zero (dirText_ne_zero t) ts c hc)]
    exact List.append_nil _
  constructor
  · intro h
    obtain ⟨w, tm', hret, hread, hget⟩ := h 0 _ (fun _ => 0) (Nat.lt_succ_self _)
    obtain ⟨w', hret', hw⟩ := hstring 0 _ (fun _ => 0) (Nat.lt_succ_self _)
    rw [hret] at hret'
    cases hret'
    rw [hw] at hread
    exact ⟨tm', hread, hget⟩
  · rintro ⟨tm', hread, hget⟩ dst max m hroom
    obtain ⟨w, hret, hw⟩ := hstring dst max m hroom
    exact ⟨w, tm', hret, by rw [hw]; exact hread, hget⟩

/-- **`strptime` undoes `strftime` if each padded digit of the text has a blank of the format in front
of it, and unless it is noon on the twelve hour clock.** -/
theorem strptime_restores_iff (l : Locale) (t : Moment) (ts : List (Token Dir)) (h : Wellformed ts) :
    Restores l t ts ↔
      readable t.dirPads false ts = true ∧ ¬(t.hour = 12 ∧ Field.hour12 ∈ fields ts) := by
  have hread : ∀ r, _ := fun r => stops_tokens (b := false) (r := r) (reads_dir t)
    h.separated (show Plain [] ∨ _ from .inl (.inl rfl)) partial_zeroed
  have hpartial : Partial (effects t.dirEffect ts zeroed) :=
    partial_effects (fun d tm h => partial_dirEffect h d) ts partial_zeroed
  have hnil : skipped (behindBlank false ts) [] = [] := by
    cases behindBlank false ts <;> rfl
  obtain ⟨hderive, hget⟩ := partial_derive hpartial
  rw [restores_iff_strptime, ← foldl_change h]
  unfold strptime
  simp only [result_eq_some_iff]
  simp only [List.append_nil, hnil, stops_end hderive] at hread
  constructor
  · rintro ⟨tm', hstops, hsame⟩
    cases hr : readable t.dirPads false ts with
    | false =>
      have hnone := (hread _).2 hr hstops
      cases hnone
    | true =>
      have htm := ((hread _).1 hr).1 hstops
      cases htm
      refine ⟨rfl, fun p => ?_⟩
      rw [← get_effects ts partial_zeroed p, ← hget p, hsame p]
  · rintro ⟨hr, hfold⟩
    refine ⟨_, ((hread _).1 hr).2 rfl, fun p => ?_⟩
    rw [hget p, get_effects ts partial_zeroed p, hfold p]

/-! ## Two times -/

/-- `%Y-%m-%d %H:%M:%S` -/
def isoTokens : List (Token Dir) :=
  [.dir (.inl .year), .sep .dash, .dir (.inl .mon), .sep .dash, .dir (.inl .mday), .sep .blank,
    .dir (.inl .hour), .sep .colon, .dir (.inl .min), .sep .colon, .dir (.inl .sec)]

/-- `%D %r` -/
def clockTokens : List (Token Dir) := [.dir (.inr .date), .sep .blank, .dir (.inr .time12)]

/-- `%Y/%m/%e %T` -/
def paddedTokens : List (Token Dir) :=
  [.dir (.inl .year), .sep .slash, .dir (.inl .mon), .sep .slash, .dir (.inl .mdayPad), .sep .blank,
    .dir (.inr .time)]

/-- The fifth of March 2024, at noon. -/
def noon : Moment where
  year := 2024
  mon := 2
  mday := 5
  hour := 12
  min := 0
  sec := 0
  wday := 2
  yday := 64
  year_range := by decide
  mon_lt := by decide
  mday_range := by decide
  hour_lt := by decide
  min_lt := by decide
  sec_lt := by decide
  wday_lt := by decide
  yday_lt := by decide

theorem wellformed_isoTokens : Wellformed isoTokens :=
  ⟨by decide, by decide, by decide, by decide, by decide, by decide, by decide⟩

theorem strptime_restores_noon : Restores greenwich noon isoTokens :=
  (strptime_restores_iff greenwich noon isoTokens wellformed_isoTokens).2 ⟨by decide, by decide⟩

/-- Noon comes back as midnight, and the fifth behind a slash is not read. -/
theorem strptime_loses : Wellformed clockTokens ∧ Wellformed paddedTokens ∧
    ¬Restores greenwich noon clockTokens ∧ ¬Restores greenwich noon paddedTokens := by
  refine ⟨⟨by decide, by decide, by decide, by decide, by decide, by decide, by decide⟩,
    ⟨by decide, by decide, by decide, by decide, by decide, by decide, by decide⟩, ?_, ?_⟩
  · rw [restores_iff_strptime]
    rintro ⟨tm', hread, hget⟩
    have hmidnight : strptime (texts noon.dirText clockTokens) (bytes Dir.letter clockTokens) zeroed =
        some (some [], ⟨0, 0, 0, 5, 2, 124, 2, 64⟩) := rfl
    rw [hmidnight] at hread
    cases hread
    exact absurd (hget .hour) (by decide)
  · rw [restores_iff_strptime]
    rintro ⟨tm', hread, -⟩
    have hnull : strptime (texts noon.dirText paddedTokens) (bytes Dir.letter paddedTokens) zeroed =
        some (none, ⟨0, 0, 0, 0, 2, 124, 0, 0⟩) := rfl
    rw [hnull] at hread
    cases hread

end Dietlibc.Time
