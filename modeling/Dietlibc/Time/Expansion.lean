import Dietlibc.Time.Strftime

/-!
# What `strftime` writes

`expand` is the text a format stands for, without a buffer. `strftime` writes it if there is room for it
and the NUL, and is truncated if there is not. Where the format ends inside a directive, the loop goes
on behind the NUL, unless the buffer is full before.
-/

namespace Dietlibc.Time

open CInt Calendar
open Lib (text)

/-! ## Expansions -/

/-- The text of a format, and the structure behind it. -/
abbrev Expander := List UInt8 → Tm → Option (List UInt8 × Tm)

def pieceText (sub : Expander) (tm : Tm) : Piece → Option (List UInt8 × Tm)
  | .none => some ([], tm)
  | .char c => some ([c], tm)
  | .str src => some (cstring src, tm)
  | .format src => sub src tm

section

variable (sub : Expander) (l : Locale)

/-- The text of a directive. -/
def directiveText (c : UInt8) (tm : Tm) : Option (List UInt8 × Tm) :=
  (conversion l c tm).bind fun r => pieceText sub r.2 r.1

/-- The text of what is left of a format. A directive that ends with the format has none. -/
def expandLoop : Mode → List UInt8 → Tm → Option (List UInt8 × Tm)
  | _, [], tm => some ([], tm)
  | .plain, c :: format, tm =>
    if c = 37 then expandLoop .percent format tm
    else (expandLoop .plain format tm).map fun r => (c :: r.1, r.2)
  | .percent, c :: format, tm =>
    if c = 37 then (expandLoop .plain format tm).map fun r => (c :: r.1, r.2)
    else if c = 79 ∨ c = 69 then expandLoop .again format tm
    else
      (directiveText sub l c tm).bind fun r =>
        (expandLoop .plain format r.2).map fun r' => (r.1 ++ r'.1, r'.2)
  | .again, c :: format, tm =>
    if c = 79 ∨ c = 69 then expandLoop .again format tm
    else
      (directiveText sub l c tm).bind fun r =>
        (expandLoop .plain format r.2).map fun r' => (r.1 ++ r'.1, r'.2)

end

/-- The text of a format, with the text of the formats of its composite directives. -/
def expand (l : Locale) : Expander := expandLoop (expandLoop (fun _ _ => none) l .plain) l .plain

/-- The mode behind a byte. -/
def Mode.next : Mode → UInt8 → Mode
  | .plain, c => if c = 37 then .percent else .plain
  | _, c => if c = 79 ∨ c = 69 then .again else .plain

/-! ## The bytes of a format -/

/-- A byte that stands for itself. -/
def Literal (mode : Mode) (c : UInt8) : Prop := (mode = .plain ∧ c ≠ 37) ∨ (mode = .percent ∧ c = 37)

/-- The letter of a directive. -/
def Letter (mode : Mode) (c : UInt8) : Prop :=
  mode ≠ .plain ∧ ¬(mode = .percent ∧ c = 37) ∧ ¬(c = 79 ∨ c = 69)

/-- A byte starts a directive, stands for itself, is skipped, or is the letter of a directive. -/
theorem byte_cases (mode : Mode) (c : UInt8) : (mode = .plain ∧ c = 37) ∨ Literal mode c ∨
    (mode ≠ .plain ∧ (c = 79 ∨ c = 69)) ∨ Letter mode c := by
  by_cases hplain : mode = .plain
  · by_cases hc : c = 37
    · exact .inl ⟨hplain, hc⟩
    · exact .inr (.inl (.inl ⟨hplain, hc⟩))
  · by_cases hpercent : mode = .percent ∧ c = 37
    · exact .inr (.inl (.inr hpercent))
    · by_cases hskip : c = 79 ∨ c = 69
      · exact .inr (.inr (.inl ⟨hplain, hskip⟩))
      · exact .inr (.inr (.inr ⟨hplain, hpercent, hskip⟩))

section

variable {mode : Mode} {c : UInt8} {sub : Expander} {call : Writer} {l : Locale} {stop p : Nat}
  {format : List UInt8} {m : Mem} {tm : Tm}

theorem next_literal (h : Literal mode c) : mode.next c = .plain := by
  rcases h with ⟨rfl, hc⟩ | ⟨rfl, rfl⟩
  · exact if_neg hc
  · rfl

theorem next_skipped (hm : mode ≠ .plain) (hc : c = 79 ∨ c = 69) : mode.next c = .again := by
  cases mode with
  | plain => exact absurd rfl hm
  | percent | again => exact if_pos hc

theorem next_letter (h : Letter mode c) : mode.next c = .plain := by
  cases mode with
  | plain => exact absurd rfl h.1
  | percent | again => exact if_neg h.2.2

theorem expandLoop_literal (h : Literal mode c) : expandLoop sub l mode (c :: format) tm =
    (expandLoop sub l .plain format tm).map fun r => (c :: r.1, r.2) := by
  rcases h with ⟨rfl, hc⟩ | ⟨rfl, rfl⟩
  · rw [expandLoop, if_neg hc]
  · rw [expandLoop, if_pos rfl]

theorem expandLoop_skipped (hm : mode ≠ .plain) (hc : c = 79 ∨ c = 69) :
    expandLoop sub l mode (c :: format) tm = expandLoop sub l .again format tm := by
  cases mode with
  | plain => exact absurd rfl hm
  | percent => rw [expandLoop, if_neg (by rcases hc with rfl | rfl <;> decide), if_pos hc]
  | again => rw [expandLoop, if_pos hc]

theorem expandLoop_letter (h : Letter mode c) : expandLoop sub l mode (c :: format) tm =
    (directiveText sub l c tm).bind fun r =>
      (expandLoop sub l .plain format r.2).map fun r' => (r.1 ++ r'.1, r'.2) := by
  cases mode with
  | plain => exact absurd rfl h.1
  | percent => rw [expandLoop, if_neg fun hc => h.2.1 ⟨rfl, hc⟩, if_neg h.2.2]
  | again => rw [expandLoop, if_neg h.2.2]

theorem strftimeLoop_literal (h : Literal mode c) :
    strftimeLoop call l stop mode (c :: format) m p tm =
      if stop ≤ p + 1 then some (p + 1, m.store p [c], tm)
      else strftimeLoop call l stop .plain format (m.store p [c]) (p + 1) tm := by
  rcases h with ⟨rfl, hc⟩ | ⟨rfl, rfl⟩
  · rw [strftimeLoop, if_neg hc]
  · rw [strftimeLoop, if_pos rfl]

theorem strftimeLoop_skipped (hm : mode ≠ .plain) (hc : c = 79 ∨ c = 69) :
    strftimeLoop call l stop mode (c :: format) m p tm =
      strftimeLoop call l stop .again format m p tm := by
  cases mode with
  | plain => exact absurd rfl hm
  | percent => rw [strftimeLoop, if_neg (by rcases hc with rfl | rfl <;> decide), if_pos hc]
  | again => rw [strftimeLoop, if_pos hc]

theorem strftimeLoop_letter (h : Letter mode c) {piece : Piece} {tm' : Tm} {w : Written}
    (hc : conversion l c tm = some (piece, tm')) (hw : put call stop m p tm' piece = some w) :
    strftimeLoop call l stop mode (c :: format) m p tm =
      if stop ≤ w.1 then some w else strftimeLoop call l stop .plain format w.2.1 w.1 w.2.2 := by
  cases mode with
  | plain => exact absurd rfl h.1
  | percent =>
    rw [strftimeLoop, if_neg fun hc => h.2.1 ⟨rfl, hc⟩, if_neg h.2.2, hc, Option.bind_eq_bind,
      Option.bind_some]
    dsimp only
    rw [hw]
    rfl
  | again =>
    rw [strftimeLoop, if_neg h.2.2, hc, Option.bind_eq_bind, Option.bind_some]
    dsimp only
    rw [hw]
    rfl

end

/-- The format ends behind `%`, `%O` or `%E`. -/
def Incomplete (format : List UInt8) : Prop := format.foldl Mode.next .plain ≠ .plain

instance (format : List UInt8) : Decidable (Incomplete format) := inferInstanceAs (Decidable (_ ≠ _))

/-! ## The claim -/

/-- The fields are in range; the last year that `tm_year` counts and 1970 are years apart that an `int`
counts. -/
structure Fields (tm : Tm) : Prop where
  sec : 0 ≤ tm.tmSec ∧ tm.tmSec ≤ 60
  min : 0 ≤ tm.tmMin ∧ tm.tmMin < 60
  hour : 0 ≤ tm.tmHour ∧ tm.tmHour < 24
  mday : 1 ≤ tm.tmMday ∧ tm.tmMday ≤ 31
  mon : 0 ≤ tm.tmMon ∧ tm.tmMon < 12
  year : Fits 32 (tm.tmYear - 70) ∧ Fits 32 (tm.tmYear + 1900)
  wday : 0 ≤ tm.tmWday ∧ tm.tmWday < 7
  yday : 0 ≤ tm.tmYday ∧ tm.tmYday < 366

/-- The call comes to its end, writes in `dst[0..max)` only, and leaves a NUL there. Less than `max` is
the length of the expansion, which is what `dst` holds, and `max` is that it does not fit. -/
structure Bounded (l : Locale) (dst max : Nat) (format : List UInt8) (m : Mem) (tm : Tm)
    (w : Written) : Prop where
  returns : strftime l dst max format m tm = some w
  le : w.1 ≤ max
  frame : ∀ a, a < dst ∨ dst + max ≤ a → w.2.1 a = m a
  terminated : ∃ i < max, w.2.1 (dst + i) = 0
  complete : w.1 < max → ∃ tm', expand l format tm = some (w.2.1.load dst w.1, tm') ∧
    w.2.1 (dst + w.1) = 0
  truncated : w.1 = max → ∀ t tm', expand l format tm = some (t, tm') → max ≤ t.length

/-! ## One piece -/

variable {call : Writer} {sub : Expander} {l : Locale} {m : Mem} {p stop : Nat} {t : List UInt8}
  {tm tm' : Tm}

/-- `t` has been written from `p` on, up to `stop`. -/
structure Wrote (m : Mem) (p stop : Nat) (t : List UInt8) (tm' : Tm) (w : Written) : Prop where
  frame : ∀ a, a < p ∨ stop ≤ a → w.2.1 a = m a
  short : p + t.length < stop → w.1 = p + t.length ∧ w.2.1.load p t.length = t ∧ w.2.2 = tm'
  long : stop ≤ p + t.length → w.1 = stop

/-- A call writes the expansion of a complete format. -/
def WriterSpec (call : Writer) (sub : Expander) : Prop :=
  ∀ dst max format m tm t tm', 0 < max → Fields tm → ¬Incomplete format →
    sub format tm = some (t, tm') →
    ∃ w, call dst max format m tm = some w ∧ Wrote m dst (dst + max) t tm' (dst + w.1, w.2)

theorem wrote_store (m : Mem) (tm : Tm) (src : List UInt8) (h : p < stop) :
    Wrote m p stop src tm (p + (src.take (stop - p)).length, m.store p (src.take (stop - p)), tm) := by
  have hlen : (src.take (stop - p)).length = min (stop - p) src.length := List.length_take
  refine ⟨fun a ha => Mem.store_out (by omega), fun hshort => ?_, fun hlong => ?_⟩
  · have hall : src.take (stop - p) = src := List.take_of_length_le (by omega)
    dsimp only
    rw [hall]
    exact ⟨rfl, Mem.load_store_self rfl, rfl⟩
  · dsimp only
    omega

theorem wrote_char {c : UInt8} (h : p < stop) : Wrote m p stop [c] tm (p + 1, m.store p [c], tm) := by
  have hw := wrote_store m tm [c] h
  rw [List.take_of_length_le (by rw [List.length_singleton]; omega)] at hw
  exact hw

/-- What `pieceText` has of a piece is written. -/
theorem put_wrote (hcall : WriterSpec call sub) (hf : Fields tm) (h : p < stop) {piece : Piece}
    (hcomplete : ∀ src, piece = .format src → ¬Incomplete src)
    (ht : pieceText sub tm piece = some (t, tm')) :
    ∃ w, put call stop m p tm piece = some w ∧ Wrote m p stop t tm' w := by
  cases piece with
  | none =>
    cases ht
    exact ⟨_, rfl, fun _ _ => rfl, fun _ => ⟨rfl, rfl, rfl⟩, fun hlong => absurd h (Nat.not_lt.2 hlong)⟩
  | char c =>
    cases ht
    exact ⟨_, rfl, wrote_char h⟩
  | str src =>
    cases ht
    exact ⟨_, rfl, wrote_store m _ _ h⟩
  | format src =>
    obtain ⟨w, hret, hw⟩ := hcall p (stop - p) src m tm t tm' (by omega) hf (hcomplete src rfl) ht
    rw [Nat.add_sub_cancel' h.le] at hw
    refine ⟨(p + w.1, w.2), ?_, hw⟩
    unfold put
    dsimp only
    rw [hret]
    rfl

/-- A text and then another. -/
theorem Wrote.append {t' : List UInt8} {tm2 : Tm} {w w' : Written} (h : Wrote m p stop t tm' w)
    (hw : w.1 < stop) (h' : Wrote w.2.1 w.1 stop t' tm2 w') :
    Wrote m p stop (t ++ t') tm2 w' := by
  have hroom : p + t.length < stop := by
    by_contra hlong
    have := h.long (by omega)
    omega
  obtain ⟨hnext, hload, -⟩ := h.short hroom
  have hlen : (t ++ t').length = t.length + t'.length := List.length_append
  have hkept : ∀ a, a < w.1 → w'.2.1 a = w.2.1 a := fun a ha => h'.frame a (.inl ha)
  refine ⟨fun a ha => ?_, fun hshort => ?_, fun hlong => h'.long (by omega)⟩
  · rw [h'.frame a (by omega), h.frame a ha]
  · obtain ⟨hnext', hload', htm⟩ := h'.short (by omega)
    refine ⟨by omega, ?_, htm⟩
    rw [hlen, Mem.load_add, ← hnext, hload', Mem.load_congr fun i hi => hkept (p + i) (by omega), hload]

/-! ## The loop -/

/-- What the loop does with the rest of a format that stands for `t`. -/
def LoopSpec (call : Writer) (l : Locale) (stop : Nat) (mode : Mode) (format : List UInt8) (m : Mem)
    (p : Nat) (tm : Tm) (t : List UInt8) (tm' : Tm) : Prop :=
  if format.foldl Mode.next mode = .plain ∨ stop ≤ p + t.length then
    ∃ w, strftimeLoop call l stop mode format m p tm = some w ∧ Wrote m p stop t tm' w
  else strftimeLoop call l stop mode format m p tm = none

/-- The end of the format, inside a directive or not. -/
theorem loopSpec_nil (mode : Mode) (h : p < stop) : LoopSpec call l stop mode [] m p tm [] tm := by
  have hw : Wrote m p stop [] tm (p, m, tm) :=
    ⟨fun _ _ => rfl, fun _ => ⟨rfl, rfl, rfl⟩, fun hlong => absurd h (Nat.not_lt.2 hlong)⟩
  unfold LoopSpec
  cases mode with
  | plain =>
    rw [if_pos (.inl rfl)]
    exact ⟨_, rfl, hw⟩
  | percent | again =>
    rw [if_neg]
    · unfold strftimeLoop
      exact if_neg (Nat.not_le.2 h)
    · rintro (hmode | hlong)
      · cases hmode
      · exact absurd h (Nat.not_lt.2 hlong)

/-- A text that is written, and the rest of the format. -/
theorem loopSpec_append {mode : Mode} {format rest t' : List UInt8} {tm2 : Tm} {w : Written}
    (h : Wrote m p stop t tm' w)
    (hmode : format.foldl Mode.next mode = rest.foldl Mode.next .plain)
    (hloop : strftimeLoop call l stop mode format m p tm =
      if stop ≤ w.1 then some w else strftimeLoop call l stop .plain rest w.2.1 w.1 w.2.2)
    (hrest : w.1 < stop → LoopSpec call l stop .plain rest w.2.1 w.1 tm' t' tm2) :
    LoopSpec call l stop mode format m p tm (t ++ t') tm2 := by
  have hlen : (t ++ t').length = t.length + t'.length := List.length_append
  unfold LoopSpec
  rw [hmode, hloop]
  by_cases hfull : stop ≤ w.1
  · have hlong : stop ≤ p + t.length := by
      by_contra hshort
      have := (h.short (by omega)).1
      omega
    rw [if_pos hfull, if_pos (.inr (by omega))]
    exact ⟨w, rfl, h.frame, fun hshort => by omega, fun _ => h.long hlong⟩
  · rw [if_neg hfull]
    have hlt : w.1 < stop := Nat.lt_of_not_le hfull
    have hroom : p + t.length < stop := by
      by_contra hlong
      have := h.long (by omega)
      omega
    obtain ⟨hnext, -, htm⟩ := h.short hroom
    have hr := hrest hlt
    unfold LoopSpec at hr
    rw [htm]
    by_cases hcond : rest.foldl Mode.next .plain = .plain ∨ stop ≤ w.1 + t'.length
    · rw [if_pos hcond] at hr
      rw [if_pos (hcond.imp_right fun hle => by omega)]
      obtain ⟨w', hret, hw'⟩ := hr
      exact ⟨w', hret, h.append hlt hw'⟩
    · rw [if_neg hcond] at hr
      rw [if_neg fun hc => hcond (hc.imp_right fun hle => by omega)]
      exact hr

/-- The letters of the composite directives. -/
def composites : List UInt8 := [99, 114, 82, 120, 88, 68, 70, 84]

/-- No directive of the format is composite. -/
def flat : Mode → List UInt8 → Bool
  | _, [] => true
  | mode, c :: format =>
    (decide (mode = .plain) || !composites.contains c) && flat (mode.next c) format

/-- A format of a composite directive. -/
structure Composite (src : List UInt8) : Prop where
  complete : ¬Incomplete src
  flat : flat .plain src = true

theorem entry_total (table : List (List UInt8)) {i : Int} (h0 : 0 ≤ i) (h : i < table.length) :
    ∃ name, entry table i = some (.str name) := by
  have hlt : i.toNat < table.length := by omega
  unfold entry
  rw [if_pos h0, List.getElem?_eq_getElem hlt]
  exact ⟨_, rfl⟩

theorem eq_of_char {c : UInt8} {x : Char} (h : Char.ofNat c.toNat = x) : c = UInt8.ofNat x.toNat := by
  have hvalid : c.toNat.isValidChar := .inl (by have := c.toNat_lt; omega)
  have hback : (Char.ofNat c.toNat).toNat = c.toNat := by
    unfold Char.ofNat
    rw [dif_pos hvalid]
    rfl
  rw [← h, hback, UInt8.ofNat_toNat]

/-- Every directive is something, and only these are composite. -/
theorem piece_total (h : Fields tm) (c : UInt8) : ∃ piece, Time.piece l c tm = some piece ∧
    ∀ src, piece = .format src → composites.contains c = true ∧ Composite src := by
  have hstr {o : Option Piece} (ho : ∃ name, o = some (.str name)) : ∃ piece, o = some piece ∧
      ∀ src, piece = .format src → composites.contains c = true ∧ Composite src := by
    obtain ⟨name, rfl⟩ := ho
    exact ⟨_, rfl, nofun⟩
  have hformat {x : Char} {src : List UInt8} (hc : Char.ofNat c.toNat = x)
      (hx : composites.contains (UInt8.ofNat x.toNat) = true) (hs : Composite src) :
      ∃ piece, some (Piece.format src) = some piece ∧
        ∀ src, piece = .format src → composites.contains c = true ∧ Composite src := by
    refine ⟨_, rfl, fun src' hsrc => ?_⟩
    cases hsrc
    rw [eq_of_char hc]
    exact ⟨hx, hs⟩
  have hsweek := entry_total sweekdays h.wday.1 h.wday.2
  have hweek := entry_total weekdays h.wday.1 h.wday.2
  have hsmon := entry_total smonths h.mon.1 h.mon.2
  have hmonth := entry_total months h.mon.1 h.mon.2
  have hhour : ∃ name, entry ampm (if 12 < tm.tmHour then 3 else 2) = some (.str name) := by
    split <;> exact ⟨_, rfl⟩
  have hhour' : ∃ name, entry ampm (if 12 < tm.tmHour then 1 else 0) = some (.str name) := by
    split <;> exact ⟨_, rfl⟩
  unfold Time.piece
  split
  -- numbers, names, the halves of the day, composite directives, and single characters
  all_goals first
    | exact hstr ⟨_, rfl⟩
    | exact hstr hsweek
    | exact hstr hweek
    | exact hstr hsmon
    | exact hstr hmonth
    | exact hstr hhour
    | exact hstr hhour'
    | exact hformat (by assumption) rfl ⟨by decide, by decide⟩
    | exact ⟨_, rfl, nofun⟩

theorem spm_le {m : Nat} (h : m < 12) : 0 ≤ spm m ∧ spm m ≤ 334 := by
  interval_cases m <;> decide

/-- `mktime` answers, and leaves the fields in range. -/
theorem mktime_total (h : Fields tm) : ∃ x tm', l.mktime tm = some (x, tm') ∧ Fields tm' := by
  have hmon := h.mon
  obtain ⟨m, hm⟩ : ∃ m : Nat, tm.tmMon = m := ⟨tm.tmMon.toNat, by omega⟩
  have hlt : m < 12 := by omega
  have hspm := spm_le hlt
  have hmday := h.mday
  obtain ⟨hyear, hyear'⟩ := h.year
  have htimegm : ∃ x tm', timegm tm = some (x, tm') ∧ Fields tm' := by
    rw [timegm_of_le hm hlt h.mday h.sec.2 h.min.2.le (by have := h.hour; omega),
      sval_of_fits hyear, Option.bind_some]
    by_cases h70 : tm.tmYear < 70
    · rw [if_pos h70]
      exact ⟨_, _, rfl, h⟩
    · rw [if_neg h70, sval_of_fits hyear', Option.bind_some]
      have hday := newYear_mono (show 1970 ≤ 1970 + (tm.tmYear - 70) by omega)
      rw [newYear_1970, ← dayCount_eq (by omega)] at hday
      have hyday : 0 ≤ ydayOf (isleap (tm.tmYear + 1900)) m tm.tmMday ∧
          ydayOf (isleap (tm.tmYear + 1900)) m tm.tmMday < 366 := by
        unfold ydayOf
        split <;> omega
      refine ⟨_, _, rfl, h.sec, h.min, h.hour, h.mday, h.mon, h.year, ?_, hyday⟩
      dsimp only
      rw [Int.tmod_eq_emod_of_nonneg (by omega)]
      omega
  obtain ⟨x, tm', hx, hf⟩ := htimegm
  unfold Locale.mktime
  cases l.zone with
  | none => exact ⟨x, tm', hx, hf⟩
  | some z =>
    obtain ⟨off, hoff, -⟩ := exists_reverseOffset z x
    obtain ⟨r, hr, -⟩ := reverse_eq hoff
    refine ⟨r.value, tm', ?_, hf⟩
    dsimp only
    unfold Time.mktime
    rw [hx, Option.bind_eq_bind, Option.bind_some]
    dsimp only
    rw [hr]
    rfl

theorem conversion_total (h : Fields tm) (c : UInt8) :
    ∃ piece tm', conversion l c tm = some (piece, tm') ∧ Fields tm' ∧
      ∀ src, piece = .format src → composites.contains c = true ∧ Composite src := by
  unfold conversion
  by_cases hc : c = 115
  · obtain ⟨x, tm', hx, hf⟩ := mktime_total (l := l) h
    rw [if_pos hc, hx]
    exact ⟨_, _, rfl, hf, nofun⟩
  · obtain ⟨piece, hpiece, hcomp⟩ := piece_total (l := l) h c
    rw [if_neg hc, hpiece]
    exact ⟨_, _, rfl, h, hcomp⟩

/-- Formats without composite directives have an expansion. -/
def SubTotal (sub : Expander) : Prop :=
  ∀ src tm, flat .plain src = true → Fields tm → ∃ t tm', sub src tm = some (t, tm') ∧ Fields tm'

/-- Their expansions keep the fields in range. -/
def Keeps (sub : Expander) : Prop :=
  ∀ src tm t tm', flat .plain src = true → Fields tm → sub src tm = some (t, tm') → Fields tm'

theorem SubTotal.keeps (h : SubTotal sub) : Keeps sub := by
  intro src tm t tm' hflat hf ht
  obtain ⟨t1, tm1, ht1, hf1⟩ := h src tm hflat hf
  rw [ht1] at ht
  cases ht
  exact hf1

theorem directiveText_total (h : Fields tm) {c : UInt8}
    (hsub : composites.contains c = false ∨ SubTotal sub) :
    ∃ t tm', directiveText sub l c tm = some (t, tm') ∧ Fields tm' := by
  obtain ⟨piece, tm', hconv, hf, hcomp⟩ := conversion_total (l := l) h c
  unfold directiveText
  rw [hconv, Option.bind_some]
  cases piece with
  | format src =>
    obtain ⟨hc, hsrc⟩ := hcomp src rfl
    refine hsub.resolve_left (fun hno => ?_) src tm' hsrc.flat hf
    rw [hc] at hno
    cases hno
  | none | char | str => exact ⟨_, _, rfl, hf⟩

/-- Every format has an expansion, and the fields stay in range. -/
theorem expandLoop_total (mode : Mode) (format : List UInt8) (h : Fields tm)
    (hsub : flat mode format = true ∨ SubTotal sub) :
    ∃ t tm', expandLoop sub l mode format tm = some (t, tm') ∧ Fields tm' := by
  induction format generalizing mode tm with
  | nil => exact ⟨[], tm, by cases mode <;> rfl, h⟩
  | cons c format ih =>
    have hrest : flat (mode.next c) format = true ∨ SubTotal sub :=
      hsub.imp_left fun hflat => (Bool.and_eq_true_iff.1 hflat).2
    rcases byte_cases mode c with ⟨rfl, rfl⟩ | hlit | ⟨hm, hskip⟩ | hletter
    · exact ih _ h hrest
    · rw [next_literal hlit] at hrest
      obtain ⟨t, tm', ht, hf⟩ := ih _ h hrest
      rw [expandLoop_literal hlit, ht]
      exact ⟨_, _, rfl, hf⟩
    · rw [next_skipped hm hskip] at hrest
      rw [expandLoop_skipped hm hskip]
      exact ih _ h hrest
    · rw [next_letter hletter] at hrest
      have hc : composites.contains c = false ∨ SubTotal sub := by
        refine hsub.imp_left fun hflat => ?_
        have hhead := (Bool.and_eq_true_iff.1 hflat).1
        rw [decide_eq_false hletter.1, Bool.false_or, Bool.not_eq_true'] at hhead
        exact hhead
      obtain ⟨t, tm1, ht, hf⟩ := directiveText_total (l := l) h hc
      obtain ⟨t', tm', ht', hf'⟩ := ih _ hf hrest
      rw [expandLoop_letter hletter, ht, Option.bind_some, ht']
      exact ⟨_, _, rfl, hf'⟩

theorem nested_total : SubTotal (expandLoop (fun _ _ => none) l .plain) := fun src _ hflat hf =>
  expandLoop_total .plain src hf (.inl hflat)

theorem expand_total (h : Fields tm) (l : Locale) (format : List UInt8) :
    ∃ t tm', expand l format tm = some (t, tm') := by
  obtain ⟨t, tm', ht, -⟩ := expandLoop_total .plain format h (.inr nested_total)
  exact ⟨t, tm', ht⟩

/-! ## The calls -/

/-- The loop writes the expansion, as far as there is room, and is a fault at an end inside a
directive. -/
theorem loop_spec (hcall : WriterSpec call sub) {mode : Mode} {format : List UInt8} (h : Fields tm)
    (hp : p < stop) (ht : expandLoop sub l mode format tm = some (t, tm'))
    (hsub : Keeps sub) : LoopSpec call l stop mode format m p tm t tm' := by
  induction format generalizing mode m p tm t with
  | nil =>
    have hnil : expandLoop sub l mode [] tm = some ([], tm) := by cases mode <;> rfl
    rw [hnil] at ht
    cases ht
    exact loopSpec_nil mode hp
  | cons c format ih =>
    rcases byte_cases mode c with ⟨rfl, rfl⟩ | hlit | ⟨hm, hskip⟩ | hletter
    · exact ih h hp ht
    · rw [expandLoop_literal hlit] at ht
      obtain ⟨⟨t', tm2⟩, ht', hr⟩ := Option.map_eq_some_iff.1 ht
      cases hr
      refine loopSpec_append (wrote_char hp) ?_ (strftimeLoop_literal hlit) fun hlt => ih h hlt ht'
      rw [List.foldl_cons, next_literal hlit]
    · rw [expandLoop_skipped hm hskip] at ht
      have hr := ih (m := m) h hp ht
      unfold LoopSpec at hr ⊢
      rw [strftimeLoop_skipped hm hskip, List.foldl_cons, next_skipped hm hskip]
      exact hr
    · rw [expandLoop_letter hletter] at ht
      obtain ⟨⟨t1, tm1⟩, ht1, hr⟩ := Option.bind_eq_some_iff.1 ht
      obtain ⟨⟨t', tm2⟩, ht', hr⟩ := Option.map_eq_some_iff.1 hr
      cases hr
      obtain ⟨piece, tm0, hconv, hf, hcomp⟩ := conversion_total (l := l) h c
      unfold directiveText at ht1
      rw [hconv, Option.bind_some] at ht1
      obtain ⟨w, hw, hwrote⟩ := put_wrote hcall hf hp (fun src hsrc => (hcomp src hsrc).2.complete) ht1
      have hf1 : Fields tm1 := by
        cases piece with
        | format src => exact hsub src _ _ _ (hcomp src rfl).2.flat hf ht1
        | none | char | str =>
          cases ht1
          exact hf
      refine loopSpec_append hwrote ?_ (strftimeLoop_letter hletter hconv hw) fun hlt =>
        ih hf1 hlt ht'
      rw [List.foldl_cons, next_letter hletter]

/-- What a call leaves: the expansion, and a NUL behind it or in the last byte. -/
structure Left (m : Mem) (dst max : Nat) (t : List UInt8) (tm' : Tm) (w : Written) : Prop where
  wrote : Wrote m dst (dst + max) t tm' (dst + w.1, w.2)
  le : w.1 ≤ max
  nul : w.1 < max → w.2.1 (dst + w.1) = 0
  last : w.1 = max → w.2.1 (dst + (max - 1)) = 0

theorem strftimeWith_spec (dst : Nat) (m : Mem) (hcall : WriterSpec call sub) (hsub : Keeps sub)
    {max : Nat} {format : List UInt8} (hmax : 0 < max) (h : Fields tm)
    (ht : expandLoop sub l .plain format tm = some (t, tm')) :
    if ¬Incomplete format ∨ max ≤ t.length then
      ∃ w, strftimeWith call l dst max format m tm = some w ∧ Left m dst max t tm' w
    else strftimeWith call l dst max format m tm = none := by
  have hloop : LoopSpec call l (dst + max) .plain format m dst tm t tm' :=
    loop_spec hcall h (by omega) ht hsub
  have hne : ¬max = 0 := Nat.ne_of_gt hmax
  unfold LoopSpec at hloop
  by_cases hc : ¬Incomplete format ∨ max ≤ t.length
  · have hc' : format.foldl Mode.next .plain = .plain ∨ dst + max ≤ dst + t.length :=
      hc.imp not_not.1 fun hle => by omega
    rw [if_pos hc'] at hloop
    rw [if_pos hc]
    obtain ⟨⟨p, m', tm1⟩, hret, hw⟩ := hloop
    unfold strftimeWith
    rw [if_neg hne, hret]
    refine ⟨_, rfl, ?_⟩
    by_cases hlong : max ≤ t.length
    · have hp : p = dst + max := hw.long (by omega)
      have hr : p - dst = max := by omega
      dsimp only
      rw [if_pos hr.ge]
      refine ⟨⟨fun a ha => ?_, fun hshort => by omega, fun _ => ?_⟩, hr.le, fun hlt => ?_, fun _ => ?_⟩
      · rw [← hw.frame a ha]
        exact Mem.store_out (by rw [List.length_singleton]; omega)
      · dsimp only
        omega
      · dsimp only at hlt
        omega
      · dsimp only
        rw [show dst + (max - 1) = p - 1 + 0 by omega, Mem.store_in (by decide)]
        rfl
    · obtain ⟨hp, hload, htm⟩ := hw.short (by omega)
      dsimp only at hp hload htm ⊢
      have hr : p - dst = t.length := by omega
      rw [if_neg (by omega), hr]
      refine ⟨⟨fun a ha => ?_, fun _ => ⟨rfl, ?_, htm⟩, fun _ => by omega⟩, by dsimp only; omega,
        fun _ => ?_, fun hlast => ?_⟩
      · rw [← hw.frame a ha]
        exact Mem.store_out (by rw [List.length_singleton]; omega)
      · exact (Mem.load_store_out (by omega)).trans hload
      · dsimp only
        rw [show dst + t.length = p + 0 by omega, Mem.store_in (by decide)]
        rfl
      · dsimp only at hlast
        omega
  · have hc' : ¬(format.foldl Mode.next .plain = .plain ∨ dst + max ≤ dst + t.length) :=
      fun hor => hc (hor.imp (fun heq => not_not.2 heq) fun hle => by omega)
    rw [if_neg hc'] at hloop
    rw [if_neg hc]
    unfold strftimeWith
    rw [if_neg hne, hloop]
    rfl

theorem writerSpec_strftimeWith (hcall : WriterSpec call sub) (hsub : Keeps sub) :
    WriterSpec (strftimeWith call l) (expandLoop sub l .plain) := by
  intro dst max format m tm t tm' hmax hf hcomplete ht
  have hspec := strftimeWith_spec dst m hcall hsub hmax hf ht
  rw [if_pos (.inl hcomplete)] at hspec
  obtain ⟨w, hret, hleft⟩ := hspec
  exact ⟨w, hret, hleft.wrote⟩

theorem writerSpec_nested : WriterSpec (nestedStrftime l) (expandLoop (fun _ _ => none) l .plain) :=
  writerSpec_strftimeWith (fun _ _ _ _ _ _ _ _ _ _ h => nomatch h) fun _ _ _ _ _ _ h => nomatch h

/-- What `strftime` leaves, and when it is a fault. -/
theorem strftime_spec (dst : Nat) (m : Mem) {max : Nat} {format : List UInt8} (hmax : 0 < max)
    (h : Fields tm) (ht : expand l format tm = some (t, tm')) :
    if ¬Incomplete format ∨ max ≤ t.length then
      ∃ w, strftime l dst max format m tm = some w ∧ Left m dst max t tm' w
    else strftime l dst max format m tm = none :=
  strftimeWith_spec dst m writerSpec_nested nested_total.keeps hmax h ht

/-- **`strftime` is bounded by its buffer and its format, unless the format ends inside a directive
and the text in front of that leaves room.** -/
theorem strftime_bounded_iff (l : Locale) (dst max : Nat) (format : List UInt8) (m : Mem) (tm : Tm)
    (hmax : 1 ≤ max) (h : Fields tm) : (∃ w, Bounded l dst max format m tm w) ↔
      (Incomplete format → ∀ t tm', expand l format tm = some (t, tm') → max ≤ t.length) := by
  obtain ⟨t, tm', ht⟩ := expand_total h l format
  have hspec := strftime_spec dst m hmax h ht
  constructor
  · rintro ⟨w, hw⟩ hinc t1 tm1 ht1
    rw [ht] at ht1
    cases ht1
    by_contra hshort
    rw [if_neg (by rintro (hcomplete | hle); exacts [hcomplete hinc, hshort hle])] at hspec
    have hret := hw.returns
    rw [hspec] at hret
    cases hret
  · intro hc
    rw [if_pos (by
      by_cases hinc : Incomplete format
      · exact .inr (hc hinc t tm' ht)
      · exact .inl hinc)] at hspec
    obtain ⟨w, hret, hleft⟩ := hspec
    refine ⟨w, hret, hleft.le, hleft.wrote.frame, ?_, fun hlt => ?_, fun hmax' t1 tm1 ht1 => ?_⟩
    · by_cases hlt : w.1 < max
      · exact ⟨w.1, hlt, hleft.nul hlt⟩
      · have hle := hleft.le
        exact ⟨max - 1, by omega, hleft.last (by omega)⟩
    · have hroom : dst + t.length < dst + max := by
        by_contra hlong
        have hw := hleft.wrote.long (by omega)
        dsimp only at hw
        omega
      obtain ⟨hw, hload, -⟩ := hleft.wrote.short hroom
      dsimp only at hw hload
      have hr : w.1 = t.length := by omega
      refine ⟨tm', ?_, hleft.nul hlt⟩
      rw [hr, hload]
      exact ht
    · rw [ht] at ht1
      cases ht1
      by_contra hshort
      have hw := (hleft.wrote.short (by omega)).1
      dsimp only at hw
      omega

/-- New year 2000. -/
def newYear2000 : Tm := ⟨0, 0, 0, 1, 0, 100, 6, 0⟩

theorem fields_newYear2000 : Fields newYear2000 :=
  ⟨by decide, by decide, by decide, by decide, by decide, by decide, by decide, by decide⟩

/-- No zone file, and the name that `tzname` starts with. -/
def greenwich : Locale := ⟨none, text "GMT"⟩

theorem strftime_bounded_date :
    ∃ w, Bounded greenwich 0 11 (text "%F") (fun _ => 0) newYear2000 w :=
  (strftime_bounded_iff greenwich 0 11 (text "%F") (fun _ => 0) newYear2000 (by decide)
    fields_newYear2000).2 fun hinc => absurd hinc (by decide)

/-- A format that ends in `%`, and one that ends in `%E`. -/
theorem strftime_overruns : Fields newYear2000 ∧
    (¬∃ w, Bounded greenwich 0 16 (text "%") (fun _ => 0) newYear2000 w) ∧
      ¬∃ w, Bounded greenwich 0 16 (text "%H:%E") (fun _ => 0) newYear2000 w := by
  have hpercent : strftime greenwich 0 16 (text "%") (fun _ => 0) newYear2000 = none := rfl
  have hmodifier : strftime greenwich 0 16 (text "%H:%E") (fun _ => 0) newYear2000 = none := rfl
  refine ⟨fields_newYear2000, ?_, ?_⟩
  · rintro ⟨w, hw⟩
    have hret := hw.returns
    rw [hpercent] at hret
    cases hret
  · rintro ⟨w, hw⟩
    have hret := hw.returns
    rw [hmodifier] at hret
    cases hret

end Dietlibc.Time
