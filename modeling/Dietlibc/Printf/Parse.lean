import Dietlibc.Printf.Spec

/-!
# Reading a conversion specification

How `inn_printf` reads the text of a well-formed specification. The flags are taken one by one;
`0` is read as a number, which is the width when digits follow.
-/

namespace Dietlibc.Printf

open Lib

variable {f g : Flags} {ch : Char} {format rest : List Char} {args as : List Arg}

theorem innPrintf_again (h : innTurn f ch format args = .again g rest as) :
    innPrintf f (ch :: format) args = innPrintf g rest as := by
  rw [innPrintf]
  split
  · rename_i h'
    obtain ⟨rfl, rfl, rfl⟩ := Turn.again.inj (h.symm.trans h')
    rfl
  · rename_i h'
    cases h.symm.trans h'
  · rename_i h'
    cases h.symm.trans h'

theorem innPrintf_letter {c : Char} (h : innTurn f ch format args = .letter c g rest as) :
    innPrintf f (ch :: format) args = .ok (c, g, rest, as) := by
  rw [innPrintf]
  split
  · rename_i h'
    cases h.symm.trans h'
  · rename_i h'
    obtain ⟨rfl, rfl, rfl, rfl⟩ := Turn.letter.inj (h.symm.trans h')
    rfl
  · rename_i h'
    cases h.symm.trans h'

theorem innPrintf_flag (h : flagOf ch f = some g) :
    innPrintf f (ch :: format) args = innPrintf g format args := by
  apply innPrintf_again
  unfold innTurn
  rw [h]

/-! ## Flags and width -/

/-- What a flag sets. -/
def Flag.set (f : Flags) : Flag → Flags
  | .minus => { f with left := true }
  | .zero => { f with width := 0, padwith := if f.left then f.padwith else '0' }
  | .plus => { f with sign := true }
  | .space => { f with space := true }
  | .hash => { f with hash := -1, long := CInt.conv 8 (f.long - 1) }

/-- What a width sets. -/
def Width.set (f : Flags) : Width → Flags
  | .none => f
  | .digits ds => { f with width := decimal ds }
  | .star n => { f with left := f.left || decide (n < 0), width := n.natAbs }

theorem flagOf_digit (hd : ch.isDigit) : flagOf ch f = none := by
  unfold flagOf
  split <;> first | rfl | exact absurd hd (by decide)

theorem small_mod {n : Nat} (h : n ≤ maxWidth) : n % 2 ^ 32 = n ∧ n < 2 ^ 63 := by
  unfold maxWidth at h
  omega

/-- A number read by `inn_printf`. -/
theorem innTurn_digits (f : Flags) {ds : List Char} (args : List Arg) (hd : ∀ x ∈ ch :: ds, x.isDigit)
    (hr : NoDigit rest) (hv : decimal (ch :: ds) ≤ maxWidth) (hdot : f.dot = false) :
    innTurn f ch (ds ++ rest) args = .again { f with
      width := decimal (ch :: ds)
      padwith := if ch = '0' ∧ !f.left then '0' else f.padwith } rest args := by
  have hc := hd ch List.mem_cons_self
  obtain ⟨hmod, hlt⟩ := small_mod hv
  have hul := strtoul_digits hd hr (lt_trans hlt (by decide))
  rw [List.cons_append] at hul
  have hw : digitWidth f ch (ds ++ rest) = some { f with
      width := decimal (ch :: ds)
      padwith := if ch = '0' ∧ !f.left then '0' else f.padwith } := by
    unfold digitWidth
    rw [hul]
    dsimp only
    rw [hmod, if_neg]
    rw [hdot]
    simp only [Bool.false_eq_true, false_or, not_lt]
    exact hv
  unfold innTurn
  rw [flagOf_digit hc]
  dsimp only
  rw [if_pos hc, hw, hul]

theorem noDigit_cons {c : Char} (h : 10 ≤ digitVal c) (r : List Char) : NoDigit (c :: r) := by
  intro x hx
  cases hx
  exact h

/-- A narrower conversion of a word sees the argument itself. -/
theorem conv_word {w : Nat} (hw : w ≤ 64) (n : Int) :
    CInt.conv w ((n % 2 ^ 64).toNat : Int) = CInt.conv w n := by
  rw [Int.toNat_of_nonneg (Int.emod_nonneg _ (by decide))]
  unfold CInt.conv
  rw [Int.bmod_eq_bmod_iff_bmod_sub_eq_zero, ← Int.dvd_iff_bmod_eq_zero]
  have hsub : n % 2 ^ 64 - n = 2 ^ 64 * -(n / 2 ^ 64) := by
    have := Int.emod_add_mul_ediv n (2 ^ 64)
    omega
  rw [hsub]
  push_cast
  exact dvd_mul_of_dvd_left (pow_dvd_pow 2 hw) _

theorem conv_slot {n : Int} (h : CInt.Fits 32 n) :
    CInt.conv 32 ((n % 2 ^ 64).toNat : Int) = n := by
  rw [conv_word (by decide), CInt.conv_of_fits (by decide) h]

theorem starWidth_eq {n : Int} (h : -maxWidth ≤ n ∧ n ≤ maxWidth) :
    starWidth f (n % 2 ^ 64).toNat = (Width.star n).set f := by
  have hf : CInt.Fits 32 n := by rw [CInt.fits32]; unfold maxWidth at h; omega
  have hf' : CInt.Fits 32 (-n) := by rw [CInt.fits32]; unfold maxWidth at h; omega
  unfold starWidth
  simp only [conv_slot hf, CInt.conv_of_fits (by decide) hf', Width.set]
  split
  · rename_i hn
    have hw : (-n % 2 ^ 32).toNat = n.natAbs := by unfold maxWidth at h; omega
    rw [hw]
    simp [hn]
  · rename_i hn
    have hw : n.toNat = n.natAbs := by omega
    rw [hw]
    simp [hn]

theorem innPrintf_star {w : Nat} (h : (starWidth f w).width ≤ maxWidth) :
    innPrintf f ('*' :: format) (.word w :: args) = innPrintf (starWidth f w) format args := by
  apply innPrintf_again
  unfold innTurn
  rw [show flagOf '*' f = none from rfl]
  dsimp only
  rw [if_neg (by decide), if_pos rfl, if_neg (Nat.not_lt_of_le h)]

/-- A width, behind the flags. -/
theorem innPrintf_width {w : Width} (hw : w.Ok) (hr : NoDigit rest) (hdot : f.dot = false) :
    innPrintf f (w.chars ++ rest) (w.args ++ args) = innPrintf (w.set f) rest args := by
  cases w with
  | none => rfl
  | digits ds =>
    obtain ⟨hne, hd, h0, hv⟩ := hw
    cases ds with
    | nil => exact absurd rfl hne
    | cons c ds =>
      have hc : c ≠ '0' := fun e => h0 (by rw [e]; rfl)
      have ht := innTurn_digits f args hd hr hv hdot
      rw [show (if c = '0' ∧ (!f.left) = true then '0' else f.padwith) = f.padwith from
        if_neg fun h => hc h.1] at ht
      exact innPrintf_again ht
  | star n =>
    have he := starWidth_eq (f := f) hw
    have hle : (starWidth f (n % 2 ^ 64).toNat).width ≤ maxWidth := by
      rw [he]
      obtain ⟨h1, h2⟩ := hw
      simp only [Width.set]
      omega
    show innPrintf f ('*' :: rest) (.word _ :: args) = _
    rw [innPrintf_star hle, he]

theorem flag_noDigit {fl : Flag} (h : fl ≠ .zero) (r : List Char) : NoDigit (fl.char :: r) := by
  apply noDigit_cons
  cases fl
  case zero => exact absurd rfl h
  all_goals decide

/-- The flag `0` and whatever number it starts. -/
theorem innPrintf_zero {w : Width} {fs : List Flag} (hw : w.Ok) (hr : NoDigit rest)
    (hz : Flag.zero ∉ fs) (hdot : f.dot = false)
    (ih : ∀ g : Flags, g.dot = false → innPrintf g (fs.map Flag.char ++ (w.chars ++ rest))
      (w.args ++ args) = innPrintf (w.set (fs.foldl Flag.set g)) rest args) :
    innPrintf f ('0' :: (fs.map Flag.char ++ (w.chars ++ rest))) (w.args ++ args) =
      innPrintf (w.set (fs.foldl Flag.set (Flag.set f .zero))) rest args := by
  have hpad : (if '0' = '0' ∧ (!f.left) = true then '0' else f.padwith) =
      if f.left then f.padwith else '0' := by
    cases f.left <;> simp
  -- the number is `0` alone, unless digits follow
  have hzero : ∀ r as, NoDigit r → innPrintf f ('0' :: r) as = innPrintf (Flag.set f .zero) r as := by
    intro r as hr'
    have hd : ∀ x ∈ ['0'], x.isDigit := by simp
    have ht := innTurn_digits f as hd hr' (by decide) hdot
    rw [hpad] at ht
    exact innPrintf_again ht
  cases fs with
  | cons fl fs =>
    rw [List.map_cons, List.cons_append, hzero _ _ (flag_noDigit (fun e => hz (by simp [e])) _)]
    exact ih _ hdot
  | nil =>
    simp only [List.map_nil, List.nil_append, List.foldl_nil] at ih ⊢
    cases w with
    | none => exact hzero rest args hr
    | star n =>
      rw [show Width.chars (.star n) ++ rest = '*' :: rest from rfl,
        hzero _ _ (noDigit_cons (by decide) rest)]
      exact ih _ hdot
    | digits ds =>
      obtain ⟨hne, hd, h0, hv⟩ := hw
      have hdec : decimal ('0' :: ds) = decimal ds := rfl
      have hd0 : ∀ x ∈ '0' :: ds, x.isDigit := by simpa using hd
      have ht := innTurn_digits f args hd0 hr (by rw [hdec]; exact hv) hdot
      rw [hpad, hdec] at ht
      exact innPrintf_again ht

/-- The flags, in any order, and the width. -/
theorem innPrintf_flags (args : List Arg) {w : Width} {fs : List Flag} (hw : w.Ok)
    (hr : NoDigit rest) (hn : fs.Nodup) (hdot : f.dot = false) :
    innPrintf f (fs.map Flag.char ++ (w.chars ++ rest)) (w.args ++ args) =
      innPrintf (w.set (fs.foldl Flag.set f)) rest args := by
  induction fs generalizing f with
  | nil => exact innPrintf_width hw hr hdot
  | cons fl fs ih =>
    obtain ⟨hfl, hfs⟩ := List.nodup_cons.mp hn
    rw [List.map_cons, List.cons_append, List.foldl_cons]
    cases fl with
    | zero => exact innPrintf_zero hw hr hfl hdot fun g hg => ih hfs hg
    | minus => rw [innPrintf_flag rfl]; exact ih hfs hdot
    | plus => rw [innPrintf_flag rfl]; exact ih hfs hdot
    | space => rw [innPrintf_flag rfl]; exact ih hfs hdot
    | hash => rw [innPrintf_flag rfl]; exact ih hfs hdot

/-! ## Precision, length modifier and conversion -/

/-- What a precision sets. -/
def Prec.set (f : Flags) : Prec → Flags
  | .none => f
  | .digits ds => { f with dot := true, preci := decimal ds }
  | .star n => { f with dot := true, preci := n.toNat }

def Len.num : Len → Int
  | .none => 0
  | .hh => -2
  | .h => -1
  | .l => 1
  | .ll => 2

/-- The text behind a precision starts with a letter. -/
def tailOf (m : Len) (c : Conv) : List Char := m.chars ++ [c.char]

theorem tailOf_head (m : Len) (c : Conv) : ∀ x, (tailOf m c).head? = some x →
    10 ≤ digitVal x ∧ isspace x = false ∧ x ≠ '-' ∧ x ≠ '+' ∧ x ≠ '*' := by
  cases m <;> cases c <;> intro x hx <;> cases hx <;> decide

theorem innTurn_dot : innTurn f '.' format args = preciTurn f format args := by
  unfold innTurn
  rw [show flagOf '.' f = none from rfl]
  dsimp only
  rw [if_neg (by decide), if_neg (by decide), if_pos rfl]

theorem preciTurn_digits (args : List Arg) (h : ∀ x, format.head? = some x → x ≠ '*')
    (hd : digitPreci f format = some g) :
    preciTurn f format args = .again g (strtol format 10).2 args := by
  unfold preciTurn
  split
  · exact absurd rfl (h '*' rfl)
  · rw [hd]

theorem preciTurn_star {w : Nat} (h : (starPreci f w).preci ≤ maxWidth) :
    preciTurn f ('*' :: format) (.word w :: args) = .again (starPreci f w) format args := by
  unfold preciTurn
  split
  · rename_i he
    cases he
    exact if_neg (Nat.not_lt_of_le h)
  · rename_i hne
    exact absurd rfl (hne format)

theorem starPreci_eq {n : Int} (h : -2 ^ 31 ≤ n ∧ n ≤ maxWidth) :
    starPreci f (n % 2 ^ 64).toNat = (Prec.star n).set f := by
  have hf : CInt.Fits 32 n := by rw [CInt.fits32]; unfold maxWidth at h; omega
  unfold starPreci
  simp only [conv_slot hf, Prec.set]
  split
  · rw [Int.toNat_of_nonpos (by omega)]
  · rfl

theorem innPrintf_prec (f : Flags) (args : List Arg) {p : Prec} (hp : p.Ok) (m : Len) (c : Conv) :
    innPrintf f (p.chars ++ tailOf m c) (p.args ++ args) = innPrintf (p.set f) (tailOf m c) args := by
  cases p with
  | none => rfl
  | digits ds =>
    obtain ⟨hd, hv⟩ := hp
    obtain ⟨hmod, hlt⟩ := small_mod hv
    have hl := strtol_digits hd (fun x hx => (tailOf_head m c x hx).1)
      (fun x hx => ⟨(tailOf_head m c x hx).2.1, (tailOf_head m c x hx).2.2.1,
        (tailOf_head m c x hx).2.2.2.1⟩) hlt
    have hp : digitPreci f (ds ++ tailOf m c) = some ((Prec.digits ds).set f) := by
      unfold digitPreci
      rw [hl]
      dsimp only
      have hnn : ¬ (decimal ds : Int) < 0 := by omega
      rw [if_neg hnn, Int.toNat_natCast, hmod, if_neg (Nat.not_lt_of_le hv)]
      rfl
    have hstar : ∀ x, (ds ++ tailOf m c).head? = some x → x ≠ '*' := by
      intro x hx
      cases ds with
      | nil => exact (tailOf_head m c x hx).2.2.2.2
      | cons d ds =>
        cases hx
        rintro rfl
        exact absurd (hd '*' List.mem_cons_self) (by decide)
    have ht := preciTurn_digits args hstar hp
    rw [hl] at ht
    exact innPrintf_again (innTurn_dot.trans ht)
  | star n =>
    have he := starPreci_eq (f := f) hp
    have hle : (starPreci f (n % 2 ^ 64).toNat).preci ≤ maxWidth := by
      rw [he]
      obtain ⟨h1, h2⟩ := hp
      simp only [Prec.set]
      omega
    show innPrintf f ('.' :: '*' :: tailOf m c) (.word _ :: args) = _
    rw [innPrintf_again (innTurn_dot.trans (preciTurn_star hle)), he]

theorem conv8 {x : Int} (h : -128 ≤ x ∧ x ≤ 127) : CInt.conv 8 x = x :=
  CInt.conv_of_fits (by decide) (by unfold CInt.Fits; omega)

theorem innPrintf_conv (c : Conv) : innPrintf f [c.char] args = .ok (c.char, f, [], args) := by
  apply innPrintf_letter
  cases c <;> rfl

theorem innPrintf_tail (args : List Arg) (hl : -1 ≤ f.long ∧ f.long ≤ 0) (m : Len) (c : Conv) :
    innPrintf f (tailOf m c) args = .ok (c.char, { f with long := f.long + m.num }, [], args) := by
  cases m with
  | none => rw [show tailOf .none c = [c.char] from rfl, innPrintf_conv]; simp [Len.num]
  | hh =>
    rw [show tailOf .hh c = 'h' :: 'h' :: [c.char] from rfl, innPrintf_flag rfl,
      innPrintf_flag rfl, innPrintf_conv]
    simp only [Len.num]
    rw [conv8 (by omega : -128 ≤ f.long - 1 ∧ f.long - 1 ≤ 127), conv8 (by omega),
      show f.long - 1 - 1 = f.long + -2 by omega]
  | h =>
    rw [show tailOf .h c = 'h' :: [c.char] from rfl, innPrintf_flag rfl, innPrintf_conv]
    simp only [Len.num]
    rw [conv8 (by omega)]
    rfl
  | l =>
    rw [show tailOf .l c = 'l' :: [c.char] from rfl, innPrintf_flag rfl, innPrintf_conv]
    simp only [Len.num]
    rw [conv8 (by omega)]
  | ll =>
    rw [show tailOf .ll c = 'l' :: 'l' :: [c.char] from rfl, innPrintf_flag rfl,
      innPrintf_flag rfl, innPrintf_conv]
    simp only [Len.num]
    rw [conv8 (by omega : -128 ≤ f.long + 1 ∧ f.long + 1 ≤ 127), conv8 (by omega),
      show f.long + 1 + 1 = f.long + 2 by omega]

/-! ## The whole specification -/

/-- The flag `0` counts for the code where no `-` precedes it. -/
def padZero : List Flag → Bool
  | [] => false
  | .minus :: _ => false
  | .zero :: _ => true
  | _ :: fs => padZero fs

/-- The flag `#`. -/
def Spec.alt (s : Spec) : Bool := Flag.hash ∈ s.flags

def Prec.given : Prec → Bool
  | .none => false
  | _ => true

/-- The precision as the code has it: 0 for a negative argument. -/
def Prec.read : Prec → Nat
  | .none => 0
  | .digits ds => decimal ds
  | .star n => n.toNat

/-- The variables after the specification was read. -/
def Spec.read (s : Spec) : Flags where
  padwith := if padZero s.flags then '0' else ' '
  hash := if s.alt then -1 else 0
  left := s.left
  space := Flag.space ∈ s.flags
  sign := Flag.plus ∈ s.flags
  dot := s.prec.given
  long := (if s.alt then -1 else 0) + s.len.num
  width := s.width.value
  preci := s.prec.read

theorem foldl_set {fs : List Flag} (hn : fs.Nodup) (hw : f.width = 0)
    (hl : f.long = 0 ∨ Flag.hash ∉ fs) :
    fs.foldl Flag.set f = { f with
      padwith := if f.left then f.padwith else if padZero fs then '0' else f.padwith
      hash := if Flag.hash ∈ fs then -1 else f.hash
      left := f.left || decide (Flag.minus ∈ fs)
      space := f.space || decide (Flag.space ∈ fs)
      sign := f.sign || decide (Flag.plus ∈ fs)
      long := if Flag.hash ∈ fs then -1 else f.long } := by
  induction fs generalizing f with
  | nil => simp [padZero]
  | cons fl fs ih =>
    obtain ⟨hfl, hfs⟩ := List.nodup_cons.mp hn
    have hl' : f.long = 0 ∨ Flag.hash ∉ fs := hl.imp id fun h hm => h (List.mem_cons_of_mem _ hm)
    rw [List.foldl_cons]
    cases fl with
    | minus =>
      rw [ih (f := Flag.set f .minus) hfs hw hl']
      simp [Flag.set, padZero]
    | zero =>
      rw [ih (f := Flag.set f .zero) hfs rfl hl']
      cases hleft : f.left <;> simp [Flag.set, padZero, hw, hleft]
    | plus =>
      rw [ih (f := Flag.set f .plus) hfs hw hl']
      simp only [Flag.set, List.mem_cons, reduceCtorEq, false_or, true_or, decide_true,
        Bool.true_or, Bool.or_true]
      rfl
    | space =>
      rw [ih (f := Flag.set f .space) hfs hw hl']
      simp only [Flag.set, List.mem_cons, reduceCtorEq, false_or, true_or, decide_true,
        Bool.true_or, Bool.or_true]
      rfl
    | hash =>
      have h0 : f.long = 0 := hl.resolve_right fun h => h List.mem_cons_self
      have h8 : CInt.conv 8 (f.long - 1) = -1 := by rw [h0]; exact conv8 (by decide)
      rw [ih (f := Flag.set f .hash) hfs hw (.inr hfl)]
      simp only [Flag.set, hfl, h8, List.mem_cons, reduceCtorEq, false_or, true_or, if_true,
        if_false]
      rfl

/-- **The specification is read as written**, but for `#`, which also counts as an `h`. -/
theorem innPrintf_spec {s : Spec} (hs : s.Ok) (v : Int) :
    innPrintf .init s.format.tail (s.args v) = .ok (s.conv.char, s.read, [], [slot v]) := by
  have hfold := foldl_set (f := .init) hs.flags rfl (.inl rfl)
  have hnd : NoDigit (s.prec.chars ++ tailOf s.len s.conv) := by
    cases s.prec with
    | none => exact fun x hx => (tailOf_head _ _ x hx).1
    | digits ds => exact noDigit_cons (by decide) _
    | star n => exact noDigit_cons (by decide) _
  have hlong : ∀ g : Flags, (s.prec.set (s.width.set g)).long = g.long := by
    intro g
    cases s.prec <;> cases s.width <;> rfl
  have h1 := innPrintf_flags (s.prec.args ++ [slot v]) hs.width hnd hs.flags
    (show Flags.init.dot = false from rfl)
  have h2 := innPrintf_prec (s.width.set (s.flags.foldl Flag.set .init)) [slot v] hs.prec s.len
    s.conv
  have h3 := innPrintf_tail (f := s.prec.set (s.width.set (s.flags.foldl Flag.set .init)))
    [slot v] (by rw [hlong, hfold]; simp only [Flags.init]; split <;> decide) s.len s.conv
  have hargs : s.args v = s.width.args ++ (s.prec.args ++ [slot v]) := by
    unfold Spec.args
    rw [List.append_assoc]
  rw [hargs]
  refine (h1.trans (h2.trans h3)).trans ?_
  rw [hlong, hfold]
  obtain ⟨fs, w, p, m, c⟩ := s
  cases w <;> cases p <;>
    simp [Spec.read, Spec.left, Spec.alt, Flags.init, Width.set, Prec.set, Width.value, Prec.read,
      Prec.given]

end Dietlibc.Printf
