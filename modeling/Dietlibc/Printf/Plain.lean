import Dietlibc.Printf.Conform

/-!
# Formats without flags

A format of text, `%s` and `%d` comes down to a row of writes (`bWrites`), which hands over all of
its texts if it completes.
-/

namespace Dietlibc.Printf

open Lib

variable {o o' : Out} {args : List Arg} {tail rest t : List Char} {ts : List (List Char)}

/-! ## The loop -/

/-- The loop at a `%`. -/
theorem vPrintf_percent (tail : List Char) (args : List Arg) (o : Out) :
    vPrintf ('%' :: tail) args o =
      match innPrintf .init tail args with
      | .error e => .error (e, o)
      | .ok (ch, f, rest, as) => (convert ch f as o).bind fun p => vPrintf rest p.1 p.2 := by
  have htake : ('%' :: tail).takeWhile (· ≠ '%') = [] := by simp
  have hdrop : ('%' :: tail).dropWhile (· ≠ '%') = '%' :: tail := by simp
  rw [vPrintf]
  simp only [htake, if_true]
  split
  · rename_i hf
    rw [hdrop] at hf
    cases hf
  · rename_i c format' hf
    rw [hdrop] at hf
    obtain ⟨rfl, rfl⟩ := List.cons.inj hf
    split
    · rename_i he
      rw [he]
    · rename_i he
      rw [he]
      dsimp only
      split
      · rename_i hc
        rw [hc]
        rfl
      · rename_i hc
        rw [hc]
        rfl

/-- The loop at text in front of a `%` or the end. -/
theorem vPrintf_text (ht : ∀ c ∈ t, c ≠ '%') (hne : t ≠ []) (hrest : ∀ c ∈ rest.head?, c = '%')
    (args : List Arg) (o : Out) :
    vPrintf (t ++ rest) args o = (bWrite t o).bind fun o => vPrintf rest args o := by
  have htake : (t ++ rest).takeWhile (· ≠ '%') = t := by
    rw [List.takeWhile_append_of_pos (by simpa using ht)]
    rcases rest with - | ⟨c, rest⟩
    · simp
    · simp [hrest c rfl]
  have hdrop : (t ++ rest).dropWhile (· ≠ '%') = rest := by
    rw [List.dropWhile_append_of_pos (by simpa using ht)]
    rcases rest with - | ⟨c, rest⟩
    · simp
    · simp [hrest c rfl]
  rw [vPrintf]
  simp only [htake, if_neg hne]
  split
  · rename_i he
    rw [he]
    rfl
  · rename_i he
    rw [he]
    show _ = vPrintf rest args _
    split
    · rename_i hf
      rw [← hdrop, hf, vPrintf_nil]
    · rename_i c format' hf
      rw [hdrop] at hf
      obtain rfl : c = '%' := hrest c (by rw [hf]; rfl)
      rw [hf, vPrintf_percent]
      split
      · rename_i he
        rw [he]
      · rename_i he
        rw [he]
        dsimp only
        split
        · rename_i hc
          rw [hc]
          rfl
        · rename_i hc
          rw [hc]
          rfl

/-- The loop at one character in front of a `%` or the end. -/
theorem vPrintf_char {c : Char} (hc : c ≠ '%') (hrest : ∀ c ∈ rest.head?, c = '%')
    (args : List Arg) (o : Out) :
    vPrintf (c :: rest) args o = (bWrite [c] o).bind fun o => vPrintf rest args o := by
  have ht : ∀ x ∈ [c], x ≠ '%' := by
    intro x hx
    rwa [List.mem_singleton.mp hx]
  exact vPrintf_text ht (List.cons_ne_nil _ _) hrest args o

/-! ## Conversions -/

/-- `print_out` without a width and a precision. -/
theorem printOut_init (inSign : Bool) (c : Char) (s : List Char) (o : Out) :
    printOut .init inSign c s o = bWrite s o := if_pos ⟨rfl, rfl⟩

/-- `%s`. -/
theorem vPrintf_s (rest s : List Char) (args : List Arg) (o : Out) :
    vPrintf ('%' :: 's' :: rest) (.str s :: args) o =
      (bWrite s o).bind fun o => vPrintf rest args o := by
  have hin : innPrintf .init ('s' :: rest) (.str s :: args) =
      .ok ('s', .init, rest, .str s :: args) := innPrintf_letter rfl
  have hconv : convert 's' .init (.str s :: args) o = (bWrite s o).map fun o => (args, o) := by
    rw [← printOut_init false ' ' s o]
    rfl
  rw [vPrintf_percent, hin]
  dsimp only
  rw [hconv]
  cases bWrite s o <;> rfl

/-- What `%d` prints of a word. -/
def signedText (w : Nat) : List Char :=
  (if (readNumber .init true w).1 then ['-'] else []) ++
    ltostr 123 (readNumber .init true w).2 10 false

theorem numOut_init (neg : Bool) (digits : List Char) (o : Out) :
    numOut .init true neg [] digits o = bWrite ((if neg then ['-'] else []) ++ digits) o := by
  have hzero : ¬ (Flags.init.dot = true ∧ digits = ['0']) := fun h => by cases h.1
  unfold numOut
  dsimp only
  rw [if_neg hzero, if_neg hzero]
  cases neg
  · exact printOut_init false '0' digits o
  · exact printOut_init true '0' ('-' :: digits) o

/-- `%d`. -/
theorem vPrintf_d (rest : List Char) (w : Nat) (args : List Arg) (o : Out) :
    vPrintf ('%' :: 'd' :: rest) (.word w :: args) o =
      (bWrite (signedText w) o).bind fun o => vPrintf rest args o := by
  have hin : innPrintf .init ('d' :: rest) (.word w :: args) =
      .ok ('d', .init, rest, .word w :: args) := innPrintf_letter rfl
  have hconv : convert 'd' .init (.word w :: args) o =
      (bWrite (signedText w) o).map fun o => (args, o) := by
    rw [signedText, ← numOut_init, convert, numPrintf]
  rw [vPrintf_percent, hin]
  dsimp only
  rw [hconv]
  cases bWrite (signedText w) o <;> rfl

/-- A number below 2^31 is printed with its digits. -/
theorem signedText_small {w : Nat} (h : w < 2 ^ 31) : signedText w = numeral 10 false w := by
  have hread := readNumber_short (f := .init) (le_refl 0) (w : Int)
  have hw : ((w : Int) % 2 ^ 64).toNat = w := by omega
  have hconv : CInt.conv 32 (w : Int) = w :=
    CInt.conv_of_fits (by decide) (CInt.fits32.mpr (by omega))
  have hbits : shortBits Flags.init.long = 32 := rfl
  rw [hw, hconv, hbits] at hread
  have hneg : ¬ (w : Int) < 0 := by omega
  have hmod : w % 2 ^ 32 = w := Nat.mod_eq_of_lt (by omega)
  unfold signedText
  rw [hread]
  simp only [hneg, decide_false, Bool.false_eq_true, if_false, List.nil_append, Int.natAbs_natCast]
  rw [hmod, ltostr_eq (by decide) (by decide) (by omega)]

/-- A number from 2^31 on is printed as a negative one. -/
theorem signedText_large {w : Nat} (h : 2 ^ 31 ≤ w) (hw : w < 2 ^ 32) :
    '-' ∈ signedText w := by
  have hread := readNumber_short (f := .init) (le_refl 0) (w : Int)
  have hw' : ((w : Int) % 2 ^ 64).toNat = w := by omega
  have hconv : CInt.conv 32 (w : Int) < 0 := by
    obtain ⟨⟨j, hj⟩, hlo, hhi⟩ := conv32_spec (w : Int)
    omega
  rw [hw'] at hread
  unfold signedText
  rw [hread, if_pos (decide_eq_true hconv)]
  exact List.mem_append_left _ (List.mem_singleton_self _)

/-- A number is printed without a colon or a newline in it. -/
theorem mem_signedText {w : Nat} {c : Char} (h : c ∈ signedText w) : c = '-' ∨ c.isDigit = true := by
  unfold signedText at h
  rw [ltostr_eq (by decide) (by decide) (readNumber_lt _ _ _), List.mem_append] at h
  rcases h with h | h
  · split at h
    · exact .inl (List.mem_singleton.mp h)
    · cases h
  · right
    obtain ⟨d, hd, rfl⟩ := mem_numeral (by decide) h
    clear h
    revert d
    decide

/-! ## A row of writes -/

/-- One write after the other. -/
def bWrites : List (List Char) → Out → Except (Fault × Out) Out
  | [], o => .ok o
  | t :: ts, o => (bWrite t o).bind (bWrites ts)

theorem bWrites_cons (t : List Char) (ts : List (List Char)) (o : Out) :
    bWrites (t :: ts) o = (bWrite t o).bind (bWrites ts) := rfl

/-- Writes that complete have handed over their texts. -/
theorem bWrites_ok (h : bWrites ts o = .ok o') : o'.chunks = o.chunks ++ ts := by
  induction ts generalizing o with
  | nil =>
    cases h
    simp
  | cons t ts ih =>
    rw [bWrites_cons] at h
    unfold bWrite at h
    split at h
    · cases h
    · rw [ih h]
      simp

/-- Below 2^32 bytes the writes hand over all of their texts. -/
theorem emits_bWrites (h : o.len + ts.flatten.length < 2 ^ 32) :
    Emits (bWrites ts o) o ts.flatten := by
  induction ts generalizing o with
  | nil => exact emits_ok o
  | cons t ts ih =>
    rw [List.flatten_cons, List.length_append] at h
    rw [bWrites_cons, List.flatten_cons]
    exact (emits_bWrite (by omega)).bind fun o' hlen => ih (by rw [hlen]; omega)

/-- Below 2^32 bytes the writes complete. -/
theorem bWrites_completes (h : o.len + ts.flatten.length < 2 ^ 32) :
    ∃ o', bWrites ts o = .ok o' := by
  obtain ⟨o', ho, -, -⟩ := emits_bWrites h
  exact ⟨o', ho⟩

end Dietlibc.Printf
