import Dietlibc.Stdio.Delivered

/-!
# What `fwrite` reports

`Reports`: the value that `fwrite_unlocked` returns counts the whole items among the bytes that it
has taken, and the error indicator is set if that is not all of them. `fwrite_reports_iff` says at
which exits it does so: four of them can return another number, or leave the indicator as it was.
-/

namespace Dietlibc.Stdio

open CInt

variable {σ : Type} {d : Dev σ} {f : File} {data : List UInt8} {size nmemb len k r : Nat}
  {error : Bool} {e : Exit}

/-! ## The claim -/

/-- A stream that can be written to, in any buffering mode, with bytes pending or in input
direction. -/
structure Writable (f : File) : Prop where
  canwrite : f.canwrite = true
  buflen_pos : 1 ≤ f.buflen
  buflen_lt : f.buflen < 2 ^ 32
  bm_le : f.bufinput = false → f.bm ≤ f.buflen

/-- `write(2)` does not return more than it was given. -/
def Counts (d : Dev σ) : Prop := ∀ s data n s', d.write s data = (.wrote n, s') → n ≤ data.length

/-- The bytes that wait to be written. -/
def File.held (f : File) : List UInt8 := if f.bufinput then [] else f.pending

/-- The bytes that wait come first in the program's output, those of the call behind them. -/
def heldLedger (f : File) : Ledger := ⟨List.range' 0 f.held.length, [], false⟩

/-- The ledger behind a call of `fwrite_unlocked`, and how it was left. -/
def fwriteBooks (d : Dev σ) (data : List UInt8) (size nmemb : Nat) (f : File) (s : σ) :
    Exit × Ledger :=
  fwriteLedger (accepting d) f.held.length data size nmemb f (s, []) (heldLedger f)

/-- The first `k` bytes of the data have been passed to `write(2)` with success or are pending in
the buffer, in order, and no others. -/
def Accepted (d : Dev σ) (data : List UInt8) (size nmemb : Nat) (f : File) (s : σ) (k : Nat) :
    Prop :=
  let (_, f', s') := fwriteUnlocked (accepting d) data size nmemb f (s, [])
  let g := (fwriteBooks d data size nmemb f s).2
  Booked (fun p => (f.held ++ data).getD p 0) f' s' g ∧
    ∀ i < data.length, f.held.length + i ∈ g.all ↔ i < k

/-- `fwrite_unlocked` returns the number of whole items that it has accepted, and sets the error
indicator if there are more. -/
def Reports (d : Dev σ) (data : List UInt8) (size nmemb : Nat) (f : File) (s : σ) : Prop :=
  let (r, f', _) := fwriteUnlocked (accepting d) data size nmemb f (s, [])
  r ≤ nmemb ∧ ∃ k ≤ data.length, Accepted d data size nmemb f s k ∧ r * size ≤ k ∧
    (r < nmemb → k < (r + 1) * size ∧ f'.error = true) ∧ (r = nmemb → k = data.length)

/-- Where the number returned is right, with `len` bytes to write and the indicator as it was
before. -/
def Exit.Sound (e : Exit) (size len : Nat) (error : Bool) : Prop :=
  match e with
  | .refused => error = true
  | .direct (some res) => res = len ∨ error = true
  | .copied k | .line k => k < size
  | .bytes left k => left / size = k / size
  | _ => True

/-! ## The number returned -/

/-- The arithmetic of `Reports`. -/
def Right (size nmemb len k r : Nat) (error : Bool) : Prop :=
  r ≤ nmemb ∧ r * size ≤ k ∧ (r < nmemb → k < (r + 1) * size ∧ error = true) ∧
    (r = nmemb → k = len)

/-- A number below `nmemb` that counts the whole items. -/
theorem right_iff (hs : 0 < size) (hlen : len = size * nmemb) (hk : k ≤ len) (hr : r ≤ nmemb) :
    Right size nmemb len k r error ↔ r = k / size ∧ (k < len → error = true) := by
  have hdiv := Nat.div_add_mod k size
  have hmod := Nat.mod_lt k hs
  have hcomm : k / size * size = size * (k / size) := Nat.mul_comm _ _
  constructor
  · rintro ⟨-, hle, hlt, heq⟩
    rcases Nat.lt_or_eq_of_le hr with hr | rfl
    · obtain ⟨hlt, herr⟩ := hlt hr
      exact ⟨(Nat.div_eq_of_lt_le hle hlt).symm, fun _ => herr⟩
    · obtain rfl := heq rfl
      refine ⟨?_, fun h => absurd h (lt_irrefl k)⟩
      rw [hlen, Nat.mul_div_cancel_left _ hs]
  · rintro ⟨rfl, herr⟩
    refine ⟨hr, Nat.div_mul_le_self k size, fun hlt => ⟨?_, herr ?_⟩, fun heq => ?_⟩
    · rw [Nat.add_mul, Nat.one_mul]
      omega
    · rw [hlen, Nat.mul_comm]
      exact (Nat.div_lt_iff_lt_mul hs).mp hlt
    · refine le_antisymm hk ?_
      rw [hlen, ← heq]
      exact Nat.mul_div_le k size

/-- **At every exit** the number is right exactly if the exit is sound. -/
theorem right_iff_sound {f' : File} (hs : 0 < size) (hlen : len = size * nmemb ∨ e = .refused)
    (hk : k ≤ len) (hcount : ∀ res, e = .direct (some res) → res ≤ len)
    (h : e.Leaves size nmemb len error k r f') :
    Right size nmemb len k r f'.error ↔ e.Sound size len error := by
  by_cases href : e = .refused
  · subst href
    obtain ⟨hn, rfl, rfl, rfl⟩ := h
    constructor
    · rintro ⟨-, -, hlt, -⟩
      exact (hlt (Nat.pos_of_ne_zero hn)).2
    · intro herr
      exact ⟨Nat.zero_le _, by omega, fun _ => ⟨by omega, herr⟩, fun h0 => absurd h0.symm hn⟩
  replace hlen := hlen.resolve_right href
  have hzero {error : Bool} (herr : error = true) :
      Right size nmemb len k 0 error ↔ k < size := by
    rw [right_iff hs hlen hk (Nat.zero_le _), herr]
    constructor
    · rintro ⟨h0, -⟩
      exact (Nat.div_eq_zero_iff_lt hs).mp h0.symm
    · intro hlt
      exact ⟨((Nat.div_eq_zero_iff_lt hs).mpr hlt).symm, fun _ => rfl⟩
  cases e with
  | refused => exact absurd rfl href
  | nothing =>
    obtain ⟨rfl, rfl, rfl⟩ := h
    rw [Nat.mul_zero] at hlen
    exact iff_of_true ⟨le_rfl, by omega, fun hh => absurd hh (Nat.lt_irrefl 0), fun _ => hlen.symm⟩
      trivial
  | unflushed =>
    obtain ⟨rfl, rfl, herr⟩ := h
    exact iff_of_true ((hzero herr).mpr hs) trivial
  | direct res =>
    cases res with
    | none =>
      obtain ⟨rfl, rfl, herr⟩ := h
      exact iff_of_true ((hzero herr).mpr hs) trivial
    | some res =>
      obtain ⟨rfl, rfl, rfl⟩ := h
      have hres := hcount res rfl
      rw [Nat.min_eq_left hres] at hk ⊢
      have hr : res / size ≤ nmemb := by
        rw [← Nat.mul_div_cancel_left nmemb hs, ← hlen]
        exact Nat.div_le_div_right hres
      rw [right_iff hs hlen hk hr]
      show _ ↔ res = len ∨ f'.error = true
      constructor
      · rintro ⟨-, herr⟩
        rcases Nat.lt_or_eq_of_le hres with hlt | heq
        · exact .inr (herr hlt)
        · exact .inl heq
      · rintro (heq | herr)
        · exact ⟨rfl, fun hlt => absurd heq (Nat.ne_of_lt hlt)⟩
        · exact ⟨rfl, fun _ => herr⟩
  | copied k' =>
    obtain ⟨rfl, rfl, herr⟩ := h
    exact hzero herr
  | line k' =>
    obtain ⟨rfl, rfl, herr⟩ := h
    exact hzero herr
  | bytes left k' =>
    obtain ⟨hleft, rfl, rfl, herr⟩ := h
    have hr : left / size ≤ nmemb := by
      rw [← Nat.mul_div_cancel_left nmemb hs, ← hlen]
      exact Nat.div_le_div_right hleft
    rw [right_iff hs hlen hk hr]
    exact ⟨fun hh => hh.1, fun hh => ⟨hh, fun _ => herr⟩⟩
  | done =>
    obtain ⟨rfl, rfl⟩ := h
    refine iff_of_true ⟨le_rfl, ?_, fun hh => absurd hh (lt_irrefl _), fun _ => rfl⟩ trivial
    rw [hlen, Nat.mul_comm]

/-! ## The bytes accepted -/

theorem held_ready (h : Writable f) (data : List UInt8) (s : σ) :
    Ready (fun p => (f.held ++ data).getD p 0) f (s, []) (heldLedger f) := by
  refine ⟨h.canwrite, h.buflen_pos, h.buflen_lt, fun hin => ⟨h.bm_le hin, ?_⟩, fun hin => ?_, rfl⟩
  · have hheld : f.held = f.pending := by
      rw [File.held, if_neg (by rw [hin]; exact nofun)]
    have := (at_getD (f.held ++ data)).take (n := f.held.length)
      (by rw [List.length_append]; omega)
    rw [List.take_left] at this
    exact this.trans hheld
  · have hheld : f.held = [] := if_pos hin
    rw [heldLedger, hheld]
    rfl

theorem held_at (f : File) (data : List UInt8) :
    At (fun p => (f.held ++ data).getD p 0) f.held.length data := by
  have := (at_getD (f.held ++ data)).drop f.held.length
  rwa [List.drop_left, Nat.zero_add] at this

theorem writeRetry_le (hw : Counts d) (s : σ × List (List UInt8)) {n : Nat}
    (h : (writeRetry (accepting d) data s).1 = some n) : n ≤ data.length := by
  induction hp : d.patience s.1 using Nat.strong_induction_on generalizing s with
  | _ m ih =>
    unfold writeRetry at h
    split at h
    · rename_i n' s1 hwr
      obtain rfl : n' = n := Option.some.inj h
      rw [accepting_write] at hwr
      have hcount : (d.write s.1 data).1 = .wrote n' := (Prod.mk.inj hwr).1
      exact hw s.1 data n' (d.write s.1 data).2 (by rw [← hcount])
    · cases h
    · rename_i s1 hwr
      exact ih _ (by rw [← hp]; exact (accepting d).eintr_lt s data s1 hwr) s1 h rfl

theorem fwriteRest_indirect {p n : Nat} {rest : List UInt8} {s : σ} {g g' : Ledger}
    {r : Option Nat} :
    fwriteRestLedger d p n rest f s g ≠ (.direct r, g') := by
  unfold fwriteRestLedger
  dsimp only
  split <;> exact nofun

theorem fwriteAgain_indirect {p n : Nat} {ptr : List UInt8} {s : σ} {g g' : Ledger}
    {r : Option Nat} :
    fwriteAgainLedger d p n ptr f s g ≠ (.direct r, g') := by
  induction hl : ptr.length using Nat.strong_induction_on generalizing p n ptr f s g with
  | _ m ih =>
    have hshort (todo : Nat) (h0 : todo ≠ 0) (hle : todo ≤ ptr.length) :
        (ptr.drop todo).length < m := by
      rw [List.length_drop]
      omega
    have hle := Nat.min_le_right (usub 32 f.buflen f.bm) ptr.length
    unfold fwriteAgainLedger
    revert hle
    generalize min (usub 32 f.buflen f.bm) ptr.length = todo
    intro hle
    show (if todo = 0 then _ else _) ≠ _
    by_cases h0 : todo = 0
    · rw [if_pos h0]
      exact fwriteRest_indirect
    rw [if_neg h0]
    generalize checkTty d f s = f1
    show (if f1.buflinewise = true then _ else _) ≠ _
    by_cases h1 : f1.buflinewise = true
    · rw [if_pos h1]
      generalize lineLoopLedger d p (ptr.take todo) f1 s g = q
      generalize lineLoop d (ptr.take todo) f1 s = t
      obtain ⟨k, g1⟩ := q
      obtain ⟨_ | _, f2, s2⟩ := t
      · exact nofun
      · show fwriteRestLedger d (p + todo) (n + todo) (ptr.drop todo) f2 s2 g1 ≠ _
        exact fwriteRest_indirect
    · rw [if_neg h1]
      dsimp only
      split
      · generalize fflushUnlocked d _ s = t
        obtain ⟨_ | _, f2, s2⟩ := t
        · exact nofun
        · dsimp only
          by_cases hd : (ptr.drop todo).length = 0
          · rw [if_pos hd]
            exact nofun
          · rw [if_neg hd]
            exact ih _ (hshort todo h0 hle) rfl
      · exact nofun

/-- A direct write returns a count of its data. -/
theorem direct_le (hw : Counts d) {p res : Nat} {s : σ × List (List UInt8)} {g : Ledger}
    (h : (fwriteLedger (accepting d) p data size nmemb f s g).1 = .direct (some res)) :
    res ≤ data.length := by
  unfold fwriteLedger at h
  dsimp only at h
  split at h
  · cases h
  · split at h
    · cases h
    · split at h
      · cases h
      · split at h
        · cases h
        · split at h
          · split at h
            · cases h
            · split at h
              · cases h
              · rename_i res' hres
                obtain rfl : res' = res := by
                  simpa using h
                exact writeRetry_le hw _ hres
          · exact (fwriteAgain_indirect (Prod.ext h rfl)).elim

/-- A kernel that takes nothing. -/
def broken : Dev Unit where
  read := fun _ _ => (none, ())
  write := fun _ _ => (.error, ())
  lseek := fun _ _ _ => (none, ())
  isatty := fun _ => true
  patience := fun _ => 0
  read_le := fun _ _ _ _ h => by cases h
  eintr_lt := fun _ _ _ h => by cases h

/-- A line-buffered stream with three bytes pending and room for one more. -/
def threePending : File := { stdout3 with buflen := 4, bm := 3 }

end Dietlibc.Stdio
