import Dietlibc.Stdio.Getdelim

/-!
# `fgets` on a stream that delivers

`fgets` takes bytes from the buffer without a call of `fgetc`, but only behind one that has given a
byte, and there it takes the byte that `fgetc` would give.
-/

namespace Dietlibc.Stdio

variable {σ : Type} {d : Dev σ} {f f' : File} {s s' : σ} {bytes l : List UInt8} {c : UInt8} {k : Nat}

/-! ## Behind a byte -/

/-- Where `fgets` may take a byte from the buffer. -/
structure Open (f : File) : Prop where
  canread : f.canread = true
  ungotten : f.ungotten = false

theorem refill_open (h : refill d f s = (some c, f', s')) (hf : Open f) : Open f' := by
  unfold refill at h
  split at h
  · cases h
  · cases h
  · cases h
    exact ⟨hf.canread, hf.ungotten⟩

theorem fflush_open (hf : Open f) (s : σ) : Open (fflushUnlocked d f s).2.1 := by
  unfold fflushUnlocked
  split
  · exact ⟨hf.canread, rfl⟩
  · split
    · exact ⟨hf.canread, rfl⟩
    · dsimp only
      split
      · exact ⟨hf.canread, rfl⟩
      · exact ⟨hf.canread, hf.ungotten⟩

theorem fflush4_open {r next : Bool} (h : fflush4 d f s next = (r, f', s')) (hf : Open f) :
    Open f' := by
  unfold fflush4 at h
  split at h
  · cases h
    exact hf
  · have hflush := fflush_open (d := d) hf s
    cases h
    exact ⟨hflush.canread, hflush.ungotten⟩

/-- `fgetc` has given a byte. -/
theorem fgetc_open (h : fgetcUnlocked d f s = (some c, f', s')) : Open f' := by
  unfold fgetcUnlocked at h
  split at h
  · cases h
  rename_i hread
  rw [Bool.not_eq_true', Bool.not_eq_false] at hread
  split at h
  · cases h
    exact ⟨hread, rfl⟩
  rename_i hunget
  have hf : Open f := ⟨hread, Bool.eq_false_iff.mpr hunget⟩
  split at h
  · cases h
    exact ⟨hf.canread, hf.ungotten⟩
  split at h
  · cases h
  split at h
  · cases h
  rename_i f1 s1 hflush
  have h1 := fflush4_open hflush hf
  split at h
  · exact refill_open h h1
  · cases h
    exact ⟨h1.canread, h1.ungotten⟩

/-- The byte that is taken from the buffer is the one that `fgetc` gives. -/
theorem fgetc_fast (hf : Open f) (h : f.bm < f.bs) (s : σ) :
    fgetcUnlocked d f s = (some (f.buf f.bm), { f with bm := f.bm + 1 }, s) := by
  unfold fgetcUnlocked
  rw [hf.canread, hf.ungotten]
  exact if_pos h

/-! ## The loop -/

/-- A turn of the loop: the byte of `fgetc`, on both ways to it. -/
theorem fgetsLoop_fgetc (hl : l ≠ [] → Open f) (h : fgetcUnlocked d f s = (some c, f', s')) :
    fgetsLoop d (k + 1) l f s =
      if c = newline then (l ++ [c], false, f', s') else fgetsLoop d k (l ++ [c]) f' s' := by
  rw [fgetsLoop]
  by_cases hfast : l ≠ [] ∧ f.bm < f.bs
  · rw [fgetc_fast (hl hfast.1) hfast.2] at h
    cases h
    rw [if_pos hfast]
  · rw [if_neg hfast, h]

theorem fgetsLoop_eof (hl : l ≠ [] → Open f) (h : fgetcUnlocked d f s = (none, f', s')) :
    fgetsLoop d (k + 1) l f s = (l, true, f', s') := by
  rw [fgetsLoop]
  by_cases hfast : l ≠ [] ∧ f.bm < f.bs
  · rw [fgetc_fast (hl hfast.1) hfast.2] at h
    cases h
  · rw [if_neg hfast, h]

/-- The loop gives the line that fits. -/
theorem fgetsLoop_delivers (h : Delivers d f s bytes) (hl : l ≠ [] → Open f) :
    ∃ ended f' s', fgetsLoop d k l f s = (l ++ lineOf k bytes, ended, f', s') ∧
      (ended = true ↔ Short k bytes) ∧ Delivers d f' s' (bytes.drop (lineOf k bytes).length) := by
  induction k generalizing l f s bytes with
  | zero =>
    refine ⟨false, f, s, ?_, iff_of_false Bool.false_ne_true fun h => Nat.not_lt_zero _ h.1, h⟩
    rw [fgetsLoop, lineOf, List.append_nil]
  | succ k ih =>
    obtain ⟨f1, s1, hget, hrest⟩ := h.fgetc
    cases bytes with
    | nil =>
      refine ⟨true, f1, s1, ?_, iff_of_true rfl ⟨Nat.succ_pos k, List.not_mem_nil⟩, hrest⟩
      rw [fgetsLoop_eof hl hget, lineOf_nil, List.append_nil]
    | cons c cs =>
      rw [fgetsLoop_fgetc hl hget, lineOf]
      by_cases hc : c = newline
      · rw [if_pos hc, if_pos hc]
        refine ⟨false, f1, s1, rfl, iff_of_false Bool.false_ne_true fun h => h.2 ?_, hrest⟩
        rw [hc]
        exact List.mem_cons_self
      · rw [if_neg hc, if_neg hc]
        obtain ⟨ended, f2, s2, hloop, hend, hdel⟩ :=
          ih (l := l ++ [c]) hrest fun _ => fgetc_open hget
        refine ⟨ended, f2, s2, ?_, hend.trans ?_, hdel⟩
        · rw [hloop, List.append_assoc]
          rfl
        · unfold Short
          rw [List.tail_cons, List.length_cons, List.mem_cons, not_or]
          exact ⟨fun h => ⟨by omega, fun e => hc e.symm, h.2⟩, fun h => ⟨by omega, h.2.2⟩⟩

/-! ## A call -/

/-- At the end of the stream. -/
theorem fgets_end (size : Int) (hsize : 1 < size) (h : Delivers d f s []) :
    ∃ f' s', fgetsUnlocked d size f s = (none, f', s') ∧ Delivers d f' s' [] := by
  obtain ⟨ended, f', s', hloop, hend, hdel⟩ :=
    fgetsLoop_delivers (k := (size - 1).toNat) (l := []) h fun hne => absurd rfl hne
  have hended : ended = true := hend.mpr ⟨by simp; omega, List.not_mem_nil⟩
  refine ⟨f', s', ?_, by rwa [List.drop_nil] at hdel⟩
  unfold fgetsUnlocked
  rw [if_neg (by omega), hloop, lineOf_nil, hended]
  rfl

theorem lineOf_line {line more : List UInt8} (hn : newline ∉ line) (hk : line.length < k) :
    lineOf k (line ++ newline :: more) = line ++ [newline] := by
  induction line generalizing k with
  | nil =>
    obtain ⟨k, rfl⟩ := Nat.exists_eq_succ_of_ne_zero (Nat.ne_of_gt hk)
    rw [List.nil_append, lineOf, if_pos rfl]
    rfl
  | cons c line ih =>
    obtain ⟨k, rfl⟩ := Nat.exists_eq_succ_of_ne_zero (Nat.ne_of_gt (Nat.zero_lt_of_lt hk))
    obtain ⟨hc, hn⟩ := not_or.mp (mt List.mem_cons.mpr hn)
    rw [List.cons_append, lineOf, if_neg (Ne.symm hc), ih hn (Nat.lt_of_succ_lt_succ hk)]
    rfl

/-- **A line that fits is read whole**, its newline included. -/
theorem fgets_line (size : Int) {line more : List UInt8} (hn : newline ∉ line)
    (hfit : (line.length : Int) + 1 < size) (h : Delivers d f s (line ++ newline :: more)) :
    ∃ f' s', fgetsUnlocked d size f s = (some (line ++ [newline]), f', s') ∧
      Delivers d f' s' more := by
  obtain ⟨ended, f', s', hloop, -, hdel⟩ :=
    fgetsLoop_delivers (k := (size - 1).toNat) (l := []) h fun hne => absurd rfl hne
  rw [lineOf_line hn (by omega)] at hloop hdel
  refine ⟨f', s', ?_, ?_⟩
  · unfold fgetsUnlocked
    rw [if_neg (by omega), hloop]
    dsimp only
    rw [List.nil_append, if_neg fun hc => List.append_ne_nil_of_right_ne_nil line
      (List.cons_ne_nil newline []) hc.2]
  · have hsplit : line ++ newline :: more = (line ++ [newline]) ++ more := by simp
    rwa [hsplit, List.drop_left] at hdel

end Dietlibc.Stdio
