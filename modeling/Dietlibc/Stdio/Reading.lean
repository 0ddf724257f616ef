import Dietlibc.Stdio.Regular

/-!
# Input from a regular file

`Held f s` says that the buffer of `f` holds the bytes in front of the offset of the file, and
`ahead f s` is what input gives next. `Moved f s f' s' n` is the contract of the input
functions: `n` bytes of what was ahead, or all if there are fewer, have been passed. It composes,
and `fgetc`, `fgets` and, from a safe state, `fread` satisfy it.
-/

namespace Dietlibc.Stdio

open CInt

variable {f f' f'' : File} {s s' s'' : Regular} {m : Plain} {n n' : Nat}

/-! ## Passing bytes of the unbuffered model -/

theorem Plain.next_skip (m : Plain) (n : Nat) : (m.skip n).next = m.next.drop n := by
  unfold Plain.next Plain.skip
  dsimp only
  rw [List.drop_append, List.drop_drop]
  congr 1
  by_cases h : m.bytes.length ≤ m.pos
  · rw [List.drop_eq_nil_of_le (by omega), List.drop_eq_nil_of_le (by omega)]
  · by_cases hn : n - m.pushed.length ≤ m.bytes.length - m.pos
    · rw [Nat.min_eq_left hn]
    · rw [List.drop_eq_nil_of_le (by omega), List.drop_eq_nil_of_le (by omega)]

theorem Plain.tell_skip (m : Plain) (n : Nat) :
    (m.skip n).tell = m.tell + (m.next.take n).length := by
  unfold Plain.next Plain.skip Plain.tell
  simp only [List.length_take, List.length_append, List.length_drop]
  omega

/-! ## The buffer -/

/-- A stream for update with a buffer, on no pipe. -/
structure Steady (f : File) : Prop where
  canread : f.canread = true
  canwrite : f.canwrite = true
  fdpipe : f.fdpipe = false
  nobuf : f.nobuf = false
  buflen_pos : 1 ≤ f.buflen
  buflen_lt : f.buflen < 2 ^ 31

/-- Where in the file the next byte of the buffer comes from. -/
def place (f : File) (s : Regular) : Nat := s.off - (f.bs - f.bm)

/-- What input gives next. -/
def ahead (f : File) (s : Regular) : List UInt8 :=
  (if f.ungotten then [f.ungetbuf] else []) ++ s.bytes.drop (place f s)

/-- The position in the file that the stream stands for. -/
def tellOf (f : File) (s : Regular) : Int := place f s - if f.ungotten then 1 else 0

/-- The buffer holds the bytes in front of the offset. -/
structure Filled (f : File) (s : Regular) : Prop where
  steady : Steady f
  bm_le : f.bm ≤ f.bs
  bs_le : f.bs ≤ f.buflen
  bs_off : f.bs ≤ s.off
  bytes : ∀ i < f.bs, s.bytes[s.off - f.bs + i]? = some (f.buf i)
  eof : f.eof = true → f.bm = f.bs ∧ s.bytes.length ≤ s.off ∧ f.ungotten = false

/-- In output direction nothing is held. -/
structure Held (f : File) (s : Regular) : Prop extends Filled f s where
  dir : f.bufinput = false → f.bs = 0

/-- `n` bytes of what was ahead have been passed, or all if there are fewer. -/
structure Moved (f : File) (s : Regular) (f' : File) (s' : Regular) (n : Nat) : Prop where
  held : Held f' s'
  bytes : s'.bytes = s.bytes
  rest : ahead f' s' = (ahead f s).drop n
  told : tellOf f' s' = tellOf f s + ((ahead f s).take n).length
  taken : 0 < n ∨ f.ungotten = false → f'.ungotten = false

theorem Moved.refl (h : Held f s) : Moved f s f s 0 :=
  ⟨h, rfl, rfl, by simp, fun h => h.resolve_left (Nat.lt_irrefl 0)⟩

theorem Moved.trans (h : Moved f s f' s' n) (h' : Moved f' s' f'' s'' n') :
    Moved f s f'' s'' (n + n') := by
  refine ⟨h'.held, h'.bytes.trans h.bytes, ?_, ?_, fun hn => ?_⟩
  · rw [h'.rest, h.rest, List.drop_drop]
  · rw [h'.told, h.told, h.rest]
    simp only [List.length_take, List.length_drop]
    omega
  · by_cases h0 : 0 < n'
    · exact h'.taken (.inl h0)
    · exact h'.taken (.inr (h.taken (hn.imp_left fun hn => by omega)))

/-- At the end of the file any number of bytes is passed. -/
theorem Moved.of_nil (h : Moved f s f' s' n') (ha : ahead f s = []) (hu : f'.ungotten = false) :
    Moved f s f' s' n := by
  refine ⟨h.held, h.bytes, ?_, ?_, fun _ => hu⟩
  · rw [h.rest, ha, List.drop_nil, List.drop_nil]
  · rw [h.told, ha, List.take_nil, List.take_nil]

/-- Bytes of the buffer are bytes of the file. -/
theorem Filled.load (h : Filled f s) (hn : n ≤ f.bs - f.bm) :
    f.buf.load f.bm n = (s.bytes.drop (place f s)).take n := by
  have hle := h.bm_le
  have hoff := h.bs_off
  apply List.ext_getElem?
  intro i
  rw [List.getElem?_take]
  by_cases hi : i < n
  · rw [Mem.getElem?_load hi, if_pos hi, List.getElem?_drop, ← h.bytes _ (by omega)]
    congr 1
    unfold place
    omega
  · rw [if_neg hi, List.getElem?_eq_none (by simp; omega)]

theorem Filled.ahead_eq (hu : f.ungotten = false) : ahead f s = s.bytes.drop (place f s) := by
  rw [ahead, hu]
  rfl

theorem Filled.place_empty (h : f.bm = f.bs) : place f s = s.off := by
  unfold place
  omega

/-- The bytes of the buffer are ahead. -/
theorem Filled.length_ahead (h : Filled f s) (hu : f.ungotten = false) (hn : n ≤ f.bs - f.bm) :
    ((ahead f s).take n).length = n := by
  rw [Filled.ahead_eq hu, ← h.load hn, Mem.length_load]

/-- The buffer with `n` of its bytes taken. -/
theorem Filled.take (h : Filled f s) (hu : f.ungotten = false) (hn : n ≤ f.bs - f.bm)
    (hd : f.bufinput = false → f.bs = 0) : Moved f s { f with bm := f.bm + n } s n := by
  have hle := h.bm_le
  have hoff := h.bs_off
  have hplace : place { f with bm := f.bm + n } s = place f s + n := by
    unfold place
    dsimp only
    omega
  refine ⟨⟨⟨⟨h.steady.canread, h.steady.canwrite, h.steady.fdpipe, h.steady.nobuf,
    h.steady.buflen_pos, h.steady.buflen_lt⟩, ?_, h.bs_le, h.bs_off, h.bytes, fun he => ?_⟩, hd⟩,
    rfl, ?_, ?_, fun _ => hu⟩
  · show f.bm + n ≤ f.bs
    omega
  · obtain ⟨hb, hlen, -⟩ := h.eof he
    exact ⟨by show f.bm + n = f.bs; omega, hlen, hu⟩
  · rw [Filled.ahead_eq (f := { f with bm := f.bm + n }) hu, Filled.ahead_eq hu, hplace,
      List.drop_drop]
  · rw [tellOf, tellOf, hplace, h.length_ahead hu hn]
    simp only [hu]
    push_cast
    omega

/-- The stream and the file behind a read into the empty buffer. -/
def filledFile (f : File) (s : Regular) : File :=
  let bs := (s.bytes.drop s.off).take f.buflen
  { f with buf := f.buf.store 0 bs, bm := 0, bs := bs.length }

def filledRegular (f : File) (s : Regular) : Regular :=
  { s with off := s.off + ((s.bytes.drop s.off).take f.buflen).length }

/-- Reading into the empty buffer changes nothing of what is ahead. -/
theorem Filled.fill (h : Filled f s) (hu : f.ungotten = false) (hb : f.bm = f.bs)
    (he : f.eof = true → s.bytes.drop s.off = []) : Filled (filledFile f s) (filledRegular f s) ∧
      ahead (filledFile f s) (filledRegular f s) = ahead f s ∧
      tellOf (filledFile f s) (filledRegular f s) = tellOf f s := by
  have hpl : place (filledFile f s) (filledRegular f s) = place f s := by
    rw [Filled.place_empty hb]
    simp only [place, filledFile, filledRegular]
    omega
  refine ⟨⟨⟨h.steady.canread, h.steady.canwrite, h.steady.fdpipe, h.steady.nobuf,
    h.steady.buflen_pos, h.steady.buflen_lt⟩, Nat.zero_le _, List.length_take_le _ _, ?_, ?_,
    fun hf => ?_⟩, ?_, ?_⟩
  · simp only [filledFile, filledRegular]
    omega
  · intro i hi
    simp only [filledFile, filledRegular] at hi ⊢
    generalize hbs : (s.bytes.drop s.off).take f.buflen = bs at hi ⊢
    rw [show s.off + bs.length - bs.length + i = s.off + i by omega]
    have hstore := Mem.store_in (m := f.buf) (a := 0) hi
    rw [Nat.zero_add] at hstore
    rw [hstore, List.getD_eq_getElem?_getD, List.getElem?_eq_getElem hi, Option.getD_some,
      ← List.getElem?_eq_getElem hi, ← hbs, List.getElem?_take, List.getElem?_drop]
    rw [← hbs, List.length_take] at hi
    rw [if_pos (by omega)]
  · have hnil := he hf
    obtain ⟨-, hlen, -⟩ := h.eof hf
    simp only [filledFile, filledRegular, hnil, List.take_nil, List.length_nil]
    exact ⟨trivial, hlen, hu⟩
  · rw [Filled.ahead_eq (f := filledFile f s) hu, Filled.ahead_eq hu, hpl]
    rfl
  · rw [tellOf, tellOf, hpl]
    rfl

theorem ahead_nil (hu : f.ungotten = false) (hb : f.bm = f.bs) :
    ahead f s = [] ↔ s.bytes.length ≤ s.off := by
  rw [Filled.ahead_eq hu, Filled.place_empty hb, List.drop_eq_nil_iff]

/-- Input that finds the end of the file sets the indicator. -/
theorem Held.atEof (h : Held f s) (hu : f.ungotten = false) (hb : f.bm = f.bs)
    (ha : ahead f s = []) : Moved f s { f with eof := true } s n := by
  have hmoved : Moved f s { f with eof := true } s 0 := by
    refine ⟨⟨⟨⟨h.steady.canread, h.steady.canwrite, h.steady.fdpipe, h.steady.nobuf,
      h.steady.buflen_pos, h.steady.buflen_lt⟩, h.bm_le, h.bs_le, h.bs_off, h.bytes, fun _ =>
        ⟨hb, (ahead_nil hu hb).mp ha, hu⟩⟩, h.dir⟩, rfl, ?_, ?_, fun _ => hu⟩
    · rw [List.drop_zero]
      rfl
    · rw [List.take_zero]
      simp [tellOf, place]
  exact hmoved.of_nil ha hu

/-- `fgetc_unlocked` turns an empty buffer to input. -/
theorem fflush4_input (h : Held f s) (hu : f.ungotten = false) (hb : f.bm = f.bs) :
    ∃ f', fflush4 regular f s true = (true, f', s) ∧ Moved f s f' s 0 ∧ f'.bufinput = true ∧
      f'.bm = f'.bs ∧ f'.eof = f.eof := by
  unfold fflush4
  cases hd : f.bufinput with
  | true => exact ⟨f, rfl, .refl h, hd, hb, rfl⟩
  | false =>
    have hbs := h.dir hd
    have hbm : f.bm = 0 := hb.trans hbs
    have hflush : fflushUnlocked regular f s = (true, { f with ungotten := false }, s) := by
      unfold fflushUnlocked
      rw [if_neg (by simp [hd]), if_pos hbm]
    rw [if_neg nofun, hflush]
    refine ⟨_, rfl, ⟨⟨⟨⟨h.steady.canread, h.steady.canwrite, h.steady.fdpipe, h.steady.nobuf,
      h.steady.buflen_pos, h.steady.buflen_lt⟩, h.bm_le, h.bs_le, h.bs_off, h.bytes, fun he => ?_⟩,
        nofun⟩, rfl, ?_, ?_, fun _ => rfl⟩, rfl, hb, rfl⟩
    · obtain ⟨-, hlen, -⟩ := h.eof he
      exact ⟨hb, hlen, rfl⟩
    · rw [List.drop_zero, ahead, ahead, hu]
      rfl
    · rw [List.take_zero, tellOf, tellOf, hu]
      simp [place]

/-- Reading into the buffer and taking the first byte. -/
theorem refill_spec (h : Held f s) (hu : f.ungotten = false) (hb : f.bm = f.bs)
    (hd : f.bufinput = true) (he : f.eof = false) :
    ∃ f' s', refill regular f s = ((ahead f s).head?, f', s') ∧ Moved f s f' s' 1 := by
  have hpos := h.steady.buflen_pos
  have hahead := Filled.ahead_eq (s := s) hu
  rw [Filled.place_empty hb] at hahead
  have hread : regular.read s f.buflen =
      (some ((s.bytes.drop s.off).take f.buflen), filledRegular f s) := rfl
  by_cases hnil : s.bytes.drop s.off = []
  · have hsame : filledRegular f s = s := by
      unfold filledRegular
      rw [hnil, List.take_nil]
      rfl
    rw [hnil, List.take_nil, hsame] at hread
    rw [hnil] at hahead
    unfold refill
    rw [hread, hahead]
    exact ⟨_, s, rfl, h.atEof hu hb hahead⟩
  · obtain ⟨hfill, hfahead, hftell⟩ := h.fill hu hb fun e => by rw [he] at e; cases e
    obtain ⟨c, cs, hbs⟩ := List.exists_cons_of_ne_nil hnil
    have htake : (s.bytes.drop s.off).take f.buflen = c :: cs.take (f.buflen - 1) := by
      rw [hbs, List.take_cons (by omega)]
    have hmoved := hfill.take hu (n := 1)
      (by simp only [filledFile, htake, List.length_cons]; omega)
      (fun e => by rw [show (filledFile f s).bufinput = f.bufinput from rfl, hd] at e; cases e)
    have hnew : refill regular f s = (some c,
        { filledFile f s with bm := (filledFile f s).bm + 1 }, filledRegular f s) := by
      unfold refill
      rw [hread, htake]
      simp only [filledFile, htake]
      rw [show (f.buf.store 0 (c :: cs.take (f.buflen - 1))) 0 = c by simp [Mem.store]]
    refine ⟨_, _, by rw [hnew, hahead, hbs]; rfl, hmoved.held, hmoved.bytes, ?_, ?_, hmoved.taken⟩
    · rw [hmoved.rest, hfahead]
    · rw [hmoved.told, hftell, hfahead]

/-- The byte pushed back is the next one. -/
theorem Held.take_ungotten (h : Held f s) (hu : f.ungotten = true) :
    Moved f s { f with ungotten := false } s 1 := by
  refine ⟨⟨⟨⟨h.steady.canread, h.steady.canwrite, h.steady.fdpipe, h.steady.nobuf,
    h.steady.buflen_pos, h.steady.buflen_lt⟩, h.bm_le, h.bs_le, h.bs_off, h.bytes, fun he => ?_⟩,
      h.dir⟩, rfl, ?_, ?_, fun _ => rfl⟩
  · obtain ⟨hb, hlen, -⟩ := h.eof he
    exact ⟨hb, hlen, rfl⟩
  · simp [ahead, place, hu]
  · simp [tellOf, ahead, place, hu]

theorem ahead_ungotten (hu : f.ungotten = true) :
    ahead f s = f.ungetbuf :: s.bytes.drop (place f s) := by
  rw [ahead, hu]
  rfl

theorem Filled.head (h : Filled f s) (hu : f.ungotten = false) (hlt : f.bm < f.bs) :
    (ahead f s).head? = some (f.buf f.bm) := by
  have hload := h.load (n := 1) (by omega)
  have hhead := congrArg List.head? hload
  rw [Filled.ahead_eq hu]
  cases hdrop : s.bytes.drop (place f s) with
  | nil =>
    rw [hdrop] at hhead
    simp [Mem.load] at hhead
  | cons c cs =>
    rw [hdrop] at hhead
    simpa [Mem.load] using hhead.symm

/-- **`fgetc`** gives the next byte. -/
theorem fgetc_spec (h : Held f s) : ∃ f' s', fgetcUnlocked regular f s =
    ((ahead f s).head?, f', s') ∧ Moved f s f' s' 1 := by
  unfold fgetcUnlocked
  rw [if_neg (by simp [h.steady.canread])]
  rcases Bool.eq_false_or_eq_true f.ungotten with hu | hu
  · rw [if_pos hu, ahead_ungotten hu]
    exact ⟨_, s, rfl, h.take_ungotten hu⟩
  · rw [if_neg (by simp [hu])]
    by_cases hlt : f.bm < f.bs
    · rw [if_pos hlt, h.head hu hlt]
      exact ⟨_, s, rfl, h.take (n := 1) hu (by omega) h.dir⟩
    · have hb : f.bm = f.bs := by
        have hle := h.bm_le
        omega
      rw [if_neg hlt]
      rcases Bool.eq_false_or_eq_true f.eof with he | he
      · have hnil : ahead f s = [] := (ahead_nil hu hb).mpr (h.eof he).2.1
        rw [if_pos he, hnil]
        exact ⟨f, s, rfl, (Moved.refl h).of_nil hnil hu⟩
      · obtain ⟨f1, hf1, hm1, hd1, hb1, he1⟩ := fflush4_input h hu hb
        rw [if_neg (by simp [he]), hf1]
        obtain ⟨f2, s2, hf2, hm2⟩ := refill_spec hm1.held (hm1.taken (.inr hu)) hb1 hd1
          (he1.trans he)
        rw [hm1.rest, List.drop_zero] at hf2
        dsimp only
        rw [if_pos (by omega), hf2]
        refine ⟨f2, s2, rfl, ?_⟩
        have hm := hm1.trans hm2
        rwa [Nat.zero_add] at hm

/-! ## `fgets` -/

theorem lineOf_nil (k : Nat) : lineOf k [] = [] := by
  cases k <;> rfl

/-- The input is too short for the line. -/
def Short (k : Nat) (l : List UInt8) : Prop := l.length < k ∧ newline ∉ l

/-- One byte of a line: the two branches of the loop both give the next byte. -/
theorem fgetsLoop_cons {l : List UInt8} {k : Nat} {c : UInt8} (h : Held f s)
    (hl : l ≠ [] → f.ungotten = false) (hc : (ahead f s).head? = some c) :
    ∃ f' s', Moved f s f' s' 1 ∧ fgetsLoop regular (k + 1) l f s =
      if c = newline then (l ++ [c], false, f', s') else fgetsLoop regular k (l ++ [c]) f' s' := by
  rw [fgetsLoop]
  by_cases hfast : l ≠ [] ∧ f.bm < f.bs
  · have hu := hl hfast.1
    have hhead := h.head hu hfast.2
    rw [hc] at hhead
    rw [if_pos hfast, Option.some.inj hhead]
    exact ⟨_, s, h.take (n := 1) hu (by omega) h.dir, rfl⟩
  · obtain ⟨f', s', hget, hmoved⟩ := fgetc_spec h
    rw [if_neg hfast, hget, hc]
    exact ⟨f', s', hmoved, rfl⟩

theorem fgetsLoop_nil {l : List UInt8} {k : Nat} (h : Held f s)
    (hl : l ≠ [] → f.ungotten = false) (hc : ahead f s = []) :
    ∃ f' s', Moved f s f' s' 1 ∧ fgetsLoop regular (k + 1) l f s = (l, true, f', s') := by
  have hslow : ¬ (l ≠ [] ∧ f.bm < f.bs) := by
    rintro ⟨hne, hlt⟩
    have hhead := h.head (hl hne) hlt
    rw [hc] at hhead
    cases hhead
  obtain ⟨f', s', hget, hmoved⟩ := fgetc_spec h
  rw [fgetsLoop, if_neg hslow, hget, hc]
  exact ⟨f', s', hmoved, rfl⟩

/-- **The loop of `fgets`** gives the line that fits, and ends where the input does if the line
is too short. -/
theorem fgetsLoop_spec {l : List UInt8} {k : Nat} (h : Held f s)
    (hl : l ≠ [] → f.ungotten = false) :
    ∃ f' s' ended, fgetsLoop regular k l f s = (l ++ lineOf k (ahead f s), ended, f', s') ∧
      Moved f s f' s' (lineOf k (ahead f s)).length ∧
      (ended = true ↔ Short k (ahead f s)) ∧ (ended = true → f'.ungotten = false) := by
  induction k generalizing l f s with
  | zero =>
    refine ⟨f, s, false, by rw [fgetsLoop, lineOf, List.append_nil], .refl h, ?_, nofun⟩
    exact iff_of_false nofun fun h => Nat.not_lt_zero _ h.1
  | succ k ih =>
    cases ha : ahead f s with
    | nil =>
      obtain ⟨f', s', hmoved, hloop⟩ := fgetsLoop_nil h hl ha (k := k)
      refine ⟨f', s', true, by rw [hloop, lineOf_nil, List.append_nil], ?_, ?_, fun _ =>
        hmoved.taken (.inl Nat.one_pos)⟩
      · refine ⟨hmoved.held, hmoved.bytes, ?_, ?_, fun _ => hmoved.taken (.inl Nat.one_pos)⟩
        · rw [hmoved.rest, ha]
          rfl
        · rw [hmoved.told, ha]
          rfl
      · exact iff_of_true rfl ⟨Nat.succ_pos k, List.not_mem_nil⟩
    | cons c cs =>
      obtain ⟨f1, s1, hm1, hloop⟩ := fgetsLoop_cons (c := c) (k := k) h hl (by rw [ha]; rfl)
      have ha1 : ahead f1 s1 = cs := by rw [hm1.rest, ha]; rfl
      have hu1 := hm1.taken (.inl Nat.one_pos)
      rw [hloop, lineOf]
      by_cases hc : c = newline
      · rw [if_pos hc, if_pos hc]
        refine ⟨f1, s1, false, rfl, hm1, iff_of_false nofun fun h => h.2 ?_, nofun⟩
        rw [hc]
        exact List.mem_cons_self
      · rw [if_neg hc, if_neg hc]
        obtain ⟨f2, s2, ended, hloop2, hm2, hend, hu2⟩ := ih (l := l ++ [c]) hm1.held fun _ => hu1
        rw [ha1] at hloop2 hm2 hend
        refine ⟨f2, s2, ended, ?_, ?_, hend.trans ?_, hu2⟩
        · rw [hloop2, List.append_assoc]
          rfl
        · have hm := hm1.trans hm2
          rwa [Nat.add_comm] at hm
        · unfold Short
          rw [List.length_cons, List.mem_cons, not_or]
          exact ⟨fun h => ⟨by omega, fun e => hc e.symm, h.2⟩, fun h => ⟨by omega, h.2.2⟩⟩

/-! ## `fread` -/

theorem getcLoop_spec (out : List UInt8) (k : Nat) (h : Held f s) :
    ∃ f' s', getcLoop regular k out f s =
      (decide (k ≤ (ahead f s).length), out ++ (ahead f s).take k, f', s') ∧
        Moved f s f' s' k := by
  induction k generalizing out f s with
  | zero => exact ⟨f, s, by simp [getcLoop], .refl h⟩
  | succ k ih =>
    obtain ⟨f1, s1, hget, hm1⟩ := fgetc_spec h
    rw [getcLoop, hget]
    cases ha : ahead f s with
    | nil => exact ⟨f1, s1, by simp, hm1.of_nil ha (hm1.taken (.inl Nat.one_pos))⟩
    | cons c cs =>
      obtain ⟨f2, s2, hloop, hm2⟩ := ih (out ++ [c]) hm1.held
      rw [hm1.rest, ha, List.drop_one, List.tail_cons] at hloop
      refine ⟨f2, s2, ?_, ?_⟩
      · dsimp only [List.head?_cons]
        rw [hloop]
        simp
      · have hm := hm1.trans hm2
        rwa [Nat.add_comm] at hm

/-- The file behind a direct read of `k` bytes. -/
def readOff (s : Regular) (k : Nat) : Regular :=
  { s with off := s.off + ((s.bytes.drop s.off).take k).length }

theorem readLoop_spec {out : List UInt8} {tmp : Nat} :
    readLoop regular tmp out s =
      (if tmp ≤ (s.bytes.drop s.off).length then .full else .eof,
        out ++ (s.bytes.drop s.off).take tmp, readOff s tmp) := by
  have hread (s : Regular) (n : Nat) :
      regular.read s n = (some ((s.bytes.drop s.off).take n), readOff s n) := rfl
  rw [readLoop, hread]
  dsimp only
  by_cases hle : tmp ≤ (s.bytes.drop s.off).length
  · rw [if_neg (by rw [List.length_take]; omega), if_pos hle]
  · rw [if_pos (by rw [List.length_take]; omega), if_neg hle]
    by_cases hnil : (s.bytes.drop s.off).take tmp = []
    · rw [if_pos hnil, hnil, List.append_nil]
    · -- a second read finds the end of the file
      have hend : (readOff s tmp).bytes.drop (readOff s tmp).off = [] := by
        simp only [readOff, List.length_take, List.length_drop] at hle ⊢
        apply List.drop_eq_nil_of_le
        omega
      have hoff (k : Nat) : readOff (readOff s tmp) k = readOff s tmp := by
        rw [readOff, hend, List.take_nil]
        rfl
      rw [if_neg hnil, readLoop, hread, hend, List.take_nil, hoff]
      dsimp only
      rw [if_pos (by simp only [List.length_nil, List.length_take]; omega), if_pos rfl]

/-- A direct read past the empty buffer. -/
theorem Held.direct (h : Held f s) (hu : f.ungotten = false) (hbm : f.bm = 0) (hbs : f.bs = 0)
    (eof : Bool) (he : eof = true → f.eof = true ∨ (s.bytes.drop s.off).length ≤ n) :
    Moved f s { f with eof } (readOff s n) n := by
  have hplace : place f s = s.off := Filled.place_empty (hbm.trans hbs.symm)
  have hplace' : place { f with eof } (readOff s n) = (readOff s n).off :=
    Filled.place_empty (hbm.trans hbs.symm)
  refine ⟨⟨⟨⟨h.steady.canread, h.steady.canwrite, h.steady.fdpipe, h.steady.nobuf,
    h.steady.buflen_pos, h.steady.buflen_lt⟩, h.bm_le, h.bs_le, ?_, ?_, fun hf => ?_⟩, h.dir⟩, rfl,
      ?_, ?_, fun _ => hu⟩
  · exact h.bs_off.trans (Nat.le_add_right _ _)
  · intro i hi
    rw [show ({ f with eof } : File).bs = f.bs from rfl, hbs] at hi
    exact absurd hi (Nat.not_lt_zero i)
  · refine ⟨hbm.trans hbs.symm, ?_, hu⟩
    simp only [readOff, List.length_take, List.length_drop] at he ⊢
    rcases he hf with hf | hle
    · have := (h.eof hf).2.1
      omega
    · omega
  · rw [Filled.ahead_eq (f := { f with eof }) hu, Filled.ahead_eq hu, hplace, hplace']
    simp only [readOff, List.length_take, List.length_drop, List.drop_drop]
    by_cases hle : n ≤ s.bytes.length - s.off
    · rw [Nat.min_eq_left hle]
    · rw [List.drop_eq_nil_of_le (by omega), List.drop_eq_nil_of_le (by omega)]
  · rw [tellOf, tellOf, hplace, hplace', Filled.ahead_eq hu, hplace]
    simp [hu, readOff]

/-- Behind the buffer, which is empty. -/
theorem freadRest_spec {size nmemb j : Nat} (out : List UInt8) (h : Held f s)
    (hu : f.ungotten = false) (hbm : f.bm = 0) (hbs : f.bs = 0) (hj : out.length ≤ j)
    (hn : nmemb = j / size) :
    ∃ f' s', freadRest regular size nmemb j out f s =
      ((out ++ (ahead f s).take (j - out.length)).length / size,
        out ++ (ahead f s).take (j - out.length), f', s') ∧
        Moved f s f' s' (j - out.length) := by
  have hfull (l : List UInt8) (hl : j - out.length ≤ l.length) :
      (out ++ l.take (j - out.length)).length / size = nmemb := by
    rw [hn, List.length_append, List.length_take, Nat.min_eq_left hl, Nat.add_sub_cancel' hj]
  unfold freadRest
  by_cases hbig : !f.fdpipe ∧ f.buflen < j
  · rw [if_pos hbig, readLoop_spec]
    have hahead : ahead f s = s.bytes.drop s.off := by
      rw [Filled.ahead_eq hu, Filled.place_empty (hbm.trans hbs.symm)]
    rw [← hahead]
    by_cases hle : j - out.length ≤ (ahead f s).length
    · rw [if_pos hle]
      have hmoved := h.direct hu hbm hbs f.eof (n := j - out.length) .inl
      exact ⟨f, _, by rw [hfull _ hle], hmoved⟩
    · rw [if_neg hle]
      have hmoved := h.direct hu hbm hbs true (n := j - out.length)
        fun _ => .inr (by rw [← hahead]; omega)
      exact ⟨_, _, rfl, hmoved⟩
  · rw [if_neg hbig]
    obtain ⟨f', s', hloop, hmoved⟩ := getcLoop_spec out (j - out.length) h
    rw [hloop]
    by_cases hle : j - out.length ≤ (ahead f s).length
    · rw [decide_eq_true hle]
      exact ⟨f', s', by rw [hfull _ hle], hmoved⟩
    · rw [decide_eq_false hle]
      exact ⟨f', s', rfl, hmoved⟩

/-- The stream with `n` bytes of the buffer taken, an empty buffer being reset. -/
def takenFile (f : File) (n : Nat) : File :=
  if f.bm + n = f.bs then { f with bm := 0, bs := 0 } else { f with bm := f.bm + n }

theorem Filled.taken (h : Filled f s) (hu : f.ungotten = false) (hn : n ≤ f.bs - f.bm)
    (hd : f.bufinput = false → f.bs - f.bm ≤ n) : Moved f s (takenFile f n) s n := by
  have hle := h.bm_le
  have hoff := h.bs_off
  unfold takenFile
  by_cases hall : f.bm + n = f.bs
  · rw [if_pos hall]
    have hplace : place { f with bm := 0, bs := 0 } s = place f s + n := by
      unfold place
      dsimp only
      omega
    refine ⟨⟨⟨⟨h.steady.canread, h.steady.canwrite, h.steady.fdpipe, h.steady.nobuf,
      h.steady.buflen_pos, h.steady.buflen_lt⟩, le_rfl, Nat.zero_le _, Nat.zero_le _,
        fun i hi => absurd hi (Nat.not_lt_zero i), fun he => ?_⟩, fun _ => rfl⟩, rfl, ?_, ?_,
          fun _ => hu⟩
    · exact ⟨rfl, (h.eof he).2.1, hu⟩
    · rw [Filled.ahead_eq (f := { f with bm := 0, bs := 0 }) hu, Filled.ahead_eq hu, hplace,
        List.drop_drop]
    · rw [tellOf, tellOf, hplace, h.length_ahead hu hn]
      simp only [hu]
      push_cast
      omega
  · rw [if_neg hall]
    exact h.take hu hn fun hb => absurd (hd hb) (by omega)

theorem takenFile_mod (h : Filled f s) (hn : n ≤ f.bs - f.bm) :
    (if (f.bm + n) % 2 ^ 32 = f.bs then { f with bm := 0, bs := 0 }
      else { f with bm := (f.bm + n) % 2 ^ 32 }) = takenFile f n := by
  have hle := h.bm_le
  have hbs := h.bs_le
  have hlen := h.steady.buflen_lt
  rw [Nat.mod_eq_of_lt (by omega)]
  rfl

/-- The whole buffer is used up, and there is more to be read. -/
theorem freadCopy_all {size nmemb j : Nat} {out : List UInt8} (h : Filled f s)
    (hu : f.ungotten = false) (hlt : f.bs - f.bm < j) (hn : nmemb = j / size)
    (ho : out.length ≤ 1) :
    ∃ f' s', freadCopy regular size nmemb j out f s =
      ((out ++ (ahead f s).take (j - out.length)).length / size,
        out ++ (ahead f s).take (j - out.length), f', s') ∧
        Moved f s f' s' (j - out.length) := by
  have hle := h.bm_le
  have hbs := h.bs_le
  have hlen := h.steady.buflen_lt
  have hk := h.length_ahead hu (le_refl (f.bs - f.bm))
  have hm1 := h.taken hu (le_refl (f.bs - f.bm)) fun _ => le_rfl
  have hempty : takenFile f (f.bs - f.bm) = { f with bm := 0, bs := 0 } := if_pos (by omega)
  unfold freadCopy
  rw [usub_of_le hle (by omega)]
  dsimp only
  rw [if_pos hlt, takenFile_mod h le_rfl, h.load le_rfl, ← Filled.ahead_eq hu,
    List.length_append, hk]
  by_cases hj : out.length + (f.bs - f.bm) = j
  · rw [if_pos hj, show j - out.length = f.bs - f.bm by omega]
    exact ⟨_, s, by rw [List.length_append, hk, hj, hn], hm1⟩
  · rw [if_neg hj]
    have hlen' : (out ++ (ahead f s).take (f.bs - f.bm)).length = out.length + (f.bs - f.bm) := by
      rw [List.length_append, hk]
    obtain ⟨f2, s2, hrest, hm2⟩ := freadRest_spec (out ++ (ahead f s).take (f.bs - f.bm))
      hm1.held (hm1.taken (.inr hu)) (by rw [hempty]) (by rw [hempty])
      (by rw [hlen']; omega) hn
    have hj' : j - out.length = f.bs - f.bm + (j - (out.length + (f.bs - f.bm))) := by omega
    have hout : out ++ (ahead f s).take (f.bs - f.bm) ++
        (ahead (takenFile f (f.bs - f.bm)) s).take (j - (out.length + (f.bs - f.bm))) =
          out ++ (ahead f s).take (j - out.length) := by
      rw [hm1.rest, hj', List.take_add, List.append_assoc]
    rw [hlen', hout] at hrest
    rw [hlen'] at hm2
    refine ⟨f2, s2, hrest, ?_⟩
    rw [hj']
    exact hm1.trans hm2

/-- `memcpy` from the buffer, and what follows it. -/
theorem freadCopy_spec {size nmemb j : Nat} {out : List UInt8} (h : Filled f s)
    (hu : f.ungotten = false) (hj : out.length < j) (hn : nmemb = j / size)
    (hd : f.bufinput = false → f.bs - f.bm ≤ j) (ho : out ≠ [] → f.bs - f.bm < j)
    (ho' : out.length ≤ 1) :
    ∃ f' s', freadCopy regular size nmemb j out f s =
      ((out ++ (ahead f s).take (j - out.length)).length / size,
        out ++ (ahead f s).take (j - out.length), f', s') ∧
        Moved f s f' s' (j - out.length) := by
  by_cases hlt : f.bs - f.bm < j
  · exact freadCopy_all h hu hlt hn ho'
  · have hnil : out = [] := by
      by_contra hne
      exact hlt (ho hne)
    subst hnil
    have hle := h.bm_le
    have hbs := h.bs_le
    have hlen := h.steady.buflen_lt
    have hk := h.length_ahead hu (Nat.le_of_not_lt hlt)
    unfold freadCopy
    rw [usub_of_le hle (by omega)]
    dsimp only
    rw [if_neg hlt, takenFile_mod h (Nat.le_of_not_lt hlt), h.load (Nat.le_of_not_lt hlt),
      ← Filled.ahead_eq hu, List.nil_append, hk, if_pos rfl]
    exact ⟨_, s, by rw [List.length_nil, Nat.sub_zero, List.nil_append, hk, hn],
      h.taken hu (Nat.le_of_not_lt hlt) fun hb => hd hb⟩

/-- `fread` past the byte pushed back. -/
theorem freadBuf_spec {size nmemb j : Nat} (out : List UInt8) (h : Held f s)
    (hu : f.ungotten = false) (hj : out.length < j) (hn : nmemb = j / size)
    (hd : f.bufinput = false → chunk f s ≤ j) (ho : out ≠ [] → chunk f s < j)
    (ho' : out.length ≤ 1) (hstale : f.bm = f.bs → 0 < f.bs → s.off < s.bytes.length) :
    ∃ f' s', freadBuf regular size nmemb j out f s =
      ((out ++ (ahead f s).take (j - out.length)).length / size,
        out ++ (ahead f s).take (j - out.length), f', s') ∧
        Moved f s f' s' (j - out.length) := by
  have hle := h.bm_le
  have hbs := h.bs_le
  have hlen := h.steady.buflen_lt
  unfold chunk at hd ho
  unfold freadBuf
  rw [usub_of_le hle (by omega)]
  by_cases hlt : f.bm < f.bs
  · rw [if_pos hlt] at hd ho
    rw [if_neg (by omega)]
    exact freadCopy_spec h.toFilled hu hj hn hd ho ho'
  have hb : f.bm = f.bs := by omega
  have hread : regular.read s f.buflen =
      (some ((s.bytes.drop s.off).take f.buflen), filledRegular f s) := rfl
  have hahead : ahead f s = s.bytes.drop s.off := by
    rw [Filled.ahead_eq hu, Filled.place_empty hb]
  rw [if_neg hlt] at hd ho
  rw [if_pos (by omega), hread]
  by_cases hnil : s.bytes.drop s.off = []
  · have hsame : filledRegular f s = s := by
      unfold filledRegular
      rw [hnil, List.take_nil]
      rfl
    have hbs0 : f.bs = 0 := by
      by_contra hne
      have hoff := hstale hb (Nat.pos_of_ne_zero hne)
      have hend := List.drop_eq_nil_iff.mp hnil
      omega
    have hfile : ({ f with bm := 0, eof := true } : File) = { f with eof := true } := by
      simp only [hb, hbs0]
    rw [hnil, List.take_nil, hsame, hahead, hnil, List.take_nil, List.append_nil]
    dsimp only
    rw [hfile]
    exact ⟨_, s, rfl, h.atEof hu hb (hahead.trans hnil)⟩
  · obtain ⟨hfill, hfahead, hftell⟩ := h.fill hu hb fun e =>
      List.drop_eq_nil_of_le (h.eof e).2.1
    have hchunk : ((s.bytes.drop s.off).take f.buflen).length =
        min f.buflen (s.bytes.length - s.off) := by
      rw [List.length_take, List.length_drop]
    have hpos := h.steady.buflen_pos
    obtain ⟨c, cs, hbs⟩ := List.exists_cons_of_ne_nil
      (show (s.bytes.drop s.off).take f.buflen ≠ [] by
        rw [ne_eq, List.take_eq_nil_iff]
        exact not_or.mpr ⟨by omega, hnil⟩)
    have hfbs : (filledFile f s).bs = min f.buflen (s.bytes.length - s.off) := hchunk
    obtain ⟨f', s', hcopy, hmoved⟩ := freadCopy_spec hfill hu hj hn
      (fun hb => by rw [hfbs]; exact hd hb) (fun hne => by rw [hfbs]; exact ho hne) ho'
    rw [hfahead] at hcopy
    have hnext : freadCopy regular size nmemb j out
        { f with bm := 0, bs := (c :: cs).length, buf := f.buf.store 0 (c :: cs) }
          (filledRegular f s) = freadCopy regular size nmemb j out (filledFile f s)
            (filledRegular f s) := by
      rw [← hbs]
      rfl
    rw [hbs]
    dsimp only
    rw [hnext, hcopy]
    refine ⟨f', s', rfl, hmoved.held, hmoved.bytes, ?_, ?_, fun _ => hmoved.taken (.inr hu)⟩
    · rw [hmoved.rest, hfahead]
    · rw [hmoved.told, hftell, hfahead]

/-- The request as `fread` computes it. -/
theorem wanted_zero_iff (size nmemb : Nat) : wanted size nmemb = 0 ↔
    size * nmemb % 2 ^ 64 = 0 ∨ size * nmemb % 2 ^ 64 / nmemb ≠ size := by
  unfold wanted
  by_cases hn : nmemb = 0
  · subst hn
    simp
  by_cases hlt : size * nmemb < 2 ^ 64
  · have hdiv := (mul_check hn).mpr hlt
    rw [if_pos hlt, Nat.mod_eq_of_lt hlt] at *
    exact ⟨.inl, fun h => h.resolve_right fun hne => hne hdiv⟩
  · rw [if_neg hlt]
    exact iff_of_true rfl (.inr fun h => hlt ((mul_check hn).mp h))

theorem wanted_pos {size nmemb : Nat} (h : wanted size nmemb ≠ 0) :
    size * nmemb % 2 ^ 64 = wanted size nmemb ∧ nmemb = wanted size nmemb / size ∧
      wanted size nmemb = size * nmemb := by
  unfold wanted at *
  by_cases hlt : size * nmemb < 2 ^ 64
  · rw [if_pos hlt] at *
    have hs : size ≠ 0 := by
      rintro rfl
      exact h (Nat.zero_mul _)
    exact ⟨Nat.mod_eq_of_lt hlt, (Nat.mul_div_cancel_left _ (Nat.pos_of_ne_zero hs)).symm, rfl⟩
  · rw [if_neg hlt] at h
    exact absurd rfl h

/-- **`fread`** gives the next bytes, from a safe state. -/
theorem fread_spec {size nmemb : Nat} (h : Held f s) (hsafe : Safe f s (.fread size nmemb)) :
    ∃ f' s', freadUnlocked regular size nmemb f s =
      (((ahead f s).take (wanted size nmemb)).length / size,
        (ahead f s).take (wanted size nmemb), f', s') ∧
        Moved f s f' s' (wanted size nmemb) := by
  unfold freadUnlocked
  dsimp only
  rw [if_neg (by simp [h.steady.canread])]
  by_cases h0 : wanted size nmemb = 0
  · rw [if_pos ((wanted_zero_iff size nmemb).mp h0), h0, List.take_zero, List.length_nil,
      Nat.zero_div]
    exact ⟨f, s, rfl, .refl h⟩
  rw [if_neg (mt (wanted_zero_iff size nmemb).mpr h0)]
  obtain ⟨hj, hn, hmul⟩ := wanted_pos h0
  rw [hj]
  have hsafe := hsafe.resolve_left h0
  generalize wanted size nmemb = j at *
  rcases Bool.eq_false_or_eq_true f.ungotten with hu | hu
  · have hm1 := h.take_ungotten hu
    rw [if_pos hu]
    by_cases hone : j = 1
    · have hs1 : size = 1 := Nat.eq_one_of_mul_eq_one_right (hmul.symm.trans hone)
      rw [if_pos hone, hone, ahead_ungotten hu, hs1, List.take_succ_cons, List.take_zero,
        List.length_singleton, Nat.div_one]
      exact ⟨_, s, rfl, hm1⟩
    · rw [if_neg hone]
      obtain ⟨hd, ho, hstale⟩ := hsafe.resolve_left fun h => hone h.2
      obtain ⟨f', s', hbuf, hm2⟩ := freadBuf_spec [f.ungetbuf] hm1.held rfl
        (by rw [List.length_singleton]; omega) hn hd (fun _ => ho hu) (by simp) hstale
      rw [List.length_singleton] at hbuf hm2
      have hout : [f.ungetbuf] ++ (ahead { f with ungotten := false } s).take (j - 1) =
          (ahead f s).take j := by
        obtain ⟨k, rfl⟩ : ∃ k, j = k + 1 := ⟨j - 1, by omega⟩
        rw [hm1.rest, ahead_ungotten hu]
        rfl
      rw [hout] at hbuf
      have hm := hm1.trans hm2
      rw [Nat.add_sub_cancel' (by omega)] at hm
      exact ⟨f', s', hbuf, hm⟩
  · rw [if_neg (by simp [hu])]
    obtain ⟨hd, -, hstale⟩ := hsafe.resolve_left fun h => by rw [hu] at h; cases h.1
    exact freadBuf_spec [] h hu (by rw [List.length_nil]; omega) hn hd
      (fun h => absurd rfl h) (by simp) hstale

end Dietlibc.Stdio
