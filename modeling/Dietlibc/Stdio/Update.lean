import Dietlibc.Stdio.Reading

/-!
# Streams for update refine the file

`Sim` relates a stream to the unbuffered model in each mode: in input the buffer is a copy of
what the model has ahead of it, in output the pending bytes are what the model has already
written. A safe call keeps it and returns what the model returns; so does a run.
-/

namespace Dietlibc.Stdio

open CInt

variable {f f' : File} {s s' : Regular} {m : Plain} {n : Nat} {op : Op} {mode : Mode}

/-! ## Writing in pieces -/

theorem overwrite_nil (b : List UInt8) (o : Nat) : overwrite b o [] = b := if_pos rfl

/-- Writing `d` and then `e` behind it is writing both. -/
theorem overwrite_append (b : List UInt8) (o : Nat) (d e : List UInt8) :
    overwrite (overwrite b o d) (o + d.length) e = overwrite b o (d ++ e) := by
  by_cases hd : d = []
  · subst hd
    rw [overwrite_nil, List.nil_append, List.length_nil, Nat.add_zero]
  by_cases he : e = []
  · subst he
    rw [overwrite_nil, List.append_nil]
  have hne : d ++ e ≠ [] := fun h => hd (List.append_eq_nil_iff.mp h).1
  have hlen : ((b ++ List.replicate (o - b.length) 0).take o ++ d).length = o + d.length := by
    rw [List.length_append, List.length_take, List.length_append, List.length_replicate]
    omega
  have hgap : o + d.length - (overwrite b o d).length = 0 := by
    rw [overwrite, if_neg hd, List.length_append, hlen]
    omega
  rw [overwrite, if_neg he, hgap, List.replicate_zero, List.append_nil, overwrite, if_neg hd,
    overwrite, if_neg hne, List.take_left' hlen, List.drop_append, hlen,
    List.drop_eq_nil_of_le (by omega), List.nil_append, List.drop_drop, List.length_append]
  simp only [List.append_assoc]
  congr 4
  omega

/-- A write at or behind the end leaves the offset there. -/
theorem length_overwrite_le {b d : List UInt8} {o : Nat} (h : b.length ≤ o) :
    (overwrite b o d).length ≤ o + d.length := by
  by_cases hd : d = []
  · rw [hd, overwrite_nil]
    exact h
  · rw [overwrite, if_neg hd, List.drop_eq_nil_of_le (by omega), List.append_nil,
      List.length_append]
    have := List.length_take_le o (b ++ List.replicate (o - b.length) 0)
    omega

theorem regular_full : FullWrites regular := fun _ _ _ => rfl

theorem writeAll_regular (s : Regular) (chunks : List (List UInt8)) :
    writeAll regular s chunks =
      ⟨overwrite s.bytes s.off chunks.flatten, s.off + chunks.flatten.length⟩ := by
  induction chunks generalizing s with
  | nil => rw [List.flatten_nil, overwrite_nil]; rfl
  | cons c cs ih =>
    have hstep : writeAll regular s (c :: cs) =
        writeAll regular ⟨overwrite s.bytes s.off c, s.off + c.length⟩ cs := rfl
    rw [hstep, ih, List.flatten_cons, overwrite_append, List.length_append, Nat.add_assoc]

/-! ## The relation -/

/-- The stream in input: it has ahead what the model has ahead. -/
structure Reading (f : File) (s : Regular) (m : Plain) : Prop where
  held : Held f s
  bytes : m.bytes = s.bytes
  tell : m.tell = tellOf f s
  next : m.next = ahead f s

/-- The stream in output: the model has written what is pending. -/
structure Writing (f : File) (s : Regular) (m : Plain) : Prop where
  ok : OutOk f
  steady : Steady f
  bs : f.bs = 0
  ungotten : f.ungotten = false
  bytes : m.bytes = overwrite s.bytes s.off f.pending
  tell : m.tell = s.off + f.bm
  next : m.next = m.bytes.drop m.tell.toNat
  eof : f.eof = true → s.bytes.length ≤ s.off

/-- How stream and model correspond in each mode. -/
def Sim : Mode → File → Regular → Plain → Prop
  | .free, f, s, m => Reading f s m ∧ f.ungotten = false
  | .input, f, s, m => Reading f s m
  | .output, f, s, m => Writing f s m

/-- A stream that holds nothing, at the position of the model. -/
theorem Reading.of_empty (hst : Steady f) (hbm : f.bm = 0) (hbs : f.bs = 0)
    (hu : f.ungotten = false) (he : f.eof = true → s.bytes.length ≤ s.off)
    (hbytes : m.bytes = s.bytes) (htell : m.tell = s.off)
    (hnext : m.next = m.bytes.drop m.tell.toNat) : Reading f s m := by
  have hplace : place f s = s.off := Filled.place_empty (hbm.trans hbs.symm)
  refine ⟨⟨⟨hst, ?_, ?_, ?_, fun i hi => ?_, fun e => ⟨hbm.trans hbs.symm, he e, hu⟩⟩, fun _ => hbs⟩,
    hbytes, ?_, ?_⟩
  · omega
  · omega
  · omega
  · omega
  · rw [htell, tellOf, hplace, hu]
    simp
  · rw [hnext, Filled.ahead_eq hu, hplace, hbytes, htell]
    rfl

/-! ## Input -/

theorem Reading.moved (h : Reading f s m) (hm : Moved f s f' s' n) : Reading f' s' (m.skip n) := by
  refine ⟨hm.held, ?_, ?_, ?_⟩
  · rw [hm.bytes, ← h.bytes]
    rfl
  · rw [Plain.tell_skip, h.tell, h.next, hm.told]
  · rw [Plain.next_skip, h.next, hm.rest]

/-- Input that is short leaves nothing pushed back. -/
theorem sim_input (h : Reading f' s' m) (b : Bool) (hu : b = true → f'.ungotten = false) :
    Sim (if b then .free else .input) f' s' m := by
  cases b with
  | false => exact h
  | true => exact ⟨h, hu rfl⟩

theorem fgetc_sim (h : Reading f s m) :
    (exec regular .fgetc f s).1 = (m.exec .fgetc).1 ∧
      Sim (mode.after .fgetc m) (exec regular .fgetc f s).2.1 (exec regular .fgetc f s).2.2
        (m.exec .fgetc).2 := by
  obtain ⟨f', s', he, hm⟩ := fgetc_spec h.held
  simp only [exec, he, Plain.exec, h.next]
  exact ⟨trivial, sim_input (h.moved hm) _ fun _ => hm.taken (.inl Nat.one_pos)⟩

theorem fread_sim {size nmemb : Nat} (h : Reading f s m) (hs : Safe f s (.fread size nmemb)) :
    (exec regular (.fread size nmemb) f s).1 = (m.exec (.fread size nmemb)).1 ∧
      Sim (mode.after (.fread size nmemb) m) (exec regular (.fread size nmemb) f s).2.1
        (exec regular (.fread size nmemb) f s).2.2 (m.exec (.fread size nmemb)).2 := by
  obtain ⟨f', s', he, hm⟩ := fread_spec h.held hs
  simp only [exec, he, Plain.exec, h.next]
  refine ⟨trivial, sim_input (h.moved hm) _ fun hshort => hm.taken (.inl ?_)⟩
  have := of_decide_eq_true hshort
  omega

theorem lineOf_eq_nil {k : Nat} {l : List UInt8} : lineOf k l = [] ↔ k = 0 ∨ l = [] := by
  cases k with
  | zero => simp [lineOf]
  | succ k =>
    cases l with
    | nil => simp [lineOf]
    | cons c cs =>
      rw [lineOf]
      split <;> simp

theorem fgets_sim {size : Int} (h : Reading f s m) :
    (exec regular (.fgets size) f s).1 = (m.exec (.fgets size)).1 ∧
      Sim (mode.after (.fgets size) m) (exec regular (.fgets size) f s).2.1
        (exec regular (.fgets size) f s).2.2 (m.exec (.fgets size)).2 := by
  by_cases hsize : size ≤ 0
  · have hzero : (size - 1).toNat = 0 := by omega
    simp only [exec, fgetsUnlocked, if_pos hsize, Plain.exec]
    refine ⟨trivial, sim_input h _ fun hshort => ?_⟩
    simp [hitsEof, hzero] at hshort
  · obtain ⟨f', s', ended, he, hm, hend, hu⟩ :=
      fgetsLoop_spec (l := []) (k := (size - 1).toNat) h.held fun hne => absurd rfl hne
    have hsim : Sim (mode.after (.fgets size) m) f' s'
        (m.skip (lineOf (size - 1).toNat m.next).length) := by
      rw [h.next]
      refine sim_input (h.moved hm) _ fun hshort => hu (hend.mpr ?_)
      rw [hitsEof, Bool.and_eq_true, decide_eq_true_eq, Bool.not_eq_true', h.next] at hshort
      refine ⟨hshort.1, fun hmem => ?_⟩
      rw [List.contains_iff_mem.mpr hmem] at hshort
      cases hshort.2
    have hnone : (ended = true ∧ lineOf (size - 1).toNat (ahead f s) = []) ↔
        1 < size ∧ ahead f s = [] := by
      rw [hend, lineOf_eq_nil]
      constructor
      · rintro ⟨⟨hlt, -⟩, hz | hnil⟩
        · omega
        · exact ⟨by rw [hnil] at hlt; simp at hlt; omega, hnil⟩
      · rintro ⟨hlt, hnil⟩
        rw [hnil]
        exact ⟨⟨by simp; omega, List.not_mem_nil⟩, .inr rfl⟩
    simp only [exec, fgetsUnlocked, if_neg hsize, he, List.nil_append, Plain.exec, h.next, hnone]
    by_cases hnil : 1 < size ∧ ahead f s = []
    · rw [if_pos hnil, if_pos hnil]
      rw [h.next, hnil.2, lineOf_nil] at hsim
      refine ⟨rfl, ?_⟩
      have hskip : m.skip ([] : List UInt8).length = m := by
        simp [Plain.skip]
      rwa [hskip] at hsim
    · rw [if_neg hnil, if_neg hnil]
      rw [h.next] at hsim
      exact ⟨rfl, hsim⟩

theorem charToInt_uchar {b : UInt8} {c : Int} (h : charToInt b = c) : uchar c = b := by
  rw [← h, uchar_charToInt]

/-- One step back in the buffer, or the byte pushed back in front of it. -/
theorem ungetc_sim {c : Int} (h : Reading f s m) (hs : Safe f s (.ungetc c)) :
    (exec regular (.ungetc c) f s).1 = (m.exec (.ungetc c)).1 ∧
      Sim (mode.after (.ungetc c) m) (exec regular (.ungetc c) f s).2.1
        (exec regular (.ungetc c) f s).2.2 (m.exec (.ungetc c)).2 := by
  have hst := h.held.steady
  by_cases hc : 0 ≤ c ∧ c ≤ 255
  swap
  · have hbad : f.ungotten = true ∨ c < 0 ∨ 255 < c := by omega
    simp only [exec, ungetcUnlocked, if_pos hbad, Plain.exec, if_neg hc]
    exact ⟨trivial, h⟩
  have hu := hs hc.1 hc.2
  have hgood : ¬ (f.ungotten = true ∨ c < 0 ∨ 255 < c) := by
    rw [hu]
    rintro (hf | hf | hf)
    · cases hf
    · omega
    · omega
  have hnext : ({ m with pushed := uchar c :: m.pushed } : Plain).next = uchar c :: m.next := rfl
  have htell : ({ m with pushed := uchar c :: m.pushed } : Plain).tell = m.tell - 1 := by
    simp only [Plain.tell, List.length_cons]
    push_cast
    omega
  simp only [exec, ungetcUnlocked, if_neg hgood, Plain.exec, if_pos hc]
  refine ⟨trivial, ?_⟩
  by_cases hback : f.bm ≠ 0 ∧ charToInt (f.buf (f.bm - 1)) = c
  · have hle := h.held.bm_le
    have hoff := h.held.bs_off
    have hplace : place { f with bm := f.bm - 1, error := false, eof := false } s =
        place f s - 1 := by
      unfold place
      dsimp only
      omega
    have hpos : 0 < place f s := by
      unfold place
      omega
    have hahead : ahead { f with bm := f.bm - 1, error := false, eof := false } s =
        s.bytes.drop (place f s - 1) := by
      rw [← hplace]
      exact Filled.ahead_eq hu
    have hbyte : s.bytes[place f s - 1]? = some (uchar c) := by
      have hget := h.held.bytes (f.bm - 1) (by omega)
      rw [charToInt_uchar hback.2, ← hget]
      congr 1
      unfold place
      omega
    rw [if_pos hback]
    refine ⟨⟨⟨⟨hst.canread, hst.canwrite, hst.fdpipe, hst.nobuf, hst.buflen_pos, hst.buflen_lt⟩,
      ?_, h.held.bs_le, hoff, h.held.bytes, fun h => by cases h⟩, h.held.dir⟩, h.bytes, ?_, ?_⟩
    · show f.bm - 1 ≤ f.bs
      omega
    · have htell' : tellOf { f with bm := f.bm - 1, error := false, eof := false } s =
          tellOf f s - 1 := by
        rw [tellOf, tellOf, hplace, hu]
        simp only [Bool.false_eq_true, if_false]
        omega
      rw [htell, h.tell]
      exact htell'.symm
    · obtain ⟨hlt, hget⟩ := List.getElem?_eq_some_iff.mp hbyte
      rw [List.drop_eq_getElem_cons hlt, hget, Nat.sub_add_cancel hpos, ← Filled.ahead_eq hu,
        ← h.next] at hahead
      exact hahead.symm
  · rw [if_neg hback]
    refine ⟨⟨⟨⟨hst.canread, hst.canwrite, hst.fdpipe, hst.nobuf, hst.buflen_pos, hst.buflen_lt⟩,
      h.held.bm_le, h.held.bs_le, h.held.bs_off, h.held.bytes, fun h => by cases h⟩, h.held.dir⟩,
      h.bytes, ?_, ?_⟩
    · rw [htell, h.tell, tellOf, tellOf, hu]
      simp [place]
    · rw [hnext, h.next, Filled.ahead_eq hu]
      rfl

/-! ## Flushing -/

theorem lseek_bytes (s : Regular) (o : Int) (w : Whence) :
    (regular.lseek s o w).2.bytes = s.bytes := by
  unfold regular
  dsimp only
  split <;> rfl

theorem lseek_pos {s : Regular} {o : Int} {w : Whence} (h : 0 ≤ w.base s.bytes s.off + o) :
    regular.lseek s o w = (some (w.base s.bytes s.off + o).toNat,
      { s with off := (w.base s.bytes s.off + o).toNat }) :=
  if_neg (by omega)

theorem lseek_neg {s : Regular} {o : Int} {w : Whence} (h : w.base s.bytes s.off + o < 0) :
    regular.lseek s o w = (none, s) :=
  if_pos h

/-- What was read ahead is given back: the offset becomes the position of the stream. -/
theorem fflush_input (h : Held f s) :
    ∃ f' s', fflushUnlocked regular f s = (true, f', s') ∧ s'.bytes = s.bytes ∧ Steady f' ∧
      f'.bm = 0 ∧ f'.bs = 0 ∧ f'.ungotten = false ∧ f'.bufinput = f.bufinput ∧
      (f'.eof = true → s'.bytes.length ≤ s'.off) ∧
      ((f.ungotten = true → f.bm < f.bs ∧ f.bs - f.bm < s.off) → (s'.off : Int) = tellOf f s) := by
  have hle := h.bm_le
  have hbs := h.bs_le
  have hoff := h.bs_off
  have hst := h.steady
  have hlt := hst.buflen_lt
  have hsteady : Steady { f with bs := 0, bm := 0, ungotten := false } :=
    ⟨hst.canread, hst.canwrite, hst.fdpipe, hst.nobuf, hst.buflen_pos, hst.buflen_lt⟩
  have hempty (heq : f.bm = f.bs) (hu : f.ungotten = true → f.bm < f.bs ∧ f.bs - f.bm < s.off) :
      (s.off : Int) = tellOf f s := by
    have hu' : f.ungotten = false := by
      by_contra hne
      have := (hu (by simpa using hne)).1
      omega
    rw [tellOf, Filled.place_empty heq, hu']
    simp
  unfold fflushUnlocked
  rcases Bool.eq_false_or_eq_true f.bufinput with hd | hd
  · have hconv : conv 32 ((f.bm : Int) - f.bs) = (f.bm : Int) - f.bs := by
      apply conv_of_fits (by decide)
      unfold Fits
      omega
    rw [if_pos hd, hconv]
    dsimp only
    by_cases heq : f.bm = f.bs
    · rw [if_neg (by omega)]
      exact ⟨_, s, rfl, rfl, hsteady, rfl, rfl, rfl, rfl, fun he => (h.eof he).2.1, hempty heq⟩
    · rw [if_pos (by omega)]
      refine ⟨_, _, rfl, lseek_bytes _ _ _, hsteady, rfl, rfl, rfl, rfl,
        fun he => absurd (h.eof he).1 heq, fun hu => ?_⟩
      have htarget : Whence.base s.bytes s.off .cur +
          (if f.ungotten = true then (f.bm : Int) - f.bs - 1 else (f.bm : Int) - f.bs) =
            tellOf f s := by
        unfold tellOf place Whence.base
        dsimp only
        split <;> omega
      have hnonneg : 0 ≤ tellOf f s := by
        unfold tellOf place
        split
        · have := hu ‹_›
          omega
        · omega
      rw [lseek_pos (by rw [htarget]; exact hnonneg), htarget]
      exact Int.toNat_of_nonneg hnonneg
  · have hb0 := h.dir hd
    have hm0 : f.bm = 0 := by omega
    rw [if_neg (by simp [hd]), if_pos hm0]
    exact ⟨_, s, rfl, rfl, ⟨hst.canread, hst.canwrite, hst.fdpipe, hst.nobuf, hst.buflen_pos,
      hst.buflen_lt⟩, hm0, hb0, rfl, rfl, fun he => (h.eof he).2.1, hempty (by omega)⟩

theorem Plain.tell_goto (m : Plain) (pos : Nat) : (m.goto pos).tell = pos := by
  simp [Plain.tell, Plain.goto]

/-- The position of a stream whose byte pushed back can be given back. -/
theorem tellOf_nonneg (h : f.ungotten = true → f.bm < f.bs ∧ f.bs - f.bm < s.off) :
    0 ≤ tellOf f s := by
  unfold tellOf place
  split
  · have := h ‹_›
    omega
  · omega

theorem fflush_sim_input (h : Reading f s m) (hs : Safe f s .fflush) :
    Sim .free (exec regular .fflush f s).2.1 (exec regular .fflush f s).2.2
      (m.exec .fflush).2 := by
  obtain ⟨f', s', he, hbytes, hst, hbm, hbs, hu, -, heof, htell⟩ := fflush_input h.held
  have hpos := tellOf_nonneg hs
  have htell := htell hs
  simp only [exec, he, Plain.exec]
  refine ⟨.of_empty hst hbm hbs hu heof ?_ ?_ ?_, hu⟩
  · exact h.bytes.trans hbytes.symm
  · rw [Plain.tell_goto, h.tell, htell]
    exact Int.toNat_of_nonneg hpos
  · rw [Plain.tell_goto]
    rfl

/-- `fseek` behind its flush. The position it counts from must be that of the model, and where
the target is in front of the file the model must stand where the flush has left the file. -/
theorem fseek_sim {offset : Int} {whence : Whence} {r : Bool}
    (he : fflushUnlocked regular f s = (r, f', s')) (hst : Steady f')
    (hbytes : m.bytes = s'.bytes) (hcur : whence = .cur → m.tell = s'.off)
    (hneg : whence.base m.bytes m.tell + offset < 0 →
      m.tell = s'.off ∧ m.next = m.bytes.drop m.tell.toNat) :
    Sim .free (exec regular (.fseek offset whence) f s).2.1
      (exec regular (.fseek offset whence) f s).2.2 (m.exec (.fseek offset whence)).2 := by
  have hbase : whence.base m.bytes m.tell = whence.base s'.bytes s'.off := by
    cases whence with
    | set => rfl
    | cur => exact hcur rfl
    | fin => rw [hbytes]; rfl
  have hsteady : Steady
      { f' with bm := 0, bs := 0, error := false, eof := false, ungotten := false } :=
    ⟨hst.canread, hst.canwrite, hst.fdpipe, hst.nobuf, hst.buflen_pos, hst.buflen_lt⟩
  simp only [exec, fseekUnlocked, he, Plain.exec]
  by_cases hlt : whence.base m.bytes m.tell + offset < 0
  · obtain ⟨htell, hnext⟩ := hneg hlt
    rw [if_pos hlt, lseek_neg (by rwa [← hbase])]
    exact ⟨.of_empty hsteady rfl rfl rfl (fun h => by cases h) hbytes htell hnext, rfl⟩
  · rw [if_neg hlt, lseek_pos (by rw [← hbase]; omega), ← hbase]
    refine ⟨.of_empty hsteady rfl rfl rfl (fun h => by cases h) hbytes ?_ ?_, rfl⟩
    · rw [Plain.tell_goto]
    · rw [Plain.tell_goto]
      rfl

theorem fseek_sim_input {offset : Int} {whence : Whence} (h : Reading f s m)
    (hs : Safe f s (.fseek offset whence)) :
    Sim .free (exec regular (.fseek offset whence) f s).2.1
      (exec regular (.fseek offset whence) f s).2.2 (m.exec (.fseek offset whence)).2 := by
  obtain ⟨f', s', he, hbytes, hst, -, -, -, -, -, htell⟩ := fflush_input h.held
  have hbase : whence.base s.bytes (s.off - (f.bs - f.bm) - 1) = whence.base m.bytes m.tell ∨
      f.ungotten = false := by
    rcases Bool.eq_false_or_eq_true f.ungotten with hu | hu
    · have hle := h.held.bm_le
      have hoff := h.held.bs_off
      refine .inl ?_
      rw [h.bytes, h.tell, tellOf, hu]
      cases whence with
      | set => rfl
      | fin => rfl
      | cur =>
        simp only [Whence.base, place, if_true]
        omega
    · exact .inr hu
  refine fseek_sim he hst (h.bytes.trans hbytes.symm) (fun hc => ?_) fun hlt => ?_
  · rw [h.tell, htell fun hu => (hs hu).2 hc]
  · -- a target in front of the file: nothing is pushed back
    have hu : f.ungotten = false := by
      by_contra hne
      have hu : f.ungotten = true := by simpa using hne
      have hnonneg := (hs hu).1
      rw [hbase.resolve_right hne] at hnonneg
      omega
    have htell := htell fun hf => by rw [hu] at hf; cases hf
    refine ⟨by rw [h.tell, htell], ?_⟩
    rw [h.next, h.tell, Filled.ahead_eq hu, tellOf, hu, h.bytes]
    simp

/-! ## Output -/

/-- A stream in output takes bytes as the model writes them. -/
theorem Writing.took {d : List UInt8} (h : Writing f s m) (ht : Took regular f s d f' s') :
    Writing f' s' (m.write d) := by
  obtain ⟨chunks, hs', happ⟩ := ht.bytes
  have hsame := ht.same
  have htell : m.tell.toNat = s.off + f.bm := by
    rw [h.tell]
    omega
  have hlen := congrArg List.length happ
  simp only [List.length_append, File.pending, Mem.length_load] at hlen
  rw [writeAll_regular] at hs'
  have hlpend : f.pending.length = f.bm := Mem.length_load
  refine ⟨ht.ok, ⟨hsame.canread.trans h.steady.canread, ht.ok.canwrite,
    hsame.fdpipe.trans h.steady.fdpipe, hsame.nobuf.trans h.steady.nobuf, ht.ok.buflen_pos, ?_⟩,
    hsame.bs.trans h.bs, hsame.ungotten h.ungotten, ?_, ?_, ?_, fun he => ?_⟩
  · rw [hsame.buflen]
    exact h.steady.buflen_lt
  · rw [hs']
    show overwrite m.bytes m.tell.toNat d = _
    rw [overwrite_append, ← happ, ← overwrite_append, ← h.bytes, htell, hlpend]
  · rw [hs']
    simp only [Plain.tell, Plain.write, List.length_nil]
    rw [← Plain.tell, htell]
    push_cast
    omega
  · rw [Plain.tell]
    rfl
  · rw [hs']
    exact length_overwrite_le (h.eof (hsame.eof ▸ he))

/-- A stream that has just been turned to output. -/
theorem Writing.of_empty (hst : Steady f) (hbm : f.bm = 0) (hbs : f.bs = 0)
    (hu : f.ungotten = false) (hout : f.bufinput = false)
    (he : f.eof = true → s.bytes.length ≤ s.off) (hbytes : m.bytes = s.bytes)
    (htell : m.tell = s.off) (hnext : m.next = m.bytes.drop m.tell.toNat) : Writing f s m := by
  have hlt := hst.buflen_lt
  refine ⟨⟨hst.canwrite, hout, by omega, hst.buflen_pos, by omega, fun _ => hbm⟩, hst, hbs, hu,
    ?_, ?_, hnext, he⟩
  · rw [File.pending, hbm, hbytes]
    exact (overwrite_nil _ _).symm
  · rw [htell, hbm]
    simp

/-- The switch from input to output: what was read ahead is given back. -/
theorem Reading.toOutput (h : Reading f s m) (hu : f.ungotten = false) :
    ∃ f' s', fflush4 regular f s false = (true, f', s') ∧ Writing f' s' m := by
  have hnone : f.ungotten = true → f.bm < f.bs ∧ f.bs - f.bm < s.off := by
    rw [hu]
    exact nofun
  have hnext : m.next = m.bytes.drop m.tell.toNat := by
    rw [h.next, h.tell, Filled.ahead_eq hu, tellOf, hu, h.bytes]
    simp
  have hwriting {f' : File} {s' : Regular} (hst : Steady f') (hbm : f'.bm = 0) (hbs : f'.bs = 0)
      (hu' : f'.ungotten = false) (hout : f'.bufinput = false)
      (he : f'.eof = true → s'.bytes.length ≤ s'.off) (hbytes : s'.bytes = s.bytes)
      (htell : (s'.off : Int) = tellOf f s) : Writing f' s' m :=
    .of_empty hst hbm hbs hu' hout he (h.bytes.trans hbytes.symm) (h.tell.trans htell.symm) hnext
  unfold fflush4
  by_cases hd : f.bufinput = false
  · have hbs := h.held.dir hd
    have hbm : f.bm = 0 := by
      have := h.held.bm_le
      omega
    rw [if_pos hd]
    refine ⟨f, s, rfl, hwriting h.held.steady hbm hbs hu hd (fun he => (h.held.eof he).2.1) rfl ?_⟩
    rw [tellOf, Filled.place_empty (hbm.trans hbs.symm), hu]
    simp
  · obtain ⟨f', s', he, hbytes, hst, hbm, hbs, hu', -, heof, htell⟩ := fflush_input h.held
    rw [if_neg hd, he]
    exact ⟨_, s', rfl, hwriting ⟨hst.canread, hst.canwrite, hst.fdpipe, hst.nobuf, hst.buflen_pos,
      hst.buflen_lt⟩ hbm hbs hu' rfl heof hbytes (htell hnone)⟩

/-- From the free mode or from output, an output call finds a stream in output. -/
theorem Sim.toOutput (h : Sim mode f s m) (hm : mode ≠ .input) :
    ∃ f' s', fflush4 regular f s false = (true, f', s') ∧ Writing f' s' m := by
  cases mode with
  | free => exact h.1.toOutput h.2
  | input => exact absurd rfl hm
  | output => exact ⟨f, s, fflush4_output h.ok.output s, h⟩

theorem fputc_sim {c : Int} (h : Sim mode f s m) (hm : mode ≠ .input)
    (hc : f.canwrite = true) :
    Writing (exec regular (.fputc c) f s).2.1 (exec regular (.fputc c) f s).2.2
      (m.exec (.fputc c)).2 := by
  obtain ⟨f1, s1, he1, hw⟩ := h.toOutput hm
  obtain ⟨f2, s2, he2, ht⟩ := fputc_took regular_full hw.ok c s1
  have hsame : fputcUnlocked regular c f s = fputcUnlocked regular c f1 s1 := by
    unfold fputcUnlocked
    rw [if_neg (by simp [hc]), if_neg (by simp [hw.ok.canwrite]), he1, fflush4_output hw.ok.output]
  simp only [exec, hsame, he2, Plain.exec]
  exact hw.took ht

theorem Plain.write_nil (m : Plain) : (m.write []).bytes = m.bytes :=
  overwrite_nil m.bytes m.tell.toNat

theorem fwrite_sim {data : List UInt8} {size nmemb : Nat} (h : Sim mode f s m)
    (hm : mode ≠ .input) (hc : f.canwrite = true) (hv : (Op.fwrite data size nmemb).Valid) :
    Writing (exec regular (.fwrite data size nmemb) f s).2.1
      (exec regular (.fwrite data size nmemb) f s).2.2 (m.exec (.fwrite data size nmemb)).2 := by
  obtain ⟨f1, s1, he1, hw⟩ := h.toOutput hm
  obtain ⟨n, f2, s2, he2, ht, -⟩ := fwrite_took regular_full hw.ok hv s1
  have hsame : fwriteUnlocked regular data size nmemb f s =
      fwriteUnlocked regular data size nmemb f1 s1 := by
    unfold fwriteUnlocked
    rw [if_neg (by simp [hc]), if_neg (by simp [hw.ok.canwrite]), he1, fflush4_output hw.ok.output]
  simp only [exec, hsame, he2, Plain.exec]
  by_cases hlt : size * nmemb < 2 ^ 64
  · rw [Op.accepted, if_pos hlt] at ht
    rw [if_pos hlt]
    exact hw.took ht
  · -- nothing is taken, and the model stays where it is
    rw [Op.accepted, if_neg hlt] at ht
    rw [if_neg hlt]
    have hnil := hw.took ht
    refine ⟨hnil.ok, hnil.steady, hnil.bs, hnil.ungotten, ?_, ?_, hw.next, hnil.eof⟩
    · rw [← hnil.bytes, m.write_nil]
    · have htell := hnil.tell
      have hpos := hw.tell
      simp only [Plain.tell, Plain.write, List.length_nil] at htell hpos ⊢
      omega

/-- What a flush of output leaves. -/
theorem Writing.flushed (h : Writing f s m) :
    ∃ f' s', fflushUnlocked regular f s = (true, f', s') ∧ Steady f' ∧ f'.bm = 0 ∧ f'.bs = 0 ∧
      f'.ungotten = false ∧ m.bytes = s'.bytes ∧ m.tell = s'.off ∧
      (f'.eof = true → s'.bytes.length ≤ s'.off) := by
  obtain ⟨f', s', he, ht, hbm, -⟩ := fflush_took regular_full h.ok s
  have hw := h.took ht
  have hbytes : m.bytes = overwrite s'.bytes s'.off f'.pending := by
    rw [← hw.bytes, m.write_nil]
  have htell := hw.tell
  have hpos := h.tell
  simp only [Plain.tell, Plain.write, List.length_nil] at htell hpos
  refine ⟨f', s', he, hw.steady, hbm, hw.bs, hw.ungotten, ?_, ?_, hw.eof⟩
  · rw [hbytes, File.pending, hbm]
    exact overwrite_nil _ _
  · rw [Plain.tell]
    omega

theorem fflush_sim_output (h : Writing f s m) :
    Sim .free (exec regular .fflush f s).2.1 (exec regular .fflush f s).2.2
      (m.exec .fflush).2 := by
  obtain ⟨f', s', he, hst, hbm, hbs, hu, hbytes, htell, heof⟩ := h.flushed
  simp only [exec, he, Plain.exec]
  refine ⟨.of_empty hst hbm hbs hu heof hbytes ?_ ?_, hu⟩
  · rw [Plain.tell_goto, htell, Int.toNat_natCast]
  · rw [Plain.tell_goto]
    rfl

/-! ## Runs -/

theorem Sim.steady (h : Sim mode f s m) : Steady f := by
  cases mode with
  | free => exact h.1.held.steady
  | input => exact h.held.steady
  | output => exact Writing.steady h

theorem Sim.reading (h : Sim mode f s m) (hm : mode ≠ .output) : Reading f s m := by
  cases mode with
  | free => exact h.1
  | input => exact h
  | output => exact absurd rfl hm

/-- **A safe call** returns what the unbuffered model returns, and keeps the relation. -/
theorem exec_sim (h : Sim mode f s m) (ha : mode.Allows op) (hv : op.Valid) (hs : Safe f s op) :
    (op.isInput → (exec regular op f s).1 = (m.exec op).1) ∧
      Sim (mode.after op m) (exec regular op f s).2.1 (exec regular op f s).2.2
        (m.exec op).2 := by
  cases op with
  | fgetc => exact (fgetc_sim (h.reading ha)).imp_left fun he _ => he
  | fread size nmemb => exact (fread_sim (h.reading ha) hs).imp_left fun he _ => he
  | fgets size => exact (fgets_sim (h.reading ha)).imp_left fun he _ => he
  | ungetc c => exact (ungetc_sim (h.reading ha) hs).imp_left fun he _ => he
  | fputc c => exact ⟨nofun, fputc_sim h ha h.steady.canwrite⟩
  | fwrite data size nmemb => exact ⟨nofun, fwrite_sim h ha h.steady.canwrite hv⟩
  | fflush =>
    refine ⟨nofun, ?_⟩
    cases mode with
    | free => exact fflush_sim_input h.1 hs
    | input => exact (fflush_sim_input h hs).1
    | output => exact fflush_sim_output h
  | fseek offset whence =>
    refine ⟨nofun, ?_⟩
    cases mode with
    | free => exact fseek_sim_input h.1 hs
    | input => exact fseek_sim_input h hs
    | output =>
      obtain ⟨f', s', he, hst, -, -, -, hbytes, htell, -⟩ := Writing.flushed h
      exact fseek_sim he hst hbytes (fun _ => htell) fun _ => ⟨htell, Writing.next h⟩

theorem run_sim {ops : List Op} (h : Sim mode f s m) (hl : Lawful mode ops m)
    (hs : AllSafe ops f s) :
    SameInput ops (run regular ops f s).1 (Plain.run ops m).1 ∧
      ∃ mode', Sim mode' (run regular ops f s).2.1 (run regular ops f s).2.2
        (Plain.run ops m).2 := by
  induction ops generalizing mode f s m with
  | nil => exact ⟨trivial, mode, h⟩
  | cons op ops ih =>
    obtain ⟨ha, hv, hl⟩ := hl
    obtain ⟨hr, hsim⟩ := exec_sim h ha hv hs.1
    obtain ⟨hrs, hend⟩ := ih hsim hl hs.2
    exact ⟨⟨hr, hrs⟩, hend⟩

/-- A last flush brings the file to what the model has written. -/
theorem Sim.flushed_bytes (h : Sim mode f s m) :
    (exec regular .fflush f s).2.2.bytes = m.bytes := by
  have hreading (h : Reading f s m) : (exec regular .fflush f s).2.2.bytes = m.bytes := by
    obtain ⟨f', s', he, hbytes, -⟩ := fflush_input h.held
    simp only [exec, he]
    rw [hbytes, h.bytes]
  cases mode with
  | free => exact hreading h.1
  | input => exact hreading h
  | output =>
    obtain ⟨f', s', he, -, -, -, -, hbytes, -⟩ := Writing.flushed h
    simp only [exec, he]
    exact hbytes.symm

/-- A stream that has just been opened is at the offset of the file. -/
theorem Opened.sim (h : Opened f) (bytes : List UInt8) (off : Nat) :
    Sim .free f ⟨bytes, off⟩ ⟨bytes, off, []⟩ := by
  refine ⟨.of_empty ⟨h.canread, h.canwrite, h.fdpipe, h.nobuf, h.buflen_pos, h.buflen_lt⟩ h.bm h.bs
    h.ungotten (fun he => ?_) rfl ?_ ?_, h.ungotten⟩
  · rw [h.eof] at he
    cases he
  · simp [Plain.tell]
  · simp [Plain.tell, Plain.next]

/-- **A stream for update refines the file.** In a run of safe steps the input calls return what
the unbuffered model returns, and after a last flush the file holds what the model holds. -/
theorem update_refines (h : Opened f) (bytes : List UInt8) (off : Nat) {ops : List Op}
    (hl : Lawful .free ops ⟨bytes, off, []⟩) (hs : AllSafe ops f ⟨bytes, off⟩) :
    SameInput ops (run regular ops f ⟨bytes, off⟩).1 (Plain.run ops ⟨bytes, off, []⟩).1 ∧
      (exec regular .fflush (run regular ops f ⟨bytes, off⟩).2.1
        (run regular ops f ⟨bytes, off⟩).2.2).2.2.bytes =
          (Plain.run ops ⟨bytes, off, []⟩).2.bytes := by
  obtain ⟨hsame, mode', hsim⟩ := run_sim (h.sim bytes off) hl hs
  exact ⟨hsame, hsim.flushed_bytes⟩

/-- A stream that `fopen` has made for update, with a buffer of four bytes. -/
def update4 : File where
  error := false
  eof := false
  bufinput := true
  buflinewise := false
  nobuf := false
  fdpipe := false
  canread := true
  canwrite := true
  checklinewise := false
  bs := 0
  bm := 0
  buflen := 4
  buf := fun _ => 0
  ungetbuf := 0
  ungotten := false

theorem update4_opened : Opened update4 :=
  ⟨rfl, rfl, rfl, rfl, rfl, rfl, rfl, rfl, rfl, by decide, by decide⟩

/-- A run of safe steps in both directions. -/
theorem update_refines_update4 :
    let ops := [.fgetc, .ungetc 120, .fgets 3, .fseek 1 .set, .fputc 99, .fflush, .fgetc]
    let bytes := [97, 98, 10, 100]
    SameInput ops (run regular ops update4 ⟨bytes, 0⟩).1 (Plain.run ops ⟨bytes, 0, []⟩).1 ∧
      (exec regular .fflush (run regular ops update4 ⟨bytes, 0⟩).2.1
        (run regular ops update4 ⟨bytes, 0⟩).2.2).2.2.bytes =
          (Plain.run ops ⟨bytes, 0, []⟩).2.bytes :=
  update_refines update4_opened [97, 98, 10, 100] 0
    ⟨nofun, trivial, nofun, trivial, nofun, trivial, trivial, trivial, nofun, trivial, trivial,
      trivial, nofun, trivial, trivial⟩
    ⟨trivial, fun _ _ => rfl, trivial, nofun, trivial, nofun, trivial, trivial⟩

/-- `fread` behind output that an `fseek` has flushed does not turn the stream to input: the byte
read ahead is written by the next flush. -/
theorem fread_keeps_output :
    let ops := [.fputc 97, .fputc 98, .fseek 0 .set, .fread 1 1]
    Opened update4 ∧ Lawful .free ops ⟨[], 0, []⟩ ∧
      (exec regular .fflush (run regular ops update4 ⟨[], 0⟩).2.1
        (run regular ops update4 ⟨[], 0⟩).2.2).2.2.bytes = [97, 98, 97] ∧
      (Plain.run ops ⟨[], 0, []⟩).2.bytes = [97, 98] := by
  refine ⟨update4_opened, ?_, by decide, by decide⟩
  exact ⟨nofun, trivial, nofun, trivial, trivial, trivial, nofun, .inl (by decide), trivial⟩

end Dietlibc.Stdio
