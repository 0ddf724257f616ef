import Dietlibc.Stdio.Rights

/-!
# Where a stream stands

`standing` follows a run of calls in any order on the unbuffered model, moved by what each call
returned; its `tell` is the logical position. `Synced` relates a stream to it, in either direction
and with any rights, and a `Sound` call keeps it.
-/

namespace Dietlibc.Stdio

variable {f f' : File} {s s' : Regular} {m : Plain} {n : Nat} {op : Op}

/-! ## The position -/

/-- What a call that returned `r` does to the unbuffered model; `w` says that the stream can be
written to. A call that failed does nothing. -/
def Plain.after (w : Bool) (op : Op) (r : Res) (m : Plain) : Plain :=
  match op, r with
  | .fgetc, .byte none => m
  | .fread _ _, .items _ out => m.skip out.length
  | .fgets _, .line l => m.skip (l.getD []).length
  | .ungetc _, .status false => m
  | .fputc _, .status false => m
  | .fwrite data size _, .wrote n => if w then m.write (data.take (n * size)) else m
  | _, _ => (m.exec op).2

/-- Where the calls of a run have brought the unbuffered model. -/
def standing : List Op → File → Regular → Plain → Plain
  | [], _, _, m => m
  | op :: ops, f, s, m =>
    let (r, f', s') := exec regular op f s
    standing ops f' s' (m.after f.canwrite op r)

/-- A stream as it is made for a file that is open: empty, in any mode and buffered in any way. -/
structure Made (f : File) : Prop where
  error : f.error = false
  eof : f.eof = false
  fdpipe : f.fdpipe = false
  bs : f.bs = 0
  bm : f.bm = 0
  ungotten : f.ungotten = false
  buflen_pos : 1 ≤ f.buflen
  buflen_lt : f.buflen < 2 ^ 31

/-- What a call must find for the stream to go where the unbuffered model goes. -/
def Sound (f : File) (s : Regular) : Op → Prop
  | .fread size nmemb => f.canread = true → wanted size nmemb ≠ 0 →
      (f.bufinput = false → f.bm = 0) ∧ Safe f s (.fread size nmemb)
  | .ungetc c => 0 ≤ c → c ≤ 255 → f.ungotten = false → f.bufinput = false → f.bm = 0
  | .fputc _ | .fwrite _ _ _ => f.canwrite = true → Safe f s .fflush
  | .fflush => Safe f s .fflush
  | .fseek offset whence => Safe f s (.fseek offset whence)
  | _ => True

/-- All steps of a run are sound, and their arrays exist. -/
def AllSound : List Op → File → Regular → Prop
  | [], _, _ => True
  | op :: ops, f, s =>
    op.Valid ∧ Sound f s op ∧ AllSound ops (exec regular op f s).2.1 (exec regular op f s).2.2

/-- The stream stands where the model does: in input with the bytes ahead that the model has ahead,
or in output with pending bytes that the model has written. -/
structure Synced (f : File) (s : Regular) (m : Plain) : Prop where
  side : Reading f.full s m ∨ Writing f.full s m
  idle : f.nobuf = true → f.bufinput = false → f.bm = 0
  blind : f.canread = false → f.bs = 0

/-! ## Steps of the model -/

theorem Plain.skip_zero (m : Plain) : m.skip 0 = m := by
  simp [Plain.skip]

theorem Plain.write_goto (m : Plain) (d : List UInt8) :
    (m.goto m.tell.toNat).write d = m.write d := by
  unfold Plain.write
  rw [Plain.tell_goto, Int.toNat_natCast]
  rfl

theorem Reading.error (h : Reading f s m) : Reading { f with error := true } s m := by
  have hst := h.held.steady
  exact ⟨⟨⟨⟨hst.canread, hst.canwrite, hst.fdpipe, hst.nobuf, hst.buflen_pos, hst.buflen_lt⟩,
    h.held.bm_le, h.held.bs_le, h.held.bs_off, h.held.bytes, h.held.eof⟩, h.held.dir⟩, h.bytes,
    h.tell, h.next⟩

theorem Writing.error (h : Writing f s m) : Writing { f with error := true } s m := by
  have hst := h.steady
  have ho := h.ok
  exact ⟨⟨ho.canwrite, ho.output, ho.bm_le, ho.buflen_pos, ho.buflen_lt, ho.nobuf⟩,
    ⟨hst.canread, hst.canwrite, hst.fdpipe, hst.nobuf, hst.buflen_pos, hst.buflen_lt⟩, h.bs,
    h.ungotten, h.bytes, h.tell, h.next, h.eof⟩

/-- The error indicator does not move a stream. -/
theorem Synced.error (h : Synced f s m) : Synced { f with error := true } s m :=
  ⟨h.side.imp Reading.error Writing.error, h.idle, h.blind⟩

/-- A stream in input that holds what it has read. -/
theorem Reading.synced (h : Reading f.full s m) (hb : f.canread = false → f.bs = 0) :
    Synced f s m := by
  refine ⟨.inl h, fun _ hd => ?_, hb⟩
  have hbs : f.bs = 0 := h.held.dir hd
  have hle : f.bm ≤ f.bs := h.held.bm_le
  omega

/-- The bytes that were taken are passed in the model. -/
theorem Reading.moved_take (h : Reading f s m) (hm : Moved f s f' s' n) {l : List UInt8}
    (hl : l = (ahead f s).take n) : Reading f' s' (m.skip l.length) := by
  have hlen : l.length = min n (ahead f s).length := by
    rw [hl, List.length_take]
  refine ⟨hm.held, ?_, ?_, ?_⟩
  · rw [hm.bytes, ← h.bytes]
    rfl
  · rw [Plain.tell_skip, h.tell, h.next, hm.told, List.length_take, List.length_take, hlen]
    omega
  · rw [Plain.next_skip, h.next, hm.rest, hlen]
    rcases Nat.le_total n (ahead f s).length with hle | hle
    · rw [Nat.min_eq_left hle]
    · rw [Nat.min_eq_right hle, List.drop_length, List.drop_eq_nil_of_le hle]

/-- Output with nothing pending is also input. -/
theorem Writing.reading (h : Writing f s m) (hb : f.bm = 0) : Reading f s m := by
  refine .of_empty h.steady hb h.bs h.ungotten h.eof ?_ ?_ h.next
  · rw [h.bytes, File.pending, hb]
    exact overwrite_nil _ _
  · rw [h.tell, hb]
    simp

/-! ## Input -/

/-- A call of an input function on a stream that can be read from. -/
theorem exec_able (ho : op = .fgetc ∨ (∃ size nmemb, op = .fread size nmemb) ∨
    ∃ size, op = .fgets size) (f : File) (s : Regular) :
    exec regular op f.able s = via File.able (exec regular op f s) := by
  rcases ho with rfl | ⟨size, nmemb, rfl⟩ | ⟨size, rfl⟩
  · simp only [exec, fgetc_able]
    rfl
  · simp only [exec, fread_able]
    rfl
  · simp only [exec, fgets_able]
    rfl

/-- What is read on the stream for update is read on the stream. -/
theorem Reading.of_able (h : Reading f.able s m) : Synced f s m := by
  have hr : f.canread = true := h.held.steady.canread
  refine Reading.synced ?_ fun hr' => ?_
  · rw [File.full_eq_able hr]
    exact h
  · rw [hr] at hr'
    cases hr'

theorem fflush_eof (f : File) (s : Regular) : (fflushUnlocked regular f s).2.1.eof = f.eof := by
  unfold fflushUnlocked
  dsimp only
  repeat' split
  all_goals rfl

/-- The switch from output to input: what is pending is written. -/
theorem Writing.toInput (h : Writing f s m) :
    ∃ f' s', fflush4 regular f s true = (true, f', s') ∧ Reading f' s' m ∧ f'.bufinput = true ∧
      f'.bs = 0 ∧ f'.bm = 0 ∧ f'.ungotten = false ∧ f'.eof = f.eof := by
  obtain ⟨f', s', he, hst, hbm, hbs, hu, hbytes, htell, heof⟩ := h.flushed
  have hsame := fflush_eof f s
  rw [he] at hsame
  unfold fflush4
  rw [if_neg (by rw [h.ok.output]; exact nofun), he]
  refine ⟨{ f' with bufinput := true }, s', rfl, ?_, rfl, hbs, hbm, hu, hsame⟩
  exact .of_empty ⟨hst.canread, hst.canwrite, hst.fdpipe, hst.nobuf, hst.buflen_pos, hst.buflen_lt⟩
    hbm hbs hu heof hbytes htell h.next

/-- In output `fgetc` does what it does behind the switch. -/
theorem Writing.fgetc_eq (h : Writing f s m) (he : f.eof = false)
    (ht : fflush4 regular f s true = (true, f', s')) (hr : f'.canread = true)
    (hd : f'.bufinput = true) (hbs : f'.bs = 0) (hbm : f'.bm = 0) (hu : f'.ungotten = false)
    (he' : f'.eof = false) : fgetcUnlocked regular f s = fgetcUnlocked regular f' s' := by
  have hturned : fflush4 regular f' s' true = (true, f', s') := by
    unfold fflush4
    rw [if_pos hd]
  unfold fgetcUnlocked
  rw [if_neg (by simp [h.steady.canread]), if_neg (by simp [h.ungotten]),
    if_neg (by rw [h.bs]; exact Nat.not_lt_zero _), if_neg (by simp [he]), ht,
    if_neg (by simp [hr]), if_neg (by simp [hu]), if_neg (by omega), if_neg (by simp [he']),
    hturned]

/-- At the end of the file output has nothing to be read behind it. -/
theorem Writing.at_end (h : Writing f s m) (he : f.eof = true) : m.next = [] := by
  have hlen := length_overwrite_le (d := f.pending) (h.eof he)
  have hpend : f.pending.length = f.bm := Mem.length_load
  rw [h.next, h.tell, h.bytes, List.drop_eq_nil_of_le]
  omega

/-- A stream with nothing in its buffer that has seen the end of the file stays as it is. -/
theorem fgetc_end (hr : f.canread = true) (hu : f.ungotten = false) (hbs : f.bs = 0)
    (he : f.eof = true) : fgetcUnlocked regular f s = (none, f, s) := by
  unfold fgetcUnlocked
  rw [if_neg (by simp [hr]), if_neg (by simp [hu]), if_neg (by rw [hbs]; exact Nat.not_lt_zero _),
    if_pos he]

/-- A stream that cannot be read from fails. -/
theorem fgetc_blind (hr : f.canread = false) :
    fgetcUnlocked regular f s = (none, { f with error := true }, s) := by
  unfold fgetcUnlocked
  rw [if_pos (by simp [hr])]

theorem fgetsLoop_first {k : Nat} (he : fgetcUnlocked regular f s = fgetcUnlocked regular f' s') :
    fgetsLoop regular (k + 1) [] f s = fgetsLoop regular (k + 1) [] f' s' := by
  rw [fgetsLoop, fgetsLoop, if_neg fun hne => hne.1 rfl, if_neg fun hne => hne.1 rfl, he]

theorem fgetsLoop_fails {k : Nat} (he : fgetcUnlocked regular f s = (none, f', s')) :
    fgetsLoop regular (k + 1) [] f s = ([], true, f', s') := by
  rw [fgetsLoop, if_neg fun hne => hne.1 rfl, he]

/-- A call of `fgets` whose first byte fails, or that asks for none. -/
theorem fgets_fails (size : Int) (he : fgetcUnlocked regular f s = (none, f', s')) :
    ∃ l, l.getD [] = [] ∧ (exec regular (.fgets size) f s = (.line l, f, s) ∨
      exec regular (.fgets size) f s = (.line l, f', s')) := by
  by_cases hsize : size ≤ 0
  · exact ⟨none, rfl, .inl (by simp only [exec, fgetsUnlocked, if_pos hsize])⟩
  cases hk : (size - 1).toNat with
  | zero =>
    refine ⟨some [], rfl, .inl ?_⟩
    simp only [exec, fgetsUnlocked, if_neg hsize, hk]
    rfl
  | succ k =>
    refine ⟨none, rfl, .inr ?_⟩
    simp only [exec, fgetsUnlocked, if_neg hsize, hk, fgetsLoop_fails he]
    rfl

/-- The relation behind an input call on the stream for update is that behind the call. -/
theorem Synced.of_able {w : Bool} (ho : op = .fgetc ∨ (∃ size nmemb, op = .fread size nmemb) ∨
    ∃ size, op = .fgets size)
    (h : Reading (exec regular op f.able s).2.1 (exec regular op f.able s).2.2
      (m.after w op (exec regular op f.able s).1)) :
    Synced (exec regular op f s).2.1 (exec regular op f s).2.2
      (m.after w op (exec regular op f s).1) := by
  rw [exec_able ho] at h
  exact h.of_able

theorem Reading.fgetc (h : Reading f s m) (w : Bool) :
    Reading (exec regular .fgetc f s).2.1 (exec regular .fgetc f s).2.2
      (m.after w .fgetc (exec regular .fgetc f s).1) := by
  obtain ⟨f1, s1, hget, hm⟩ := fgetc_spec h.held
  simp only [exec, hget]
  have hafter : m.after w .fgetc (.byte (ahead f s).head?) =
      m.skip (ahead f s).head?.toList.length := by
    cases (ahead f s).head? with
    | none => exact m.skip_zero.symm
    | some c => rfl
  rw [hafter]
  refine h.moved_take hm ?_
  cases ahead f s <;> rfl

theorem Reading.fread {size nmemb : Nat} (h : Reading f s m) (hs : Safe f s (.fread size nmemb))
    (w : Bool) : Reading (exec regular (.fread size nmemb) f s).2.1
      (exec regular (.fread size nmemb) f s).2.2
      (m.after w (.fread size nmemb) (exec regular (.fread size nmemb) f s).1) := by
  obtain ⟨f1, s1, hread, hm⟩ := fread_spec h.held hs
  simp only [exec, hread]
  exact h.moved_take hm rfl

theorem Reading.fgets {size : Int} (h : Reading f s m) (w : Bool) :
    Reading (exec regular (.fgets size) f s).2.1 (exec regular (.fgets size) f s).2.2
      (m.after w (.fgets size) (exec regular (.fgets size) f s).1) := by
  by_cases hsize : size ≤ 0
  · simp only [exec, fgetsUnlocked, if_pos hsize]
    show Reading f s (m.skip 0)
    rw [m.skip_zero]
    exact h
  · obtain ⟨f1, s1, ended, hloop, hm, -, -⟩ :=
      fgetsLoop_spec (l := []) (k := (size - 1).toNat) h.held fun hne => absurd rfl hne
    rw [List.nil_append] at hloop
    simp only [exec, fgetsUnlocked, if_neg hsize, hloop]
    have hnext := h.moved hm
    by_cases hnone : ended = true ∧ lineOf (size - 1).toNat (ahead f s) = []
    · rw [if_pos hnone]
      rw [hnone.2] at hnext
      exact hnext
    · rw [if_neg hnone]
      exact hnext

/-- In output an input call does what it does behind the switch. -/
theorem Writing.fgetc (h : Writing f s m) (he : f.eof = false) (w : Bool) :
    Reading (exec regular .fgetc f s).2.1 (exec regular .fgetc f s).2.2
      (m.after w .fgetc (exec regular .fgetc f s).1) := by
  obtain ⟨f1, s1, ht, hg, hd, hbs, hbm, hu, he1⟩ := h.toInput
  have hsame := h.fgetc_eq he ht hg.held.steady.canread hd hbs hbm hu (he1.trans he)
  have hexec : exec regular .fgetc f s = exec regular .fgetc f1 s1 := by
    simp only [exec, hsame]
  rw [hexec]
  exact hg.fgetc w

theorem Writing.fgets {size : Int} (h : Writing f s m) (he : f.eof = false) (hk : 1 < size)
    (w : Bool) : Reading (exec regular (.fgets size) f s).2.1 (exec regular (.fgets size) f s).2.2
      (m.after w (.fgets size) (exec regular (.fgets size) f s).1) := by
  obtain ⟨f1, s1, ht, hg, hd, hbs, hbm, hu, he1⟩ := h.toInput
  have hsame := h.fgetc_eq he ht hg.held.steady.canread hd hbs hbm hu (he1.trans he)
  have hexec : exec regular (.fgets size) f s = exec regular (.fgets size) f1 s1 := by
    obtain ⟨k, hk⟩ : ∃ k, (size - 1).toNat = k + 1 := ⟨(size - 2).toNat, by omega⟩
    simp only [exec, fgetsUnlocked, if_neg (show ¬ size ≤ 0 by omega), hk, fgetsLoop_first hsame]
  rw [hexec]
  exact hg.fgets w

/-- **`fgetc`**, in either direction. -/
theorem fgetc_synced (h : Synced f s m) :
    Synced (exec regular .fgetc f s).2.1 (exec regular .fgetc f s).2.2
      (m.after f.canwrite .fgetc (exec regular .fgetc f s).1) := by
  cases hr : f.canread with
  | false =>
    simp only [exec, fgetc_blind hr, Plain.after]
    exact h.error
  | true =>
    have hside := h.side
    rw [File.full_eq_able hr] at hside
    rcases hside with hin | hout
    · exact .of_able (.inl rfl) (hin.fgetc _)
    · cases he : f.eof with
      | true =>
        simp only [exec, fgetc_end hr hout.ungotten hout.bs he, Plain.after]
        exact h
      | false => exact .of_able (.inl rfl) (hout.fgetc he _)

/-- **`fgets`**, in either direction. -/
theorem fgets_synced {size : Int} (h : Synced f s m) :
    Synced (exec regular (.fgets size) f s).2.1 (exec regular (.fgets size) f s).2.2
      (m.after f.canwrite (.fgets size) (exec regular (.fgets size) f s).1) := by
  have hfails {f' : File} (hget : fgetcUnlocked regular f s = (none, f', s)) (h' : Synced f' s m) :
      Synced (exec regular (.fgets size) f s).2.1 (exec regular (.fgets size) f s).2.2
        (m.after f.canwrite (.fgets size) (exec regular (.fgets size) f s).1) := by
    obtain ⟨l, hl, he | he⟩ := fgets_fails size hget
    · rw [he]
      show Synced f s (m.skip (l.getD []).length)
      rw [hl, List.length_nil, m.skip_zero]
      exact h
    · rw [he]
      show Synced f' s (m.skip (l.getD []).length)
      rw [hl, List.length_nil, m.skip_zero]
      exact h'
  cases hr : f.canread with
  | false => exact hfails (fgetc_blind hr) h.error
  | true =>
    have hside := h.side
    rw [File.full_eq_able hr] at hside
    rcases hside with hin | hout
    · exact .of_able (.inr (.inr ⟨size, rfl⟩)) (hin.fgets _)
    · cases he : f.eof with
      | true => exact hfails (fgetc_end hr hout.ungotten hout.bs he) h
      | false =>
        by_cases hk : 1 < size
        · exact .of_able (.inr (.inr ⟨size, rfl⟩)) (hout.fgets he hk _)
        · have hnone : exec regular (.fgets size) f s =
              (.line (if size ≤ 0 then none else some []), f, s) := by
            by_cases hsize : size ≤ 0
            · simp only [exec, fgetsUnlocked, if_pos hsize]
            · have hz : (size - 1).toNat = 0 := by omega
              simp only [exec, fgetsUnlocked, if_neg hsize, hz]
              rfl
          rw [hnone]
          have hskip : m.after f.canwrite (.fgets size) (.line (if size ≤ 0 then none else some []))
              = m := by
            split <;> exact m.skip_zero
          rw [hskip]
          exact h

/-- **`fread`**, from a sound state. -/
theorem fread_synced {size nmemb : Nat} (h : Synced f s m)
    (hs : Sound f s (.fread size nmemb)) :
    Synced (exec regular (.fread size nmemb) f s).2.1 (exec regular (.fread size nmemb) f s).2.2
      (m.after f.canwrite (.fread size nmemb) (exec regular (.fread size nmemb) f s).1) := by
  cases hr : f.canread with
  | false =>
    have hbad : freadUnlocked regular size nmemb f s = (0, [], { f with error := true }, s) := by
      unfold freadUnlocked
      dsimp only
      rw [if_pos (by simp [hr])]
    simp only [exec, hbad, Plain.after, List.length_nil, m.skip_zero]
    exact h.error
  | true =>
    by_cases h0 : wanted size nmemb = 0
    · have hnone : freadUnlocked regular size nmemb f s = (0, [], f, s) := by
        unfold freadUnlocked
        dsimp only
        rw [if_neg (by simp [hr]), if_pos ((wanted_zero_iff size nmemb).mp h0)]
      simp only [exec, hnone, Plain.after, List.length_nil, m.skip_zero]
      exact h
    · obtain ⟨hb, hsafe⟩ := hs hr h0
      have hside := h.side
      rw [File.full_eq_able hr] at hside
      have hin : Reading f.able s m := by
        rcases hside with hin | hout
        · exact hin
        · exact hout.reading (hb hout.ok.output)
      exact .of_able (.inr (.inl ⟨size, nmemb, rfl⟩)) (hin.fread hsafe _)

/-! ## `ungetc`, `fflush` and `fseek` -/

/-- **`ungetc`**, from a sound state. -/
theorem ungetc_synced {c : Int} (h : Synced f s m) (hs : Sound f s (.ungetc c)) :
    Synced (exec regular (.ungetc c) f s).2.1 (exec regular (.ungetc c) f s).2.2
      (m.after f.canwrite (.ungetc c) (exec regular (.ungetc c) f s).1) := by
  by_cases hbad : f.ungotten = true ∨ c < 0 ∨ 255 < c
  · simp only [exec, ungetcUnlocked, if_pos hbad, Plain.after]
    exact h
  have hc : 0 ≤ c ∧ c ≤ 255 := by omega
  have hu : f.ungotten = false := by simpa using fun hu => hbad (.inl hu)
  have hin : Reading f.full s m := by
    rcases h.side with hin | hout
    · exact hin
    · exact hout.reading (hs hc.1 hc.2 hu hout.ok.output)
  have hsim : Sim (Mode.after .free (.ungetc c) m) _ _ _ := (ungetc_sim hin fun _ _ => hu).2
  have hfull : exec regular (.ungetc c) f.full s =
      via File.full (exec regular (.ungetc c) f s) := by
    simp only [exec, File.full, ungetc_as]
    rfl
  rw [hfull] at hsim
  have hok : (exec regular (.ungetc c) f s).1 = .status true := by
    simp only [exec, ungetcUnlocked, if_neg hbad]
  have hbs : (exec regular (.ungetc c) f s).2.1.bs = f.bs := by
    simp only [exec, ungetcUnlocked, if_neg hbad]
    split <;> rfl
  have hcr : (exec regular (.ungetc c) f s).2.1.canread = f.canread := by
    simp only [exec, ungetcUnlocked, if_neg hbad]
    split <;> rfl
  rw [hok]
  exact Reading.synced hsim fun hr => hbs.trans (h.blind (hcr.symm.trans hr))

theorem fflush_bs (f : File) (s : Regular) (h : f.canread = false → f.bs = 0) :
    (fflushUnlocked regular f s).2.1.canread = false →
      (fflushUnlocked regular f s).2.1.bs = 0 := by
  intro hr
  rw [fflush_canread] at hr
  have hbs := h hr
  unfold fflushUnlocked
  dsimp only
  repeat' split
  all_goals first | rfl | exact hbs

/-- **`fflush`**, from a sound state. -/
theorem fflush_synced (h : Synced f s m) (hs : Sound f s .fflush) :
    Synced (exec regular .fflush f s).2.1 (exec regular .fflush f s).2.2
      (m.after f.canwrite .fflush (exec regular .fflush f s).1) := by
  have hfull : exec regular .fflush f.full s = via File.full (exec regular .fflush f s) := by
    simp only [exec, File.full, fflush_as]
    rfl
  have hafter : m.after f.canwrite .fflush (exec regular .fflush f s).1 = (m.exec .fflush).2 := by
    cases (exec regular .fflush f s).1 <;> rfl
  rw [hafter]
  refine Reading.synced ?_ (fflush_bs f s h.blind)
  rcases h.side with hin | hout
  · have hsim := fflush_sim_input hin hs
    rw [hfull] at hsim
    exact hsim.1
  · have hsim := fflush_sim_output hout
    rw [hfull] at hsim
    exact hsim.1

/-- **`fseek`**, from a sound state. -/
theorem fseek_synced {offset : Int} {whence : Whence} (h : Synced f s m)
    (hs : Sound f s (.fseek offset whence)) :
    Synced (exec regular (.fseek offset whence) f s).2.1
      (exec regular (.fseek offset whence) f s).2.2
      (m.after f.canwrite (.fseek offset whence) (exec regular (.fseek offset whence) f s).1) := by
  have hfull : exec regular (.fseek offset whence) f.full s =
      via File.full (exec regular (.fseek offset whence) f s) := by
    simp only [exec, File.full, fseek_as]
    rfl
  have hafter : m.after f.canwrite (.fseek offset whence)
      (exec regular (.fseek offset whence) f s).1 = (m.exec (.fseek offset whence)).2 := by
    cases (exec regular (.fseek offset whence) f s).1 <;> rfl
  rw [hafter]
  refine Reading.synced ?_ fun _ => ?_
  · rcases h.side with hin | hout
    · have hsim := fseek_sim_input hin hs
      rw [hfull] at hsim
      exact hsim.1
    · obtain ⟨f', s', he, hst, -, -, -, hbytes, htell, -⟩ := hout.flushed
      have hsim : Sim .free (exec regular (.fseek offset whence) f.full s).2.1 _ _ :=
        fseek_sim he hst hbytes (fun _ => htell) fun _ => ⟨htell, hout.next⟩
      rw [hfull] at hsim
      exact hsim.1
  · simp only [exec, fseekUnlocked]
    split <;> rfl

/-! ## Output -/

theorem Took.full {d : Dev Regular} {data : List UInt8} (h : Took d f s data f' s') :
    Took d f.full s data f'.full s' :=
  ⟨⟨rfl, h.ok.output, h.ok.bm_le, h.ok.buflen_pos, h.ok.buflen_lt, nofun⟩,
    ⟨h.same.buflen, rfl, rfl, h.same.fdpipe, h.same.eof, h.same.bs, h.same.linewise,
      h.same.ungotten⟩, h.bytes⟩

/-- The switch from input to output: what was read ahead and the byte pushed back are given back. -/
theorem Reading.turn (h : Reading f s m) (hs : Safe f s .fflush) :
    ∃ f' s', fflush4 regular f s false = (true, f', s') ∧ f'.bm = 0 ∧
      Writing f' s' (m.goto m.tell.toNat) := by
  have hpos := tellOf_nonneg hs
  have hwriting {f' : File} {s' : Regular} (hst : Steady f') (hbm : f'.bm = 0) (hbs : f'.bs = 0)
      (hu' : f'.ungotten = false) (hout : f'.bufinput = false)
      (he : f'.eof = true → s'.bytes.length ≤ s'.off) (hbytes : s'.bytes = s.bytes)
      (htell : (s'.off : Int) = tellOf f s) : Writing f' s' (m.goto m.tell.toNat) := by
    refine .of_empty hst hbm hbs hu' hout he (h.bytes.trans hbytes.symm) ?_ ?_
    · rw [Plain.tell_goto, h.tell, htell]
      exact Int.toNat_of_nonneg hpos
    · rw [Plain.tell_goto]
      rfl
  unfold fflush4
  by_cases hd : f.bufinput = false
  · have hbs := h.held.dir hd
    have hbm : f.bm = 0 := by
      have := h.held.bm_le
      omega
    have hu : f.ungotten = false := by
      by_contra hne
      have := (hs (by simpa using hne)).1
      omega
    rw [if_pos hd]
    refine ⟨f, s, rfl, hbm,
      hwriting h.held.steady hbm hbs hu hd (fun he => (h.held.eof he).2.1) rfl ?_⟩
    rw [tellOf, Filled.place_empty (hbm.trans hbs.symm), hu]
    simp
  · obtain ⟨f', s', he, hbytes, hst, hbm, hbs, hu', -, heof, htell⟩ := fflush_input h.held
    rw [if_neg hd, he]
    exact ⟨_, s', rfl, hbm, hwriting ⟨hst.canread, hst.canwrite, hst.fdpipe, hst.nobuf,
      hst.buflen_pos, hst.buflen_lt⟩ hbm hbs hu' rfl heof hbytes (htell hs)⟩

/-- An output call finds a stream in output, at the same position. -/
theorem Synced.toOutput (h : Synced f s m) (hw : f.canwrite = true) (hs : Safe f s .fflush) :
    ∃ f' s' m', fflush4 regular f s false = (true, f', s') ∧ OutOk f' ∧ Writing f'.full s' m' ∧
      ∀ d, m'.write d = m.write d := by
  have hcw : (fflush4 regular f s false).2.1.canwrite = f.canwrite := by
    unfold fflush4 fflushUnlocked
    dsimp only
    repeat' split
    all_goals rfl
  rcases h.side with hin | hout
  · obtain ⟨f1, s1, he, hbm, hout⟩ := hin.turn hs
    rw [File.full, fflush4_as] at he
    obtain ⟨hok, hpair⟩ := Prod.mk.inj he
    obtain ⟨hf1, hs1⟩ := Prod.mk.inj hpair
    subst hf1 hs1
    have ho := hout.ok
    refine ⟨_, _, _, Prod.ext hok rfl, ⟨hcw.trans hw, ho.output, ho.bm_le, ho.buflen_pos,
      ho.buflen_lt, fun _ => hbm⟩, hout, fun d => m.write_goto d⟩
  · have ho := hout.ok
    have hd : f.bufinput = false := ho.output
    exact ⟨f, s, m, fflush4_output hd s, ⟨hw, ho.output, ho.bm_le, ho.buflen_pos,
      ho.buflen_lt, fun hn => h.idle hn ho.output⟩, hout, fun _ => rfl⟩

theorem Writing.synced (h : Writing f.full s m) (ho : OutOk f) : Synced f s m :=
  ⟨.inr h, fun hn _ => ho.nobuf hn, fun _ => h.bs⟩

/-- **`fputc`**, from a sound state. -/
theorem fputc_synced {c : Int} (h : Synced f s m) (hs : Sound f s (.fputc c)) :
    Synced (exec regular (.fputc c) f s).2.1 (exec regular (.fputc c) f s).2.2
      (m.after f.canwrite (.fputc c) (exec regular (.fputc c) f s).1) := by
  cases hw : f.canwrite with
  | false =>
    have hbad : fputcUnlocked regular c f s = (false, { f with error := true }, s) := by
      unfold fputcUnlocked
      rw [if_pos (by simp [hw])]
    simp only [exec, hbad, Plain.after]
    exact h.error
  | true =>
    obtain ⟨f1, s1, m1, he, ho, hout, hsame⟩ := h.toOutput hw (hs hw)
    obtain ⟨f2, s2, he2, ht⟩ := fputc_took regular_full ho c s1
    have hcall : fputcUnlocked regular c f s = (true, f2, s2) := by
      rw [← he2]
      unfold fputcUnlocked
      rw [if_neg (by simp [hw]), if_neg (by simp [ho.canwrite]), he, fflush4_output ho.output]
    simp only [exec, hcall]
    have hnext := hout.took ht.full
    rw [hsame] at hnext
    exact hnext.synced ht.ok

/-- **`fwrite`**, from a sound state. -/
theorem fwrite_synced {data : List UInt8} {size nmemb : Nat} (h : Synced f s m)
    (hv : (Op.fwrite data size nmemb).Valid) (hs : Sound f s (.fwrite data size nmemb)) :
    Synced (exec regular (.fwrite data size nmemb) f s).2.1
      (exec regular (.fwrite data size nmemb) f s).2.2
      (m.after f.canwrite (.fwrite data size nmemb)
        (exec regular (.fwrite data size nmemb) f s).1) := by
  cases hw : f.canwrite with
  | false =>
    have hbad : fwriteUnlocked regular data size nmemb f s = (0, { f with error := true }, s) := by
      unfold fwriteUnlocked
      dsimp only
      rw [if_pos (by simp [hw])]
    simp only [exec, hbad, Plain.after]
    exact h.error
  | true =>
    obtain ⟨f1, s1, m1, he, ho, hout, hsame⟩ := h.toOutput hw (hs hw)
    obtain ⟨n, f2, s2, he2, ht, hn⟩ := fwrite_took regular_full ho hv s1
    have hcall : fwriteUnlocked regular data size nmemb f s = (n, f2, s2) := by
      rw [← he2]
      unfold fwriteUnlocked
      rw [if_neg (by simp [hw]), if_neg (by simp [ho.canwrite]), he, fflush4_output ho.output]
    have hdata : data.take (n * size) = (Op.fwrite data size nmemb).accepted := by
      show _ = if size * nmemb < 2 ^ 64 then data else []
      rcases hv with ⟨hlen, hlt⟩ | hov
      · rw [if_pos (by omega)]
        by_cases h0 : size = 0
        · rw [h0, Nat.zero_mul] at hlen
          rw [List.length_eq_zero_iff.mp hlen, List.take_nil]
        · rw [hn (Nat.pos_of_ne_zero h0) (by omega), Nat.mul_comm, ← hlen, List.take_length]
      · have hzero : n = 0 := by
          have hrefused : (fwriteUnlocked regular data size nmemb f1 s1).1 = 0 := by
            unfold fwriteUnlocked
            dsimp only
            rw [if_neg (by simp [ho.canwrite]), fflush4_output ho.output]
            dsimp only
            rw [if_pos]
            by_cases hn0 : nmemb = 0
            · exact .inl hn0
            · exact .inr fun hdiv => Nat.not_lt_of_le hov ((mul_check hn0).mp hdiv)
          rw [he2] at hrefused
          exact hrefused
        rw [if_neg (by omega), hzero, Nat.zero_mul, List.take_zero]
    simp only [exec, hcall, Plain.after, if_true]
    have hnext := hout.took ht.full
    rw [hsame, ← hdata] at hnext
    exact hnext.synced ht.ok

/-! ## Runs -/

/-- **A sound call** keeps the relation. -/
theorem exec_synced (h : Synced f s m) (hv : op.Valid) (hs : Sound f s op) :
    Synced (exec regular op f s).2.1 (exec regular op f s).2.2
      (m.after f.canwrite op (exec regular op f s).1) := by
  cases op with
  | fgetc => exact fgetc_synced h
  | fread size nmemb => exact fread_synced h hs
  | fgets size => exact fgets_synced h
  | ungetc c => exact ungetc_synced h hs
  | fputc c => exact fputc_synced h hs
  | fwrite data size nmemb => exact fwrite_synced h hv hs
  | fflush => exact fflush_synced h hs
  | fseek offset whence => exact fseek_synced h hs

/-- **A run of sound calls** keeps the relation. -/
theorem run_synced {ops : List Op} (h : Synced f s m) (hs : AllSound ops f s) :
    Synced (run regular ops f s).2.1 (run regular ops f s).2.2 (standing ops f s m) := by
  induction ops generalizing f s m with
  | nil => exact h
  | cons op ops ih =>
    obtain ⟨hv, hsound, hrest⟩ := hs
    exact ih (exec_synced h hv hsound) hrest

/-- A stream that has just been made stands at the offset of the file. -/
theorem Made.synced (h : Made f) (bytes : List UInt8) (off : Nat) :
    Synced f ⟨bytes, off⟩ ⟨bytes, off, []⟩ := by
  refine Reading.synced ?_ fun _ => h.bs
  refine .of_empty ⟨rfl, rfl, h.fdpipe, rfl, h.buflen_pos, h.buflen_lt⟩ h.bm h.bs h.ungotten
    (fun he => ?_) rfl ?_ ?_
  · have he : f.eof = true := he
    rw [h.eof] at he
    cases he
  · simp [Plain.tell]
  · simp [Plain.tell, Plain.next]

end Dietlibc.Stdio
