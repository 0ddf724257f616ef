import Dietlibc.Stdio.File

/-!
# Output streams

`Took d f s data f' s'`: from stream `f` and kernel state `s`, the bytes `data` were taken.
The kernel saw a sequence of writes `chunks`, and `chunks` followed by what is pending in `f'`
is what was pending in `f` followed by `data`. Every output function satisfies it when the
kernel takes all writes completely, in every buffering mode, and `Took` composes.
-/

namespace Dietlibc.Stdio

open CInt

variable {σ : Type} {d : Dev σ} {f f' f'' : File} {s s' s'' : σ} {data : List UInt8}

/-- Every write is taken completely. The count is an `ssize_t`. -/
def FullWrites (d : Dev σ) : Prop :=
  ∀ s data, data.length < 2 ^ 63 → (d.write s data).1 = .wrote data.length

/-- The kernel after a sequence of writes. -/
def writeAll (d : Dev σ) (s : σ) (chunks : List (List UInt8)) : σ :=
  chunks.foldl (fun s c => (d.write s c).2) s

/-- A stream in output direction. -/
structure OutOk (f : File) : Prop where
  canwrite : f.canwrite = true
  output : f.bufinput = false
  bm_le : f.bm ≤ f.buflen
  buflen_pos : 1 ≤ f.buflen
  buflen_lt : f.buflen < 2 ^ 32
  nobuf : f.nobuf = true → f.bm = 0

/-- What output leaves alone. -/
structure OutSame (f f' : File) : Prop where
  buflen : f'.buflen = f.buflen
  nobuf : f'.nobuf = f.nobuf
  canread : f'.canread = f.canread
  fdpipe : f'.fdpipe = f.fdpipe
  eof : f'.eof = f.eof
  bs : f'.bs = f.bs
  linewise : f.buflinewise = false → f'.buflinewise = false
  ungotten : f.ungotten = false → f'.ungotten = false

/-- The bytes `data` were taken, in order and once. -/
structure Took (d : Dev σ) (f : File) (s : σ) (data : List UInt8) (f' : File) (s' : σ) : Prop where
  ok : OutOk f'
  same : OutSame f f'
  bytes : ∃ chunks, s' = writeAll d s chunks ∧ f.pending ++ data = chunks.flatten ++ f'.pending

theorem OutSame.refl (f : File) : OutSame f f :=
  ⟨rfl, rfl, rfl, rfl, rfl, rfl, id, id⟩

theorem OutSame.trans (h : OutSame f f') (h' : OutSame f' f'') : OutSame f f'' :=
  ⟨h'.buflen.trans h.buflen, h'.nobuf.trans h.nobuf, h'.canread.trans h.canread,
    h'.fdpipe.trans h.fdpipe, h'.eof.trans h.eof, h'.bs.trans h.bs,
    fun e => h'.linewise (h.linewise e), fun e => h'.ungotten (h.ungotten e)⟩

theorem Took.refl (h : OutOk f) (s : σ) : Took d f s [] f s :=
  ⟨h, .refl f, [], rfl, by simp⟩

theorem Took.trans {data' : List UInt8} (h : Took d f s data f' s')
    (h' : Took d f' s' data' f'' s'') : Took d f s (data ++ data') f'' s'' := by
  obtain ⟨c, rfl, e⟩ := h.bytes
  obtain ⟨c', rfl, e'⟩ := h'.bytes
  refine ⟨h'.ok, h.same.trans h'.same, c ++ c', by simp [writeAll], ?_⟩
  rw [← List.append_assoc, e, List.append_assoc, e', List.flatten_append, List.append_assoc]

/-- Bytes copied into the free part of the buffer. -/
theorem took_store (h : OutOk f) (hn : f.nobuf = false) (data : List UInt8)
    (hfit : f.bm + data.length ≤ f.buflen) (s : σ) : Took d f s data
      { f with buf := f.buf.store f.bm data, bm := f.bm + data.length } s := by
  refine ⟨⟨h.canwrite, h.output, hfit, h.buflen_pos, h.buflen_lt, fun hb => ?_⟩,
    ⟨rfl, rfl, rfl, rfl, rfl, rfl, id, id⟩, [], rfl, ?_⟩
  · rw [hn] at hb; cases hb
  · have := Mem.load_store_append (m := f.buf) (a := 0) (n := f.bm) (d := data) rfl
    rw [Nat.zero_add] at this
    simp only [File.pending, this, List.flatten_nil, List.nil_append]

/-- Bytes written past an empty buffer. -/
theorem took_write (h : OutOk f) (hb : f.bm = 0) (data : List UInt8) (s : σ) :
    Took d f s data f (d.write s data).2 := by
  refine ⟨h, .refl f, [data], rfl, ?_⟩
  simp [File.pending, hb]

theorem fflush_took (hw : FullWrites d) (h : OutOk f) (s : σ) :
    ∃ f' s', fflushUnlocked d f s = (true, f', s') ∧ Took d f s [] f' s' ∧ f'.bm = 0 ∧
      f'.buflinewise = f.buflinewise := by
  unfold fflushUnlocked
  rw [if_neg (by simp [h.output])]
  by_cases hb : f.bm = 0
  · rw [if_pos hb]
    refine ⟨_, _, rfl, ⟨⟨h.canwrite, h.output, h.bm_le, h.buflen_pos, h.buflen_lt, h.nobuf⟩,
      ⟨rfl, rfl, rfl, rfl, rfl, rfl, id, fun _ => rfl⟩, [], rfl, ?_⟩, hb, rfl⟩
    simp [File.pending]
  · rw [if_neg hb]
    have hl : f.pending.length = f.bm := by simp [File.pending]
    have hlt := h.bm_le; have hlt' := h.buflen_lt
    have hr := hw s f.pending (by omega)
    rw [hl] at hr
    rcases hwr : d.write s f.pending with ⟨r, s1⟩
    rw [hwr] at hr
    simp only at hr
    subst hr
    simp only [if_true]
    refine ⟨_, _, rfl, ⟨⟨h.canwrite, h.output, Nat.zero_le _, h.buflen_pos, h.buflen_lt,
      fun _ => rfl⟩, ⟨rfl, rfl, rfl, rfl, rfl, rfl, id, fun _ => rfl⟩, [f.pending], ?_, ?_⟩,
      rfl, rfl⟩
    · simp [writeAll, hwr]
    · simp [File.pending]

theorem fflush4_output (h : f.bufinput = false) (s : σ) : fflush4 d f s false = (true, f, s) := by
  unfold fflush4
  rw [if_pos h]

theorem uchar_charToInt (b : UInt8) : uchar (charToInt b) = b := by
  have hb : b.toNat < 256 := b.toNat_lt
  have he : (charToInt b % 256).toNat = b.toNat := by
    unfold charToInt
    split <;> omega
  rw [uchar, he, UInt8.ofNat_toNat]

theorem putBuf_took (hw : FullWrites d) (h : OutOk f) (hlt : f.bm < f.buflen) (c : Int) (s : σ) :
    ∃ f' s', putBuf d c f s = (true, f', s') ∧ Took d f s [uchar c] f' s' := by
  unfold putBuf
  by_cases hn : f.nobuf = true
  · rw [if_pos hn]
    have hr : (d.write s [uchar c]).1 = .wrote 1 := hw s [uchar c] (by simp)
    have ht := took_write (d := d) h (h.nobuf hn) [uchar c] s
    rcases hwr : d.write s [uchar c] with ⟨r, s1⟩
    rw [hwr] at hr ht
    simp only at hr
    subst hr
    exact ⟨f, s1, rfl, ht⟩
  · rw [if_neg hn]
    have ht := took_store (d := d) h (by simpa using hn) [uchar c] hlt s
    simp only [List.length_singleton] at ht
    dsimp only
    split
    · obtain ⟨f', s', he, ht', -, -⟩ := fflush_took hw ht.ok s
      simp only [he]
      exact ⟨f', s', rfl, ht.trans ht'⟩
    · exact ⟨_, _, rfl, ht⟩

theorem fputc_took (hw : FullWrites d) (h : OutOk f) (c : Int) (s : σ) :
    ∃ f' s', fputcUnlocked d c f s = (true, f', s') ∧ Took d f s [uchar c] f' s' := by
  unfold fputcUnlocked
  rw [if_neg (by simp [h.canwrite]), fflush4_output h.output]
  simp only [usub_of_le h.buflen_pos h.buflen_lt]
  have hpos := h.buflen_pos
  split
  · obtain ⟨f1, s1, he, ht, hb, -⟩ := fflush_took hw h s
    have hlt : f1.bm < f1.buflen := by have := ht.ok.buflen_pos; omega
    obtain ⟨f2, s2, he2, ht2⟩ := putBuf_took hw ht.ok hlt c s1
    simp only [he, he2]
    exact ⟨f2, s2, rfl, ht.trans ht2⟩
  · exact putBuf_took hw h (by omega) c s

theorem putLoop_took (hw : FullWrites d) (h : OutOk f) (data : List UInt8) (s : σ) :
    ∃ f' s', putLoop d data f s = (0, f', s') ∧ Took d f s data f' s' := by
  induction data generalizing f s with
  | nil => exact ⟨f, s, rfl, .refl h s⟩
  | cons c cs ih =>
    obtain ⟨f1, s1, he, ht⟩ := fputc_took hw h (charToInt c) s
    obtain ⟨f2, s2, he2, ht2⟩ := ih ht.ok s1
    rw [uchar_charToInt] at ht
    refine ⟨f2, s2, ?_, ht.trans ht2⟩
    simp only [putLoop, he, he2]

theorem lineLoop_took (hw : FullWrites d) (h : OutOk f) (hn : f.nobuf = false)
    (hfit : f.bm + data.length ≤ f.buflen) (s : σ) :
    ∃ f' s', lineLoop d data f s = (true, f', s') ∧ Took d f s data f' s' := by
  induction data generalizing f s with
  | nil => exact ⟨f, s, rfl, .refl h s⟩
  | cons c cs ih =>
    rw [List.length_cons] at hfit
    have ht := took_store (d := d) h hn [c] (by simp; omega) s
    simp only [List.length_singleton] at ht
    unfold lineLoop
    split
    · obtain ⟨f1, s1, he, ht1, hb, -⟩ := fflush_took hw ht.ok s
      have hn1 : f1.nobuf = false := ht1.same.nobuf.trans hn
      have hl1 : f1.buflen = f.buflen := ht1.same.buflen
      obtain ⟨f2, s2, he2, ht2⟩ := ih ht1.ok hn1 (by omega) s1
      simp only [he, he2]
      exact ⟨f2, s2, rfl, (ht.trans ht1).trans ht2⟩
    · obtain ⟨f2, s2, he2, ht2⟩ := ih ht.ok hn (by simp only; omega) s
      exact ⟨f2, s2, he2, ht.trans ht2⟩

theorem fwriteRest_took (hw : FullWrites d) (h : OutOk f) (size len : Nat) (data : List UInt8)
    (s : σ) : ∃ f' s', fwriteRest d size len data f s = (if size = 0 then 0 else len / size, f', s') ∧
      Took d f s data f' s' := by
  obtain ⟨f1, s1, he, ht⟩ := putLoop_took hw h data s
  exact ⟨f1, s1, by simp only [fwriteRest, he], ht⟩

theorem checkTty_took (h : OutOk f) (s : σ) : Took d f s [] (checkTty d f s) s := by
  unfold checkTty
  split
  · rename_i hl
    refine ⟨⟨h.canwrite, h.output, h.bm_le, h.buflen_pos, h.buflen_lt, h.nobuf⟩,
      ⟨rfl, rfl, rfl, rfl, rfl, rfl, fun e => ?_, id⟩, [], rfl, by simp [File.pending]⟩
    rw [hl.1] at e
    cases e
  · exact .refl h s

theorem checkTty_bm (s : σ) : (checkTty d f s).bm = f.bm := by
  unfold checkTty
  split <;> rfl

/-- The block at `again:`. It is entered once more only with an empty buffer that is not line
buffered, and then never reaches the loop over `fputc_unlocked`. -/
theorem fwriteAgain_took (hw : FullWrites d) (h : OutOk f) (hn : f.nobuf = false)
    {size nmemb : Nat} (hz : size = 0 → data = [])
    (hl : data.length = size * nmemb ∨ (f.bm = 0 ∧ f.buflinewise = false ∧ data ≠ [])) (s : σ) :
    ∃ n f' s', fwriteAgain d size nmemb data f s = (n, f', s') ∧ Took d f s data f' s' ∧
      (0 < size → n = nmemb) := by
  induction hlen : data.length using Nat.strong_induction_on generalizing data f s with
  | _ len ih =>
    have hpos := h.buflen_pos
    have hle := h.bm_le
    have hu : usub 32 f.buflen f.bm = f.buflen - f.bm := usub_of_le h.bm_le h.buflen_lt
    unfold fwriteAgain
    rw [hu]
    dsimp only
    have hdiv : data.length = size * nmemb → 0 < size →
        (if size = 0 then 0 else data.length / size) = nmemb := by
      intro e h0
      rw [if_neg (by omega), e, Nat.mul_div_cancel_left _ h0]
    split
    · rename_i htodo
      obtain ⟨f1, s1, he, ht⟩ := fwriteRest_took hw h size data.length data s
      refine ⟨_, f1, s1, he, ht, hdiv ?_⟩
      rcases hl with hl | ⟨hb, -, hne⟩
      · exact hl
      · have := List.length_pos_iff.mpr hne
        omega
    · rename_i htodo
      set todo := min (f.buflen - f.bm) data.length with htd
      have htake : (data.take todo).length = todo := by simp [htd]
      have hdrop : (data.drop todo).length = data.length - todo := List.length_drop
      have happ : data.take todo ++ data.drop todo = data := List.take_append_drop todo data
      have hc := checkTty_took (d := d) h s
      have hcb : (checkTty d f s).bm = f.bm := checkTty_bm s
      have hcn : (checkTty d f s).nobuf = false := hc.same.nobuf.trans hn
      have hcl : (checkTty d f s).buflen = f.buflen := hc.same.buflen
      split
      · rename_i hlw
        obtain ⟨f1, s1, he1, ht1⟩ := lineLoop_took hw hc.ok hcn
          (show _ + (data.take todo).length ≤ _ by omega) s
        obtain ⟨f2, s2, he2, ht2⟩ := fwriteRest_took hw ht1.ok size data.length (data.drop todo) s1
        simp only [he1, he2]
        have ht := (hc.trans ht1).trans ht2
        rw [List.nil_append, happ] at ht
        refine ⟨_, f2, s2, rfl, ht, hdiv ?_⟩
        rcases hl with hl | ⟨-, hb, -⟩
        · exact hl
        · rw [hc.same.linewise hb] at hlw
          cases hlw
      · rename_i hlw
        have ht1 := took_store (d := d) hc.ok hcn (data.take todo) (by omega) s
        rw [htake] at ht1
        have ht1 := hc.trans ht1
        split
        · rename_i hfull
          obtain ⟨f2, s2, he2, ht2, hb2, hl2⟩ := fflush_took hw ht1.ok s
          simp only [he2]
          have ht2 := ht1.trans ht2
          rw [List.nil_append, List.append_nil] at ht2
          split
          · rename_i hnil
            rw [List.length_eq_zero_iff.mp hnil, List.append_nil] at happ
            rw [happ] at ht2
            exact ⟨nmemb, f2, s2, rfl, ht2, fun _ => rfl⟩
          · rename_i hne
            have hne' : data.drop todo ≠ [] := fun e => hne (by rw [e]; rfl)
            obtain ⟨n, f3, s3, he3, ht3, hn3⟩ := ih _ (by omega) ht2.ok (ht2.same.nobuf.trans hn)
              (fun e => by rw [hz e, List.drop_nil])
              (.inr ⟨hb2, hl2.trans (by simpa using hlw), hne'⟩) s2 rfl
            have ht3 := ht2.trans ht3
            rw [happ] at ht3
            exact ⟨n, f3, s3, he3, ht3, hn3⟩
        · rename_i hfull
          have hall : data.drop todo = [] := by
            apply List.length_eq_zero_iff.mp
            omega
          rw [hall, List.append_nil] at happ
          rw [happ] at ht1 ⊢
          exact ⟨nmemb, _, s, rfl, ht1, fun _ => rfl⟩

theorem writeRetry_full (hw : FullWrites d) (hl : data.length < 2 ^ 63) (s : σ) :
    writeRetry d data s = (some data.length, (d.write s data).2) := by
  have hr := hw s data hl
  unfold writeRetry
  split <;> simp_all

/-- The bytes a call hands to the stream. -/
def Op.accepted : Op → List UInt8
  | .fputc c => [uchar c]
  | .fwrite data size nmemb => if size * nmemb < 2 ^ 64 then data else []
  | _ => []

/-- `size * nmemb` overflows exactly when the check of `fwrite_unlocked` says so. -/
theorem mul_check {size nmemb : Nat} (hn : nmemb ≠ 0) :
    size * nmemb % 2 ^ 64 / nmemb = size ↔ size * nmemb < 2 ^ 64 := by
  have hpos : 0 < nmemb := Nat.pos_of_ne_zero hn
  constructor
  · intro h
    by_contra hc
    have hlt : size * nmemb % 2 ^ 64 < size * nmemb := by omega
    have := (Nat.div_lt_iff_lt_mul hpos).mpr hlt
    omega
  · intro h
    rw [Nat.mod_eq_of_lt h, Nat.mul_div_cancel _ hpos]

theorem fwrite_took (hw : FullWrites d) (h : OutOk f) {size nmemb : Nat}
    (hv : (Op.fwrite data size nmemb).Valid) (s : σ) :
    ∃ n f' s', fwriteUnlocked d data size nmemb f s = (n, f', s') ∧
      Took d f s (Op.fwrite data size nmemb).accepted f' s' ∧
      (0 < size → size * nmemb < 2 ^ 64 → n = nmemb) := by
  unfold fwriteUnlocked
  simp only
  rw [if_neg (by simp [h.canwrite]), fflush4_output h.output]
  simp only [Op.accepted]
  rcases hv with ⟨hd, hlt⟩ | hov
  · have hlt' : size * nmemb < 2 ^ 64 := by omega
    rw [Nat.mod_eq_of_lt hlt', if_pos hlt']
    by_cases hn : nmemb = 0
    · subst hn
      rw [if_pos (.inl rfl)]
      rw [Nat.mul_zero, List.length_eq_zero_iff] at hd
      subst hd
      exact ⟨0, f, s, rfl, .refl h s, fun _ _ => rfl⟩
    · have hchk := (mul_check hn).mpr hlt'
      rw [Nat.mod_eq_of_lt hlt'] at hchk
      rw [if_neg (by simp [hn, hchk])]
      split
      · obtain ⟨f1, s1, he, ht, hb, -⟩ := fflush_took hw h s
        simp only [he, writeRetry_full hw (show data.length < 2 ^ 63 by omega)]
        refine ⟨_, f1, _, rfl, ht.trans (took_write ht.ok hb data s1), fun h0 _ => ?_⟩
        rw [if_neg (by omega), hd, Nat.mul_div_cancel_left _ h0]
      · rename_i hsmall
        obtain ⟨n, f1, s1, he, ht, hr⟩ := fwriteAgain_took hw h (by simpa using (not_or.mp hsmall).2)
          (fun e => by rw [e, Nat.zero_mul, List.length_eq_zero_iff] at hd; exact hd) (.inl hd) s
        exact ⟨n, f1, s1, he, ht, fun h0 _ => hr h0⟩
  · have hcond : nmemb = 0 ∨ size * nmemb % 2 ^ 64 / nmemb ≠ size := by
      by_cases hn : nmemb = 0
      · exact .inl hn
      · refine .inr fun e => ?_
        have := (mul_check hn).mp e
        omega
    have hge : ¬ size * nmemb < 2 ^ 64 := by omega
    rw [if_pos hcond, if_neg hge]
    exact ⟨0, f, s, rfl, .refl h s, fun _ hc => absurd hc hge⟩

/-! ## Runs -/

/-- The kernel `d` with a record of all data passed to `write(2)`. -/
def traced (d : Dev σ) : Dev (σ × List UInt8) where
  read := fun (s, t) n => let (r, s) := d.read s n; (r, s, t)
  write := fun (s, t) data => let (r, s) := d.write s data; (r, s, t ++ data)
  lseek := fun (s, t) o w => let (r, s) := d.lseek s o w; (r, s, t)
  isatty := fun (s, _) => d.isatty s
  patience := fun (s, _) => d.patience s
  read_le := fun (s, _) n bs s' h =>
    d.read_le s n bs s'.1 (by rw [← (Prod.mk.inj h).1, ← (Prod.mk.inj h).2])
  eintr_lt := fun (s, _) data s' h =>
    d.eintr_lt s data s'.1 (by rw [← (Prod.mk.inj h).1, ← (Prod.mk.inj h).2])

theorem traced_full (hw : FullWrites d) : FullWrites (traced d) :=
  fun s data hl => hw s.1 data hl

theorem traced_writeAll (p : σ × List UInt8) (chunks : List (List UInt8)) :
    (writeAll (traced d) p chunks).2 = p.2 ++ chunks.flatten := by
  induction chunks generalizing p with
  | nil => simp [writeAll]
  | cons c cs ih =>
    have := ih ((traced d).write p c).2
    simp only [writeAll, List.foldl_cons] at this ⊢
    rw [this]
    simp [traced]

/-- The calls that only write. -/
def Op.IsOutput : Op → Prop
  | .fputc _ | .fwrite _ _ _ | .fflush => True
  | _ => False

/-- What an output call returns when the stream takes everything. -/
def Op.Answers : Op → Res → Prop
  | .fwrite _ size nmemb, r =>
    ∃ n, r = .wrote n ∧ (0 < size → size * nmemb < 2 ^ 64 → n = nmemb)
  | _, r => r = .status true

theorem exec_took (hw : FullWrites d) (h : OutOk f) {op : Op} (ho : op.IsOutput) (hv : op.Valid)
    (s : σ) : ∃ r f' s', exec d op f s = (r, f', s') ∧ Took d f s op.accepted f' s' ∧
      op.Answers r := by
  cases op with
  | fputc c =>
    obtain ⟨f', s', he, ht⟩ := fputc_took hw h c s
    exact ⟨_, f', s', by simp only [exec, he], ht, rfl⟩
  | fwrite data size nmemb =>
    obtain ⟨n, f', s', he, ht, hr⟩ := fwrite_took hw h hv s
    exact ⟨_, f', s', by simp only [exec, he], ht, n, rfl, hr⟩
  | fflush =>
    obtain ⟨f', s', he, ht, -⟩ := fflush_took hw h s
    exact ⟨_, f', s', by simp only [exec, he], ht, rfl⟩
  | _ => exact ho.elim

theorem run_took (hw : FullWrites d) (h : OutOk f) {ops : List Op}
    (ho : ∀ op ∈ ops, op.IsOutput ∧ op.Valid) (s : σ) :
    ∃ rs f' s', run d ops f s = (rs, f', s') ∧ Took d f s (ops.flatMap Op.accepted) f' s' ∧
      List.Forall₂ Op.Answers ops rs := by
  induction ops generalizing f s with
  | nil => exact ⟨[], f, s, rfl, .refl h s, .nil⟩
  | cons op ops ih =>
    have hop := ho op List.mem_cons_self
    obtain ⟨r, f1, s1, he, ht, hr⟩ := exec_took hw h hop.1 hop.2 s
    obtain ⟨rs, f2, s2, he2, ht2, hrs⟩ := ih ht.ok (fun o m => ho o (List.mem_cons_of_mem _ m)) s1
    refine ⟨r :: rs, f2, s2, by simp only [run, he, he2], ?_, .cons hr hrs⟩
    rw [List.flatMap_cons]
    exact ht.trans ht2

/-- An output stream in any buffering mode, before its first call. -/
structure Fresh (f : File) : Prop where
  canwrite : f.canwrite = true
  output : f.bufinput = false
  bm : f.bm = 0
  buflen_pos : 1 ≤ f.buflen
  buflen_lt : f.buflen < 2 ^ 32

/-- **Output is neither lost, duplicated nor reordered.** After any calls, the data passed to
`write(2)` followed by the pending bytes is what the calls handed over, and every call reports
success. -/
theorem run_output (hw : FullWrites d) (h : Fresh f) {ops : List Op}
    (ho : ∀ op ∈ ops, op.IsOutput ∧ op.Valid) (s : σ) :
    ∃ rs f' s' written, run (traced d) ops f (s, []) = (rs, f', s', written) ∧
      written ++ f'.pending = ops.flatMap Op.accepted ∧
      f'.bm ≤ f'.buflen ∧ f'.buflen = f.buflen ∧ List.Forall₂ Op.Answers ops rs := by
  have hok : OutOk f := ⟨h.canwrite, h.output, by rw [h.bm]; exact Nat.zero_le _, h.buflen_pos,
    h.buflen_lt, fun _ => h.bm⟩
  obtain ⟨rs, f', ⟨s', t⟩, he, ht, hr⟩ := run_took (traced_full hw) hok ho (s, [])
  obtain ⟨chunks, hs, hb⟩ := ht.bytes
  have htr := traced_writeAll (d := d) (s, []) chunks
  rw [← hs, List.nil_append] at htr
  simp only at htr
  refine ⟨rs, f', s', t, he, ?_, ht.ok.bm_le, ht.same.buflen, hr⟩
  rw [htr, ← hb]
  simp [File.pending, h.bm]

/-- A terminal that takes every write. -/
def sink : Dev Unit where
  read := fun _ _ => (some [], ())
  write := fun _ data => (.wrote data.length, ())
  lseek := fun _ _ _ => (none, ())
  isatty := fun _ => true
  patience := fun _ => 0
  read_le := fun _ _ _ _ h => by cases h; simp
  eintr_lt := fun _ _ _ h => by cases h

/-- A stream as `stdout` is, with a buffer of three bytes. -/
def stdout3 : File where
  error := false
  eof := false
  bufinput := false
  buflinewise := true
  nobuf := false
  fdpipe := false
  canread := false
  canwrite := true
  checklinewise := true
  bs := 0
  bm := 0
  buflen := 3
  buf := fun _ => 0
  ungetbuf := 0
  ungotten := false

theorem run_output_stdout3 :
    ∃ rs f' s' written,
      run (traced sink) [.fputc 97, .fwrite [98, 10, 99, 100] 2 2, .fputc 101] stdout3 ((), []) =
        (rs, f', s', written) ∧
      written ++ f'.pending = [97, 98, 10, 99, 100, 101] ∧ f'.bm ≤ f'.buflen ∧ f'.buflen = 3 ∧
      List.Forall₂ Op.Answers [.fputc 97, .fwrite [98, 10, 99, 100] 2 2, .fputc 101] rs :=
  run_output (fun _ _ _ => rfl) ⟨rfl, rfl, rfl, by decide, by decide⟩
    (by simp [Op.IsOutput, Op.Valid]) ()

end Dietlibc.Stdio
