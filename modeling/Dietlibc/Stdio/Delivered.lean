import Dietlibc.Stdio.Ledger

/-!
# What output calls do to the ledger

`Kept` is what one piece of an output function does: it takes the bytes at some positions, the
ledger goes on telling where the bytes are, and as long as no flush is torn the positions stay in
order. It holds of every output function, for every behaviour of the kernel, and composes. From it
follows `delivered_once`: without torn flushes no byte is delivered twice.
-/

namespace Dietlibc.Stdio

open CInt

variable {σ : Type} {d : Dev σ} {byteOf : Nat → UInt8} {f f' f'' : File}
  {s s' s'' : σ × List (List UInt8)} {g g' g'' : Ledger} {acc acc' ps : List Nat} {p : Nat}
  {data : List UInt8}

/-! ## The ledger and the stream -/

/-- A stream in output direction. -/
structure Outward (f : File) : Prop where
  canwrite : f.canwrite = true
  output : f.bufinput = false
  bm_le : f.bm ≤ f.buflen
  buflen_pos : 1 ≤ f.buflen
  buflen_lt : f.buflen < 2 ^ 32

/-- The buffer and the kernel hold the bytes at the positions on record. -/
structure Booked (byteOf : Nat → UInt8) (f : File) (s : σ × List (List UInt8)) (g : Ledger) :
    Prop where
  pending : g.pending.map byteOf = f.pending
  delivered : g.delivered.map (·.map byteOf) = s.2

/-- The bytes at `acc` were taken, in this order. -/
structure Kept (byteOf : Nat → UInt8) (f : File) (g : Ledger) (acc : List Nat) (f' : File)
    (s' : σ × List (List UInt8)) (g' : Ledger) : Prop where
  outward : Outward f'
  booked : Booked byteOf f' s' g'
  all : ∀ x, x ∈ g'.all ↔ x ∈ g.all ∨ x ∈ acc
  order : g'.torn = false → ∀ rest, (g.all ++ (acc ++ rest)).Pairwise (· < ·) →
    (g'.all ++ rest).Pairwise (· < ·)
  torn : g.torn = true → g'.torn = true
  error : f.error = true → f'.error = true
  buflen : f'.buflen = f.buflen
  nobuf : f'.nobuf = f.nobuf
  empty : f.nobuf = true → f.bm = 0 → f'.bm = 0

theorem Booked.length (h : Booked byteOf f s g) : g.pending.length = f.bm := by
  have := congrArg List.length h.pending
  simpa [File.pending] using this

theorem Kept.refl (ho : Outward f) (hb : Booked byteOf f s g) : Kept byteOf f g [] f s g :=
  ⟨ho, hb, by simp, fun _ rest h => h, id, id, rfl, rfl, fun _ h => h⟩

theorem Kept.trans (h : Kept byteOf f g acc f' s' g') (h' : Kept byteOf f' g' acc' f'' s'' g'') :
    Kept byteOf f g (acc ++ acc') f'' s'' g'' := by
  refine ⟨h'.outward, h'.booked, fun x => ?_, fun ht rest hr => ?_, fun ht => h'.torn (h.torn ht),
    fun he => h'.error (h.error he), h'.buflen.trans h.buflen, h'.nobuf.trans h.nobuf,
    fun hn hb => h'.empty (h.nobuf.trans hn) (h.empty hn hb)⟩
  · rw [h'.all, h.all, List.mem_append, or_assoc]
  · have ht' : g'.torn = false := by
      rw [← Bool.not_eq_true]
      intro hg
      rw [h'.torn hg] at ht
      cases ht
    rw [List.append_assoc] at hr
    exact h'.order ht rest (h.order ht' (acc' ++ rest) hr)

/-- Flags change. -/
theorem Kept.flags (h : Kept byteOf f g acc f' s' g') {f'' : File} (hbuf : f''.buf = f'.buf)
    (hbm : f''.bm = f'.bm) (hbuflen : f''.buflen = f'.buflen) (hinput : f''.bufinput = f'.bufinput)
    (hwrite : f''.canwrite = f'.canwrite) (hnobuf : f''.nobuf = f'.nobuf)
    (herror : f'.error = true → f''.error = true) : Kept byteOf f g acc f'' s' g' := by
  have ho := h.outward
  refine ⟨⟨hwrite.trans ho.canwrite, hinput.trans ho.output, by rw [hbm, hbuflen]; exact ho.bm_le,
    by rw [hbuflen]; exact ho.buflen_pos, by rw [hbuflen]; exact ho.buflen_lt⟩,
    ⟨?_, h.booked.delivered⟩, h.all, h.order, h.torn, fun he => herror (h.error he),
    hbuflen.trans h.buflen, hnobuf.trans h.nobuf, fun hn hb => hbm.trans (h.empty hn hb)⟩
  rw [h.booked.pending, File.pending, File.pending, hbuf, hbm]

/-- Bytes are copied behind those in the buffer. -/
theorem kept_store (ho : Outward f) (hb : Booked byteOf f s g) (hn : f.nobuf = false)
    (hps : ps.map byteOf = data) (hfit : f.bm + data.length ≤ f.buflen) :
    Kept byteOf f g ps { f with buf := f.buf.store f.bm data, bm := f.bm + data.length } s
      (g.store ps) := by
  refine ⟨⟨ho.canwrite, ho.output, hfit, ho.buflen_pos, ho.buflen_lt⟩, ⟨?_, hb.delivered⟩,
    fun x => ?_, fun _ rest hr => ?_, id, id, rfl, rfl, fun hh _ => ?_⟩
  · have hload := Mem.load_store_append (m := f.buf) (a := 0) (n := f.bm) (d := data) rfl
    rw [Nat.zero_add] at hload
    rw [Ledger.store, List.map_append, hb.pending, hps]
    exact hload.symm
  · simp only [Ledger.all, Ledger.store, List.mem_append, or_assoc]
  · simpa [Ledger.all, Ledger.store] using hr
  · rw [hn] at hh
    cases hh

/-- What an answer of the kernel takes. -/
def takenBy (ps : List Nat) : WriteRes → List Nat
  | .wrote n => ps.take n
  | _ => []

theorem accepting_write (data : List UInt8) (s : σ × List (List UInt8)) :
    (accepting d).write s data = ((d.write s.1 data).1, (d.write s.1 data).2,
      match (d.write s.1 data).1 with
      | .wrote n => s.2 ++ [data.take n]
      | _ => s.2) := rfl

/-- An answer is put on record. -/
theorem delivered_answer (hb : Booked byteOf f s g) (hps : ps.map byteOf = data) :
    (g.answer ps ((accepting d).write s data).1).delivered.map (·.map byteOf) =
      ((accepting d).write s data).2.2 := by
  rw [accepting_write]
  unfold Ledger.answer
  cases (d.write s.1 data).1 with
  | wrote n =>
    dsimp only
    rw [List.map_append, hb.delivered, List.map_singleton, List.map_take, hps]
  | eintr => exact hb.delivered
  | error => exact hb.delivered

theorem mem_answer (g : Ledger) (ps : List Nat) (r : WriteRes) (x : Nat) :
    x ∈ (g.answer ps r).all ↔ x ∈ g.all ∨ x ∈ takenBy ps r := by
  unfold Ledger.answer takenBy Ledger.all
  cases r with
  | wrote n =>
    simp only [List.flatten_append, List.flatten_singleton, List.mem_append]
    tauto
  | eintr => simp
  | error => simp

/-- Bytes are written past an empty buffer. -/
theorem kept_answer (ho : Outward f) (hb : Booked byteOf f s g) (h0 : f.bm = 0)
    (hps : ps.map byteOf = data) :
    Kept byteOf f g (takenBy ps ((accepting d).write s data).1) f ((accepting d).write s data).2
      (g.answer ps ((accepting d).write s data).1) := by
  have hnil : g.pending = [] := List.length_eq_zero_iff.mp (hb.length.trans h0)
  refine ⟨ho, ⟨?_, delivered_answer hb hps⟩, mem_answer _ _ _, fun _ rest hr => ?_, fun ht => ?_, id,
    rfl, rfl, fun _ h => h⟩
  · rw [← hb.pending]
    unfold Ledger.answer
    cases ((accepting d).write s data).1 <;> rfl
  · unfold Ledger.answer takenBy Ledger.all at *
    cases hw : ((accepting d).write s data).1 with
    | wrote n =>
      rw [hw] at hr
      simpa [hnil] using hr
    | eintr =>
      rw [hw] at hr
      exact hr
    | error =>
      rw [hw] at hr
      exact hr
  · unfold Ledger.answer
    cases ((accepting d).write s data).1 <;> exact ht

/-! ## `fflush_unlocked` -/

/-- **A flush** moves the pending bytes to the delivered ones, or keeps them. -/
theorem fflush_kept (ho : Outward f) (hb : Booked byteOf f s g) :
    ∃ r f' s', fflushUnlocked (accepting d) f s = (r, f', s') ∧
      Kept byteOf f g [] f' s' (fflushLedger (accepting d) f s g) ∧
      (r = true → f'.bm = 0 ∧ f'.error = f.error) ∧ (r = false → f'.error = true) := by
  unfold fflushUnlocked fflushLedger
  have hout : ¬ f.bufinput = true := by
    rw [ho.output]
    exact nofun
  rw [if_neg hout]
  by_cases h0 : f.bm = 0
  · rw [if_pos h0, if_pos (.inr h0)]
    refine ⟨_, _, _, rfl, (Kept.refl ho hb).flags rfl rfl rfl rfl rfl rfl id, fun _ => ⟨h0, rfl⟩,
      nofun⟩
  · rw [if_neg h0, if_neg (not_or.mpr ⟨hout, h0⟩)]
    have hlen := hb.length
    have hdelivered := delivered_answer (d := d) hb hb.pending
    have hmem := mem_answer g g.pending ((accepting d).write s f.pending).1
    rcases hw : (accepting d).write s f.pending with ⟨r, s1⟩
    rw [hw] at hdelivered hmem
    dsimp only at hdelivered hmem ⊢
    by_cases hr : r = .wrote f.bm
    · -- the buffer is empty now
      rw [if_pos hr, if_pos hr]
      have htake : g.pending.take f.bm = g.pending := List.take_of_length_le (by omega)
      have hans : g.answer g.pending r =
          { g with delivered := g.delivered ++ [g.pending] } := by
        rw [hr, Ledger.answer, htake]
      refine ⟨true, _, _, rfl, ⟨⟨ho.canwrite, ho.output, Nat.zero_le _, ho.buflen_pos,
        ho.buflen_lt⟩, ⟨rfl, hdelivered⟩, fun x => ?_, fun _ rest h => ?_, fun ht => ?_, id, rfl, rfl,
        fun _ _ => rfl⟩, fun _ => ⟨rfl, rfl⟩, nofun⟩
      · rw [hans]
        simp [Ledger.all]
      · rw [hans]
        simpa [Ledger.all] using h
      · rw [hans]
        exact ht
    · rw [if_neg hr, if_neg hr]
      have hpend : (g.answer g.pending r).pending = g.pending := by
        unfold Ledger.answer
        cases r <;> rfl
      have hbooked : (g.answer g.pending r).pending.map byteOf = f.pending := by
        rw [hpend]
        exact hb.pending
      refine ⟨false, _, _, rfl, ⟨⟨ho.canwrite, ho.output, ho.bm_le, ho.buflen_pos, ho.buflen_lt⟩,
        ⟨hbooked, hdelivered⟩, fun x => ?_, fun ht rest h => ?_, fun ht => ?_,
        fun _ => rfl, rfl, rfl, fun _ h => h⟩, nofun, fun _ => rfl⟩
      · rw [List.mem_nil_iff, or_false]
        refine (hmem x).trans ⟨fun hx => ?_, .inl⟩
        rcases hx with hx | hx
        · exact hx
        · unfold takenBy at hx
          refine List.mem_append_right _ ?_
          cases r with
          | wrote n => exact List.mem_of_mem_take hx
          | eintr => cases hx
          | error => cases hx
      · -- an answer that took something would have torn the flush
        dsimp only at ht
        rw [Bool.or_eq_false_iff] at ht
        have hnone : g.answer g.pending r = g ∨
            g.answer g.pending r = { g with delivered := g.delivered ++ [[]] } := by
          unfold Ledger.answer
          cases r with
          | wrote n =>
            have hn : n = 0 := by simpa using ht.2
            rw [hn]
            exact .inr rfl
          | eintr => exact .inl rfl
          | error => exact .inl rfl
        rcases hnone with hans | hans
        · rw [hans]
          exact h
        · rw [hans]
          simpa [Ledger.all] using h
      · rw [ht]
        rfl

theorem fflush_linewise {τ : Type} {d : Dev τ} {s s' : τ} {r : Bool}
    (h : fflushUnlocked d f s = (r, f', s')) : f'.buflinewise = f.buflinewise := by
  unfold fflushUnlocked at h
  split at h
  · cases h
    rfl
  · split at h
    · cases h
      rfl
    · dsimp only at h
      split at h <;>
      · cases h
        rfl

/-! ## `__fflush4` -/

/-- A stream that can be written to, with nothing pending while it is in input direction. -/
structure Ready (byteOf : Nat → UInt8) (f : File) (s : σ × List (List UInt8)) (g : Ledger) :
    Prop where
  canwrite : f.canwrite = true
  buflen_pos : 1 ≤ f.buflen
  buflen_lt : f.buflen < 2 ^ 32
  output : f.bufinput = false → f.bm ≤ f.buflen ∧ g.pending.map byteOf = f.pending
  input : f.bufinput = true → g.pending = []
  delivered : g.delivered.map (·.map byteOf) = s.2

theorem Kept.ready (h : Kept byteOf f g acc f' s' g') : Ready byteOf f' s' g' :=
  ⟨h.outward.canwrite, h.outward.buflen_pos, h.outward.buflen_lt,
    fun _ => ⟨h.outward.bm_le, h.booked.pending⟩,
    fun hin => absurd (h.outward.output.symm.trans hin) nofun, h.booked.delivered⟩

/-- The stream is in output direction now. -/
theorem fflush4_ready (h : Ready byteOf f s g) :
    ∃ f' s', fflush4 (accepting d) f s false = (true, f', s') ∧
      fflush4Ledger (accepting d) f s g = g ∧ Outward f' ∧ Booked byteOf f' s' g ∧
      f'.error = f.error ∧ f'.buflen = f.buflen ∧ f'.nobuf = f.nobuf ∧ (f.bm = 0 → f'.bm = 0) ∧
      (f.bufinput = true → f'.bm = 0) ∧ (f.bufinput = false → f' = f ∧ s' = s) := by
  unfold fflush4 fflush4Ledger
  cases hin : f.bufinput with
  | false =>
    rw [if_pos rfl, if_pos rfl]
    obtain ⟨hle, hpend⟩ := h.output hin
    exact ⟨f, s, rfl, rfl, ⟨h.canwrite, hin, hle, h.buflen_pos, h.buflen_lt⟩,
      ⟨hpend, h.delivered⟩, rfl, rfl, rfl, id, nofun, fun _ => ⟨rfl, rfl⟩⟩
  | true =>
    have hnil := h.input hin
    have hlseek (s : σ × List (List UInt8)) (n : Int) :
        ((accepting d).lseek s n .cur).2.2 = s.2 := rfl
    rw [if_neg nofun, if_neg nofun]
    unfold fflushUnlocked fflushLedger
    rw [if_pos hin, if_pos (.inl hin)]
    refine ⟨_, _, rfl, rfl, ⟨h.canwrite, rfl, Nat.zero_le _, h.buflen_pos, h.buflen_lt⟩,
      ⟨by rw [hnil]; rfl, ?_⟩, rfl, rfl, rfl, fun _ => rfl, fun _ => rfl, nofun⟩
    split
    · rw [hlseek]
      exact h.delivered
    · exact h.delivered

/-! ## `fputc_unlocked` -/

/-- The positions of `n` bytes. -/
def one (taken : Bool) (p : Nat) : List Nat := if taken then [p] else []

theorem takenBy_single (p : Nat) (r : WriteRes) :
    takenBy [p] r = one (r ≠ .wrote 0 && r ≠ .eintr && r ≠ .error) p := by
  cases r with
  | wrote n => cases n <;> simp [takenBy, one]
  | eintr => rfl
  | error => rfl

theorem putBuf_kept {c : Int} (ho : Outward f) (hb : Booked byteOf f s g) (hlt : f.bm < f.buflen)
    (h0 : f.nobuf = true → f.bm = 0) (hc : byteOf p = uchar c) :
    ∃ r f' s' t g', putBuf (accepting d) c f s = (r, f', s') ∧
      putBufLedger (accepting d) p c f s g = (t, g') ∧ Kept byteOf f g (one t p) f' s' g' ∧
      (r = true → t = true) ∧ (r = false → f'.error = true) := by
  have hps : [p].map byteOf = [uchar c] := by rw [List.map_singleton, hc]
  unfold putBuf putBufLedger
  by_cases hn : f.nobuf = true
  · rw [if_pos hn, if_pos hn]
    have hk := kept_answer (d := d) ho hb (h0 hn) hps
    rw [takenBy_single] at hk
    rcases hw : (accepting d).write s [uchar c] with ⟨r, s1⟩
    rw [hw] at hk
    dsimp only at hk ⊢
    have hfail : Kept byteOf _ _ _ { f with error := true } _ _ :=
      hk.flags rfl rfl rfl rfl rfl rfl fun _ => rfl
    rcases r with (- | - | n) | - | -
    · exact ⟨_, _, _, _, _, rfl, rfl, hfail, nofun, fun _ => rfl⟩
    · exact ⟨_, _, _, _, _, rfl, rfl, hk, fun _ => rfl, nofun⟩
    · exact ⟨_, _, _, _, _, rfl, rfl, hfail, nofun, fun _ => rfl⟩
    · exact ⟨_, _, _, _, _, rfl, rfl, hfail, nofun, fun _ => rfl⟩
    · exact ⟨_, _, _, _, _, rfl, rfl, hfail, nofun, fun _ => rfl⟩
  · rw [if_neg hn, if_neg hn]
    have hk := kept_store ho hb (by simpa using hn) hps hlt
    dsimp only
    by_cases hl : f.buflinewise = true ∧ c = 10
    · rw [if_pos hl, if_pos hl]
      obtain ⟨r, f1, s1, he, hk1, hok, hbad⟩ := fflush_kept (d := d) hk.outward hk.booked
      have hk1 := hk.trans hk1
      rw [List.append_nil] at hk1
      rw [List.length_singleton] at he hk1
      rw [he]
      cases r with
      | true => exact ⟨_, _, _, _, _, rfl, rfl, hk1, fun _ => rfl, nofun⟩
      | false =>
        exact ⟨_, _, _, _, _, rfl, rfl, hk1.flags rfl rfl rfl rfl rfl rfl fun _ => rfl, nofun,
          fun _ => rfl⟩
    · rw [if_neg hl, if_neg hl]
      exact ⟨_, _, _, _, _, rfl, rfl, hk, fun _ => rfl, nofun⟩

/-- **`fputc_unlocked`** takes its byte or not. -/
theorem fputc_kept {c : Int} (ho : Outward f) (hb : Booked byteOf f s g)
    (h0 : f.nobuf = true → f.bm = 0) (hc : byteOf p = uchar c) :
    ∃ r f' s' t g', fputcUnlocked (accepting d) c f s = (r, f', s') ∧
      fputcLedger (accepting d) p c f s g = (t, g') ∧ Kept byteOf f g (one t p) f' s' g' ∧
      (r = true → t = true) ∧ (r = false → f'.error = true) := by
  have hpos := ho.buflen_pos
  have hwrite : ¬ (!f.canwrite) = true := by simp [ho.canwrite]
  have hledger : fflush4Ledger (accepting d) f s g = g := if_pos ho.output
  unfold fputcUnlocked fputcLedger
  rw [if_neg hwrite, if_neg hwrite, fflush4_output ho.output, hledger]
  dsimp only
  rw [usub_of_le ho.buflen_pos ho.buflen_lt]
  by_cases hfull : f.buflen - 1 ≤ f.bm
  · rw [if_pos hfull, if_pos hfull]
    obtain ⟨r, f1, s1, he, hk, hok, hbad⟩ := fflush_kept (d := d) ho hb
    rw [he]
    cases r with
    | true =>
      have hlt : f1.bm < f1.buflen := by
        rw [(hok rfl).1, hk.buflen]
        exact hpos
      obtain ⟨r, f2, s2, t, g2, he2, hg2, hk2, ht, hbad2⟩ := putBuf_kept (d := d) hk.outward
        hk.booked hlt (fun _ => (hok rfl).1) hc
      refine ⟨r, f2, s2, t, g2, he2, hg2, ?_, ht, hbad2⟩
      have := hk.trans hk2
      rwa [List.nil_append] at this
    | false =>
      exact ⟨false, _, _, false, _, rfl, rfl, hk.flags rfl rfl rfl rfl rfl rfl fun _ => rfl, nofun,
        fun _ => rfl⟩
  · rw [if_neg hfull, if_neg hfull]
    exact putBuf_kept ho hb (by omega) h0 hc

/-- The turn to output is made once. -/
theorem fputc_start {τ : Type} {d : Dev τ} {s s1 : τ} {f1 : File} (p : Nat) (c : Int)
    (he : fflush4 d f s false = (true, f1, s1)) (hg : fflush4Ledger d f s g = g)
    (hw : f.canwrite = true) (ho : Outward f1) :
    fputcUnlocked d c f s = fputcUnlocked d c f1 s1 ∧
      fputcLedger d p c f s g = fputcLedger d p c f1 s1 g := by
  have hledger : fflush4Ledger d f1 s1 g = g := if_pos ho.output
  have hneg {f : File} (hw : f.canwrite = true) : ¬ (!f.canwrite) = true := by simp [hw]
  unfold fputcUnlocked fputcLedger
  rw [if_neg (hneg hw), if_neg (hneg hw), if_neg (hneg ho.canwrite), if_neg (hneg ho.canwrite), he,
    fflush4_output ho.output, hg, hledger]
  exact ⟨rfl, rfl⟩

/-! ## The loops of `fwrite_unlocked` -/

/-- The bytes `data` have the positions from `p` on. -/
def At (byteOf : Nat → UInt8) (p : Nat) (data : List UInt8) : Prop :=
  (List.range' p data.length).map byteOf = data

theorem At.cons {c : UInt8} {cs : List UInt8} (h : At byteOf p (c :: cs)) :
    byteOf p = c ∧ At byteOf (p + 1) cs := by
  unfold At at h ⊢
  rw [List.length_cons, List.range'_succ, List.map_cons, List.cons.injEq] at h
  exact h

theorem At.take (h : At byteOf p data) {n : Nat} (hn : n ≤ data.length) :
    (List.range' p n).map byteOf = data.take n := by
  unfold At at h
  conv_rhs => rw [← h]
  rw [← List.map_take, List.take_range'_of_length_ge hn]

theorem At.drop (h : At byteOf p data) (n : Nat) : At byteOf (p + n) (data.drop n) := by
  unfold At at h ⊢
  conv_rhs => rw [← h]
  rw [← List.map_drop, List.drop_range', Nat.mul_one, List.length_drop]

theorem one_range' (p k : Nat) : [p] ++ List.range' (p + 1) k = List.range' p (k + 1) := by
  rw [List.range'_succ]
  rfl

/-- **The line-wise copy** takes all its bytes, or those up to the newline whose flush fails. -/
theorem lineLoop_kept (ho : Outward f) (hb : Booked byteOf f s g) (hn : f.nobuf = false)
    (hat : At byteOf p data) (hfit : f.bm + data.length ≤ f.buflen) :
    ∃ r f' s' k g', lineLoop (accepting d) data f s = (r, f', s') ∧
      lineLoopLedger (accepting d) p data f s g = (k, g') ∧ k ≤ data.length ∧
      Kept byteOf f g (List.range' p k) f' s' g' ∧ (r = true → k = data.length) ∧
      (r = false → f'.error = true) := by
  induction data generalizing p f s g with
  | nil => exact ⟨true, f, s, 0, g, rfl, rfl, le_rfl, .refl ho hb, fun _ => rfl,
      fun h => absurd h (by decide)⟩
  | cons c cs ih =>
    rw [List.length_cons] at hfit
    obtain ⟨hc, hat'⟩ := hat.cons
    have hk := kept_store ho hb hn (by rw [List.map_singleton, hc] : [p].map byteOf = [c])
      (by rw [List.length_singleton]; omega)
    rw [List.length_singleton] at hk
    unfold lineLoop lineLoopLedger
    dsimp only
    by_cases hnl : c = newline
    · rw [if_pos hnl, if_pos hnl]
      obtain ⟨r, f1, s1, he, hk1, hok, hbad⟩ := fflush_kept (d := d) hk.outward hk.booked
      have hk1 := hk.trans hk1
      rw [List.append_nil] at hk1
      rw [he]
      cases r with
      | true =>
        obtain ⟨r, f2, s2, k, g2, he2, hg2, hle, hk2, ht, hf⟩ := ih hk1.outward hk1.booked
          (hk1.nobuf.trans hn) hat' (by rw [(hok rfl).1, hk1.buflen]; omega)
        dsimp only
        rw [hg2]
        refine ⟨r, f2, s2, k + 1, g2, he2, rfl, Nat.succ_le_succ hle, ?_,
          fun hr => congrArg Nat.succ (ht hr), hf⟩
        rw [← one_range']
        exact hk1.trans hk2
      | false =>
        exact ⟨false, f1, s1, 1, _, rfl, rfl, Nat.succ_le_succ (Nat.zero_le _), hk1,
          fun h => absurd h (by decide), hbad⟩
    · rw [if_neg hnl, if_neg hnl]
      obtain ⟨r, f2, s2, k, g2, he2, hg2, hle, hk2, ht, hf⟩ := ih hk.outward hk.booked hn hat'
        (by show f.bm + 1 + cs.length ≤ f.buflen; omega)
      rw [hg2]
      refine ⟨r, f2, s2, k + 1, g2, he2, rfl, Nat.succ_le_succ hle, ?_,
        fun hr => congrArg Nat.succ (ht hr), hf⟩
      rw [← one_range']
      exact hk.trans hk2

/-- **The loop over `fputc_unlocked`** takes the bytes in front of the one that fails, and perhaps
that one. -/
theorem putLoop_kept (ho : Outward f) (hb : Booked byteOf f s g) (h0 : f.nobuf = true → f.bm = 0)
    (hat : At byteOf p data) :
    ∃ left f' s' k g', putLoop (accepting d) data f s = (left, f', s') ∧
      putLoopLedger (accepting d) p data f s g = (k, g') ∧ k ≤ data.length ∧
      left ≤ data.length ∧ Kept byteOf f g (List.range' p k) f' s' g' ∧
      (left = 0 → k = data.length) ∧ (left ≠ 0 → f'.error = true) := by
  induction data generalizing p f s g with
  | nil =>
    exact ⟨0, f, s, 0, g, rfl, rfl, le_rfl, le_rfl, .refl ho hb, fun _ => rfl,
      fun h => absurd rfl h⟩
  | cons c cs ih =>
    obtain ⟨hc, hat'⟩ := hat.cons
    obtain ⟨r, f1, s1, t, g1, he, hg, hk, ht, hbad⟩ := fputc_kept (d := d) (p := p) ho hb h0
      (c := charToInt c) (by rw [uchar_charToInt, hc])
    unfold putLoop putLoopLedger
    rw [he, hg]
    cases r with
    | true =>
      obtain ⟨left, f2, s2, k, g2, he2, hg2, hle, hleft, hk2, hall, herr⟩ := ih hk.outward hk.booked
        (fun hn => hk.empty (hk.nobuf.symm.trans hn) (h0 (hk.nobuf.symm.trans hn))) hat'
      dsimp only
      rw [he2, hg2]
      refine ⟨left, f2, s2, k + 1, g2, rfl, rfl, Nat.succ_le_succ hle, Nat.le_succ_of_le hleft, ?_,
        fun hz => congrArg Nat.succ (hall hz), herr⟩
      rw [ht rfl] at hk
      rw [← one_range']
      exact hk.trans hk2
    | false =>
      refine ⟨cs.length + 1, f1, s1, if t = true then 1 else 0, g1, rfl, rfl, ?_, le_rfl, ?_,
        fun hz => absurd hz (Nat.succ_ne_zero _), fun _ => hbad rfl⟩
      · split
        · exact Nat.succ_le_succ (Nat.zero_le _)
        · exact Nat.zero_le _
      · cases t
        · exact hk
        · exact hk

/-! ## `fwrite_unlocked` -/

/-- What is returned at an exit, with `len` bytes handed over and `k` of them taken. -/
def Exit.Leaves (e : Exit) (size nmemb len : Nat) (error : Bool) (k r : Nat) (f' : File) : Prop :=
  match e with
  | .refused => nmemb ≠ 0 ∧ r = 0 ∧ k = 0 ∧ f'.error = error
  | .nothing => nmemb = 0 ∧ r = 0 ∧ k = 0
  | .unflushed => r = 0 ∧ k = 0 ∧ f'.error = true
  | .direct none => r = 0 ∧ k = 0 ∧ f'.error = true
  | .direct (some res) => r = res / size ∧ k = min res len ∧ f'.error = error
  | .copied k' => r = 0 ∧ k = k' ∧ f'.error = true
  | .line k' => r = 0 ∧ k = k' ∧ f'.error = true
  | .bytes left k' => left ≤ len ∧ r = left / size ∧ k = k' ∧ f'.error = true
  | .done => r = nmemb ∧ k = len

/-- An exit behind the first bytes of what was handed over. -/
theorem Exit.Leaves.behind {e : Exit} {size nmemb n todo k r : Nat} {error : Bool}
    (htodo : todo ≤ data.length)
    (h : e.Leaves size nmemb (n + todo + (data.drop todo).length) error (n + todo + k) r f') :
    e.Leaves size nmemb (n + data.length) error (n + (todo + k)) r f' := by
  rwa [List.length_drop, Nat.add_assoc, Nat.add_assoc, Nat.add_sub_cancel' htodo] at h

theorem range'_trans (p n k : Nat) :
    List.range' p n ++ List.range' (p + n) k = List.range' p (n + k) := List.range'_append_1

theorem fwriteRest_kept (size nmemb len n : Nat) (ho : Outward f) (hb : Booked byteOf f s g)
    (h0 : f.nobuf = true → f.bm = 0) (hat : At byteOf p data) (error : Bool) :
    ∃ r f' s' e k g', fwriteRest (accepting d) size len data f s = (r, f', s') ∧
      fwriteRestLedger (accepting d) p n data f s g = (e, g') ∧ k ≤ data.length ∧
      Kept byteOf f g (List.range' p k) f' s' g' ∧
      (0 < size → len = size * nmemb →
        e.Leaves size nmemb (n + data.length) error (n + k) r f') := by
  obtain ⟨left, f1, s1, k, g1, he, hg, hle, hleft, hk, hall, herr⟩ :=
    putLoop_kept (d := d) ho hb h0 hat
  unfold fwriteRest fwriteRestLedger
  rw [he, hg]
  rcases left with - | left
  · refine ⟨_, _, _, .done, k, g1, rfl, rfl, hle, hk, fun hs hlen => ⟨?_, ?_⟩⟩
    · rw [if_neg (Nat.ne_of_gt hs), hlen, Nat.mul_div_cancel_left _ hs]
    · rw [hall rfl]
  · refine ⟨_, _, _, .bytes (left + 1) (n + k), k, g1, rfl, rfl, hle, hk,
      fun hs _ => ⟨?_, ?_, rfl, ?_⟩⟩
    · exact hleft.trans (Nat.le_add_left _ _)
    · rw [if_neg (Nat.ne_of_gt hs)]
    · exact herr (Nat.succ_ne_zero _)

/-- **The block at `again:`**, which is entered once more only with an empty buffer that is not line
buffered. -/
theorem fwriteAgain_kept (size nmemb n : Nat) (ho : Outward f) (hb : Booked byteOf f s g)
    (hn : f.nobuf = false) (hat : At byteOf p data)
    (hl : (n = 0 ∧ data.length = size * nmemb) ∨
      (f.bm = 0 ∧ f.buflinewise = false ∧ data ≠ [])) (error : Bool) :
    ∃ r f' s' e k g', fwriteAgain (accepting d) size nmemb data f s = (r, f', s') ∧
      fwriteAgainLedger (accepting d) p n data f s g = (e, g') ∧ k ≤ data.length ∧
      Kept byteOf f g (List.range' p k) f' s' g' ∧
      (0 < size → e.Leaves size nmemb (n + data.length) error (n + k) r f') := by
  induction hlen : data.length using Nat.strong_induction_on generalizing data f s g p n with
  | _ len ih =>
    subst hlen
    have hle := ho.bm_le
    have hpos := ho.buflen_pos
    have hu : usub 32 f.buflen f.bm = f.buflen - f.bm := usub_of_le ho.bm_le ho.buflen_lt
    have h0 : f.nobuf = true → f.bm = 0 := fun h => absurd (hn.symm.trans h) nofun
    unfold fwriteAgain fwriteAgainLedger
    rw [hu]
    dsimp only
    set todo := min (f.buflen - f.bm) data.length with htd
    by_cases htodo : todo = 0
    · rw [if_pos htodo, if_pos htodo]
      rcases hl with ⟨rfl, hl⟩ | ⟨hbm, -, hne⟩
      · obtain ⟨r, f1, s1, e, k, g1, he, hg, hle, hk, hleaves⟩ :=
          fwriteRest_kept (d := d) size nmemb data.length 0 ho hb h0 hat error
        exact ⟨r, f1, s1, e, k, g1, he, hg, hle, hk, fun hs => hleaves hs hl⟩
      · have := List.length_pos_iff.mpr hne
        omega
    · rw [if_neg htodo, if_neg htodo]
      have htake : (data.take todo).length = todo := by simp [htd]
      have hdrop : (data.drop todo).length = data.length - todo := List.length_drop
      have hk0 : Kept byteOf f g [] (checkTty (accepting d) f s) s g := by
        unfold checkTty
        split
        · exact (Kept.refl ho hb).flags rfl rfl rfl rfl rfl rfl id
        · exact .refl ho hb
      have hbm : (checkTty (accepting d) f s).bm = f.bm := checkTty_bm s
      by_cases hlw : (checkTty (accepting d) f s).buflinewise = true
      · rw [if_pos hlw, if_pos hlw]
        rcases hl with ⟨rfl, hl⟩ | ⟨-, hlf, -⟩
        · have hat1 : At byteOf p (data.take todo) := by
            unfold At
            rw [htake]
            exact hat.take (by omega)
          obtain ⟨r, f1, s1, k, g1, he, hg, hle1, hk1, ht, hf⟩ := lineLoop_kept (d := d) hk0.outward
            hk0.booked (hk0.nobuf.trans hn) hat1 (by rw [hbm, hk0.buflen, htake]; omega)
          have hk1 := hk0.trans hk1
          rw [List.nil_append] at hk1
          rw [he, hg]
          cases r with
          | true =>
            obtain ⟨r, f2, s2, e, k2, g2, he2, hg2, hle2, hk2, hleaves⟩ :=
              fwriteRest_kept (d := d) size nmemb data.length (0 + todo) hk1.outward hk1.booked
                (fun h => absurd ((hk1.nobuf.trans hn).symm.trans h) nofun) (hat.drop todo) error
            have hkt : k = todo := (ht rfl).trans htake
            refine ⟨r, f2, s2, e, todo + k2, g2, he2, hg2, by omega, ?_,
              fun hs => (hleaves hs hl).behind (by omega)⟩
            rw [← range'_trans, ← hkt]
            rw [← hkt] at hk2
            exact hk1.trans hk2
          | false =>
            exact ⟨0, _, s1, .line (0 + k), k, g1, rfl, rfl, by omega,
              hk1.flags rfl rfl rfl rfl rfl rfl fun _ => rfl, fun _ => ⟨rfl, rfl, rfl⟩⟩
        · unfold checkTty at hlw
          rw [if_neg (fun hh => by rw [hlf] at hh; cases hh.1), hlf] at hlw
          cases hlw
      · rw [if_neg hlw, if_neg hlw]
        have hk1 := hk0.trans (kept_store hk0.outward hk0.booked (hk0.nobuf.trans hn)
          (hat.take (n := todo) (by omega)) (by rw [hbm, hk0.buflen, htake]; omega))
        rw [List.nil_append, htake] at hk1
        by_cases hfull : (checkTty (accepting d) f s).bm + todo = (checkTty (accepting d) f s).buflen
        · rw [if_pos hfull, if_pos hfull]
          obtain ⟨r, f2, s2, he2, hk2, hok, hbad⟩ := fflush_kept (d := d) hk1.outward hk1.booked
          have hk2 := hk1.trans hk2
          rw [List.append_nil] at hk2
          rw [he2]
          cases r with
          | true =>
            dsimp only
            by_cases hnil : (data.drop todo).length = 0
            · rw [if_pos hnil, if_pos hnil]
              exact ⟨nmemb, f2, s2, .done, todo, _, rfl, rfl, by omega, hk2,
                fun _ => ⟨rfl, by omega⟩⟩
            · rw [if_neg hnil, if_neg hnil]
              have hlf : f2.buflinewise = false := by
                rw [← Bool.not_eq_true]
                exact fun h => hlw (fflush_linewise he2 ▸ h)
              obtain ⟨r, f3, s3, e, k3, g3, he3, hg3, hle3, hk3, hleaves⟩ := ih _ (by omega)
                (n := n + todo) hk2.outward hk2.booked (hk2.nobuf.trans hn) (hat.drop todo)
                (.inr ⟨(hok rfl).1, hlf, fun h => hnil (by rw [h]; rfl)⟩) rfl
              refine ⟨r, f3, s3, e, todo + k3, g3, he3, hg3, by omega, ?_,
                fun hs => (hleaves hs).behind (by omega)⟩
              rw [← range'_trans]
              exact hk2.trans hk3
          | false =>
            exact ⟨0, f2, s2, .copied (n + todo), todo, _, rfl, rfl, by omega, hk2,
              fun _ => ⟨rfl, rfl, hbad rfl⟩⟩
        · rw [if_neg hfull, if_neg hfull]
          refine ⟨nmemb, _, s, .done, todo, _, rfl, rfl, by omega, hk1, fun _ => ⟨rfl, ?_⟩⟩
          have := hk0.buflen
          omega

/-- A piece that starts where another one was about to start. -/
theorem Kept.of_start {f1 : File} (h : Kept byteOf f1 g acc f' s' g') (herror : f1.error = f.error)
    (hbuflen : f1.buflen = f.buflen) (hnobuf : f1.nobuf = f.nobuf) (hbm : f.bm = 0 → f1.bm = 0) :
    Kept byteOf f g acc f' s' g' :=
  ⟨h.outward, h.booked, h.all, h.order, h.torn, fun he => h.error (herror.trans he),
    h.buflen.trans hbuflen, h.nobuf.trans hnobuf, fun hn hb => h.empty (hnobuf.trans hn) (hbm hb)⟩

/-- The direct write, repeated as long as it is interrupted. -/
theorem writeRetry_kept (ho : Outward f) (hb : Booked byteOf f s g) (h0 : f.bm = 0)
    (hps : ps.map byteOf = data) :
    ∃ res s', writeRetry (accepting d) data s = (res, s') ∧
      match res with
      | some n => Kept byteOf f g (ps.take n) f s' (g.answer ps (.wrote n))
      | none => Kept byteOf f g [] f s' g := by
  induction hp : d.patience s.1 using Nat.strong_induction_on generalizing s with
  | _ n ih =>
    have hk := kept_answer (d := d) ho hb h0 hps
    unfold writeRetry
    split
    · rename_i n s1 hw
      rw [hw] at hk
      exact ⟨some n, s1, rfl, hk⟩
    · rename_i s1 hw
      rw [hw] at hk
      exact ⟨none, s1, rfl, hk⟩
    · rename_i s1 hw
      rw [hw] at hk
      have hlt := (accepting d).eintr_lt s data s1 hw
      exact ih _ (by rw [← hp]; exact hlt) hk.booked rfl

/-- **`fwrite_unlocked`** takes the first `k` bytes of its data, and returns what its exit says. -/
theorem fwrite_kept {size nmemb : Nat} (h : Ready byteOf f s g)
    (hv : (Op.fwrite data size nmemb).Valid) (hat : At byteOf p data) :
    ∃ r f' s' e k g', fwriteUnlocked (accepting d) data size nmemb f s = (r, f', s') ∧
      fwriteLedger (accepting d) p data size nmemb f s g = (e, g') ∧ k ≤ data.length ∧
      Kept byteOf f g (List.range' p k) f' s' g' ∧
      (data.length = size * nmemb ∨ e = .refused) ∧
      (0 < size → e.Leaves size nmemb data.length f.error k r f') := by
  obtain ⟨f1, s1, he, hg, ho, hb, herror, hbuflen, hnobuf, hbm, -⟩ := fflush4_ready (d := d) h
  have hk1 : Kept byteOf f g [] f1 s1 g := (Kept.refl ho hb).of_start herror hbuflen hnobuf hbm
  have hwrite : ¬ (!f.canwrite) = true := by simp [h.canwrite]
  unfold fwriteUnlocked fwriteLedger
  dsimp only
  rw [if_neg hwrite, if_neg hwrite, he, hg]
  dsimp only
  by_cases hn : nmemb = 0
  · rw [if_pos (.inl hn), if_pos hn]
    refine ⟨0, f1, s1, .nothing, 0, g, rfl, rfl, Nat.zero_le _, hk1, .inl ?_,
      fun _ => ⟨hn, rfl, rfl⟩⟩
    rcases hv with hv | hv
    · exact hv.1
    · rw [hn] at hv
      omega
  · rw [if_neg hn]
    by_cases hov : size * nmemb % 2 ^ 64 / nmemb = size
    · have hlt := (mul_check hn).mp hov
      have hlen : data.length = size * nmemb := by
        rcases hv with hv | hv
        · exact hv.1
        · omega
      rw [if_neg (not_or.mpr ⟨hn, not_not.mpr hov⟩), if_neg (not_not.mpr hov),
        Nat.mod_eq_of_lt hlt]
      by_cases hdirect : f1.buflen < size * nmemb ∨ f1.nobuf = true
      · rw [if_pos hdirect, if_pos hdirect]
        obtain ⟨r, f2, s2, he2, hk2, hok, hbad⟩ := fflush_kept (d := d) ho hb
        have hk2 := hk1.trans hk2
        rw [List.nil_append] at hk2
        rw [he2]
        cases r with
        | false =>
          exact ⟨0, f2, s2, .unflushed, 0, _, rfl, rfl, Nat.zero_le _, hk2, .inl hlen,
            fun _ => ⟨rfl, rfl, hbad rfl⟩⟩
        | true =>
          obtain ⟨res, s3, he3, hk3⟩ := writeRetry_kept (d := d) hk2.outward hk2.booked (hok rfl).1 hat
          dsimp only
          rw [he3]
          rcases res with - | res
          · have hk3 := hk2.trans hk3
            exact ⟨0, _, s3, .direct none, 0, _, rfl, rfl, Nat.zero_le _,
              hk3.flags rfl rfl rfl rfl rfl rfl fun _ => rfl, .inl hlen, fun _ => ⟨rfl, rfl, rfl⟩⟩
          · have hk3 := hk2.trans hk3
            have htake : (List.range' p data.length).take res =
                List.range' p (min res data.length) := by
              rcases Nat.le_total res data.length with hle | hle
              · rw [List.take_range'_of_length_ge hle, Nat.min_eq_left hle]
              · rw [List.take_range'_of_length_le hle, Nat.min_eq_right hle]
            rw [List.nil_append, htake] at hk3
            refine ⟨_, f2, s3, .direct (some res), min res data.length, _, rfl, rfl,
              Nat.min_le_right _ _, hk3, .inl hlen, fun hs => ⟨?_, rfl, (hok rfl).2.trans herror⟩⟩
            rw [if_neg (Nat.ne_of_gt hs)]
      · rw [if_neg hdirect, if_neg hdirect]
        have hnb : f1.nobuf = false := by simpa using (not_or.mp hdirect).2
        obtain ⟨r, f2, s2, e, k, g2, he2, hg2, hle, hk2, hleaves⟩ := fwriteAgain_kept (d := d) size
          nmemb 0 ho hb hnb hat (.inl ⟨rfl, hlen⟩) f.error
        refine ⟨r, f2, s2, e, k, g2, he2, hg2, hle, hk1.trans hk2, .inl hlen, fun hs => ?_⟩
        have := hleaves hs
        rwa [Nat.zero_add, Nat.zero_add] at this
    · rw [if_pos (.inr hov), if_pos hov]
      exact ⟨0, f1, s1, .refused, 0, g, rfl, rfl, Nat.zero_le _, hk1, .inr rfl,
        fun _ => ⟨hn, rfl, rfl, herror⟩⟩

/-! ## Calls and runs -/

/-- An output call takes some of its bytes, in order. -/
theorem exec_kept {op : Op} (h : Ready byteOf f s g) (h0 : f.nobuf = true → f.bm = 0)
    (hop : op.IsOutput ∧ op.Valid) (hat : At byteOf p op.handed) :
    ∃ r f' s' k, exec (accepting d) op f s = (r, f', s') ∧ k ≤ op.handed.length ∧
      Ready byteOf f' s' (execLedger (accepting d) p op f s g) ∧
      (f'.nobuf = true → f'.bm = 0) ∧
      (∀ x, x ∈ (execLedger (accepting d) p op f s g).all ↔ x ∈ g.all ∨ x ∈ List.range' p k) ∧
      (g.torn = true → (execLedger (accepting d) p op f s g).torn = true) ∧
      ((execLedger (accepting d) p op f s g).torn = false → ∀ rest,
        (g.all ++ (List.range' p k ++ rest)).Pairwise (· < ·) →
          ((execLedger (accepting d) p op f s g).all ++ rest).Pairwise (· < ·)) := by
  have hempty {f' : File} {s' : σ × List (List UInt8)} {g' : Ledger} {acc : List Nat}
      (hk : Kept byteOf f g acc f' s' g') : f'.nobuf = true → f'.bm = 0 :=
    fun hn => hk.empty (hk.nobuf.symm.trans hn) (h0 (hk.nobuf.symm.trans hn))
  cases op with
  | fputc c =>
    obtain ⟨f1, s1, he, hg, ho, hb, herror, hbuflen, hnobuf, hbm, hin, hout⟩ :=
      fflush4_ready (d := d) h
    have hc : byteOf p = uchar c := (List.cons.inj hat).1
    obtain ⟨r, f2, s2, t, g2, he2, hg2, hk, -⟩ := fputc_kept (d := d) (p := p) (c := c) ho hb
      (fun hn => hbm (h0 (hnobuf.symm.trans hn))) hc
    have hk := hk.of_start (f := f) herror hbuflen hnobuf hbm
    obtain ⟨hstart, hstartg⟩ := fputc_start p c he hg h.canwrite ho
    rw [← hstart] at he2
    rw [← hstartg] at hg2
    have hledger : execLedger (accepting d) p (.fputc c) f s g = g2 := by
      rw [execLedger, hg2]
    have hone : one t p = List.range' p (if t = true then 1 else 0) := by cases t <;> rfl
    rw [hone] at hk
    rw [hledger]
    refine ⟨.status r, f2, s2, if t = true then 1 else 0, by simp only [exec, he2], ?_, hk.ready,
      hempty hk, hk.all, hk.torn, hk.order⟩
    show (if t = true then 1 else 0) ≤ 1
    split
    · exact le_rfl
    · exact Nat.zero_le 1
  | fwrite data size nmemb =>
    obtain ⟨r, f1, s1, e, k, g1, he, hg, hle, hk, -⟩ := fwrite_kept (d := d) h hop.2 hat
    have hledger : execLedger (accepting d) p (.fwrite data size nmemb) f s g = g1 := by
      rw [execLedger, hg]
    rw [hledger]
    exact ⟨.wrote r, f1, s1, k, by simp only [exec, he], hle, hk.ready, hempty hk, hk.all, hk.torn,
      hk.order⟩
  | fflush =>
    cases hin : f.bufinput with
    | false =>
      obtain ⟨hle, hpend⟩ := h.output hin
      have ho : Outward f := ⟨h.canwrite, hin, hle, h.buflen_pos, h.buflen_lt⟩
      obtain ⟨r, f1, s1, he, hk, -⟩ := fflush_kept (d := d) ho ⟨hpend, h.delivered⟩
      exact ⟨.status r, f1, s1, 0, by simp only [exec, he], le_rfl, hk.ready, hempty hk, hk.all,
        hk.torn, hk.order⟩
    | true =>
      have hledger : execLedger (accepting d) p .fflush f s g = g := if_pos (.inl hin)
      rw [hledger]
      have hlseek (s : σ × List (List UInt8)) (n : Int) :
          ((accepting d).lseek s n .cur).2.2 = s.2 := rfl
      unfold exec fflushUnlocked
      rw [if_pos hin]
      refine ⟨_, _, _, 0, rfl, le_rfl, ⟨h.canwrite, h.buflen_pos, h.buflen_lt, fun hh => ?_,
        fun _ => h.input hin, ?_⟩, fun _ => rfl, fun x => by simp, id, fun _ rest hr => hr⟩
      · rw [hin] at hh
        cases hh
      · split
        · rw [hlseek]
          exact h.delivered
        · exact h.delivered
  | _ => exact hop.1.elim

/-- The ledger of a run of calls whose bytes start at position `p`: every byte on record was handed
over, and unless a flush is torn the positions go up. -/
theorem run_kept {ops : List Op} (h : Ready byteOf f s g) (h0 : f.nobuf = true → f.bm = 0)
    (hops : ∀ op ∈ ops, op.IsOutput ∧ op.Valid) (hat : At byteOf p (ops.flatMap Op.handed)) :
    ∃ rs f' s', run (accepting d) ops f s = (rs, f', s') ∧
      Ready byteOf f' s' (runLedger (accepting d) p ops f s g) ∧
      (g.torn = true → (runLedger (accepting d) p ops f s g).torn = true) ∧
      ((runLedger (accepting d) p ops f s g).torn = false → g.all.Pairwise (· < ·) →
        (∀ x ∈ g.all, x < p) →
          (runLedger (accepting d) p ops f s g).all.Pairwise (· < ·)) := by
  induction ops generalizing p f s g with
  | nil => exact ⟨[], f, s, rfl, h, id, fun _ hp _ => hp⟩
  | cons op ops ih =>
    have hop := hops op List.mem_cons_self
    rw [List.flatMap_cons] at hat
    have hat1 : At byteOf p op.handed := by
      have := hat.take (n := op.handed.length) (by rw [List.length_append]; omega)
      rwa [List.take_left] at this
    have hat2 : At byteOf (p + op.handed.length) (ops.flatMap Op.handed) := by
      have := hat.drop op.handed.length
      rwa [List.drop_left] at this
    obtain ⟨r, f1, s1, k, he, hle, hready, hempty, hall, htorn, horder⟩ :=
      exec_kept (d := d) h h0 hop hat1
    obtain ⟨rs, f2, s2, he2, hready2, htorn2, horder2⟩ := ih (g := execLedger (accepting d) p op f s g)
      hready hempty (fun o m => hops o (List.mem_cons_of_mem _ m)) hat2
    have hledger : runLedger (accepting d) p (op :: ops) f s g =
        runLedger (accepting d) (p + op.handed.length) ops f1 s1
          (execLedger (accepting d) p op f s g) := by
      rw [runLedger, he]
    rw [hledger]
    refine ⟨r :: rs, f2, s2, by simp only [run, he, he2], hready2, fun ht => htorn2 (htorn ht),
      fun ht hsorted hlt => ?_⟩
    have ht1 : (execLedger (accepting d) p op f s g).torn = false := by
      rw [← Bool.not_eq_true]
      intro ht1
      rw [htorn2 ht1] at ht
      cases ht
    refine horder2 ht ?_ fun x hx => ?_
    · have := horder ht1 [] (by
        rw [List.append_nil, List.pairwise_append]
        refine ⟨hsorted, List.pairwise_lt_range', fun x hx y hy => ?_⟩
        have := hlt x hx
        have := (List.mem_range'_1.mp hy).1
        omega)
      rwa [List.append_nil] at this
    · rcases (hall x).mp hx with hx | hx
      · exact (hlt x hx).trans_le (Nat.le_add_right _ _)
      · have := (List.mem_range'_1.mp hx).2
        omega

/-! ## No byte twice -/

/-- An output stream with nothing in its buffer. -/
structure Unused (f : File) : Prop where
  canwrite : f.canwrite = true
  bm : f.bm = 0
  buflen_pos : 1 ≤ f.buflen
  buflen_lt : f.buflen < 2 ^ 32

/-- The ledger of the calls, from the first one on. -/
def ledgerOf (d : Dev σ) (ops : List Op) (f : File) (s : σ) : Ledger :=
  runLedger (accepting d) 0 ops f (s, []) .empty

/-- What each write has taken are the bytes at its positions in the program's output, and the
positions go up. -/
def DeliveredOnce (d : Dev σ) (ops : List Op) (f : File) (s : σ) : Prop :=
  (run (accepting d) ops f (s, [])).2.2.2 =
    (ledgerOf d ops f s).delivered.map (·.map fun p => (ops.flatMap Op.handed).getD p 0) ∧
  (ledgerOf d ops f s).delivered.flatten.Pairwise (· < ·)

theorem at_getD (data : List UInt8) : At (fun p => data.getD p 0) 0 data := by
  unfold At
  refine List.ext_getElem (by simp) fun i hi hi' => ?_
  rw [List.getElem_map, List.getElem_range', Nat.zero_add, Nat.one_mul,
    List.getD_eq_getElem?_getD, List.getElem?_eq_getElem hi', Option.getD_some]

/-- **No byte is delivered twice** in a run in which every write of `fflush_unlocked` takes all of
the pending bytes or none. -/
theorem delivered_once (d : Dev σ) (f : File) (h : Unused f) (ops : List Op)
    (hops : ∀ op ∈ ops, op.IsOutput ∧ op.Valid) (s : σ)
    (htorn : (ledgerOf d ops f s).torn = false) : DeliveredOnce d ops f s := by
  have hpending : f.pending = [] := by
    rw [File.pending, h.bm]
    rfl
  have hready : Ready (fun p => (ops.flatMap Op.handed).getD p 0) f (s, []) .empty :=
    ⟨h.canwrite, h.buflen_pos, h.buflen_lt,
      fun _ => ⟨by rw [h.bm]; exact Nat.zero_le _, hpending.symm⟩, fun _ => rfl, rfl⟩
  obtain ⟨rs, f', s', he, hready', -, horder⟩ :=
    run_kept (d := d) (p := 0) hready (fun _ => h.bm) hops (at_getD _)
  refine ⟨?_, ?_⟩
  · rw [he]
    exact hready'.delivered.symm
  · have := horder htorn List.Pairwise.nil (fun x hx => absurd hx List.not_mem_nil)
    exact (List.pairwise_append.mp this).1

/-- A kernel whose first write takes one byte, and that takes every later write whole. -/
def shortFirst : Dev Nat where
  read := fun s _ => (some [], s)
  write := fun s data => (.wrote (if s = 0 then min 1 data.length else data.length), s + 1)
  lseek := fun s _ _ => (none, s)
  isatty := fun _ => false
  patience := fun _ => 0
  read_le := fun _ _ _ _ h => by cases h; simp
  eintr_lt := fun _ _ _ h => by cases h

/-- Both bytes by one flush. -/
theorem delivered_once_two :
    DeliveredOnce shortFirst [.fputc 97, .fputc 98, .fflush] { stdout3 with buflen := 4 } 1 :=
  delivered_once shortFirst _ ⟨rfl, rfl, by decide, by decide⟩ _ (by simp [Op.IsOutput, Op.Valid]) 1
    (by decide +kernel)

/-- The flush behind a short one writes the first byte again. -/
theorem delivered_twice :
    (ledgerOf shortFirst [.fputc 97, .fputc 98, .fflush, .fflush] { stdout3 with buflen := 4 }
      0).delivered = [[0], [0, 1]] ∧
    (run (accepting shortFirst) [.fputc 97, .fputc 98, .fflush, .fflush]
      { stdout3 with buflen := 4 } (0, [])).2.2.2 = [[97], [97, 98]] ∧
    ¬ DeliveredOnce shortFirst [.fputc 97, .fputc 98, .fflush, .fflush]
      { stdout3 with buflen := 4 } 0 := by
  have hdelivered : (ledgerOf shortFirst [.fputc 97, .fputc 98, .fflush, .fflush]
      { stdout3 with buflen := 4 } 0).delivered = [[0], [0, 1]] := by decide +kernel
  refine ⟨hdelivered, by decide +kernel, fun h => ?_⟩
  have := h.2
  rw [hdelivered] at this
  exact absurd this (by decide)

end Dietlibc.Stdio
