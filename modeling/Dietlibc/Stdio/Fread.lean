import Dietlibc.Stdio.Getdelim
import Dietlibc.Stdio.Rights
import Dietlibc.Stdio.View

/-!
# `fread` and `fgetc`

`Clean` says when `fread` keeps in step with calls of `fgetc`. In every other state of a stream for input
it stores other bytes or leaves other ones behind: it does not look at the end-of-file indicator, it
resets the position and not the end of a buffer it cannot fill, it copies one byte too many behind a byte
pushed back, and it fills the buffer of a stream for update without turning it to input.
-/

namespace Dietlibc.Stdio

/-! ## The condition -/

section

variable {σ : Type}

/-- The outcome of `fread` against that of as many calls of `fgetc` as there are bytes, up to the
first `EOF`: the bytes, the number of items, what comes next, and no byte too many. -/
def InStep (d : Dev σ) (size j : Nat) (r : Nat × List UInt8 × File × σ)
    (r' : Bool × List UInt8 × File × σ) : Prop :=
  r.2.1 = r'.2.1 ∧ r.1 = r'.2.1.length / size ∧
    (∀ n, gets d n r.2.2.1 r.2.2.2 = gets d n r'.2.2.1 r'.2.2.2) ∧ r.2.1.length ≤ j

/-- `fread` does as `fgetc` would. -/
def AsFgetc (d : Dev σ) (size nmemb : Nat) (f : File) (s : σ) : Prop :=
  InStep d size (size * nmemb) (freadUnlocked d size nmemb f s) (getcLoop d (size * nmemb) [] f s)

/-- The byte pushed back, if there is one. -/
def File.pushback (f : File) : List UInt8 := if f.ungotten then [f.ungetbuf] else []

/-- What `fread` copies from: the bytes of the buffer, or those that a `read` puts there. -/
def stock (d : Dev σ) (f : File) (s : σ) : List UInt8 :=
  if f.bm < f.bs then f.buf.load f.bm (f.bs - f.bm) else (d.read s f.buflen).1.getD []

/-- Behind the `read` that fills the buffer there is nothing, and the buffer cannot be written. -/
def Quiet (d : Dev σ) (script : σ → List Event) (f : File) (s : σ) : Prop :=
  let bytes := (d.read s f.buflen).1.getD []
  let s := (d.read s f.buflen).2
  (d.write s bytes).1 ≠ .wrote bytes.length ∧ (∀ c ∈ seen (script s), c = none) ∧
    ∀ c ∈ seen (script (d.write s bytes).2), c = none

/-- What the way through the buffer needs; `i` bytes were pushed back. -/
structure Clean (d : Dev σ) (script : σ → List Event) (i j : Nat) (f : File) (s : σ) : Prop where
  /-- a byte pushed back leaves no room for all that is copied at most -/
  room : 0 < i → (stock d f s).length < j
  /-- behind the end no byte is read -/
  fin : f.eof = true → byteNext (script s) = false ∨
    f.bm < f.bs ∧ (j ≤ i + (stock d f s).length ∨ f.fdpipe = true ∨ j ≤ f.buflen)
  /-- a buffer that is not filled again is not one that was used up before -/
  fresh : f.bm = f.bs → byteNext (script s) = false → f.bs = 0
  /-- nothing of an output buffer is filled and left -/
  input : f.bufinput = true ∨
    f.bm = 0 ∧ f.bs = 0 ∧ (i + (stock d f s).length ≤ j ∨ Quiet d script f s)

/-- When `fread` is in step with `fgetc`. -/
def Meets (d : Dev σ) (script : σ → List Event) (size nmemb : Nat) (f : File) (s : σ) : Prop :=
  size * nmemb = 0 ∨ (f.ungotten = true ∧ size * nmemb = 1) ∨
    (f.ungotten = false ∧ size * nmemb < f.bs - f.bm) ∨
      Clean d script f.pushback.length (size * nmemb) f s

end

section

variable {σ : Type} {d : Dev σ} {script : σ → List Event} {f : File} {s : σ} {k n : Nat}

/-! ## The reads of `fread` -/

theorem took_dry {l : List Event} (h : byteNext l = false) (k : Nat) : took k (seen l) = [] := by
  rcases l with - | ⟨c | - | -, l⟩
  · exact took_nil k
  · cases h
  · exact took_none k _
  · exact took_nil k

/-- **The direct reads** take of the list what calls of `fgetc` would. -/
theorem readLoop_view (hd : Source d script) (hk : 0 < k) (out : List UInt8) (s : σ) :
    ∃ r s', readLoop d k out s = (r, out ++ took k (seen (script s)), s') ∧
      (r = .full ↔ (took k (seen (script s))).length = k) ∧
      (if r = .eof then [] else seen (script s')) = passed k (seen (script s)) := by
  induction k using Nat.strong_induction_on generalizing out s with
  | _ k ih =>
    rw [readLoop]
    obtain ⟨c, cs, s', hr, hs⟩ | ⟨s', hr, hs⟩ | ⟨s', hr, hs, -⟩ := hd.read s hk
    · obtain ⟨m, rfl⟩ := Nat.exists_eq_add_of_le (d.read_le s _ _ _ hr)
      rw [hr, hs, seen_bytes, took_append, passed_append]
      dsimp only
      cases m with
      | zero =>
        rw [if_neg (by omega)]
        exact ⟨.full, s', by simp [took], by simp [took], rfl⟩
      | succ m =>
        rw [if_pos (by omega), if_neg (List.cons_ne_nil _ _), Nat.add_sub_cancel_left]
        obtain ⟨r, s'', hloop, hfull, hrest⟩ := ih (m + 1) (by rw [List.length_cons]; omega)
          (Nat.succ_pos m) (out ++ c :: cs) s'
        refine ⟨r, s'', by rw [hloop, List.append_assoc], ?_, hrest⟩
        rw [hfull, List.length_append, Nat.add_left_cancel_iff]
    · rw [hr, hs]
      refine ⟨.error, s', ?_, ?_, ?_⟩
      · rw [seen, took_none, List.append_nil]
      · rw [seen, took_none]
        exact ⟨fun h => ReadEnd.noConfusion h, fun h => absurd h hk.ne⟩
      · rw [seen, passed_none hk]
        rfl
    · rw [hr, hs]
      refine ⟨.eof, s', ?_, ?_, ?_⟩
      · rw [took_nil, List.append_nil]
        dsimp only
        rw [List.length_nil, if_pos hk, if_pos rfl]
      · rw [took_nil]
        exact ⟨fun h => ReadEnd.noConfusion h, fun h => absurd h hk.ne⟩
      · rw [passed_nil]
        rfl

variable {size nmemb j : Nat} {out : List UInt8}

/-- Behind the buffer. -/
theorem freadRest_view (hd : Source d script) (h : Live f) (hu : f.ungotten = false)
    (hb : f.bs ≤ f.bm) (hj : out.length < j) (hn : nmemb = j / size)
    (he : f.eof = true → byteNext (script s) = false ∨ f.fdpipe = true ∨ j ≤ f.buflen) :
    ∃ f' s', freadRest d size nmemb j out f s =
      ((out ++ took (j - out.length) (view script f s)).length / size,
        out ++ took (j - out.length) (view script f s), f', s') ∧ Live f' ∧
          view script f' s' = passed (j - out.length) (view script f s) := by
  have hfull {l : List UInt8} (hl : l.length = j - out.length) : (out ++ l).length / size = nmemb := by
    rw [hn, List.length_append, hl, Nat.add_sub_cancel' hj.le]
  unfold freadRest
  by_cases hbig : (!f.fdpipe) = true ∧ f.buflen < j
  · rw [if_pos hbig]
    have hk : 0 < j - out.length := by omega
    obtain ⟨r, s', hloop, hr, hrest⟩ := readLoop_view hd hk out s
    have hsame : took (j - out.length) (view script f s) = took (j - out.length) (seen (script s)) := by
      rw [view_empty hu hb, behind]
      cases hf : f.eof with
      | false => rfl
      | true =>
        have hdry := (he hf).resolve_right fun h => by
          rcases h with hp | hle
          · rw [hp] at hbig; cases hbig.1
          · omega
        rw [if_pos rfl, took_dry hdry, took_nil]
    have hpassed (f' : File) (hu' : f'.ungotten = false) (hb' : f'.bs ≤ f'.bm)
        (he' : f'.eof = (f.eof || decide (r = .eof))) :
        view script f' s' = passed (j - out.length) (view script f s) := by
      rw [view_empty hu' hb', view_empty hu hb, behind, behind, he']
      cases f.eof with
      | true => rw [Bool.true_or, if_pos rfl, if_pos rfl, passed_nil]
      | false =>
        rw [Bool.false_or, if_neg Bool.false_ne_true, ← hrest]
        simp only [decide_eq_true_eq]
    rw [hloop, hsame]
    cases r with
    | full => exact ⟨f, s', by rw [hfull (hr.1 rfl)], h, hpassed f hu hb (by simp)⟩
    | eof =>
      exact ⟨_, s', rfl, ⟨⟨h.canread, h.bm_le, h.bs_le, h.buflen_pos, h.buflen_lt, h.input⟩,
        h.bm_le_bs, h.dir⟩, hpassed { f with eof := true } hu hb (by simp)⟩
    | error =>
      exact ⟨_, s', rfl, ⟨⟨h.canread, h.bm_le, h.bs_le, h.buflen_pos, h.buflen_lt, h.input⟩,
        h.bm_le_bs, h.dir⟩, hpassed { f with error := true } hu hb (by simp)⟩
  · rw [if_neg hbig]
    obtain ⟨f', s', hloop, h', hview⟩ := getcLoop_view hd h (j - out.length) out s
    rw [hloop]
    by_cases hlen : (took (j - out.length) (view script f s)).length = j - out.length
    · rw [decide_eq_true hlen]
      exact ⟨f', s', by rw [hfull hlen], h', hview⟩
    · rw [decide_eq_false hlen]
      exact ⟨f', s', rfl, h', hview⟩

/-! ## The copy from the buffer -/

theorem tocopy_eq (hle : f.bm ≤ f.bs) (hbs : f.bs < 2 ^ 32) : f.tocopy j = min (f.bs - f.bm) j := by
  unfold File.tocopy
  rw [CInt.usub_of_le hle hbs]
  split <;> omega

theorem freadCopy_min (h : Readable f) (hle : f.bm ≤ f.bs) (s : σ) :
    freadCopy d size nmemb j out f s = copyEnd d size nmemb j
      (out ++ f.buf.load f.bm (min (f.bs - f.bm) j)) (f.copied (f.bm + min (f.bs - f.bm) j)) s := by
  have hbs := h.bs_le
  have hlen := h.buflen_lt
  rw [freadCopy_eq, tocopy_eq hle (by omega), Nat.mod_eq_of_lt (by omega)]

theorem copied_fields (f : File) (b : Nat) : (f.copied b).ungotten = f.ungotten ∧
    (f.copied b).eof = f.eof ∧ (f.copied b).fdpipe = f.fdpipe ∧ (f.copied b).buflen = f.buflen := by
  unfold File.copied
  split <;> exact ⟨rfl, rfl, rfl, rfl⟩

theorem copied_live (h : Readable f) (hle : f.bm ≤ f.bs) (hk : k ≤ f.bs - f.bm)
    (hd : f.bufinput = false → k = f.bs - f.bm) : Live (f.copied (f.bm + k)) := by
  have hbs := h.bs_le
  unfold File.copied
  split
  · exact ⟨⟨h.canread, Nat.zero_le _, Nat.zero_le _, h.buflen_pos, h.buflen_lt, fun _ => le_rfl⟩,
      le_rfl, fun _ => rfl⟩
  · rename_i hne
    refine ⟨⟨h.canread, ?_, hbs, h.buflen_pos, h.buflen_lt, fun _ => ?_⟩, ?_, fun hi => ?_⟩
    · dsimp only
      omega
    · dsimp only
      omega
    · dsimp only
      omega
    · exact absurd (hd hi) (by omega)

/-- A copy takes its bytes off the list. -/
theorem view_copied (hu : f.ungotten = false) (hle : f.bm ≤ f.bs) (hk : k ≤ f.bs - f.bm) (s : σ) :
    view script f s =
      (f.buf.load f.bm k).map some ++ view script (f.copied (f.bm + k)) s := by
  obtain ⟨r, hr⟩ := Nat.exists_eq_add_of_le hk
  rw [view_free hu, hr, Mem.load_add, List.map_append, List.append_assoc]
  congr 1
  rw [view_free ((copied_fields f _).1.trans hu), behind, behind, (copied_fields f _).2.1]
  congr 2
  unfold File.copied
  split
  · rw [show r = 0 by omega]
    rfl
  · dsimp only
    rw [show f.bs - (f.bm + k) = r by omega]

/-- The whole buffer is used up. -/
theorem freadCopy_used (hd : Source d script) (h : Readable f) (hu : f.ungotten = false)
    (hlt : f.bm < f.bs) (hj : out.length + (f.bs - f.bm) ≤ j) (hn : nmemb = j / size)
    (he : f.eof = true → byteNext (script s) = false ∨ j ≤ out.length + (f.bs - f.bm) ∨
      f.fdpipe = true ∨ j ≤ f.buflen) :
    ∃ f' s', freadCopy d size nmemb j out f s =
      ((out ++ took (j - out.length) (view script f s)).length / size,
        out ++ took (j - out.length) (view script f s), f', s') ∧ Live f' ∧
          view script f' s' = passed (j - out.length) (view script f s) := by
  obtain ⟨r, hr⟩ := Nat.exists_eq_add_of_le hj
  have hlen : (f.buf.load f.bm (f.bs - f.bm)).length = f.bs - f.bm := Mem.length_load
  have hlen' : (out ++ f.buf.load f.bm (f.bs - f.bm)).length = out.length + (f.bs - f.bm) := by
    rw [List.length_append, hlen]
  have hlive := copied_live h hlt.le le_rfl fun _ => rfl
  have hcut : j - out.length = (f.buf.load f.bm (f.bs - f.bm)).length + r := by omega
  rw [freadCopy_min h hlt.le, Nat.min_eq_left (by omega), hcut,
    view_copied hu hlt.le le_rfl s, took_append, passed_append, ← List.append_assoc]
  have hempty : (f.copied (f.bm + (f.bs - f.bm))).bs ≤ (f.copied (f.bm + (f.bs - f.bm))).bm := by
    unfold File.copied
    rw [if_pos (by omega)]
  obtain ⟨hu', he', hp', hb'⟩ := copied_fields f (f.bm + (f.bs - f.bm))
  generalize f.copied (f.bm + (f.bs - f.bm)) = g at *
  unfold copyEnd
  rw [hlen']
  by_cases h0 : r = 0
  · rw [if_pos (by omega), h0]
    refine ⟨g, s, ?_, hlive, rfl⟩
    rw [took_zero, List.append_nil, hlen', hn, hr, h0, Nat.add_zero]
  · rw [if_neg (by omega)]
    have hrest := freadRest_view hd hlive (hu'.trans hu) hempty (s := s)
      (by rw [hlen']; omega) hn fun hg => by
        rw [hp', hb']
        rcases he (he' ▸ hg) with hb | hle | hq
        · exact .inl hb
        · exact absurd hle (by omega)
        · exact .inr hq
    rwa [hlen', show j - (out.length + (f.bs - f.bm)) = r by omega] at hrest

/-- Less than the buffer is wanted. -/
theorem freadCopy_part (h : Readable f) (hj : j ≤ f.bs - f.bm) (hle : f.bm ≤ f.bs) (s : σ) :
    freadCopy d size nmemb j [] f s = (nmemb, f.buf.load f.bm j, f.copied (f.bm + j), s) := by
  rw [freadCopy_min h hle, Nat.min_eq_right hj]
  exact if_pos Mem.length_load

/-! ## The fill of the buffer -/

/-- The stream with these bytes in the buffer. -/
def File.filled (f : File) (bs : List UInt8) : File :=
  { f with bm := 0, bs := bs.length, buf := f.buf.store 0 bs }

theorem usub_eq_zero (h : Readable f) (hle : f.bm ≤ f.bs) :
    CInt.usub 32 f.bs f.bm = 0 ↔ f.bm = f.bs := by
  have hbs := h.bs_le
  have hlen := h.buflen_lt
  rw [CInt.usub_of_le hle (by omega)]
  omega

theorem freadBuf_copy (h : Readable f) (hlt : f.bm < f.bs) (s : σ) :
    freadBuf d size nmemb j out f s = freadCopy d size nmemb j out f s := by
  unfold freadBuf
  rw [if_neg (by rw [usub_eq_zero h hlt.le]; omega)]

theorem freadBuf_fill (h : Readable f) (hb : f.bm = f.bs) {c : UInt8} {cs : List UInt8} {s' : σ}
    (hr : d.read s f.buflen = (some (c :: cs), s')) : freadBuf d size nmemb j out f s =
      freadCopy d size nmemb j out (f.filled (c :: cs)) s' := by
  unfold freadBuf
  rw [if_pos ((usub_eq_zero h hb.le).2 hb), hr]
  rfl

/-- A `read` that gives nothing leaves the position at the start of the buffer. -/
theorem freadBuf_dry (size nmemb j : Nat) (out : List UInt8) (hd : Source d script) (h : Readable f)
    (hb : f.bm = f.bs) (hdry : byteNext (script s) = false) : ∃ eof error s',
      freadBuf d size nmemb j out f s =
        (out.length / size, out, { f with bm := 0, eof, error }, s') ∧
      ∀ k, 0 < k → took k (behind script f s) = [] ∧
        passed k (behind script f s) = behind script { f with eof } s' := by
  unfold freadBuf
  rw [if_pos ((usub_eq_zero h hb.le).2 hb)]
  obtain ⟨c, cs, s', hr, hs⟩ | ⟨s', hr, hs⟩ | ⟨s', hr, hs, -⟩ := hd.read s h.buflen_pos
  · rw [hs] at hdry
    cases hdry
  · refine ⟨f.eof, true, s', by rw [hr], fun k hk => ?_⟩
    unfold behind
    cases hf : f.eof with
    | true => exact ⟨took_nil k, passed_nil k⟩
    | false =>
      rw [if_neg nofun, if_neg nofun, hs]
      exact ⟨took_none k _, passed_none hk _⟩
  · refine ⟨true, f.error, s', by rw [hr], fun k hk => ?_⟩
    unfold behind
    rw [hs, ite_self]
    exact ⟨took_nil k, passed_nil k⟩

theorem filled_readable (h : Readable f) {bs : List UInt8} (hbs : bs.length ≤ f.buflen) :
    Readable (f.filled bs) :=
  ⟨h.canread, Nat.zero_le _, hbs, h.buflen_pos, h.buflen_lt, fun _ => Nat.zero_le _⟩

theorem filled_load (f : File) (bs : List UInt8) (hk : k ≤ bs.length) :
    (f.filled bs).buf.load 0 k = bs.take k := by
  have hall : (f.filled bs).buf.load 0 bs.length = bs := Mem.load_store_self rfl
  obtain ⟨r, hr⟩ := Nat.exists_eq_add_of_le hk
  rw [hr, Mem.load_add] at hall
  conv_rhs => rw [← hall]
  rw [List.take_left' Mem.length_load]

theorem view_filled (hu : f.ungotten = false) (he : f.eof = false) (bs : List UInt8) (s : σ) :
    view script (f.filled bs) s = bs.map some ++ seen (script s) := by
  rw [view_free (f := f.filled bs) hu, behind, if_neg (by simp [File.filled, he])]
  congr 2
  exact (filled_load f bs le_rfl).trans (List.take_length)

/-! ## A filled buffer that counts as output -/

/-- What comes behind its bytes: it is written, and they come again, or an `EOF`. -/
def rewritten (d : Dev σ) (script : σ → List Event) (f : File) (s : σ) : List (Option UInt8) :=
  (if (d.write s (f.buf.load 0 f.bs)).1 = .wrote f.bs then (f.buf.load 0 f.bs).map some else [none]) ++
    seen (script (d.write s (f.buf.load 0 f.bs)).2)

theorem gives_rewritten (hd : Source d script) (h : Readable f) (hu : f.ungotten = false)
    (he : f.eof = false) (hi : f.bufinput = false) (hb : f.bm = f.bs) (hpos : 0 < f.bs) (s : σ) :
    Gives d f s (rewritten d script f s) := by
  rcases hw : d.write s (f.buf.load 0 f.bs) with ⟨w, s'⟩
  have hget : fgetcUnlocked d f s =
      if w = .wrote f.bs then
        (some (f.buf 0), { f with bm := 1, ungotten := false, bufinput := true }, s')
      else (none, { f with error := true, bufinput := true }, s') := by
    unfold fgetcUnlocked fflush4 fflushUnlocked File.pending
    rw [if_neg (by simp [h.canread]), if_neg (by simp [hu]), if_neg (by omega), if_neg (by simp [he]),
      if_neg (by simp [hi]), if_neg (by simp [hi]), if_neg (by omega), hb, hw]
    dsimp only
    by_cases hok : w = .wrote f.bs
    · rw [if_pos hok, if_pos hok]
      dsimp only
      rw [if_neg (by omega)]
    · rw [if_neg hok, if_neg hok]
  unfold rewritten
  rw [hw]
  dsimp only
  by_cases hok : w = .wrote f.bs
  · rw [if_pos hok] at hget ⊢
    have hlive : Live { f with bm := 1, ungotten := false, bufinput := true } :=
      ⟨⟨h.canread, h.buflen_pos, h.bs_le, h.buflen_pos, h.buflen_lt, fun _ => hpos⟩, hpos, fun h => Bool.noConfusion h⟩
    have hview : view script { f with bm := 1, ungotten := false, bufinput := true } s' =
        (f.buf.load 1 (f.bs - 1)).map some ++ seen (script s') := by
      rw [view_free rfl, behind, if_neg (by simp [he])]
    rw [show f.buf.load 0 f.bs = f.buf 0 :: f.buf.load 1 (f.bs - 1) by
      rw [← Mem.load_cons, Nat.sub_add_cancel hpos]]
    have hgives := hlive.gives hd s'
    rw [hview] at hgives
    exact Gives.cons hget hgives
  · rw [if_neg hok] at hget ⊢
    have hlive : Live { f with error := true, bufinput := true } :=
      ⟨⟨h.canread, h.bm_le, h.bs_le, h.buflen_pos, h.buflen_lt, fun _ => hb.le⟩, hb.le, fun h => Bool.noConfusion h⟩
    have hgives := hlive.gives hd s'
    rw [view_empty (by exact hu) (by exact hb.ge), behind, if_neg (by simp [he])] at hgives
    exact Gives.cons hget hgives

theorem gives_left (hd : Source d script) (h : Readable f) (hu : f.ungotten = false)
    (he : f.eof = false) (hi : f.bufinput = false) (hle : f.bm ≤ f.bs) (hpos : 0 < f.bs) (s : σ) :
    Gives d f s ((f.buf.load f.bm (f.bs - f.bm)).map some ++ rewritten d script f s) := by
  obtain ⟨r, hr⟩ := Nat.exists_eq_add_of_le hle
  induction r generalizing f with
  | zero =>
    rw [show f.bs - f.bm = 0 by omega]
    exact gives_rewritten hd h hu he hi (by omega) hpos s
  | succ r ih =>
    have hget : fgetcUnlocked d f s = (some (f.buf f.bm), { f with bm := f.bm + 1 }, s) := by
      unfold fgetcUnlocked
      rw [if_neg (by simp [h.canread]), if_neg (by simp [hu]), if_pos (by omega)]
    have hbs := h.bs_le
    have hstep : Readable { f with bm := f.bm + 1 } :=
      ⟨h.canread, by dsimp only; omega, hbs, h.buflen_pos, h.buflen_lt, fun hi' => by
        rw [hi] at hi'; cases hi'⟩
    rw [show f.bs - f.bm = r + 1 by omega, Mem.load_cons]
    have hgives := ih hstep hu he hi (by dsimp only; omega) hpos (by dsimp only; omega)
    rw [show f.bs - (f.bm + 1) = r by omega] at hgives
    exact Gives.cons hget hgives

/-! ## The condition is enough -/

theorem Clean.live {i : Nat} (hc : Clean d script i j f s) (h : Readable f) : Live f := by
  rcases hc.input with hi | ⟨hm, hb, -⟩
  · exact ⟨h, h.input hi, fun hf => by rw [hi] at hf; cases hf⟩
  · exact ⟨h, by omega, fun _ => hb⟩

theorem stock_copy (hlt : f.bm < f.bs) (s : σ) : stock d f s = f.buf.load f.bm (f.bs - f.bm) :=
  if_pos hlt

theorem stock_fill (hb : f.bm = f.bs) {bs : List UInt8} {s' : σ}
    (hr : d.read s f.buflen = (some bs, s')) : stock d f s = bs := by
  unfold stock
  rw [if_neg (by omega), hr]
  rfl

theorem quiet_fill {bs : List UInt8} {s' : σ} (hr : d.read s f.buflen = (some bs, s')) :
    Quiet d script f s ↔ (d.write s' bs).1 ≠ .wrote bs.length ∧
      (∀ c ∈ seen (script s'), c = none) ∧ ∀ c ∈ seen (script (d.write s' bs).2), c = none := by
  unfold Quiet
  simp only [hr]
  rfl

/-- What is left of a filled buffer that counts as output. -/
theorem gives_filled (hd : Source d script) (h : Readable f) (hu : f.ungotten = false)
    (he : f.eof = false) (hi : f.bufinput = false) {bs : List UInt8} (hbs : bs.length ≤ f.buflen)
    (hj : j < bs.length) (s : σ) : Gives d ((f.filled bs).copied (0 + j)) s
      ((bs.drop j).map some ++ ((if (d.write s bs).1 = .wrote bs.length then bs.map some else [none]) ++
        seen (script (d.write s bs).2))) := by
  have hfile : (f.filled bs).copied (0 + j) = { f.filled bs with bm := j } := by
    unfold File.copied
    rw [if_neg (by simp only [File.filled]; omega), Nat.zero_add]
  have hread : Readable { f.filled bs with bm := j } :=
    ⟨h.canread, hj.le.trans hbs, hbs, h.buflen_pos, h.buflen_lt, fun _ => hj.le⟩
  have hgives : Gives d { f.filled bs with bm := j } s
      (((f.filled bs).buf.load j (bs.length - j)).map some ++
        rewritten d script { f.filled bs with bm := j } s) :=
    gives_left hd hread hu he hi hj.le (Nat.zero_lt_of_lt hj) s
  have hall : (f.filled bs).buf.load 0 bs.length = bs := Mem.load_store_self rfl
  have hleft : (f.filled bs).buf.load j (bs.length - j) = bs.drop j := by
    have hsplit := hall
    rw [← Nat.add_sub_cancel' hj.le, Mem.load_add, Nat.zero_add] at hsplit
    conv_rhs => rw [← hsplit]
    rw [List.drop_left' Mem.length_load]
  have hrewritten : rewritten d script { f.filled bs with bm := j } s =
      (if (d.write s bs).1 = .wrote bs.length then bs.map some else [none]) ++
        seen (script (d.write s bs).2) := by
    show (if (d.write s ((f.filled bs).buf.load 0 bs.length)).1 = .wrote bs.length then
        ((f.filled bs).buf.load 0 bs.length).map some else [none]) ++
      seen (script (d.write s ((f.filled bs).buf.load 0 bs.length)).2) = _
    rw [hall]
  rw [hfile]
  rw [hleft, hrewritten] at hgives
  exact hgives

theorem passed_part {bs : List UInt8} (hj : k ≤ bs.length) (v : List (Option UInt8)) :
    took k (bs.map some ++ v) = bs.take k ∧
      passed k (bs.map some ++ v) = (bs.drop k).map some ++ v := by
  have hlen : (bs.take k).length = k := List.length_take_of_le hj
  have hsplit : bs.map some ++ v = (bs.take k).map some ++ ((bs.drop k).map some ++ v) := by
    rw [← List.append_assoc, ← List.map_append, List.take_append_drop]
  have htook := took_append (bs.take k) 0 ((bs.drop k).map some ++ v)
  have hpassed := passed_append (bs.take k) 0 ((bs.drop k).map some ++ v)
  rw [Nat.add_zero, hlen, ← hsplit] at htook hpassed
  exact ⟨by rw [htook, took_zero, List.append_nil], hpassed⟩

/-- The outcome that calls of `fgetc` have, with `k` bytes wanted behind `out`. -/
def Matches (d : Dev σ) (size k : Nat) (out : List UInt8) (v : List (Option UInt8))
    (r : Nat × List UInt8 × File × σ) : Prop :=
  r.2.1 = out ++ took k v ∧ r.1 = (out ++ took k v).length / size ∧
    Gives d r.2.2.1 r.2.2.2 (passed k v)

/-- The copy, and what follows it. -/
theorem freadCopy_matches (hd : Source d script) (h : Readable f) (hu : f.ungotten = false)
    (hlt : f.bm < f.bs) (hn : nmemb = j / size)
    (hnil : j < out.length + (f.bs - f.bm) → out = [])
    (he : f.eof = true → byteNext (script s) = false ∨ j ≤ out.length + (f.bs - f.bm) ∨
      f.fdpipe = true ∨ j ≤ f.buflen)
    (hleft : j < f.bs - f.bm → Gives d (f.copied (f.bm + j)) s (passed j (view script f s))) :
    Matches d size (j - out.length) out (view script f s)
      (freadCopy d size nmemb j out f s) := by
  by_cases hall : out.length + (f.bs - f.bm) ≤ j
  · obtain ⟨f', s', hrun, hl, hv⟩ := freadCopy_used hd h hu hlt hall hn he
    rw [hrun]
    exact ⟨rfl, rfl, hv ▸ hl.gives hd s'⟩
  · obtain rfl := hnil (Nat.lt_of_not_le hall)
    rw [List.length_nil, Nat.zero_add] at hall
    have hle : j ≤ f.bs - f.bm := (Nat.lt_of_not_le hall).le
    have hlen : (f.buf.load f.bm j).length = j := Mem.length_load
    have htook : took j (view script f s) = f.buf.load f.bm j := by
      rw [view_copied hu hlt.le hle s, (passed_part hlen.ge _).1, List.take_of_length_le hlen.le]
    rw [freadCopy_part h hle hlt.le]
    unfold Matches
    rw [List.length_nil, Nat.sub_zero, htook, List.nil_append, hlen]
    exact ⟨rfl, hn, hleft (Nat.lt_of_not_le hall)⟩

/-- A buffer for input goes on behind the bytes taken. -/
theorem gives_copied (hd : Source d script) (h : Readable f) (hu : f.ungotten = false)
    (hi : f.bufinput = true) (hle : f.bm ≤ f.bs) (hj : j ≤ f.bs - f.bm) (s : σ) :
    Gives d (f.copied (f.bm + j)) s (passed j (view script f s)) := by
  have hlive := copied_live h hle hj fun hf => by rw [hi] at hf; cases hf
  have hlen : (f.buf.load f.bm j).length = j := Mem.length_load
  rw [view_copied hu hle hj s, (passed_part hlen.ge _).2, List.drop_eq_nil_of_le hlen.le]
  exact hlive.gives hd s

/-- **`fread` in step**: it stores what calls of `fgetc` would give, and leaves what they would leave. -/
theorem freadBuf_matches (hd : Source d script) (h : Readable f) (hu : f.ungotten = false)
    (hj : out.length < j) (ho : out.length ≤ 1) (hn : nmemb = j / size)
    (hc : Clean d script out.length j f s) :
    Matches d size (j - out.length) out (view script f s)
      (freadBuf d size nmemb j out f s) := by
  have hlive := hc.live h
  have hnil (hlt : j < out.length + (stock d f s).length) : out = [] := by
    by_contra hne
    have hpos := List.length_pos_iff.2 hne
    have := hc.room hpos
    omega
  rcases hlive.bm_le_bs.lt_or_eq with hlt | hb
  · have hstock : (stock d f s).length = f.bs - f.bm := by rw [stock_copy hlt, Mem.length_load]
    have hi : f.bufinput = true := hc.input.resolve_right fun hz => by omega
    rw [freadBuf_copy h hlt]
    rw [hstock] at hnil
    refine freadCopy_matches hd h hu hlt hn hnil (fun he => ?_) fun hlt' =>
      gives_copied hd h hu hi hlt.le hlt'.le s
    rw [← hstock]
    exact (hc.fin he).imp_right fun hq => hq.2
  obtain ⟨c, cs, s', hr, hs⟩ | hdry : (∃ c cs s', d.read s f.buflen = (some (c :: cs), s') ∧
      script s = (c :: cs).map .byte ++ script s') ∨ byteNext (script s) = false := by
    obtain hr | ⟨s', -, hs⟩ | ⟨s', -, -, hs⟩ := hd.read s h.buflen_pos
    · exact .inl hr
    · exact .inr (by rw [hs]; rfl)
    · exact .inr hs
  · have he : f.eof = false := by
      by_contra he
      rcases hc.fin (Bool.eq_true_of_not_eq_false he) with hn | ⟨hlt, -⟩
      · rw [hs] at hn; cases hn
      · omega
    have hstock := stock_fill hb hr
    have hlen := d.read_le s _ _ _ hr
    have hread := filled_readable h hlen
    have hv : view script f s = view script (f.filled (c :: cs)) s' := by
      rw [view_filled hu he, view_empty hu hb.ge, behind, if_neg (by simp [he]), hs, seen_bytes]
    rw [freadBuf_fill h hb hr, hv]
    rw [hstock] at hnil
    refine freadCopy_matches hd hread hu (Nat.succ_pos _) hn hnil
      (fun hf => absurd (he.symm.trans hf) Bool.false_ne_true) fun hlt => ?_
    cases hi : f.bufinput with
    | true => exact gives_copied hd hread hu hi (Nat.zero_le _) hlt.le s'
    | false =>
      -- the buffer is left as an output buffer
      obtain ⟨-, -, hq⟩ := hc.input.resolve_left (by simp [hi])
      rw [hstock, quiet_fill hr] at hq
      obtain ⟨hne, hw, hw'⟩ := hq.resolve_left fun hle => by
        have : j < (c :: cs).length := hlt
        omega
      have hgives := gives_filled hd h hu he hi hlen hlt s'
      rw [if_neg hne] at hgives
      have hnone : ∀ x ∈ [none] ++ seen (script (d.write s' (c :: cs)).2), x = none :=
        List.forall_mem_cons.2 ⟨rfl, hw'⟩
      have halike : Alike ([none] ++ seen (script (d.write s' (c :: cs)).2)) (seen (script s')) :=
        fun n => (firsts_none hnone n).trans (firsts_none hw n).symm
      intro n
      rw [view_filled hu he, (passed_part (show j ≤ (c :: cs).length from hlt.le) _).2]
      exact (hgives n).trans (halike.append _ n)
  · obtain ⟨eof, error, s', hrun, hrest⟩ := freadBuf_dry size nmemb j out hd h hb hdry
    obtain ⟨htook, hpassed⟩ := hrest (j - out.length) (Nat.sub_pos_of_lt hj)
    have hbs := hc.fresh hb hdry
    have hl : Live { f with bm := 0, eof, error } :=
      ⟨⟨h.canread, Nat.zero_le _, h.bs_le, h.buflen_pos, h.buflen_lt, fun _ => Nat.zero_le _⟩,
        Nat.zero_le _, fun _ => hbs⟩
    have hgives := hl.gives hd s'
    rw [view_empty (by exact hu) (by exact hbs.le)] at hgives
    unfold Matches
    rw [hrun, view_empty hu hb.ge, htook, hpassed, List.append_nil]
    exact ⟨rfl, rfl, hgives⟩

/-! ## The condition is needed -/

theorem getcLoop_prefix (n : Nat) (out : List UInt8) (f : File) (s : σ) :
    out <+: (getcLoop d n out f s).2.1 := by
  induction n generalizing out f s with
  | zero => exact List.prefix_rfl
  | succ n ih =>
    rw [getcLoop]
    rcases fgetcUnlocked d f s with ⟨- | c, f', s'⟩
    · exact List.prefix_rfl
    · exact (List.prefix_append out [c]).trans (ih (out ++ [c]) f' s')

theorem readLoop_prefix (tmp : Nat) (out : List UInt8) (s : σ) :
    out <+: (readLoop d tmp out s).2.1 := by
  induction tmp using Nat.strong_induction_on generalizing out s with
  | _ tmp ih =>
    rw [readLoop]
    rcases d.read s tmp with ⟨- | bs, s'⟩
    · exact List.prefix_rfl
    · dsimp only
      split
      · split
        · exact List.prefix_rfl
        · rename_i hne
          have hpos := List.length_pos_iff.2 hne
          exact (List.prefix_append out bs).trans (ih _ (by omega) _ s')
      · exact List.prefix_append out bs

theorem copyEnd_base (out : List UInt8) (f : File) (s : σ) :
    out <+: (copyEnd d size nmemb j out f s).2.1 := by
  unfold copyEnd freadRest
  split
  · exact List.prefix_rfl
  · split
    · have hloop := readLoop_prefix (d := d) (j - out.length) out s
      generalize readLoop d (j - out.length) out s = r at hloop ⊢
      rcases r with ⟨_ | _ | _, out', s'⟩ <;> exact hloop
    · have hloop := getcLoop_prefix (d := d) (j - out.length) out f s
      generalize getcLoop d (j - out.length) out f s = r at hloop ⊢
      rcases r with ⟨_ | _, out', f', s'⟩ <;> exact hloop

theorem freadCopy_length (h : Readable f) (hle : f.bm ≤ f.bs) (s : σ) :
    out.length + min (f.bs - f.bm) j ≤ (freadCopy d size nmemb j out f s).2.1.length := by
  rw [freadCopy_min h hle]
  refine le_trans ?_ (copyEnd_base _ _ s).length_le
  rw [List.length_append, Mem.length_load]

/-- At least that is stored. -/
theorem freadBuf_length (size nmemb j : Nat) (out : List UInt8) (hd : Source d script) (h : Live f)
    (s : σ) :
    out.length + min (stock d f s).length j ≤ (freadBuf d size nmemb j out f s).2.1.length := by
  rcases h.bm_le_bs.lt_or_eq with hlt | hb
  · rw [stock_copy hlt, Mem.length_load, freadBuf_copy h.toReadable hlt]
    exact freadCopy_length h.toReadable hlt.le s
  obtain ⟨c, cs, s', hr, -⟩ | ⟨s', hr, hs⟩ | ⟨s', hr, -, hs⟩ := hd.read s h.buflen_pos
  · rw [stock_fill hb hr, freadBuf_fill h.toReadable hb hr]
    exact freadCopy_length (filled_readable h.toReadable (d.read_le s _ _ _ hr)) (Nat.zero_le _) s'
  · obtain ⟨eof, error, s'', hrun, -⟩ := freadBuf_dry size nmemb j out hd h.toReadable hb
      (by rw [hs]; rfl)
    have hstock : stock d f s = [] := by
      unfold stock
      rw [if_neg (by omega), hr]
      rfl
    rw [hrun, hstock, List.length_nil, Nat.zero_min, Nat.add_zero]
  · obtain ⟨eof, error, s'', hrun, -⟩ := freadBuf_dry size nmemb j out hd h.toReadable hb hs
    rw [hrun, stock_fill hb hr, List.length_nil, Nat.zero_min, Nat.add_zero]

/-- Behind the buffer a large request reads at once. -/
theorem freadBuf_direct (size nmemb : Nat) (hd : Source d script) (h : Readable f)
    (hlt : f.bm < f.bs) (hbyte : byteNext (script s) = true)
    (hbig : ¬(j ≤ out.length + (f.bs - f.bm) ∨ f.fdpipe = true ∨ j ≤ f.buflen)) :
    out.length + (f.bs - f.bm) < (freadBuf d size nmemb j out f s).2.1.length := by
  rw [not_or, not_or, Nat.not_le, Nat.not_le] at hbig
  obtain ⟨hj, hpipe, hlen⟩ := hbig
  obtain ⟨-, -, hp', hb'⟩ := copied_fields f (f.bm + (f.bs - f.bm))
  rw [freadBuf_copy h hlt, freadCopy_min h hlt.le, Nat.min_eq_left (by omega)]
  have hlen' : (out ++ f.buf.load f.bm (f.bs - f.bm)).length = out.length + (f.bs - f.bm) := by
    rw [List.length_append, Mem.length_load]
  generalize f.copied (f.bm + (f.bs - f.bm)) = g at *
  generalize out ++ f.buf.load f.bm (f.bs - f.bm) = out' at *
  rw [← hlen'] at hj ⊢
  unfold copyEnd freadRest
  rw [if_neg hj.ne, if_pos ⟨by simp [hp', hpipe], by omega⟩]
  obtain ⟨r, s', hloop, -⟩ := readLoop_view hd (Nat.sub_pos_of_lt hj) out' s
  have hmore : 0 < (took (j - out'.length) (seen (script s))).length := by
    obtain ⟨k, hk⟩ : ∃ k, j - out'.length = k + 1 := ⟨j - out'.length - 1, by omega⟩
    rw [hk]
    rcases hs : script s with - | ⟨c | - | -, l⟩
    · rw [hs] at hbyte; cases hbyte
    · exact Nat.succ_pos _
    · rw [hs] at hbyte; cases hbyte
    · rw [hs] at hbyte; cases hbyte
  rw [hloop]
  cases r <;> exact (Nat.lt_add_of_pos_right hmore).trans_eq List.length_append.symm

theorem Gives.alike {v w : List (Option UInt8)} (h : Gives d f s v) (h' : Gives d f s w) : Alike v w :=
  fun n => (h n).symm.trans (h' n)

/-- A position at the start of a buffer that was used up gives its bytes again. -/
theorem fresh_needed (hd : Source d script) (h : Live f) (hu : f.ungotten = false)
    (hk : 0 < k) (hb : f.bm = f.bs) (hdry : byteNext (script s) = false)
    (hm : Matches d size k out (view script f s) (freadBuf d size nmemb j out f s)) : f.bs = 0 := by
  by_contra hne
  have hi : f.bufinput = true := by
    cases hi : f.bufinput with
    | true => rfl
    | false => exact absurd (h.dir hi) hne
  obtain ⟨eof, error, s', hrun, hrest⟩ := freadBuf_dry size nmemb j out hd h.toReadable hb hdry
  have hl : Live { f with bm := 0, eof, error } :=
    ⟨⟨h.canread, Nat.zero_le _, h.bs_le, h.buflen_pos, h.buflen_lt, fun _ => Nat.zero_le _⟩,
      Nat.zero_le _, fun hf => absurd (hi.symm.trans hf) Bool.noConfusion⟩
  obtain ⟨-, -, hgives⟩ := hm
  have hagain := hl.gives hd s'
  rw [hrun, view_empty hu hb.ge, (hrest k hk).2] at hgives
  rw [view_free (by exact hu)] at hagain
  obtain ⟨b, hbs⟩ := Nat.exists_eq_succ_of_ne_zero hne
  have hload : f.buf.load 0 (f.bs - 0) = f.buf 0 :: f.buf.load 1 b := by
    rw [hbs, Nat.sub_zero, ← Mem.load_cons]
  dsimp only at hagain
  rw [hload] at hagain
  exact not_alike_bytes _ _ _ (hagain.alike hgives)

/-- What is left in an output buffer is written before it is filled again. -/
theorem quiet_needed (hd : Source d script) (hap : Apart d script) (h : Live f)
    (hu : f.ungotten = false) (he : f.eof = false) (hi : f.bufinput = false)
    (hj : j < (stock d f s).length)
    (hm : Matches d size j [] (view script f s) (freadBuf d size nmemb j [] f s)) :
    Quiet d script f s := by
  have hb : f.bm = f.bs := by
    have := h.dir hi
    have := h.bm_le_bs
    omega
  obtain ⟨c, cs, s', hr, hs⟩ | ⟨s', hr, -⟩ | ⟨s', hr, -⟩ := hd.read s h.buflen_pos
  · have hlen := d.read_le s _ _ _ hr
    have hread := filled_readable h.toReadable hlen
    rw [stock_fill hb hr] at hj
    have hgives := gives_filled hd h.toReadable hu he hi hlen hj s'
    have hv : view script f s = (c :: cs).map some ++ seen (script s') := by
      rw [view_empty hu hb.ge, behind, if_neg (by simp [he]), hs, seen_bytes]
    obtain ⟨-, -, hleft⟩ := hm
    rw [freadBuf_fill h.toReadable hb hr, freadCopy_part hread hj.le (Nat.zero_le _), hv,
      (passed_part hj.le _).2] at hleft
    have halike := (hgives.alike hleft).drop
    rw [quiet_fill hr]
    split at halike
    · rw [hap] at halike
      exact absurd halike (not_alike_bytes c cs _)
    · rename_i hne
      rw [hap] at halike ⊢
      exact ⟨hne, halike.none_mem, halike.none_mem⟩
  · unfold stock at hj
    rw [if_neg (by omega), hr] at hj
    exact absurd hj (Nat.not_lt_zero j)
  · rw [stock_fill hb hr] at hj
    exact absurd hj (Nat.not_lt_zero j)

theorem clean_of_matches (hd : Source d script) (hap : f.bufinput = true ∨ Apart d script)
    (h : Live f) (hu : f.ungotten = false) (hj : out.length < j) (ho : out.length ≤ 1)
    (hm : Matches d size (j - out.length) out (view script f s) (freadBuf d size nmemb j out f s))
    (hlen : (freadBuf d size nmemb j out f s).2.1.length ≤ j) :
    Clean d script out.length j f s := by
  have hlow := freadBuf_length size nmemb j out hd h s
  have hout : (freadBuf d size nmemb j out f s).2.1.length =
      out.length + (took (j - out.length) (view script f s)).length := by
    rw [hm.1, List.length_append]
  have hroom (hpos : 0 < out.length) : (stock d f s).length < j := by
    by_contra hge
    rw [Nat.min_eq_right (by omega)] at hlow
    omega
  have hfin (he : f.eof = true) : byteNext (script s) = false ∨ f.bm < f.bs ∧
      (j ≤ out.length + (stock d f s).length ∨ f.fdpipe = true ∨ j ≤ f.buflen) := by
    by_contra hno
    rw [not_or, Bool.not_eq_false, not_and] at hno
    obtain ⟨hbyte, hbig⟩ := hno
    have hview : view script f s = (f.buf.load f.bm (f.bs - f.bm)).map some := by
      rw [view_free hu, behind, if_pos he, List.append_nil]
    have htook := (length_took_le (j - out.length) (view script f s)).2
    rw [hview, List.length_map, Mem.length_load] at htook
    rw [hview] at hout
    rcases h.bm_le_bs.lt_or_eq with hlt | hb
    · have hbig := hbig hlt
      rw [stock_copy hlt, Mem.length_load] at hbig
      have hmore := freadBuf_direct size nmemb hd h.toReadable hlt hbyte hbig
      omega
    · have hpos : 0 < (stock d f s).length := by
        obtain ⟨c, cs, s', hr, -⟩ | ⟨s', -, hs⟩ | ⟨s', -, -, hs⟩ := hd.read s h.buflen_pos
        · rw [stock_fill hb hr]
          exact Nat.succ_pos _
        · rw [hs] at hbyte; cases hbyte
        · rw [hs] at hbyte; cases hbyte
      have : 0 < min (stock d f s).length j := by omega
      omega
  refine ⟨hroom, hfin, fun hb hdry => fresh_needed hd h hu (Nat.sub_pos_of_lt hj) hb hdry hm, ?_⟩
  cases hi : f.bufinput with
  | true => exact .inl rfl
  | false =>
    have hbs := h.dir hi
    have hbm : f.bm = 0 := by
      have := h.bm_le_bs
      omega
    refine .inr ⟨hbm, hbs, ?_⟩
    by_cases hall : out.length + (stock d f s).length ≤ j
    · exact .inl hall
    have hnil : out = [] := by
      by_contra hne
      have hpos := List.length_pos_iff.2 hne
      have := hroom hpos
      omega
    subst hnil
    rw [List.length_nil, Nat.zero_add] at hall
    have he : f.eof = false := by
      by_contra he
      rcases hfin (Bool.eq_true_of_not_eq_false he) with hdry | ⟨hlt, -⟩
      · obtain ⟨c, cs, s', hr, hs⟩ | ⟨s', hr, -⟩ | ⟨s', hr, -⟩ := hd.read s h.buflen_pos
        · rw [hs] at hdry; cases hdry
        · unfold stock at hall
          rw [if_neg (by omega), hr] at hall
          exact hall (Nat.zero_le _)
        · rw [stock_fill (hbm.trans hbs.symm) hr] at hall
          exact hall (Nat.zero_le _)
      · omega
    exact .inr (quiet_needed hd (hap.resolve_left (by simp [hi])) h hu he hi (Nat.lt_of_not_le hall) hm)

/-! ## `fread` -/

/-- The stream with that byte taken. -/
def File.popped (f : File) : File := { f with ungotten := false }

theorem popped_eq (hu : f.ungotten = false) : f.popped = f := by
  unfold File.popped
  rw [← hu]

theorem length_pushback_le (f : File) : f.pushback.length ≤ 1 := by
  unfold File.pushback
  split
  · exact le_rfl
  · exact Nat.zero_le 1

theorem clean_popped {i : Nat} : Clean d script i j f.popped s ↔ Clean d script i j f s :=
  ⟨fun h => ⟨h.room, h.fin, h.fresh, h.input⟩, fun h => ⟨h.room, h.fin, h.fresh, h.input⟩⟩

theorem fread_popped (hr : f.canread = true) (hlt : size * nmemb < 2 ^ 64) (h0 : size * nmemb ≠ 0)
    (h1 : ¬(f.ungotten = true ∧ size * nmemb = 1)) (s : σ) : freadUnlocked d size nmemb f s =
      freadBuf d size nmemb (size * nmemb) f.pushback f.popped s := by
  have hwanted : wanted size nmemb = size * nmemb := if_pos hlt
  unfold freadUnlocked
  dsimp only
  rw [if_neg (by simp [hr]), if_neg (by rwa [← wanted_zero_iff, hwanted]), Nat.mod_eq_of_lt hlt]
  cases hu : f.ungotten with
  | true =>
    rw [if_pos rfl, if_neg fun h => h1 ⟨hu, h⟩, File.pushback, if_pos hu]
    rfl
  | false =>
    rw [if_neg nofun, File.pushback, if_neg (by simp [hu]), popped_eq hu]

theorem getc_popped (hr : f.canread = true) (h0 : j ≠ 0) (s : σ) :
    getcLoop d j [] f s = getcLoop d (j - f.pushback.length) f.pushback f.popped s := by
  obtain ⟨j, rfl⟩ := Nat.exists_eq_succ_of_ne_zero h0
  cases hu : f.ungotten with
  | true =>
    have hget : fgetcUnlocked d f s = (some f.ungetbuf, f.popped, s) := by
      unfold fgetcUnlocked
      rw [if_neg (by simp [hr]), if_pos hu]
      rfl
    rw [getcLoop, hget, File.pushback, if_pos hu]
    rfl
  | false =>
    rw [File.pushback, if_neg (by simp [hu]), popped_eq hu]
    rfl

/-- Calls of `fgetc` that find their byte in the buffer. -/
theorem getcLoop_buffer (hr : f.canread = true) (hu : f.ungotten = false) (hk : k ≤ f.bs - f.bm)
    (out : List UInt8) (s : σ) : getcLoop d k out f s =
      (true, out ++ f.buf.load f.bm k, { f with bm := f.bm + k }, s) := by
  induction k generalizing f out with
  | zero =>
    rw [getcLoop, Mem.load_zero, List.append_nil]
    rfl
  | succ k ih =>
    have hget : fgetcUnlocked d f s = (some (f.buf f.bm), { f with bm := f.bm + 1 }, s) := by
      unfold fgetcUnlocked
      rw [if_neg (by simp [hr]), if_neg (by simp [hu]), if_pos (by omega)]
    rw [getcLoop, hget]
    have hloop := ih (f := { f with bm := f.bm + 1 }) hr hu (by dsimp only; omega) (out ++ [f.buf f.bm])
    rw [List.append_assoc, List.singleton_append, ← Mem.load_cons] at hloop
    refine hloop.trans ?_
    dsimp only
    rw [Nat.add_assoc, Nat.add_comm 1 k]

theorem inStep_refl (size j : Nat) {out : List UInt8} (hout : out.length ≤ j) (b : Bool) (f : File)
    (s : σ) : InStep d size j (out.length / size, out, f, s) (b, out, f, s) :=
  ⟨rfl, rfl, fun _ => rfl, hout⟩

theorem inStep_matches (hd : Source d script) (h : Live f) {r : Nat × List UInt8 × File × σ} :
    InStep d size j r (getcLoop d k out f s) ↔
      Matches d size k out (view script f s) r ∧ r.2.1.length ≤ j := by
  obtain ⟨f', s', hloop, h', hview⟩ := getcLoop_view hd h k out s
  have hgives := h'.gives hd s'
  rw [hview] at hgives
  rw [hloop]
  constructor
  · rintro ⟨hout, hnum, hgets, hlen⟩
    exact ⟨⟨hout, hnum, fun n => (hgets n).trans (hgives n)⟩, hlen⟩
  · rintro ⟨⟨hout, hnum, hgets⟩, hlen⟩
    exact ⟨hout, hnum, fun n => (hgets n).trans (hgives n).symm, hlen⟩

theorem asFgetc_clean (hd : Source d script) (h : Readable f) (hlt : size * nmemb < 2 ^ 64)
    (h0 : size * nmemb ≠ 0) (h1 : ¬(f.ungotten = true ∧ size * nmemb = 1)) :
    (Clean d script f.pushback.length (size * nmemb) f s → AsFgetc d size nmemb f s) ∧
    (f.bufinput = true ∨ (f.bm = 0 ∧ f.bs = 0) ∧ Apart d script → AsFgetc d size nmemb f s →
      Clean d script f.pushback.length (size * nmemb) f s) := by
  have hpop : Readable f.popped := ⟨h.canread, h.bm_le, h.bs_le, h.buflen_pos, h.buflen_lt, h.input⟩
  have hle := length_pushback_le f
  have hj : f.pushback.length < size * nmemb := by
    unfold File.pushback at hle ⊢
    split at hle
    · rename_i hu
      rw [if_pos hu]
      have : size * nmemb ≠ 1 := fun h => h1 ⟨hu, h⟩
      simp only [List.length_singleton]
      omega
    · rename_i hu
      rw [if_neg hu]
      exact Nat.pos_of_ne_zero h0
  have hn : nmemb = size * nmemb / size :=
    (Nat.mul_div_cancel_left _ (Nat.pos_of_ne_zero fun hs => h0 (by rw [hs, Nat.zero_mul]))).symm
  unfold AsFgetc
  rw [fread_popped h.canread hlt h0 h1, getc_popped h.canread h0]
  generalize size * nmemb = j at *
  constructor
  · intro hc
    have hc' := clean_popped.2 hc
    have hm := freadBuf_matches hd hpop rfl hj hle hn hc'
    refine (inStep_matches hd (hc'.live hpop)).2 ⟨hm, ?_⟩
    have htook := (length_took_le (j - f.pushback.length) (view script f.popped s)).1
    rw [hm.1, List.length_append]
    omega
  · intro hdir hin
    have hlive : Live f.popped := by
      rcases hdir with hi | ⟨⟨hm, hb⟩, -⟩
      · exact ⟨hpop, h.input hi, fun hf => by
          rw [show f.popped.bufinput = f.bufinput from rfl, hi] at hf; cases hf⟩
      · exact ⟨hpop, (hm.trans hb.symm).le, fun _ => hb⟩
    obtain ⟨hm, hlen⟩ := (inStep_matches hd hlive).1 hin
    exact clean_popped.1 (clean_of_matches hd (hdir.imp_right And.right) hlive rfl hj hle hm hlen)

theorem asFgetc_zero (hr : f.canread = true) (h0 : size * nmemb = 0) (s : σ) :
    AsFgetc d size nmemb f s := by
  have hread : freadUnlocked d size nmemb f s = (0, [], f, s) := by
    unfold freadUnlocked
    dsimp only
    rw [if_neg (by simp [hr]), h0]
    exact if_pos (.inl rfl)
  have hstep := inStep_refl (d := d) size 0 (le_refl ([] : List UInt8).length) true f s
  rw [List.length_nil, Nat.zero_div] at hstep
  unfold AsFgetc
  rw [hread, h0]
  exact hstep

theorem asFgetc_one (hr : f.canread = true) (hu : f.ungotten = true) (h1 : size * nmemb = 1) (s : σ) :
    AsFgetc d size nmemb f s := by
  obtain ⟨rfl, rfl⟩ := mul_eq_one.1 h1
  have hread : freadUnlocked d 1 1 f s = (1, [f.ungetbuf], f.popped, s) := by
    unfold freadUnlocked
    dsimp only
    rw [if_neg (by simp [hr]), if_neg (by decide), if_pos hu]
    rfl
  have hstep := inStep_refl (d := d) 1 1 (le_refl [f.ungetbuf].length) true f.popped s
  rw [List.length_singleton, Nat.div_one] at hstep
  unfold AsFgetc
  rw [hread, getc_popped hr (by decide), File.pushback, if_pos hu]
  exact hstep

theorem asFgetc_buffer (h : Readable f) (hlt : size * nmemb < 2 ^ 64) (h0 : size * nmemb ≠ 0)
    (hu : f.ungotten = false) (hj : size * nmemb < f.bs - f.bm) (s : σ) :
    AsFgetc d size nmemb f s := by
  have hn : nmemb = size * nmemb / size :=
    (Nat.mul_div_cancel_left _ (Nat.pos_of_ne_zero fun hs => h0 (by rw [hs, Nat.zero_mul]))).symm
  have hback : f.pushback = [] := if_neg (by simp [hu])
  unfold AsFgetc
  rw [fread_popped h.canread hlt h0 (by simp [hu]), hback, popped_eq hu]
  generalize size * nmemb = j at *
  have hlen : (f.buf.load f.bm j).length = j := Mem.length_load
  have hcopied : f.copied (f.bm + j) = { f with bm := f.bm + j } := if_neg (by omega)
  rw [freadBuf_copy h (by omega), freadCopy_part h hj.le (by omega),
    getcLoop_buffer h.canread hu hj.le, List.nil_append, hcopied]
  have hstep := inStep_refl (d := d) size j hlen.le true { f with bm := f.bm + j } s
  rwa [hlen, ← hn] at hstep

/-- **`fread` is repeated `fgetc`** if the condition holds, and only then on an input stream and on an
empty stream for update whose output does not change its input. -/
theorem fread_asFgetc (hd : Source d script) (h : Readable f) (hj : size * nmemb < 2 ^ 63) (s : σ) :
    (Meets d script size nmemb f s → AsFgetc d size nmemb f s) ∧
    (f.bufinput = true ∨ (f.bm = 0 ∧ f.bs = 0) ∧ Apart d script → AsFgetc d size nmemb f s →
      Meets d script size nmemb f s) := by
  by_cases h0 : size * nmemb = 0
  · exact ⟨fun _ => asFgetc_zero h.canread h0 s, fun _ _ => .inl h0⟩
  by_cases h1 : f.ungotten = true ∧ size * nmemb = 1
  · exact ⟨fun _ => asFgetc_one h.canread h1.1 h1.2 s, fun _ _ => .inr (.inl h1)⟩
  obtain ⟨hmeets, hneeds⟩ := asFgetc_clean (s := s) hd h (by omega) h0 h1
  refine ⟨fun hm => ?_, fun hdir has => .inr (.inr (.inr (hneeds hdir has)))⟩
  obtain hm | hm | ⟨hu, hm⟩ | hm := hm
  · exact absurd hm h0
  · exact absurd hm h1
  · exact asFgetc_buffer h (by omega) h0 hu hm s
  · exact hmeets hm

end

/-! ## A regular file -/

/-- The bytes of the file from its offset on. -/
def Regular.script (s : Regular) : List Event := (s.bytes.drop s.off).map .byte

theorem source_regular : Source regular Regular.script := by
  intro s n hn
  have hread : regular.read s n = (some ((s.bytes.drop s.off).take n), readOff s n) := rfl
  have hrest : (readOff s n).script = ((s.bytes.drop s.off).drop n).map .byte := by
    unfold Regular.script readOff
    dsimp only
    rw [List.drop_drop, List.length_take, List.length_drop]
    congr 1
    by_cases hle : n ≤ s.bytes.length - s.off
    · rw [Nat.min_eq_left hle]
    · rw [List.drop_eq_nil_of_le (by omega), List.drop_eq_nil_of_le (by omega)]
  rw [hread, hrest, Regular.script]
  rcases hbs : s.bytes.drop s.off with - | ⟨c, cs⟩
  · rw [List.take_nil, List.drop_nil]
    exact .done
  · obtain ⟨k, rfl⟩ := Nat.exists_eq_succ_of_ne_zero hn.ne'
    have hsplit : (c :: cs).map Event.byte = (c :: cs.take k).map .byte ++ (cs.drop k).map .byte := by
      rw [← List.map_append, List.cons_append, List.take_append_drop]
    rw [List.take_succ_cons, List.drop_succ_cons, hsplit]
    exact .bytes c (cs.take k) _

/-- Two of three bytes, read into the empty buffer. -/
theorem fread_asFgetc_two : AsFgetc regular 1 2 reader4 ⟨[97, 98, 99], 0⟩ := by
  have hread : Readable reader4 :=
    ⟨rfl, Nat.zero_le 4, Nat.zero_le 4, by decide, by decide, fun _ => le_rfl⟩
  refine (fread_asFgetc source_regular hread (by decide) _).1 (.inr (.inr (.inr ?_)))
  exact ⟨fun h => absurd h (by decide), nofun, fun _ _ => rfl, .inl rfl⟩

/-- With a byte pushed back in front of three in the buffer, two bytes wanted are three. -/
theorem fread_pushback_overruns : ¬AsFgetc regular 1 2
    { reader4 with bs := 3, buf := fun i => UInt8.ofNat (97 + i), ungetbuf := 122, ungotten := true }
    ⟨[97, 98, 99], 3⟩ := by
  intro h
  exact absurd h.2.2.2 (by decide)

end Dietlibc.Stdio
