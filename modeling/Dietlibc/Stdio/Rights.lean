import Dietlibc.Stdio.Update

/-!
# Streams for input or for output only

The input functions look at neither `CANWRITE` nor `NOBUF`, and a flush at none of the flags that
say what the stream is for. So each of them does on a stream what it does on `able f`, a buffered
stream that can also be written to, and a flush what it does on `full f`, a stream for update.
-/

namespace Dietlibc.Stdio

variable {σ α : Type} {d : Dev σ}

/-- The stream with other rights, buffered or not. -/
def File.as (f : File) (canread canwrite nobuf : Bool) : File := { f with canread, canwrite, nobuf }

/-- As a buffered stream that can be written to. -/
def File.able (f : File) : File := f.as f.canread true false

/-- As a buffered stream for update. -/
def File.full (f : File) : File := f.as true true false

/-- An outcome with its stream changed. -/
def via (g : File → File) (x : α × File × σ) : α × File × σ := (x.1, g x.2.1, x.2.2)

theorem File.full_eq_able {f : File} (h : f.canread = true) : f.full = f.able := by
  rw [File.full, File.able, h]

/-! ## What a flush and a seek look at -/

theorem fflush_as (f : File) (s : σ) (r w n : Bool) :
    fflushUnlocked d (f.as r w n) s = via (·.as r w n) (fflushUnlocked d f s) := by
  unfold fflushUnlocked
  change (if f.bufinput = true then _ else if f.bm = 0 then _ else _) = _
  by_cases hd : f.bufinput = true
  · rw [if_pos hd, if_pos hd]
    rfl
  · rw [if_neg hd, if_neg hd]
    by_cases h0 : f.bm = 0
    · rw [if_pos h0, if_pos h0]
      rfl
    · rw [if_neg h0, if_neg h0, show (f.as r w n).pending = f.pending from rfl]
      rcases d.write s f.pending with ⟨res, s'⟩
      change (if res = .wrote f.bm then _ else _) = via _ (if res = .wrote f.bm then _ else _)
      by_cases hw : res = .wrote f.bm
      · rw [if_pos hw, if_pos hw]
        rfl
      · rw [if_neg hw, if_neg hw]
        rfl

theorem fflush4_as (f : File) (s : σ) (next r w n : Bool) :
    fflush4 d (f.as r w n) s next = via (·.as r w n) (fflush4 d f s next) := by
  unfold fflush4
  by_cases hd : f.bufinput = next
  · rw [if_pos hd, if_pos (show (f.as r w n).bufinput = next from hd)]
    rfl
  · rw [if_neg hd, if_neg (show ¬ (f.as r w n).bufinput = next from hd), fflush_as]
    rfl

theorem fflush_canread (f : File) (s : σ) :
    (fflushUnlocked d f s).2.1.canread = f.canread := by
  unfold fflushUnlocked
  dsimp only
  repeat' split
  all_goals rfl

theorem fflush4_canread (f : File) (s : σ) (next : Bool) :
    (fflush4 d f s next).2.1.canread = f.canread := by
  unfold fflush4
  split
  · rfl
  · exact fflush_canread f s

theorem fflush4_able (f : File) (s : σ) (next : Bool) :
    fflush4 d f.able s next = via File.able (fflush4 d f s next) := by
  rw [File.able, fflush4_as, via, via, File.able, fflush4_canread]

theorem ungetc_as (c : Int) (f : File) (r w n : Bool) :
    ungetcUnlocked c (f.as r w n) =
      ((ungetcUnlocked c f).1, (ungetcUnlocked c f).2.as r w n) := by
  unfold ungetcUnlocked
  by_cases hbad : f.ungotten = true ∨ c < 0 ∨ 255 < c
  · rw [if_pos hbad, if_pos (show (f.as r w n).ungotten = true ∨ _ from hbad)]
  · rw [if_neg hbad, if_neg (show ¬ ((f.as r w n).ungotten = true ∨ _) from hbad)]
    by_cases hback : f.bm ≠ 0 ∧ charToInt (f.buf (f.bm - 1)) = c
    · have hback' : (f.as r w n).bm ≠ 0 ∧
          charToInt ((f.as r w n).buf ((f.as r w n).bm - 1)) = c := hback
      rw [if_pos hback, if_pos hback']
      rfl
    · have hback' : ¬ ((f.as r w n).bm ≠ 0 ∧
          charToInt ((f.as r w n).buf ((f.as r w n).bm - 1)) = c) := hback
      rw [if_neg hback, if_neg hback']
      rfl

theorem fseek_as (offset : Int) (whence : Whence) (f : File) (s : σ) (r w n : Bool) :
    fseekUnlocked d offset whence (f.as r w n) s =
      via (·.as r w n) (fseekUnlocked d offset whence f s) := by
  unfold fseekUnlocked
  rw [fflush_as]
  dsimp only [via]
  rcases d.lseek (fflushUnlocked d f s).2.2 offset whence with ⟨_ | _, s'⟩ <;> rfl

/-! ## What the input functions look at -/

theorem refill_able (f : File) (s : σ) :
    refill d f.able s = via File.able (refill d f s) := by
  unfold refill
  simp only [File.able, File.as]
  rcases d.read s f.buflen with ⟨_ | (_ | _), s'⟩ <;> rfl

theorem fgetc_able (f : File) (s : σ) :
    fgetcUnlocked d f.able s = via File.able (fgetcUnlocked d f s) := by
  have hu : f.able.ungotten = f.ungotten := rfl
  unfold fgetcUnlocked
  by_cases hr : (!f.canread) = true
  · rw [if_pos hr, if_pos (show (!f.able.canread) = true from hr)]
    rfl
  · rw [if_neg hr, if_neg (show ¬ (!f.able.canread) = true from hr), hu]
    by_cases hu : f.ungotten = true
    · rw [if_pos hu, if_pos hu]
      rfl
    · rw [if_neg hu, if_neg hu]
      by_cases hlt : f.bm < f.bs
      · rw [if_pos hlt, if_pos (show f.able.bm < f.able.bs from hlt)]
        rfl
      · rw [if_neg hlt, if_neg (show ¬ f.able.bm < f.able.bs from hlt)]
        by_cases he : f.eof = true
        · rw [if_pos he, if_pos (show f.able.eof = true from he)]
          rfl
        · rw [if_neg he, if_neg (show ¬ f.able.eof = true from he), fflush4_able]
          rcases fflush4 d f s true with ⟨_ | _, f1, s1⟩
          · rfl
          · simp only [via]
            by_cases hle : f1.bs ≤ f1.bm
            · rw [if_pos hle, if_pos (show f1.able.bs ≤ f1.able.bm from hle), refill_able]
              rfl
            · rw [if_neg hle, if_neg (show ¬ f1.able.bs ≤ f1.able.bm from hle)]
              rfl

theorem fgetsLoop_able (k : Nat) (l : List UInt8) (f : File) (s : σ) :
    fgetsLoop d k l f.able s =
      ((fgetsLoop d k l f s).1, (fgetsLoop d k l f s).2.1,
        (fgetsLoop d k l f s).2.2.1.able, (fgetsLoop d k l f s).2.2.2) := by
  induction k generalizing l f s with
  | zero => rfl
  | succ k ih =>
    rw [fgetsLoop, fgetsLoop]
    by_cases hfast : l ≠ [] ∧ f.bm < f.bs
    · rw [if_pos hfast, if_pos (show l ≠ [] ∧ f.able.bm < f.able.bs from hfast)]
      dsimp only
      by_cases hc : f.buf f.bm = newline
      · rw [if_pos hc, if_pos (show f.able.buf f.able.bm = newline from hc)]
        rfl
      · rw [if_neg hc, if_neg (show ¬ f.able.buf f.able.bm = newline from hc)]
        exact ih _ { f with bm := f.bm + 1 } s
    · rw [if_neg hfast, if_neg (show ¬ (l ≠ [] ∧ f.able.bm < f.able.bs) from hfast), fgetc_able]
      rcases fgetcUnlocked d f s with ⟨_ | c, f1, s1⟩
      · rfl
      · simp only [via]
        by_cases hc : c = newline
        · rw [if_pos hc, if_pos hc]
        · rw [if_neg hc, if_neg hc]
          exact ih _ f1 s1

theorem fgets_able (size : Int) (f : File) (s : σ) :
    fgetsUnlocked d size f.able s = via File.able (fgetsUnlocked d size f s) := by
  unfold fgetsUnlocked
  by_cases hs : size ≤ 0
  · rw [if_pos hs, if_pos hs]
    rfl
  · rw [if_neg hs, if_neg hs, fgetsLoop_able]
    rfl

/-- An outcome of `fread` with its stream changed. -/
def viaOut (g : File → File) (x : α × List UInt8 × File × σ) : α × List UInt8 × File × σ :=
  (x.1, x.2.1, g x.2.2.1, x.2.2.2)

theorem getcLoop_able (n : Nat) (out : List UInt8) (f : File) (s : σ) :
    getcLoop d n out f.able s = viaOut File.able (getcLoop d n out f s) := by
  induction n generalizing out f s with
  | zero => rfl
  | succ n ih =>
    rw [getcLoop, getcLoop, fgetc_able]
    rcases fgetcUnlocked d f s with ⟨_ | c, f1, s1⟩
    · rfl
    · exact ih _ f1 s1

theorem freadRest_able (size nmemb j : Nat) (out : List UInt8) (f : File) (s : σ) :
    freadRest d size nmemb j out f.able s = viaOut File.able (freadRest d size nmemb j out f s) := by
  unfold freadRest
  by_cases hbig : (!f.fdpipe) = true ∧ f.buflen < j
  · rw [if_pos hbig, if_pos (show (!f.able.fdpipe) = true ∧ f.able.buflen < j from hbig)]
    rcases readLoop d (j - out.length) out s with ⟨_ | _ | _, out1, s1⟩ <;> rfl
  · rw [if_neg hbig, if_neg (show ¬ ((!f.able.fdpipe) = true ∧ f.able.buflen < j) from hbig),
      getcLoop_able]
    rcases getcLoop d (j - out.length) out f s with ⟨_ | _, out1, f1, s1⟩ <;> rfl

/-- The stream behind `memcpy`, with its position at `b`. -/
def File.copied (f : File) (b : Nat) : File :=
  if b = f.bs then { f with bm := 0, bs := 0 } else { f with bm := b }

/-- What follows `memcpy`. -/
def copyEnd (d : Dev σ) (size nmemb j : Nat) (out : List UInt8) (f : File) (s : σ) :
    Nat × List UInt8 × File × σ :=
  if out.length = j then (nmemb, out, f, s) else freadRest d size nmemb j out f s

/-- How many bytes `memcpy` copies. -/
def File.tocopy (f : File) (j : Nat) : Nat :=
  if CInt.usub 32 f.bs f.bm < j then CInt.usub 32 f.bs f.bm else j

theorem freadCopy_eq (size nmemb j : Nat) (out : List UInt8) (f : File) (s : σ) :
    freadCopy d size nmemb j out f s = copyEnd d size nmemb j (out ++ f.buf.load f.bm (f.tocopy j))
      (f.copied ((f.bm + f.tocopy j) % 2 ^ 32)) s := rfl

theorem copied_able (f : File) (b : Nat) : f.able.copied b = (f.copied b).able := by
  unfold File.copied
  by_cases hb : b = f.bs
  · rw [if_pos hb, if_pos (show b = f.able.bs from hb)]
    rfl
  · rw [if_neg hb, if_neg (show ¬ b = f.able.bs from hb)]
    rfl

theorem copyEnd_able (size nmemb j : Nat) (out : List UInt8) (f : File) (s : σ) :
    copyEnd d size nmemb j out f.able s = viaOut File.able (copyEnd d size nmemb j out f s) := by
  unfold copyEnd
  by_cases hj : out.length = j
  · rw [if_pos hj, if_pos hj]
    rfl
  · rw [if_neg hj, if_neg hj]
    exact freadRest_able _ _ _ _ f s

theorem freadCopy_able (size nmemb j : Nat) (out : List UInt8) (f : File) (s : σ) :
    freadCopy d size nmemb j out f.able s = viaOut File.able (freadCopy d size nmemb j out f s) := by
  have hn : f.able.tocopy j = f.tocopy j := by
    unfold File.tocopy
    rw [show f.able.bs = f.bs from rfl, show f.able.bm = f.bm from rfl]
  rw [freadCopy_eq, freadCopy_eq, hn, copied_able, copyEnd_able,
    show f.able.bm = f.bm from rfl, show f.able.buf = f.buf from rfl]

theorem freadBuf_able (size nmemb j : Nat) (out : List UInt8) (f : File) (s : σ) :
    freadBuf d size nmemb j out f.able s = viaOut File.able (freadBuf d size nmemb j out f s) := by
  unfold freadBuf
  simp only [show f.able.bs = f.bs from rfl, show f.able.bm = f.bm from rfl,
    show f.able.buflen = f.buflen from rfl]
  split
  · rcases d.read s f.buflen with ⟨_ | (_ | ⟨b, bs⟩), s'⟩
    · rfl
    · rfl
    · exact freadCopy_able size nmemb j out
        { f with bm := 0, bs := (b :: bs).length, buf := f.buf.store 0 (b :: bs) } s'
  · exact freadCopy_able _ _ _ _ _ s

theorem fread_able (size nmemb : Nat) (f : File) (s : σ) :
    freadUnlocked d size nmemb f.able s = viaOut File.able (freadUnlocked d size nmemb f s) := by
  unfold freadUnlocked
  simp only [show f.able.canread = f.canread from rfl, show f.able.ungotten = f.ungotten from rfl,
    show f.able.ungetbuf = f.ungetbuf from rfl]
  split
  · rfl
  · split
    · rfl
    · split
      · split
        · rfl
        · exact freadBuf_able _ _ _ _ { f with ungotten := false } s
      · exact freadBuf_able _ _ _ _ f s

end Dietlibc.Stdio
