import Dietlibc.Stdio.Getdelim
import Dietlibc.Stdio.Standing

/-!
# `ftell` and `ftello`

`ftell` computes the position from the offset of the file and the buffer, `ftello` flushes the
stream and asks for the offset. `TellsPure`: both return the position, and `fgetc` gives afterwards
what it would have given. A byte kept in `ungetbuf` is lost in the flush, which takes `ungotten`
away before `ftello` subtracts it.
-/

namespace Dietlibc.Stdio

open CInt

variable {f f' : File} {s s' : Regular} {m : Plain} {n : Nat}

section

variable {σ : Type} (d : Dev σ)

/-- `ftell_unlocked` -/
def ftellUnlocked (f : File) (s : σ) : Int × File × σ :=
  if f.error then (-1, f, s)
  else
    match d.lseek s 0 .cur with
    | (none, s) => (-1, f, s)
    | (some l, s) =>
      if f.bufinput then (l - usub 32 f.bs f.bm - (if f.ungotten then 1 else 0), f, s)
      else (l + f.bm, f, s)

/-- `ftello_unlocked` -/
def ftelloUnlocked (f : File) (s : σ) : Int × File × σ :=
  match fflushUnlocked d f s with
  | (false, f, s) => (-1, f, s)
  | (true, f, s) =>
    match d.lseek s 0 .cur with
    | (none, s) => (-1, f, s)
    | (some l, s) => (l - (if f.ungotten then 1 else 0), f, s)

/-- What the next `n` calls of `fgetc` return. -/
def later (n : Nat) (f : File) (s : σ) : List Res := (run d (List.replicate n .fgetc) f s).1

end

/-- Both return `pos`, and the stream delivers the same bytes behind either. -/
structure TellsPure (f : File) (s : Regular) (pos : Int) : Prop where
  ftell : (ftellUnlocked regular f s).1 = pos
  ftello : (ftelloUnlocked regular f s).1 = pos
  behind_ftell : ∀ n, later regular n (ftellUnlocked regular f s).2.1
    (ftellUnlocked regular f s).2.2 = later regular n f s
  behind_ftello : ∀ n, later regular n (ftelloUnlocked regular f s).2.1
    (ftelloUnlocked regular f s).2.2 = later regular n f s

/-- The byte in `ungetbuf` is the byte of the file in front of those left in the buffer. -/
def InFile (f : File) (s : Regular) : Prop :=
  f.bm < f.bs ∧ f.bs - f.bm < s.off ∧ s.bytes[place f s - 1]? = some f.ungetbuf

/-- No call has failed, and no byte is kept that the file does not have. -/
def Tellable (f : File) (s : Regular) : Prop :=
  f.error = false ∧ (f.ungotten = true → InFile f s)

/-! ## What is delivered -/

theorem later_succ {σ : Type} (d : Dev σ) (n : Nat) (f : File) (s : σ) :
    later d (n + 1) f s = .byte (fgetcUnlocked d f s).1 ::
      later d n (fgetcUnlocked d f s).2.1 (fgetcUnlocked d f s).2.2 := rfl

theorem Delivers.later {σ : Type} {d : Dev σ} {f : File} {s : σ} {bytes : List UInt8}
    (h : Delivers d f s bytes) (n : Nat) :
    later d n f s = (List.range n).map fun i => .byte bytes[i]? := by
  induction n generalizing f s bytes with
  | zero => rfl
  | succ n ih =>
    obtain ⟨f', s', hget, h'⟩ := h.fgetc
    rw [later_succ, hget, ih h', List.range_succ_eq_map, List.map_cons, List.map_map,
      List.head?_eq_getElem?]
    congr 1
    refine List.map_congr_left fun i _ => ?_
    rw [List.getElem?_tail]
    rfl

/-- Two streams that deliver the same results deliver the same bytes. -/
theorem Delivers.unique {σ : Type} {d : Dev σ} {f f' : File} {s s' : σ} {bytes bytes' : List UInt8}
    (h : Delivers d f s bytes) (h' : Delivers d f' s' bytes') :
    (∀ n, Stdio.later d n f s = Stdio.later d n f' s') ↔ bytes = bytes' := by
  constructor
  · intro hsame
    apply List.ext_getElem?
    intro i
    have hi := congrArg (·[i]?) (hsame (i + 1))
    simp only [h.later, h'.later, List.getElem?_map, List.getElem?_range (Nat.lt_succ_self i),
      Option.map_some, Option.some.injEq, Res.byte.injEq] at hi
    exact hi
  · rintro rfl n
    rw [h.later, h'.later]

theorem Delivers.intro {σ : Type} {d : Dev σ} {f f' : File} {s s' : σ} {bytes : List UInt8}
    (hget : fgetcUnlocked d f s = (bytes.head?, f', s')) (h : Delivers d f' s' bytes.tail) :
    Delivers d f s bytes := by
  refine ⟨fun l g t => Delivers d g t l ∨ (l = bytes ∧ g = f ∧ t = s), .inr ⟨rfl, rfl, rfl⟩, ?_⟩
  rintro l g t (hd | ⟨rfl, rfl, rfl⟩)
  · obtain ⟨f', s', he, hd'⟩ := hd.fgetc
    exact ⟨f', s', he, .inl hd'⟩
  · exact ⟨f', s', hget, .inl h⟩

/-- The bytes delivered do not depend on the right to write. -/
theorem Delivers.of_able {σ : Type} {d : Dev σ} {f : File} {s : σ} {bytes : List UInt8}
    (h : Delivers d f.able s bytes) : Delivers d f s bytes := by
  refine ⟨fun l g t => Delivers d g.able t l, h, fun l g t hd => ?_⟩
  obtain ⟨f', s', he, hd'⟩ := hd.fgetc
  rw [fgetc_able] at he
  obtain ⟨hres, hpair⟩ := Prod.mk.inj he
  obtain ⟨rfl, rfl⟩ := Prod.mk.inj hpair
  exact ⟨_, _, Prod.ext hres rfl, hd'⟩

/-- A stream that can be read from delivers what the unbuffered model has ahead. -/
theorem Synced.delivers (h : Synced f s m) (hr : f.canread = true) :
    Delivers regular f s m.next := by
  have hside := h.side
  rw [File.full_eq_able hr] at hside
  apply Delivers.of_able
  rcases hside with hin | hout
  · rw [hin.next]
    exact delivers_ahead hin.held
  · cases he : f.eof with
    | true =>
      rw [hout.at_end he]
      refine ⟨fun l g t => l = [] ∧ g = f.able ∧ t = s, ⟨rfl, rfl, rfl⟩, ?_⟩
      rintro l g t ⟨rfl, rfl, rfl⟩
      exact ⟨_, _, fgetc_end hr hout.ungotten hout.bs he, rfl, rfl, rfl⟩
    | false =>
      obtain ⟨f1, s1, ht, hg, hd, hbs, hbm, hu, he1⟩ := hout.toInput
      have hsame := hout.fgetc_eq he ht hg.held.steady.canread hd hbs hbm hu (he1.trans he)
      have hdel := delivers_ahead hg.held
      rw [← hg.next] at hdel
      obtain ⟨f2, s2, hget, hdel'⟩ := hdel.fgetc
      exact .intro (hsame.trans hget) hdel'

theorem later_blind (hr : f.canread = false) (n : Nat) :
    later regular n f s = List.replicate n (.byte none) := by
  induction n generalizing f with
  | zero => rfl
  | succ n ih =>
    rw [later_succ, fgetc_blind hr, List.replicate_succ]
    exact congrArg _ (ih hr)

/-! ## The two positions -/

theorem lseek_here (s : Regular) : regular.lseek s 0 .cur = (some s.off, s) := by
  rw [lseek_pos (by unfold Whence.base; dsimp only; omega)]
  have hoff : (Whence.base s.bytes s.off .cur + 0).toNat = s.off := by
    unfold Whence.base
    dsimp only
    omega
  rw [hoff]

theorem ftell_eq (f : File) (s : Regular) : ftellUnlocked regular f s =
    (if f.error then -1 else if f.bufinput then
      (s.off : Int) - usub 32 f.bs f.bm - (if f.ungotten then 1 else 0) else s.off + f.bm, f, s) := by
  unfold ftellUnlocked
  by_cases he : f.error = true
  · rw [if_pos he, if_pos he]
  · rw [if_neg he, if_neg he, lseek_here]
    dsimp only
    by_cases hd : f.bufinput = true
    · rw [if_pos hd, if_pos hd]
    · rw [if_neg hd, if_neg hd]

theorem fflush_ungotten (h : (fflushUnlocked regular f s).1 = true) :
    (fflushUnlocked regular f s).2.1.ungotten = false := by
  revert h
  unfold fflushUnlocked
  dsimp only
  repeat' split
  all_goals first | exact fun _ => rfl | exact fun h => absurd h nofun

/-- `ftello` behind a flush that went well. -/
theorem ftello_eq (h : fflushUnlocked regular f s = (true, f', s')) :
    ftelloUnlocked regular f s = ((s'.off : Int), f', s') := by
  have hu := fflush_ungotten (f := f) (s := s) (by rw [h])
  rw [h] at hu
  unfold ftelloUnlocked
  rw [h]
  dsimp only
  rw [lseek_here]
  dsimp only
  rw [hu]
  simp

/-- What a flush leaves of a stream in either direction. -/
theorem Synced.flushed (h : Synced f s m) :
    ∃ f' s', fflushUnlocked regular f s = (true, f', s') ∧ f'.canread = f.canread ∧
      (f.canread = true → Delivers regular f' s' (m.bytes.drop s'.off)) ∧
      ((s'.off : Int) = m.tell ↔ Safe f s .fflush) := by
  have hcr := fflush_canread (d := regular) f s
  -- an empty stream delivers what is behind its offset
  have hempty {f' : File} {s' : Regular} (he : fflushUnlocked regular f.full s = (true, f', s'))
      (hst : Steady f') (hbm : f'.bm = 0) (hbs : f'.bs = 0) (hu : f'.ungotten = false)
      (heof : f'.eof = true → s'.bytes.length ≤ s'.off) (hbytes : m.bytes = s'.bytes) :
      ∃ g, fflushUnlocked regular f s = (true, g, s') ∧ g.canread = f.canread ∧
        (f.canread = true → Delivers regular g s' (m.bytes.drop s'.off)) := by
    rw [File.full, fflush_as] at he
    obtain ⟨hok, hpair⟩ := Prod.mk.inj he
    obtain ⟨rfl, rfl⟩ := Prod.mk.inj hpair
    refine ⟨_, Prod.ext hok rfl, hcr, fun hr => ?_⟩
    have hin : Reading (fflushUnlocked regular f s).2.1.full (fflushUnlocked regular f s).2.2
        ⟨m.bytes, (fflushUnlocked regular f s).2.2.off, []⟩ :=
      .of_empty hst hbm hbs hu heof hbytes (by simp [Plain.tell]) (by simp [Plain.tell, Plain.next])
    exact (hin.synced fun _ => hbs).delivers (hcr.trans hr)
  rcases h.side with hin | hout
  · obtain ⟨f', s', he, hbytes, hst, hbm, hbs, hu, -, heof, htell⟩ := fflush_input hin.held
    obtain ⟨g, hg, hgr, hgd⟩ := hempty he hst hbm hbs hu heof (hin.bytes.trans hbytes.symm)
    refine ⟨g, s', hg, hgr, hgd, ?_, fun hs => ?_⟩
    · intro hoff hung
      rw [hin.tell, tellOf, if_pos (show f.full.ungotten = true from hung)] at hoff
      have hle : f.bm ≤ f.bs := hin.held.bm_le
      have hplace : place f.full s = s.off - (f.bs - f.bm) := rfl
      rw [hplace] at hoff
      refine ⟨?_, by omega⟩
      by_contra hge
      have hbmbs : f.bm = f.bs := by omega
      -- the flush of an empty buffer does not move the file
      have hstay : (fflushUnlocked regular f s).2.2 = s := by
        have hfull : f.full.bufinput = f.bufinput := rfl
        unfold fflushUnlocked
        rcases Bool.eq_false_or_eq_true f.bufinput with hd | hd
        · rw [if_pos hd, hbmbs, Int.sub_self, show conv 32 0 = 0 from rfl]
          rfl
        · have hbs0 : f.bs = 0 := hin.held.dir hd
          rw [if_neg (by simp [hd]), if_pos (hbmbs.trans hbs0)]
      rw [hg] at hstay
      have hstay : s' = s := hstay
      rw [hstay] at hoff
      omega
    · rw [htell hs, hin.tell]
  · obtain ⟨f', s', he, hst, hbm, hbs, hu, hbytes, htell, heof⟩ := hout.flushed
    obtain ⟨g, hg, hgr, hgd⟩ := hempty he hst hbm hbs hu heof hbytes
    refine ⟨g, s', hg, hgr, hgd, iff_of_true htell.symm fun hung => ?_⟩
    have hno : f.ungotten = false := hout.ungotten
    rw [hung] at hno
    cases hno

/-- `ftell` in a stream without an error, unless a byte is kept in output. -/
theorem Synced.ftell (h : Synced f s m) (he : f.error = false) (hs : Safe f s .fflush) :
    (ftellUnlocked regular f s).1 = m.tell := by
  rw [ftell_eq, he]
  dsimp only
  rw [if_neg (by simp)]
  rcases h.side with hin | hout
  · have hle : f.bm ≤ f.bs := hin.held.bm_le
    have hbs : f.bs ≤ f.buflen := hin.held.bs_le
    have hoff : f.bs ≤ s.off := hin.held.bs_off
    have hlt : f.buflen < 2 ^ 31 := hin.held.steady.buflen_lt
    have htell : m.tell = (s.off - (f.bs - f.bm) : Nat) - if f.ungotten then 1 else 0 := hin.tell
    rw [htell]
    rcases Bool.eq_false_or_eq_true f.bufinput with hd | hd
    · rw [if_pos hd, usub_of_le hle (by omega)]
      omega
    · have hbs0 : f.bs = 0 := hin.held.dir hd
      have hu : f.ungotten = false := by
        by_contra hne
        have := (hs (by simpa using hne)).1
        omega
      rw [if_neg (by simp [hd]), hu]
      simp only [Bool.false_eq_true, if_false]
      omega
  · have hd : f.bufinput = false := hout.ok.output
    have htell : m.tell = s.off + f.bm := hout.tell
    rw [if_neg (by simp [hd]), htell]

/-- A byte pushed back is what the file has in front of the buffer if giving it back changes
nothing. -/
theorem Synced.drop_eq (h : Synced f s m) (hu : f.ungotten = true) (hs : Safe f s .fflush)
    (hoff : (s'.off : Int) = m.tell) :
    m.next = m.bytes.drop s'.off ↔ InFile f s := by
  obtain ⟨hlt, hpos⟩ := hs hu
  rcases h.side with hin | hout
  · have htell : m.tell = (s.off - (f.bs - f.bm) : Nat) - 1 := by
      rw [hin.tell, tellOf, if_pos (show f.full.ungotten = true from hu)]
      rfl
    have hplace : place f s = s'.off + 1 := by
      unfold place
      omega
    have hnext : m.next = f.ungetbuf :: s.bytes.drop (s'.off + 1) := by
      rw [hin.next, ahead_ungotten (f := f.full) hu, ← hplace]
      rfl
    have hbytes : m.bytes = s.bytes := hin.bytes
    rw [hnext, hbytes]
    unfold InFile
    rw [hplace, Nat.add_sub_cancel]
    constructor
    · intro heq
      refine ⟨hlt, hpos, ?_⟩
      rw [← List.head?_drop, ← heq]
      rfl
    · rintro ⟨-, -, hget⟩
      obtain ⟨hlen, hbyte⟩ := List.getElem?_eq_some_iff.mp hget
      rw [List.drop_eq_getElem_cons hlen, hbyte]
  · have hno : f.ungotten = false := hout.ungotten
    rw [hu] at hno
    cases hno

/-- **Telling the position is pure** exactly in a tellable state. -/
theorem Synced.tells_iff (h : Synced f s m) : TellsPure f s m.tell ↔ Tellable f s := by
  obtain ⟨f', s', hflush, hcr, hdel, hoff⟩ := h.flushed
  have htello := ftello_eq hflush
  constructor
  · rintro ⟨htell, htello', -, hbehind⟩
    rw [htello] at htello' hbehind
    have hsafe := hoff.mp htello'
    refine ⟨?_, fun hu => ?_⟩
    · by_contra hne
      rw [ftell_eq, if_pos (by simpa using hne)] at htell
      dsimp only at htell htello'
      omega
    · by_cases hr : f.canread = true
      · have heq := (Delivers.unique (hdel hr) (h.delivers hr)).mp hbehind
        exact (h.drop_eq hu hsafe htello').mp heq.symm
      · have hbs := h.blind (by simpa using hr)
        have := (hsafe hu).1
        omega
  · rintro ⟨he, hfile⟩
    have hsafe : Safe f s .fflush := fun hu => ⟨(hfile hu).1, (hfile hu).2.1⟩
    have hpos := hoff.mpr hsafe
    refine ⟨h.ftell he hsafe, by rw [htello]; exact hpos, fun n => by rw [ftell_eq], ?_⟩
    rw [htello]
    by_cases hr : f.canread = true
    · refine (Delivers.unique (hdel hr) (h.delivers hr)).mpr ?_
      by_cases hu : f.ungotten = true
      · exact ((h.drop_eq hu hsafe hpos).mpr (hfile hu)).symm
      · have hnext : m.next = m.bytes.drop m.tell.toNat := by
          rcases h.side with hin | hout
          · have hno : f.ungotten = false := by simpa using hu
            have hu' : f.full.ungotten = false := hno
            rw [hin.next, hin.tell, Filled.ahead_eq hu', tellOf, hu', hin.bytes]
            simp
          · exact hout.next
        rw [hnext, ← hpos, Int.toNat_natCast]
    · intro n
      have hr' : f.canread = false := by simpa using hr
      rw [later_blind hr', later_blind (hcr.trans hr')]

/-! ## Runs -/

/-- **Telling the position is pure** behind a run of sound calls exactly if no call has failed and
no byte is kept that the file does not have. -/
theorem tell_pure_iff (h : Made f) (bytes : List UInt8) (off : Nat) {ops : List Op}
    (hs : AllSound ops f ⟨bytes, off⟩) :
    TellsPure (run regular ops f ⟨bytes, off⟩).2.1 (run regular ops f ⟨bytes, off⟩).2.2
        (standing ops f ⟨bytes, off⟩ ⟨bytes, off, []⟩).tell ↔
      Tellable (run regular ops f ⟨bytes, off⟩).2.1 (run regular ops f ⟨bytes, off⟩).2.2 :=
  (run_synced (h.synced bytes off) hs).tells_iff

theorem update4_made : Made update4 := ⟨rfl, rfl, rfl, rfl, rfl, rfl, by decide, by decide⟩

theorem tell_pure_iff_update4 :
    let ops := [.fgetc, .ungetc 97, .fgetc, .fputc 99]
    TellsPure (run regular ops update4 ⟨[97, 98, 10], 0⟩).2.1
        (run regular ops update4 ⟨[97, 98, 10], 0⟩).2.2
        (standing ops update4 ⟨[97, 98, 10], 0⟩ ⟨[97, 98, 10], 0, []⟩).tell ↔
      Tellable (run regular ops update4 ⟨[97, 98, 10], 0⟩).2.1
        (run regular ops update4 ⟨[97, 98, 10], 0⟩).2.2 :=
  tell_pure_iff update4_made [97, 98, 10] 0
    ⟨trivial, trivial, trivial, fun _ _ _ h => absurd h (by decide), trivial, trivial, trivial,
      fun _ h => absurd h (by decide), trivial⟩

/-- Behind two bytes another one is pushed back: `ftell` returns 1, `ftello` 2, and the byte is
lost. -/
theorem tell_loses_byte :
    ¬ TellsPure (run regular [.fgetc, .fgetc, .ungetc 120] update4 ⟨[97, 98], 0⟩).2.1
        (run regular [.fgetc, .fgetc, .ungetc 120] update4 ⟨[97, 98], 0⟩).2.2
        (standing [.fgetc, .fgetc, .ungetc 120] update4 ⟨[97, 98], 0⟩ ⟨[97, 98], 0, []⟩).tell := by
  intro h
  have hlost := h.behind_ftello 1
  revert hlost
  decide

end Dietlibc.Stdio
