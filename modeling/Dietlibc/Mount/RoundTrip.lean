import Dietlibc.Mount.Mntent
import Dietlibc.Stdio.Output

/-!
# The mount table is read back

The line of an entry is six words with a separator behind each. The first four separators become the
terminators of the strings, and `strtol` comes to the others. The words that `getmntent` has cut off
stay in front of the cursor, each with its NUL, so that a turn of the `for` moves one word across it.
-/

namespace Dietlibc.Mount

open Cells Machine Stdio
open Number (decimalText isWhite)

variable {σ τ : Type} {d : Dev σ} {f : File} {s : σ} {e : Mntent} {es : List Mntent} {v : Vars}
  {st st' st'' : St σ} {rs rs' : List (Option Mntent)} {u w t more : List UInt8} {c : UInt8}
  {num : Nat} {z : Int}

/-! ## The claim -/

/-- A string without white space. -/
def Word (f : List UInt8) : Prop := ∀ b ∈ f, b ≠ 0 ∧ isWhite b = false

/-- The options that are written. -/
def optsOf (e : Mntent) : List UInt8 := if e.opts = [] then rw else e.opts

/-- The line of an entry without its newline. -/
def textOf (e : Mntent) : List UInt8 :=
  e.fsname ++ space :: (e.dir ++ space :: (e.type ++ space :: (optsOf e ++ space ::
    (decimalText e.freq ++ space :: decimalText e.passno))))

/-- The line of an entry. -/
def lineFor (e : Mntent) : List UInt8 := textOf e ++ [newline]

/-- The strings have no white space in them, only the options may be empty, and the line is shorter
than the buffer of `getmntent`. -/
structure Writable (e : Mntent) : Prop where
  fsname : Word e.fsname
  dir : Word e.dir
  type : Word e.type
  opts : Word e.opts
  fsname_ne : e.fsname ≠ []
  dir_ne : e.dir ≠ []
  type_ne : e.type ≠ []
  freq : CInt.Fits 32 e.freq
  passno : CInt.Fits 32 e.passno
  fits : (lineFor e).length < 1024

/-- What `n` calls behind the last entry and those before it return. -/
def readBack (es : List Mntent) (n : Nat) : List (Option Mntent) :=
  es.map (fun e => some { e with opts := optsOf e }) ++ List.replicate n none

/-! ## What is written -/

/-- The bytes of a text. -/
def toBytes (t : List Char) : List UInt8 := t.map Char.toUInt8

theorem toBytes_append (x y : List Char) : toBytes (x ++ y) = toBytes x ++ toBytes y := List.map_append

theorem toBytes_chars (f : List UInt8) : toBytes (Number.chars f) = f := by
  have hbyte : ∀ b : UInt8, (Char.ofNat b.toNat).toUInt8 = b := by
    apply CInt.forall_byte
    decide +kernel
  rw [toBytes, Number.chars, List.map_map]
  exact List.map_id'' hbyte f

/-- The texts of the writes of `snprintf`. -/
def mntTexts (e : Mntent) : List (List Char) :=
  [Number.chars e.fsname, [' '], Number.chars e.dir, [' '], Number.chars e.type, [' '],
    Number.chars (optsOf e), [' '], Printf.signedText (e.freq % 2 ^ 64).toNat, [' '],
    Printf.signedText (e.passno % 2 ^ 64).toNat, ['\n']]

theorem vPrintf_mntFormat (e : Mntent) (o : Printf.Out) :
    Printf.vPrintf mntFormat [strArg e.fsname, strArg e.dir, strArg e.type, strArg (optsOf e),
      Printf.slot e.freq, Printf.slot e.passno] o = Printf.bWrites (mntTexts e) o := by
  have hspace {rest : List Char} {args : List Printf.Arg} {o : Printf.Out} :
      Printf.vPrintf (' ' :: '%' :: rest) args o =
        (Printf.bWrite [' '] o).bind fun o => Printf.vPrintf ('%' :: rest) args o :=
    Printf.vPrintf_char (by decide) (by simp) args o
  have hnewline {args : List Printf.Arg} {o : Printf.Out} : Printf.vPrintf ['\n'] args o =
      (Printf.bWrite ['\n'] o).bind fun o => Printf.vPrintf [] args o :=
    Printf.vPrintf_char (by decide) (by simp) args o
  unfold mntFormat mntTexts strArg Printf.slot
  simp only [Printf.vPrintf_s, Printf.vPrintf_d, hspace, hnewline, Printf.bWrites_cons,
    Printf.vPrintf_nil]
  rfl

/-- The writes make up the line. -/
theorem toBytes_mntTexts (h : Writable e) : toBytes (mntTexts e).flatten = lineFor e := by
  have hspace : toBytes [' '] = [space] := by decide
  have hnewline : toBytes ['\n'] = [newline] := by decide
  have hfreq : toBytes (Printf.signedText (e.freq % 2 ^ 64).toNat) = decimalText e.freq :=
    Number.toUInt8_signedText h.freq
  have hpassno : toBytes (Printf.signedText (e.passno % 2 ^ 64).toNat) = decimalText e.passno :=
    Number.toUInt8_signedText h.passno
  unfold mntTexts lineFor textOf
  simp only [List.flatten_cons, List.flatten_nil, toBytes_append, toBytes_chars, hspace, hnewline,
    hfreq, hpassno]
  simp [toBytes]

/-- **The buffer of `addmntent`** holds the line and a NUL. -/
theorem snprintf_line (h : Writable e) (m : Mem) :
    ∃ m' rest, Printf.vsnprintf (some 0) 2048 mntFormat [strArg e.fsname, strArg e.dir,
        strArg e.type, strArg (optsOf e), Printf.slot e.freq, Printf.slot e.passno] m =
          some (m', ((lineFor e).length : Int)) ∧
      m'.load 0 2048 = lineFor e ++ 0 :: rest := by
  have hbytes := toBytes_mntTexts h
  have hfits := h.fits
  have hlen : (mntTexts e).flatten.length = (lineFor e).length := by
    rw [← hbytes, toBytes, List.length_map]
  have hemits : Printf.Emits (Printf.bWrites (mntTexts e) ⟨0, []⟩) ⟨0, []⟩ (mntTexts e).flatten :=
    Printf.emits_bWrites (show 0 + (mntTexts e).flatten.length < 2 ^ 32 by omega)
  obtain ⟨o, ho, hchunks, hsize⟩ := hemits
  have hprint := (vPrintf_mntFormat e ⟨0, []⟩).trans ho
  have hret : Printf.returned (.ok o) = some ((lineFor e).length : Int) := by
    have hlen' : o.len = (lineFor e).length := by
      rw [hsize, hlen]
      exact Nat.zero_add _
    rw [Printf.returned, hlen', CInt.conv_of_fits (by decide) (CInt.fits32.mpr (by omega))]
  have hcount : Printf.handed (.ok o) = (lineFor e).length := by
    rw [Printf.handed, hchunks, List.flatten_nil, List.nil_append, hlen]
  rw [← hprint] at hret hcount
  obtain ⟨m', hm', -, hload, -⟩ := Printf.vsnprintf_format hret hcount
    (by decide : 2048 < 2 ^ 64) 0 m
  have hout : (Printf.chunksOf (.ok o)).flatten = lineFor e := by
    rw [Printf.chunksOf, ← List.map_flatten, hchunks, List.flatten_nil, List.nil_append, ← hbytes,
      toBytes]
  have hline := hload (by decide)
  rw [Nat.min_eq_left (by omega), hprint, hout, List.take_length] at hline
  obtain ⟨k, hk⟩ := Nat.exists_eq_add_of_le (show (lineFor e).length + 1 ≤ 2048 by omega)
  refine ⟨m', m'.load (0 + ((lineFor e).length + 1)) k, hm', ?_⟩
  rw [hk, Mem.load_add, hline, ← List.append_cons]

theorem isWhite_ends {b : UInt8} (h : b ≠ 0 ∧ isWhite b = false) : ends b = false := by
  revert h
  apply CInt.forall_byte (P := fun b => b ≠ 0 ∧ isWhite b = false → ends b = false)
  decide +kernel

theorem Word.ends (h : Word w) : ∀ b ∈ w, ends b = false := fun b hb => isWhite_ends (h b hb)

theorem decimalText_ends (z : Int) : ∀ b ∈ decimalText z, ends b = false := by
  intro b hb
  rcases Number.mem_decimalText hb with rfl | hal
  · decide
  · revert hal
    apply CInt.forall_byte (P := fun b => Shell.isalnum b = true → ends b = false)
    decide +kernel

theorem optsOf_ends (h : Writable e) : ∀ b ∈ optsOf e, ends b = false := by
  unfold optsOf
  split
  · exact List.forall_mem_cons.mpr ⟨by decide, List.forall_mem_singleton.mpr (by decide)⟩
  · exact h.opts.ends

theorem optsOf_ne (e : Mntent) : optsOf e ≠ [] := by
  unfold optsOf
  split
  · exact List.cons_ne_nil _ _
  · assumption

/-- In a line there is no other newline, and no NUL. -/
theorem mem_textOf (h : Writable e) {b : UInt8} (hb : b ∈ textOf e) : b ≠ 0 ∧ b ≠ newline := by
  have hends : b = space ∨ ends b = false := by
    simp only [textOf, List.mem_append, List.mem_cons] at hb
    rcases hb with hb | rfl | hb | rfl | hb | rfl | hb | rfl | hb | rfl | hb
    · exact .inr (h.fsname.ends b hb)
    · exact .inl rfl
    · exact .inr (h.dir.ends b hb)
    · exact .inl rfl
    · exact .inr (h.type.ends b hb)
    · exact .inl rfl
    · exact .inr (optsOf_ends h b hb)
    · exact .inl rfl
    · exact .inr (decimalText_ends _ b hb)
    · exact .inl rfl
    · exact .inr (decimalText_ends _ b hb)
  rcases hends with rfl | hends
  · decide
  · constructor <;>
    · rintro rfl
      revert hends
      decide

theorem zero_not_mem_lineFor (h : Writable e) : 0 ∉ lineFor e := by
  intro hb
  rcases List.mem_append.mp hb with hb | hb
  · exact (mem_textOf h hb).1 rfl
  · exact absurd (List.mem_singleton.mp hb) (by decide)

/-- **A call of `addmntent`** succeeds and hands over the line. -/
theorem addmntent_took (hw : FullWrites d) (hf : OutOk f) (h : Writable e) (m : Mem) (s : σ) :
    ∃ f' s', addmntent d m e f s = some (0, f', s') ∧ Took d f s (lineFor e) f' s' := by
  obtain ⟨m', rest, hprint, hload⟩ := snprintf_line h m
  have hfits := h.fits
  have hvalid : (Op.fwrite (lineFor e) (lineFor e).length 1).Valid :=
    .inl ⟨(Nat.mul_one _).symm, by omega⟩
  obtain ⟨n, f', s', hwrite, htook, hn⟩ := fwrite_took hw hf hvalid s
  have hpos : 0 < (lineFor e).length := by
    rw [lineFor, List.length_append]
    exact Nat.succ_pos _
  have hn1 : n = 1 := hn hpos (by omega)
  have hputs : fputs d (m'.load 0 2048) f s = some (1, f', s') := by
    rw [fputs, hload, Strings.strlen_eq (zero_not_mem_lineFor h), Option.map_some, List.take_left]
    dsimp only
    rw [hwrite, hn1]
    dsimp only
    rw [CInt.conv_of_fits (by decide) (CInt.fits32.mpr (by decide))]
    rfl
  refine ⟨f', s', ?_, ?_⟩
  · have hopts : (if e.opts.length = 0 then rw else e.opts) = optsOf e := by
      simp only [List.length_eq_zero_iff, optsOf]
    unfold addmntent
    dsimp only
    rw [hopts, hprint, Option.bind_some]
    dsimp only
    rw [if_neg (by omega), hputs]
    rfl
  · have hacc : (Op.fwrite (lineFor e) (lineFor e).length 1).accepted = lineFor e := if_pos (by omega)
    rwa [hacc] at htook

/-- The calls of `addmntent` hand over the lines. -/
theorem addAll_took (hw : FullWrites d) (hf : OutOk f) (hes : ∀ e ∈ es, Writable e)
    (stack : Nat → Mem) (s : σ) : ∃ f' s',
      addAll d stack es f s = some (List.replicate es.length 0, f', s') ∧
        Took d f s (es.flatMap lineFor) f' s' := by
  induction es generalizing stack f s with
  | nil => exact ⟨f, s, rfl, .refl hf s⟩
  | cons e es ih =>
    rw [List.forall_mem_cons] at hes
    obtain ⟨f1, s1, h1, ht1⟩ := addmntent_took hw hf hes.1 (stack 0) s
    obtain ⟨f2, s2, h2, ht2⟩ := ih ht1.ok hes.2 (fun i => stack (i + 1)) s1
    refine ⟨f2, s2, ?_, by rw [List.flatMap_cons]; exact ht1.trans ht2⟩
    rw [addAll, h1, Option.bind_some]
    dsimp only
    rw [h2]
    rfl

/-! ## A turn of the `for` -/

theorem scan_at {p : UInt8 → Bool} (hw : ∀ b ∈ w, p b = false) (hc : p c = true) (u t : List UInt8) :
    scan p (u ++ (w ++ c :: t)) u.length = some (u.length + w.length) := by
  have hfind : (w ++ c :: t).findIdx? p = some w.length := by
    rw [List.findIdx?_append, List.findIdx?_eq_none_iff.mpr hw, List.findIdx?_cons, if_pos hc]
    simp
  rw [scan, List.drop_left, hfind, Option.map_some]

/-- The next word begins. -/
def Starts (t : List UInt8) : Prop := ∃ c t', t = c :: t' ∧ blank c = false

theorem starts_append (hne : w ≠ []) (hw : ∀ b ∈ w, ends b = false) (t : List UInt8) :
    Starts (w ++ t) := by
  obtain ⟨c, w, rfl⟩ := List.exists_cons_of_ne_nil hne
  refine ⟨c, w ++ t, rfl, ?_⟩
  have hends := hw c List.mem_cons_self
  unfold ends at hends
  unfold blank
  simp only [decide_eq_false_iff_not, not_or] at hends ⊢
  exact ⟨hends.2.1, hends.2.2.2⟩

theorem scan_starts (h : Starts t) (u : List UInt8) :
    scan (fun c => !blank c) (u ++ t) u.length = some u.length := by
  obtain ⟨c, t', rfl, hc⟩ := h
  exact scan_at (w := []) (fun b hb => absurd hb List.not_mem_nil) (by rw [hc]; rfl) u t'

/-- A word is cut off, and `tmp` comes to the next one. -/
theorem skip_word (hnum : num < 4) (hw : ∀ b ∈ w, ends b = false) (ht : Starts t)
    (hb : v.buf = u ++ (w ++ space :: t)) (htmp : v.tmp = u.length) :
    v.skip num = some { v with buf := u ++ (w ++ [0]) ++ t, tmp := (u ++ (w ++ [0])).length } := by
  have hlen : (u ++ (w ++ [0])).length = (u ++ w).length + 1 := by
    rw [← List.append_assoc, List.length_append, List.length_singleton]
  have hassoc : u ++ (w ++ space :: t) = (u ++ w) ++ space :: t := (List.append_assoc _ _ _).symm
  have hcut : (u ++ w) ++ 0 :: t = u ++ (w ++ [0]) ++ t := by simp
  unfold Vars.skip
  rw [hb, htmp, scan_at hw (by decide), Option.bind_some, ← List.length_append, hassoc, get_at,
    Option.bind_some, if_pos (by decide), if_pos hnum, put_at, Option.map_some, Option.bind_some]
  dsimp only
  rw [hcut, ← hlen, scan_starts ht, Option.map_some]

/-- A separator behind a number stays. -/
theorem skip_gap (hnum : 4 ≤ num) (ht : Starts t) (hb : v.buf = u ++ space :: t)
    (htmp : v.tmp = u.length) : v.skip num = some { v with tmp := (u ++ [space]).length } := by
  have hnil : ∀ b ∈ ([] : List UInt8), ends b = false := fun b hb => absurd hb List.not_mem_nil
  have hscan : scan ends (u ++ space :: t) u.length = some u.length := scan_at hnil (by decide) u t
  obtain ⟨c, t', rfl, hc⟩ := ht
  have hblank : scan (fun c => !blank c) (u ++ space :: c :: t') u.length =
      some (u ++ [space]).length := by
    rw [List.length_append]
    refine scan_at (w := [space]) (fun b hb => ?_) (by rw [hc]; rfl) u t'
    rw [List.mem_singleton.mp hb]
    decide
  unfold Vars.skip
  rw [hb, htmp, hscan, Option.bind_some, get_at, Option.bind_some, if_pos (by decide),
    if_neg (by omega), Option.bind_some]
  dsimp only
  rw [hblank, Option.map_some]

/-- `strtol` at a number. -/
theorem strtol_at (hz : CInt.Fits 32 z) (hc : Shell.isalnum c = false) (h0 : 0 ∉ c :: w)
    (hb : v.buf = u ++ (decimalText z ++ c :: w ++ 0 :: t)) (htmp : v.tmp = u.length) :
    v.strtol = some (z, { v with tmp := (u ++ decimalText z).length }) := by
  have hz0 : 0 ∉ decimalText z ++ c :: w := by
    rw [List.mem_append, not_or]
    exact ⟨fun h => absurd (decimalText_ends z 0 h) (by decide), h0⟩
  have hmem : 0 ∈ v.buf.drop v.tmp := by
    rw [hb, htmp, List.drop_left]
    exact List.mem_append_right _ List.mem_cons_self
  have hstr : cstring v.buf v.tmp = decimalText z ++ c :: w := by
    rw [hb, htmp]
    exact cstring_at hz0 u t
  unfold Vars.strtol
  rw [if_pos hmem, hstr]
  dsimp only
  rw [Number.strtol_decimalText hz hc]
  dsimp only [Option.getD_some]
  rw [CInt.conv_of_fits (by decide) hz, htmp, List.length_append, Nat.add_sub_cancel,
    ← List.length_append]

/-! ## A line -/

/-- A turn at a word, where `v` is what the `switch` makes of the variables. -/
theorem turns_word {v₀ : Vars} {nums : List Nat} (hnum : num < 4)
    (hturn : v₀.turn num = (v.skip num).map (false, ·)) (hw : ∀ b ∈ w, ends b = false)
    (ht : Starts t) (hb : v.buf = u ++ (w ++ space :: t)) (htmp : v.tmp = u.length) :
    v₀.turns (num :: nums) =
      Vars.turns nums { v with buf := u ++ (w ++ [0]) ++ t, tmp := (u ++ (w ++ [0])).length } := by
  rw [Vars.turns, hturn, skip_word hnum hw ht hb htmp]
  rfl

/-- The first four turns cut off four words. -/
theorem turns_words {w₀ w₁ w₂ w₃ : List UInt8} (h₀ : ∀ b ∈ w₀, ends b = false)
    (h₁ : ∀ b ∈ w₁, ends b = false) (h₂ : ∀ b ∈ w₂, ends b = false) (h₃ : ∀ b ∈ w₃, ends b = false)
    (n₁ : w₁ ≠ []) (n₂ : w₂ ≠ []) (n₃ : w₃ ≠ []) (ht : Starts t)
    (hb : v.buf = w₀ ++ space :: (w₁ ++ space :: (w₂ ++ space :: (w₃ ++ space :: t))))
    (htmp : v.tmp = 0) (nums : List Nat) :
    v.turns (0 :: 1 :: 2 :: 3 :: nums) = Vars.turns nums { v with
      buf := w₀ ++ [0] ++ (w₁ ++ [0]) ++ (w₂ ++ [0]) ++ (w₃ ++ [0]) ++ t
      tmp := (w₀ ++ [0] ++ (w₁ ++ [0]) ++ (w₂ ++ [0]) ++ (w₃ ++ [0])).length
      fsname := 0
      dir := (w₀ ++ [0]).length
      type := (w₀ ++ [0] ++ (w₁ ++ [0])).length
      opts := (w₀ ++ [0] ++ (w₁ ++ [0]) ++ (w₂ ++ [0])).length } := by
  have hturn0 : v.turn 0 = (Vars.skip 0 { v with fsname := 0 }).map (false, ·) := by
    rw [Vars.turn, htmp]
  rw [turns_word (u := []) (by decide) hturn0 h₀ (starts_append n₁ h₁ _) hb htmp,
    turns_word (by decide) rfl h₁ (starts_append n₂ h₂ _) rfl rfl,
    turns_word (by decide) rfl h₂ (starts_append n₃ h₃ _) rfl rfl,
    turns_word (by decide) rfl h₃ ht rfl rfl]
  rfl

/-- The turn at `mnt_freq`. -/
theorem turn_freq (hz : CInt.Fits 32 z) (h0 : 0 ∉ space :: w) (ht : Starts (w ++ 0 :: t))
    (hb : v.buf = u ++ (decimalText z ++ space :: w ++ 0 :: t)) (htmp : v.tmp = u.length) :
    v.turn 4 = some (false, { v with tmp := (u ++ decimalText z ++ [space]).length, freq := z }) := by
  have hb' : v.buf = (u ++ decimalText z) ++ space :: (w ++ 0 :: t) := by
    rw [hb]
    simp
  have hget : get v.buf (u ++ decimalText z).length = some space := by
    rw [hb']
    exact get_at _ _ _
  rw [Vars.turn, strtol_at hz (by decide) h0 hb htmp, Option.bind_some]
  dsimp only
  rw [hget, Option.bind_some, if_pos (by decide),
    skip_gap (v := { v with tmp := (u ++ decimalText z).length, freq := z }) (le_refl 4) ht hb' rfl]
  rfl

/-- The turn at `mnt_passno`, which finds the newline. -/
theorem turn_passno (hz : CInt.Fits 32 z)
    (hb : v.buf = u ++ (decimalText z ++ [newline] ++ 0 :: t)) (htmp : v.tmp = u.length) :
    v.turn 5 = some (true, { v with tmp := (u ++ decimalText z).length, passno := z }) := by
  have hget : get v.buf (u ++ decimalText z).length = some newline := by
    rw [hb, List.append_assoc, ← List.append_assoc u]
    exact get_at _ _ _
  show v.strtol.bind (fun p => (get p.2.buf p.2.tmp).bind fun c =>
    if c = newline then some (true, { p.2 with passno := p.1 })
    else (Vars.skip 5 { p.2 with passno := p.1 }).map (false, ·)) = _
  rw [strtol_at hz (by decide) (by decide) hb htmp, Option.bind_some]
  dsimp only
  rw [hget, Option.bind_some, if_pos rfl]

/-- The last two turns read the numbers. -/
theorem turns_numbers {y : Int} (hz : CInt.Fits 32 z) (hy : CInt.Fits 32 y)
    (hb : v.buf = u ++ (decimalText z ++ space :: (decimalText y ++ [newline]) ++ 0 :: t))
    (htmp : v.tmp = u.length) :
    v.turns [4, 5] = some (true, { v with
      tmp := (u ++ decimalText z ++ [space] ++ decimalText y).length, freq := z, passno := y }) := by
  have h0 : 0 ∉ space :: (decimalText y ++ [newline]) := by
    simp only [List.mem_cons, List.mem_append, List.not_mem_nil, or_false, not_or]
    exact ⟨by decide, fun h => absurd (decimalText_ends y 0 h) (by decide), by decide⟩
  have hstart : Starts (decimalText y ++ [newline] ++ 0 :: t) := by
    rw [List.append_assoc]
    exact starts_append (Number.decimalText_ne_nil y) (decimalText_ends y) _
  have hb' : v.buf = (u ++ decimalText z ++ [space]) ++ (decimalText y ++ [newline] ++ 0 :: t) := by
    rw [hb]
    simp
  rw [Vars.turns, turn_freq hz h0 hstart hb htmp, Option.bind_some]
  dsimp only
  rw [if_neg Bool.false_ne_true, Vars.turns,
    turn_passno (v := { v with tmp := (u ++ decimalText z ++ [space]).length, freq := z }) hy hb' rfl]
  rfl

theorem cstring_word (hw : ∀ b ∈ w, ends b = false) (u t : List UInt8) :
    cstring (u ++ (w ++ [0]) ++ t) u.length = w := by
  have h0 : 0 ∉ w := fun h => absurd (hw 0 h) (by decide)
  rw [List.append_assoc, List.append_assoc]
  exact cstring_at h0 u t

/-- The words that have been cut off are the strings. -/
theorem cstrings_words {w₀ w₁ w₂ w₃ : List UInt8} (h₀ : ∀ b ∈ w₀, ends b = false)
    (h₁ : ∀ b ∈ w₁, ends b = false) (h₂ : ∀ b ∈ w₂, ends b = false) (h₃ : ∀ b ∈ w₃, ends b = false)
    (t : List UInt8) :
    let buf := w₀ ++ [0] ++ (w₁ ++ [0]) ++ (w₂ ++ [0]) ++ (w₃ ++ [0]) ++ t
    cstring buf 0 = w₀ ∧ cstring buf (w₀ ++ [0]).length = w₁ ∧
      cstring buf (w₀ ++ [0] ++ (w₁ ++ [0])).length = w₂ ∧
      cstring buf (w₀ ++ [0] ++ (w₁ ++ [0]) ++ (w₂ ++ [0])).length = w₃ := by
  refine ⟨?_, ?_, ?_, cstring_word h₃ _ t⟩
  · have h := cstring_word h₀ [] (w₁ ++ [0] ++ (w₂ ++ [0]) ++ (w₃ ++ [0]) ++ t)
    simpa only [List.nil_append, List.length_nil, List.append_assoc] using h
  · have h := cstring_word h₁ (w₀ ++ [0]) (w₂ ++ [0] ++ (w₃ ++ [0]) ++ t)
    simpa only [List.append_assoc] using h
  · have h := cstring_word h₂ (w₀ ++ [0] ++ (w₁ ++ [0])) (w₃ ++ [0] ++ t)
    simpa only [List.append_assoc] using h

/-- **A line** gives the entry that it was written for. -/
theorem turns_line (h : Writable e) (hb : v.buf = lineFor e ++ 0 :: t) (htmp : v.tmp = 0) :
    ∃ v', v.turns [0, 1, 2, 3, 4, 5] = some (true, v') ∧
      v'.entry = { e with opts := optsOf e } ∧ v'.buf.length = v.buf.length := by
  have hbuf : v.buf = e.fsname ++ space :: (e.dir ++ space :: (e.type ++ space :: (optsOf e ++
      space :: (decimalText e.freq ++ space :: (decimalText e.passno ++ [newline]) ++ 0 :: t)))) := by
    rw [hb, lineFor, textOf]
    simp
  have hstart :
      Starts (decimalText e.freq ++ space :: (decimalText e.passno ++ [newline]) ++ 0 :: t) := by
    rw [List.append_assoc]
    exact starts_append (Number.decimalText_ne_nil _) (decimalText_ends _) _
  have hrun := turns_words h.fsname.ends h.dir.ends h.type.ends (optsOf_ends h) h.dir_ne h.type_ne
    (optsOf_ne e) hstart hbuf htmp [4, 5]
  rw [turns_numbers h.freq h.passno rfl rfl] at hrun
  refine ⟨_, hrun, ?_, ?_⟩
  · obtain ⟨hfsname, hdir, htype, hopts⟩ :=
      cstrings_words h.fsname.ends h.dir.ends h.type.ends (optsOf_ends h)
        (decimalText e.freq ++ space :: (decimalText e.passno ++ [newline]) ++ 0 :: t)
    unfold Vars.entry
    dsimp only
    rw [hfsname, hdir, htype, hopts]
  · rw [hbuf]
    simp only [List.length_append, List.length_cons, List.length_nil]
    omega

/-! ## The calls -/

/-- **A call of `getmntent`** at a line returns its entry. -/
theorem step_line (h : Writable e) (hlen : st.vars.buf.length = 1024)
    (hd : Delivers d st.file st.kernel (lineFor e ++ more)) :
    ∃ st', getmntentStep d st = .stop (some { e with opts := optsOf e }, st') ∧
      st'.vars.buf.length = 1024 ∧ Delivers d st'.file st'.kernel more := by
  have hn : newline ∉ textOf e := fun hb => (mem_textOf h hb).2 rfl
  have hfits := h.fits
  have hline : (lineFor e).length = (textOf e).length + 1 := by
    rw [lineFor, List.length_append, List.length_singleton]
  have hsplit : lineFor e ++ more = textOf e ++ newline :: more := by
    rw [lineFor, ← List.append_cons]
  rw [hsplit] at hd
  obtain ⟨f', s', hgets, hmore⟩ := fgets_line 1024 hn (by omega) hd
  have hstore : stored st.vars.buf (textOf e ++ [newline]) =
      some (lineFor e ++ 0 :: st.vars.buf.drop ((lineFor e).length + 1)) := if_pos (by
    rw [hlen]
    exact hfits)
  obtain ⟨v', hturns, hentry, hbuf⟩ := turns_line (v := { st.vars with
    buf := lineFor e ++ 0 :: st.vars.buf.drop ((lineFor e).length + 1), tmp := 0 }) h rfl rfl
  refine ⟨⟨v', f', s'⟩, ?_, ?_, hmore⟩
  · rw [getmntentStep, hgets]
    dsimp only
    rw [hstore, Option.bind_some, hturns]
    dsimp only
    rw [hentry]
  · dsimp only at hbuf ⊢
    rw [hbuf, List.length_append, List.length_cons, List.length_drop]
    omega

/-- A call behind the last line returns a null pointer. -/
theorem step_end (hd : Delivers d st.file st.kernel []) :
    ∃ st', getmntentStep d st = .stop (none, st') ∧ Delivers d st'.file st'.kernel [] := by
  obtain ⟨f', s', hgets, hdel⟩ := fgets_end 1024 (by decide) hd
  exact ⟨⟨st.vars, f', s'⟩, by rw [getmntentStep, hgets], hdel⟩

theorem calls_end (hd : Delivers d st.file st.kernel []) (n : Nat) :
    ∃ st', Calls d st (List.replicate n none) st' := by
  induction n generalizing st with
  | zero => exact ⟨st, .nil st⟩
  | succ n ih =>
    obtain ⟨st1, hstep, hd1⟩ := step_end hd
    obtain ⟨st2, hcalls⟩ := ih hd1
    exact ⟨st2, .cons ((stops_stop hstep).mpr rfl) hcalls⟩

/-- The calls read the lines one by one. -/
theorem calls_lines (hes : ∀ e ∈ es, Writable e) (hlen : st.vars.buf.length = 1024)
    (hd : Delivers d st.file st.kernel (es.flatMap lineFor)) (n : Nat) :
    ∃ st', Calls d st (readBack es n) st' := by
  induction es generalizing st with
  | nil => exact calls_end hd n
  | cons e es ih =>
    rw [List.forall_mem_cons] at hes
    rw [List.flatMap_cons] at hd
    obtain ⟨st1, hstep, hlen1, hd1⟩ := step_line hes.1 hlen hd
    obtain ⟨st2, hcalls⟩ := ih hes.2 hlen1 hd1
    exact ⟨st2, .cons ((stops_stop hstep).mpr rfl) hcalls⟩

/-- Calls return one thing only. -/
theorem Calls.unique (h : Calls d st rs st') (h' : Calls d st rs' st'')
    (hlen : rs'.length = rs.length) : rs' = rs := by
  induction h generalizing rs' st'' with
  | nil => exact List.eq_nil_of_length_eq_zero hlen
  | cons hstop _ ih =>
    cases h' with
    | nil => cases hlen
    | cons hstop' hs' =>
      cases stops_unique hstop hstop'
      rw [ih hs' (Nat.succ.inj hlen)]

/-- **The mount table is read back.** The calls of `addmntent` succeed. Where a stream delivers what
they have written and what is still in the buffer, calls of `getmntent` come to an end, and return the
entries in order, and then null pointers only. -/
theorem mount_roundTrip {σ : Type} (d : Dev σ) (hw : FullWrites d) (f : File) (hf : Fresh f) (s : σ)
    (stack : Nat → Mem) (es : List Mntent) (hes : ∀ e ∈ es, Writable e) :
    ∃ f' s' written,
      addAll (traced d) stack es f (s, []) = some (List.replicate es.length 0, f', s', written) ∧
      ∀ {τ : Type} (d' : Dev τ) (st : St τ), st.vars.buf.length = 1024 →
        Delivers d' st.file st.kernel (written ++ f'.pending) → ∀ n,
          (∃ st', Calls d' st (readBack es n) st') ∧
          ∀ rs st', Calls d' st rs st' → rs.length = es.length + n → rs = readBack es n := by
  have hok : OutOk f := ⟨hf.canwrite, hf.output, by rw [hf.bm]; exact Nat.zero_le _, hf.buflen_pos,
    hf.buflen_lt, fun _ => hf.bm⟩
  obtain ⟨f', ⟨s', written⟩, hadd, htook⟩ := addAll_took (traced_full hw) hok hes stack (s, [])
  obtain ⟨chunks, hs, hbytes⟩ := htook.bytes
  have hfile : written ++ f'.pending = es.flatMap lineFor := by
    have htr := traced_writeAll (d := d) (s, []) chunks
    rw [← hs, List.nil_append] at htr
    dsimp only at htr
    rw [htr, ← hbytes, File.pending, hf.bm]
    rfl
  refine ⟨f', s', written, hadd, fun d' st hlen hd n => ?_⟩
  rw [hfile] at hd
  obtain ⟨st', hcalls⟩ := calls_lines hes hlen hd n
  refine ⟨⟨st', hcalls⟩, fun rs st'' hrs hcount => hcalls.unique hrs ?_⟩
  rw [hcount, readBack, List.length_append, List.length_map, List.length_replicate]

/-- An entry without options. -/
def rootEntry : Mntent := ⟨[97], [47], [98], [], -1, 7⟩

/-- The static variables before the first call. -/
def zeroVars : Vars := ⟨List.replicate 1024 0, 0, 0, 0, 0, 0, 0, 0, 0⟩

theorem rootEntry_writable : Writable rootEntry := by
  have hletter {c : UInt8} (hc : c ≠ 0 ∧ isWhite c = false) : Word [c] :=
    List.forall_mem_singleton.mpr hc
  refine ⟨hletter (by decide), hletter (by decide), hletter (by decide),
    fun b hb => absurd hb List.not_mem_nil, List.cons_ne_nil _ _, List.cons_ne_nil _ _,
    List.cons_ne_nil _ _, CInt.fits32.mpr (by decide), CInt.fits32.mpr (by decide), ?_⟩
  norm_num [lineFor, textOf, optsOf, rw, rootEntry, decimalText, Number.numeral]

/-- Written on a terminal, and read from a regular file. -/
theorem mount_roundTrip_root : ∃ f' s' written,
    addAll (traced sink) (fun _ _ => 1) [rootEntry] stdout3 ((), []) = some ([0], f', s', written) ∧
      ∃ st', Calls regular ⟨zeroVars, reader4, ⟨written ++ f'.pending, 0⟩⟩
        [some ⟨[97], [47], [98], [114, 119], -1, 7⟩, none] st' := by
  obtain ⟨f', s', written, hadd, hread⟩ := mount_roundTrip sink (fun _ _ _ => rfl) stdout3
    ⟨rfl, rfl, rfl, by decide, by decide⟩ () (fun _ _ => 1) [rootEntry] fun e he => by
      rw [List.mem_singleton.mp he]
      exact rootEntry_writable
  have hheld : Held reader4 ⟨written ++ f'.pending, 0⟩ :=
    ⟨⟨⟨rfl, rfl, rfl, rfl, by decide, by decide⟩, le_refl 0, Nat.zero_le 4, le_refl 0,
      fun i hi => absurd hi (Nat.not_lt_zero i), fun h => absurd h Bool.false_ne_true⟩,
      fun h => absurd h.symm Bool.false_ne_true⟩
  have hlen : zeroVars.buf.length = 1024 := List.length_replicate
  exact ⟨f', s', written, hadd, (hread regular ⟨zeroVars, reader4, ⟨written ++ f'.pending, 0⟩⟩ hlen
    (delivers_ahead hheld) 1).1⟩

end Dietlibc.Mount
