import Dietlibc.Accounts.Enumeration
import Dietlibc.Printf.Plain

/-!
# Writing the passwd file and reading it back

`putpwent` prints the two ids with `%d`, so that one from 2^31 on comes out negative, and
`getpwent_r` passes over a line whose ids are no digits. `roundTrip_iff`: what has been written is
read back exactly if there is no such id.
-/

namespace Dietlibc.Accounts

open Machine Printf

variable {m : Mapped} {buflen cur : Nat} {s : St} {lines : List (List UInt8)} {p : Passwd}
  {ps es : List Passwd} {r : Answer}

/-! ## `putpwent` -/

/-- A C string as `fprintf` gets it. -/
def chars (f : List UInt8) : List Char := f.map fun b => Char.ofNat b.toNat

/-- The bytes that `fprintf` hands over. -/
def ofChars (t : List Char) : List UInt8 := t.map fun c => UInt8.ofNat c.toNat

/-- `"%s:%s:%d:%d:%s:%s:%s\n"` -/
def pwFormat : List Char :=
  ['%', 's', ':', '%', 's', ':', '%', 'd', ':', '%', 'd', ':', '%', 's', ':', '%', 's', ':', '%',
    's', '\n']

/-- `putpwent` with neither pointer null: what it writes, if `fprintf` completes. -/
def putpwent (p : Passwd) : Option (List UInt8) :=
  (printed pwFormat [.str (chars p.name), .str (chars p.passwd), .word p.uid, .word p.gid,
    .str (chars p.gecos), .str (chars p.dir), .str (chars p.shell)]).map ofChars

/-- The file behind the calls of `putpwent`. -/
def written : List Passwd → Option (List UInt8)
  | [] => some []
  | p :: ps => (putpwent p).bind fun line => (written ps).map (line ++ ·)

/-! ## The claim -/

/-- A string that a field can hold. -/
def Plain (f : List UInt8) : Prop := ∀ b ∈ f, b ≠ colon ∧ b ≠ newline ∧ b ≠ 0

/-- The strings of the entry are plain, and its ids are 32-bit numbers. -/
structure Writable (p : Passwd) : Prop where
  name : Plain p.name
  passwd : Plain p.passwd
  gecos : Plain p.gecos
  dir : Plain p.dir
  shell : Plain p.shell
  uid : p.uid < 2 ^ 32
  gid : p.gid < 2 ^ 32

/-- The loop over `getpwent_r` comes to its end, and gives the entries `ps`. -/
def ReadsBack (m : Mapped) (buflen : Nat) (ps : List Passwd) : Prop :=
  (∃ es, Enumerates m buflen 0 es) ∧ ∀ es, Enumerates m buflen 0 es → es = ps

/-- `%d` prints the ids as they are. -/
def Printable (p : Passwd) : Prop := p.uid < 2 ^ 31 ∧ p.gid < 2 ^ 31

/-! ## What is written -/

/-- The id as `%d` prints it. -/
def idText (w : Nat) : List UInt8 := ofChars (signedText w)

/-- The seven fields of a line that is written. -/
def pwFields (p : Passwd) : List (List UInt8) :=
  [p.name, p.passwd, idText p.uid, idText p.gid, p.gecos, p.dir, p.shell]

theorem ofChars_chars (f : List UInt8) : ofChars (chars f) = f := by
  have hbyte : ∀ b : UInt8, UInt8.ofNat (Char.ofNat b.toNat).toNat = b := by
    intro b
    have hlt : b.toNat < 256 := b.toNat_lt
    have hvalid : Nat.isValidChar b.toNat := .inl (by omega)
    rw [Char.ofNat, dif_pos hvalid]
    exact UInt8.ofNat_toNat
  rw [ofChars, chars, List.map_map]
  exact List.map_id'' hbyte f

/-- The texts of the writes. -/
def pwTexts (p : Passwd) : List (List Char) :=
  [chars p.name, [':'], chars p.passwd, [':'], signedText p.uid, [':'], signedText p.gid, [':'],
    chars p.gecos, [':'], chars p.dir, [':'], chars p.shell, ['\n']]

theorem vPrintf_pwFormat (p : Passwd) (o : Out) :
    vPrintf pwFormat [.str (chars p.name), .str (chars p.passwd), .word p.uid, .word p.gid,
      .str (chars p.gecos), .str (chars p.dir), .str (chars p.shell)] o = bWrites (pwTexts p) o := by
  have hcolon {rest : List Char} {args : List Arg} {o : Out} : vPrintf (':' :: '%' :: rest) args o =
      (bWrite [':'] o).bind fun o => vPrintf ('%' :: rest) args o :=
    vPrintf_char (by decide) (by simp) args o
  have hnewline {args : List Arg} {o : Out} : vPrintf ['\n'] args o =
      (bWrite ['\n'] o).bind fun o => vPrintf [] args o :=
    vPrintf_char (by decide) (by simp) args o
  unfold pwFormat pwTexts
  simp only [vPrintf_s, vPrintf_d, hcolon, hnewline, bWrites_cons, vPrintf_nil]
  rfl

theorem ofChars_colon (t : List Char) : ofChars (':' :: t) = colon :: ofChars t := by
  rw [ofChars, List.map_cons]
  rfl

/-- The seven texts and their separators. -/
theorem ofChars_line (p : Passwd) (uid gid : List Char) :
    ofChars [chars p.name, [':'], chars p.passwd, [':'], uid, [':'], gid, [':'], chars p.gecos,
      [':'], chars p.dir, [':'], chars p.shell, ['\n']].flatten =
    joined [p.name, p.passwd, ofChars uid, ofChars gid, p.gecos, p.dir, p.shell] ++ [newline] := by
  have hnewline : ofChars ['\n'] = [newline] := by decide
  have happ (a b : List Char) : ofChars (a ++ b) = ofChars a ++ ofChars b := List.map_append
  simp [happ, ofChars_chars, ofChars_colon, hnewline, joined, List.intercalate_cons_cons]

/-- The writes make up the line. -/
theorem ofChars_pwTexts (p : Passwd) :
    ofChars (pwTexts p).flatten = joined (pwFields p) ++ [newline] := by
  unfold pwTexts pwFields idText
  exact ofChars_line p _ _

/-- **What a call writes**, if `fprintf` completes. -/
theorem putpwent_eq {bytes : List UInt8} (h : putpwent p = some bytes) :
    bytes = joined (pwFields p) ++ [newline] := by
  obtain ⟨t, ht, rfl⟩ := Option.map_eq_some_iff.mp h
  unfold printed at ht
  rw [vPrintf_pwFormat] at ht
  split at ht
  · rename_i o hok
    cases ht
    rw [bWrites_ok hok, List.nil_append, ofChars_pwTexts]
  · cases ht

/-- Below 2^32 bytes a line is written. -/
theorem putpwent_completes (h : (joined (pwFields p)).length + 1 < 2 ^ 32) :
    putpwent p = some (joined (pwFields p) ++ [newline]) := by
  have hroom : (⟨0, []⟩ : Out).len + (pwTexts p).flatten.length < 2 ^ 32 := by
    have hlen := congrArg List.length (ofChars_pwTexts p)
    rw [ofChars, List.length_map, List.length_append, List.length_singleton] at hlen
    rw [hlen, Nat.zero_add]
    exact h
  obtain ⟨o, ho⟩ := bWrites_completes hroom
  rw [putpwent, printed, vPrintf_pwFormat, ho, Option.map_some, bWrites_ok ho, List.nil_append,
    ofChars_pwTexts]

theorem written_eq {bytes : List UInt8} (h : written ps = some bytes) :
    bytes = text (ps.map fun p => joined (pwFields p)) := by
  induction ps generalizing bytes with
  | nil =>
    cases h
    rfl
  | cons p ps ih =>
    obtain ⟨line, hline, h⟩ := Option.bind_eq_some_iff.mp h
    obtain ⟨more, hmore, rfl⟩ := Option.map_eq_some_iff.mp h
    rw [putpwent_eq hline, ih hmore, List.map_cons, text_cons]
    simp

/-! ## What the lines denote -/

theorem mem_idText {w : Nat} {b : UInt8} (h : b ∈ idText w) : b = 45 ∨ isDigit b = true := by
  obtain ⟨c, hc, rfl⟩ := List.mem_map.mp h
  rcases mem_signedText hc with rfl | hd
  · exact .inl rfl
  · right
    have hlo : 48 ≤ c.toNat ∧ c.toNat ≤ 57 := by
      simpa [Char.isDigit, UInt32.le_iff_toNat_le] using hd
    unfold isDigit
    rw [UInt8.toNat_ofNat_of_lt' (by omega : c.toNat < 2 ^ 8)]
    simpa using ⟨hlo.1, by omega⟩

/-- The digits of a number below 2^31. -/
theorem idText_small {w : Nat} (h : w < 2 ^ 31) : (idText w).all isDigit = true ∧
    idText w ≠ [] ∧ decimal (idText w) = w := by
  have hdigit : ∀ d < 10, UInt8.ofNat (Lib.digitChar false d).toNat = UInt8.ofNat (48 + d) ∧
      isDigit (UInt8.ofNat (48 + d)) = true ∧ (UInt8.ofNat (48 + d)).toNat - 48 = d := by decide
  unfold idText
  rw [signedText_small h]
  by_cases h0 : w = 0
  · subst h0
    exact ⟨rfl, List.cons_ne_nil _ _, rfl⟩
  · have hdig := fun d => Nat.digits_lt_base (b := 10) (m := w) (d := d) (by decide)
    have htext : ofChars (numeral 10 false w) =
        ((Nat.digits 10 w).map fun d => UInt8.ofNat (48 + d)).reverse := by
      unfold numeral ofChars
      rw [if_neg h0, List.map_reverse, List.map_map]
      congr 1
      exact List.map_congr_left fun d hd => (hdigit d (hdig d hd)).1
    rw [htext]
    refine ⟨?_, ?_, ?_⟩
    · rw [List.all_eq_true]
      intro b hb
      obtain ⟨d, hd, rfl⟩ := List.mem_map.mp (List.mem_reverse.mp hb)
      exact (hdigit d (hdig d hd)).2.1
    · rw [Ne, List.reverse_eq_nil_iff, List.map_eq_nil_iff]
      exact Nat.digits_ne_nil_iff_ne_zero.mpr h0
    · unfold decimal
      rw [List.foldl_reverse, List.foldr_map]
      have hval : ∀ l : List Nat, (∀ d ∈ l, d < 10) →
          l.foldr (fun d x => x * 10 + ((UInt8.ofNat (48 + d)).toNat - 48)) 0 =
            Nat.ofDigits 10 l := by
        intro l hl
        induction l with
        | nil => rfl
        | cons d l ih =>
          rw [List.foldr_cons, ih fun x hx => hl x (List.mem_cons_of_mem _ hx),
            (hdigit d (hl d List.mem_cons_self)).2.2, Nat.ofDigits_cons]
          ring
      rw [hval _ hdig, Nat.ofDigits_digits]

/-- The text of a number from 2^31 on is no numeral. -/
theorem idText_large {w : Nat} (h : 2 ^ 31 ≤ w) (hw : w < 2 ^ 32) :
    (idText w).all isDigit = false := by
  rw [List.all_eq_false]
  exact ⟨45, List.mem_map.mpr ⟨'-', signedText_large h hw, rfl⟩, by decide⟩

theorem idText_all {w : Nat} (hw : w < 2 ^ 32) : (idText w).all isDigit = true ↔ w < 2 ^ 31 := by
  constructor
  · intro hall
    by_contra hge
    rw [idText_large (Nat.le_of_not_lt hge) hw] at hall
    cases hall
  · exact fun h => (idText_small h).1

theorem cstring_plain {f : List UInt8} (h : Plain f) : cstring f = f := by
  rw [cstring, List.takeWhile_eq_self_iff]
  intro b hb
  simpa using (h b hb).2.2

theorem Writable.fields (h : Writable p) : Fields (pwFields p) := by
  have hid (w : Nat) : ∀ b ∈ idText w, b ≠ newline ∧ b ≠ colon := by
    intro b hb
    rcases mem_idText hb with rfl | hd
    · decide
    · constructor <;>
      · rintro rfl
        revert hd
        decide
  have hplain {f : List UInt8} (h : Plain f) : ∀ b ∈ f, b ≠ newline ∧ b ≠ colon :=
    fun b hb => ⟨(h b hb).2.1, (h b hb).1⟩
  refine ⟨List.cons_ne_nil _ _, ?_⟩
  simp only [pwFields, List.forall_mem_cons]
  exact ⟨hplain h.name, hplain h.passwd, hid p.uid, hid p.gid, hplain h.gecos, hplain h.dir,
    hplain h.shell, fun f hf => absurd hf List.not_mem_nil⟩

/-- A line splits into the fields that it was made of. -/
theorem fieldsOf_joined {fs : List (List UInt8)} (h : Fields fs) : fieldsOf (joined fs) = fs :=
  List.splitOn_intercalate colon (fun f hf hc => (h.free f hf colon hc).2 rfl) h.ne_nil

/-- A line is taken for an entry if `%d` prints its ids. -/
theorem entryOf_written (h : Writable p) :
    entryOf (fieldsOf (joined (pwFields p))) =
      if p.uid < 2 ^ 31 ∧ p.gid < 2 ^ 31 then some p else none := by
  rw [fieldsOf_joined h.fields]
  unfold pwFields entryOf
  dsimp only
  by_cases hids : p.uid < 2 ^ 31 ∧ p.gid < 2 ^ 31
  · obtain ⟨hu, -, hu'⟩ := idText_small hids.1
    obtain ⟨hg, -, hg'⟩ := idText_small hids.2
    have hnum {w : Nat} (hw : w < 2 ^ 31) (hd : decimal (idText w) = w) :
        number (idText w) % 2 ^ 32 = w := by
      rw [decimal_eq, hd]
      omega
    rw [hu, hg, if_pos hids, hnum hids.1 hu', hnum hids.2 hg', cstring_plain h.name,
      cstring_plain h.passwd, cstring_plain h.gecos, cstring_plain h.dir, cstring_plain h.shell]
    rfl
  · rw [if_neg hids, if_neg]
    rw [Bool.and_eq_true, idText_all h.uid, idText_all h.gid]
    exact hids

/-- A line denotes the entry that it was written for. -/
theorem denotes_written (h : Writable p) (hids : Printable p) :
    denotes (joined (pwFields p)) = some p := by
  obtain ⟨hu, hune, hu'⟩ := idText_small hids.1
  obtain ⟨hg, hgne, hg'⟩ := idText_small hids.2
  have hid {w : Nat} (hw : w < 2 ^ 31) (hd : (idText w).all isDigit = true) (hne : idText w ≠ [])
      (hv : decimal (idText w) = w) : isId (idText w) = true := by
    unfold isId
    rw [hd, hv]
    simpa using ⟨hne, by omega⟩
  unfold denotes
  rw [fieldsOf_joined h.fields]
  unfold pwFields
  dsimp only
  rw [hid hids.1 hu hune hu', hid hids.2 hg hgne hg', hu', hg', cstring_plain h.name,
    cstring_plain h.passwd, cstring_plain h.gecos, cstring_plain h.dir, cstring_plain h.shell]
  rfl

/-! ## Entries from behind the file -/

/-- The ids that have been kept are 0. -/
def ZeroIds (s : St) : Prop := (2 < s.i → s.res 2 = 0) ∧ (3 < s.i → s.res 3 = 0)

/-- Behind the end of the file the ids that are kept are 0. -/
theorem zeroIds_step {s' : St} (htail : Tail m s) (h : ZeroIds s)
    (hstep : step getpwentR m buflen s = .again s') : ZeroIds s' := by
  obtain ⟨hlabel, hcur, -, -, -⟩ := htail
  obtain ⟨hu, hg⟩ := h
  unfold step at hstep
  rcases hlabel with hl | hl | hl
  · rw [hl] at hstep
    dsimp only at hstep
    split at hstep
    · split at hstep
      · cases hstep
      · cases hstep
        exact ⟨hu, hg⟩
    · cases hstep
  · rw [hl] at hstep
    dsimp only at hstep
    rw [lineEnd_eq_none (by omega)] at hstep
    cases hstep
    exact ⟨hu, hg⟩
  · rw [hl] at hstep
    dsimp only at hstep
    unfold switchField at hstep
    split at hstep
    · rename_i hkind
      have hstring : ¬ (s.i = 2 ∨ s.i = 3) := fun hn => by
        rw [pw_kind_number hn] at hkind
        cases hkind
      unfold copyField at hstep
      dsimp only at hstep
      split at hstep
      · cases hstep
      · cases hstep
        rw [if_neg fun hfound => hstring (.inl hfound.2)]
        refine ⟨fun hi => ?_, fun hi => ?_⟩
        · rw [← hu (by dsimp only [St.advance] at hi; omega)]
          exact Function.update_of_ne (by omega) _ _
        · rw [← hg (by dsimp only [St.advance] at hi; omega)]
          exact Function.update_of_ne (by omega) _ _
    · split at hstep
      · cases hstep
      · rename_i len l hscan
        have hl0 : l = 0 := by
          unfold scanUlong at hscan
          rw [List.drop_eq_nil_of_le hcur] at hscan
          dsimp only [List.takeWhile_nil, List.length_nil] at hscan
          split at hscan
          · cases hscan
            rfl
          · cases hscan
        split at hstep
        · cases hstep
          exact ⟨hu, hg⟩
        · cases hstep
          have hzero (k : Nat) (hk : s.i = k ∨ s.res k = 0) :
              Function.update s.res s.i (getpwentR.value l s.j) k = 0 := by
            rw [hl0]
            rcases hk with rfl | hk
            · exact Function.update_self _ _ _
            · by_cases hik : k = s.i
              · rw [hik]
                exact Function.update_self _ _ _
              · rw [Function.update_of_ne hik, hk]
          refine ⟨fun hi => hzero 2 ?_, fun hi => hzero 3 ?_⟩
          · rcases Nat.lt_or_ge 2 s.i with hlt | hge
            · exact .inr (hu hlt)
            · exact .inl (by dsimp only [St.advance] at hi; omega)
          · rcases Nat.lt_or_ge 3 s.i with hlt | hge
            · exact .inr (hg hlt)
            · exact .inl (by dsimp only [St.advance] at hi; omega)
    · rename_i hkind
      exact absurd hkind (by
        unfold getpwentR
        dsimp only
        split <;> exact nofun)

/-- The entry that is read behind the end of the file. -/
theorem tail_zeroIds (hlen : m.bytes.length + 7 ≤ buflen) (hl : s.label = .again)
    (hcur : m.bytes.length ≤ s.cur) (hr : Stops (step getpwentR m buflen) s r) :
    r.st.res 2 = 0 ∧ r.st.res 3 = 0 ∧ m.bytes.length ≤ r.st.cur := by
  have hstart : Tail m (passStart getpwentR s) ∧ ZeroIds (passStart getpwentR s) :=
    ⟨⟨.inl rfl, hcur, fun hh => absurd rfl hh, Nat.zero_le _, Nat.zero_le _⟩,
      fun hi => absurd hi (Nat.not_lt_zero 2), fun hi => absurd hi (Nat.not_lt_zero 3)⟩
  have hok := tail_succeeds hlen hl hcur hr
  obtain ⟨s', ⟨htail, hu, hg⟩, hstop⟩ := ((stops_again (step_again hl)).mp hr).last
    (I := fun s => Tail m s ∧ ZeroIds s)
    (fun _ _ h hstep => ⟨tail_step h.1 hlen hstep, zeroIds_step h.1 h.2 hstep⟩) hstart
  obtain ⟨hlabel, hcur', hj, -, -⟩ := htail
  unfold step at hstop
  rcases hlabel with hl' | hl' | hl'
  · rw [hl'] at hstop
    dsimp only at hstop
    split at hstop
    · split at hstop <;> cases hstop
    · rename_i hcount
      cases hstop
      have h7 : 7 ≤ s'.i := Nat.le_of_not_lt hcount
      exact ⟨hu (by omega), hg (by omega), hcur'⟩
  · rw [hl'] at hstop
    dsimp only at hstop
    split at hstop <;> cases hstop
  · obtain ⟨hj0, hi7, -⟩ := hj (by rw [hl']; exact nofun)
    rw [hl'] at hstop
    dsimp only at hstop
    unfold switchField copyField at hstop
    dsimp only at hstop
    repeat' split at hstop
    all_goals cases hstop
    all_goals cases hok

/-- Lines that give no entry are left behind, up to the end of the file. -/
theorem silent_lines (hlen : m.bytes.length + 7 ≤ buflen) (hl : s.label = .again)
    (hcur : s.cur ≤ m.bytes.length) (htext : m.bytes.drop s.cur = text lines)
    (hn : ∀ line ∈ lines, newline ∉ line) (hnone : firstEntry lines = none) :
    ∃ s', Meets (step getpwentR m buflen) s s' ∧ s'.label = .again ∧
      m.bytes.length ≤ s'.cur := by
  induction lines generalizing s with
  | nil =>
    refine ⟨s, .refl s, hl, ?_⟩
    rw [text, List.flatMap_nil, List.drop_eq_nil_iff] at htext
    exact htext
  | cons line lines ih =>
    rw [firstEntry] at hnone
    cases hentry : entryOf (fieldsOf line) with
    | some e =>
      rw [hentry] at hnone
      cases hnone
    | none =>
      rw [hentry] at hnone
      obtain ⟨s1, hm, hl1, ht1, hc1⟩ :=
        line_skips hlen hl htext (hn line List.mem_cons_self) hentry
      obtain ⟨s', hm', hs'⟩ :=
        ih hl1 hc1 ht1 (fun l hl => hn l (List.mem_cons_of_mem line hl)) hnone
      exact ⟨s', hm.trans hm', hs'⟩

/-! ## The loop -/

/-- The lines that are written. -/
def linesFor (ps : List Passwd) : List (List UInt8) := ps.map fun p => joined (pwFields p)

theorem linesFor_free (hps : ∀ p ∈ ps, Writable p) : ∀ line ∈ linesFor ps, newline ∉ line := by
  intro line hline
  obtain ⟨p, hp, rfl⟩ := List.mem_map.mp hline
  exact (hps p hp).fields.newline_not_mem

/-- The first entry has ids that `%d` prints, and the lines behind it are written ones. -/
theorem firstEntry_written {e : Passwd} {more : List (List UInt8)} (hps : ∀ p ∈ ps, Writable p)
    (h : firstEntry (linesFor ps) = some (e, more)) :
    Printable e ∧ ∃ ps', more = linesFor ps' ∧ ∀ p ∈ ps', Writable p := by
  induction ps with
  | nil => cases h
  | cons p ps ih =>
    rw [List.forall_mem_cons] at hps
    rw [linesFor, List.map_cons, firstEntry, entryOf_written hps.1] at h
    by_cases hids : p.uid < 2 ^ 31 ∧ p.gid < 2 ^ 31
    · rw [if_pos hids, fieldsOf_joined hps.1.fields] at h
      cases h
      exact ⟨hids, ps, rfl, hps.2⟩
    · rw [if_neg hids] at h
      exact ih hps.2 h

/-- **Every entry that is read back** has ids that `%d` prints. -/
theorem enumerates_printable (hlen : m.bytes.length + 7 ≤ buflen) (h : Enumerates m buflen cur es)
    (htext : m.bytes.drop cur = text (linesFor ps)) (hps : ∀ p ∈ ps, Writable p) :
    ∀ e ∈ es, Printable e := by
  induction h generalizing ps with
  | failure h hr => exact fun e he => absurd he List.not_mem_nil
  | entry h hr hes ih =>
    rename_i cur buf res r es
    have hn := linesFor_free hps
    by_cases hne : linesFor ps = []
    · rw [hne] at htext
      rw [stops_unique h (call_nil buf res htext)] at hr
      cases hr
    · have hcall := returns_lines buf res hlen hne htext hn
      rw [List.forall_mem_cons]
      cases hfirst : firstEntry (linesFor ps) with
      | some found =>
        obtain ⟨e, more⟩ := found
        rw [hfirst] at hcall
        obtain ⟨r', hr', -, hread, htext'⟩ := hcall
        cases stops_unique h hr'
        obtain ⟨he, ps', rfl, hps'⟩ := firstEntry_written hps hfirst
        rw [hread]
        exact ⟨he, ih htext' hps'⟩
      | none =>
        -- the entry is made of the bytes behind the file
        have hpos := List.length_pos_iff.mpr hne
        have hlt : cur < m.bytes.length := by
          by_contra hge
          obtain ⟨line, more, hcons⟩ := List.exists_cons_of_ne_nil hne
          rw [List.drop_eq_nil_of_le (Nat.le_of_not_lt hge), hcons, text_cons] at htext
          exact absurd htext (by simp)
        have hstart := (stops_again (entry_again buflen buf res hlt)).mp h
        obtain ⟨s', hm, hl, hcur⟩ := silent_lines
          (s := { entryAt cur buf res with label := .again }) hlen rfl (Nat.le_of_lt hlt) htext hn
          hfirst
        obtain ⟨hu, hg, hend⟩ := tail_zeroIds hlen hl hcur (hm.stops.mp hstart)
        have hnil : es = List.filterMap denotes [] :=
          enumerates_eq hlen hes (List.drop_eq_nil_of_le hend)
            (fun _ hl => absurd hl List.not_mem_nil) ⟨by simp, by simp⟩
        rw [hnil]
        refine ⟨⟨?_, ?_⟩, fun e he => absurd he List.not_mem_nil⟩
        · show r.st.res 2 < 2 ^ 31
          omega
        · show r.st.res 3 < 2 ^ 31
          omega

theorem clean_linesFor (hps : ∀ p ∈ ps, Writable p) (hids : ∀ p ∈ ps, Printable p) :
    Clean (linesFor ps) ∧ (linesFor ps).filterMap denotes = ps := by
  induction ps with
  | nil => exact ⟨⟨by simp [linesFor], by simp [linesFor]⟩, rfl⟩
  | cons p ps ih =>
    rw [List.forall_mem_cons] at hps hids
    obtain ⟨hclean, heq⟩ := ih hps.2 hids.2
    have hp := denotes_written hps.1 hids.1
    rw [linesFor, List.map_cons, clean_cons_denotes hp, List.filterMap_cons_some hp]
    exact ⟨hclean, congrArg (p :: ·) heq⟩

theorem drop_written (hfile : written ps = some m.bytes) :
    m.bytes.drop 0 = text (linesFor ps) := written_eq hfile

theorem readsBack_of_printable (hps : ∀ p ∈ ps, Writable p) (hfile : written ps = some m.bytes)
    (hlen : m.bytes.length + 7 ≤ buflen) (hids : ∀ p ∈ ps, Printable p) :
    ReadsBack m buflen ps := by
  obtain ⟨hclean, heq⟩ := clean_linesFor hps hids
  have hdrop := drop_written hfile
  have hn := linesFor_free hps
  refine ⟨enumerates_exists hlen hdrop hn hclean, fun es hes => ?_⟩
  rw [enumerates_eq hlen hes hdrop hn hclean, heq]

theorem printable_of_readsBack (hps : ∀ p ∈ ps, Writable p) (hfile : written ps = some m.bytes)
    (hlen : m.bytes.length + 7 ≤ buflen) (h : ReadsBack m buflen ps) : ∀ p ∈ ps, Printable p := by
  obtain ⟨⟨es, hes⟩, hall⟩ := h
  rw [← hall es hes]
  exact enumerates_printable hlen hes (drop_written hfile) hps

/-- **The round trip** holds exactly for entries whose ids are below 2^31: of every file that
`putpwent` writes, with `fprintf` completing. -/
theorem roundTrip_iff (ps : List Passwd) (hps : ∀ p ∈ ps, Writable p) (m : Mapped)
    (hfile : written ps = some m.bytes) (buflen : Nat) (hlen : m.bytes.length + 7 ≤ buflen) :
    ReadsBack m buflen ps ↔ ∀ p ∈ ps, Printable p :=
  ⟨printable_of_readsBack hps hfile hlen, readsBack_of_printable hps hfile hlen⟩

/-- The entry `n::<uid>:7:::/` -/
def userWith (uid : Nat) : Passwd := ⟨[110], [], uid, 7, [], [], [47]⟩

theorem userWith_writable {uid : Nat} (h : uid < 2 ^ 32) : ∀ p ∈ [userWith uid], Writable p := by
  have hplain : Plain [] := fun b hb => absurd hb List.not_mem_nil
  intro p hp
  rw [List.mem_singleton] at hp
  rw [hp]
  exact ⟨by simp [Plain, userWith, colon, newline], hplain, hplain, hplain,
    by simp [Plain, userWith, colon, newline], h, (by decide : 7 < 2 ^ 32)⟩

theorem userWith_written {uid : Nat} (h : (joined (pwFields (userWith uid))).length + 1 < 2 ^ 32) :
    written [userWith uid] = some (joined (pwFields (userWith uid)) ++ [newline]) := by
  rw [written, putpwent_completes h]
  simp [written]

theorem roundTrip_iff_user :
    ReadsBack ⟨joined (pwFields (userWith 5)) ++ [newline], 4000⟩ 100 [userWith 5] :=
  (roundTrip_iff [userWith 5] (userWith_writable (by decide)) _ (userWith_written (by decide)) 100
    (by decide)).mpr (by simp [Printable, userWith])

/-- `n::-2:7:::/` and a newline. -/
def minusTwo : Mapped := ⟨[110, 58, 58, 45, 50, 58, 55, 58, 58, 58, 47, 10], 4084⟩

/-- The id 2^32 - 2 is written as -2, and the entry is not read back. -/
theorem roundTrip_minusTwo : (∀ p ∈ [userWith 4294967294], Writable p) ∧
    written [userWith 4294967294] = some minusTwo.bytes ∧
      ¬ ReadsBack minusTwo 100 [userWith 4294967294] := by
  have hps : ∀ p ∈ [userWith 4294967294], Writable p := userWith_writable (by decide)
  have hline : joined (pwFields (userWith 4294967294)) ++ [newline] = minusTwo.bytes := by decide
  have hfile : written [userWith 4294967294] = some minusTwo.bytes := by
    rw [← hline]
    exact userWith_written (by decide)
  refine ⟨hps, hfile, fun h => ?_⟩
  have hids := printable_of_readsBack hps hfile (by decide) h _ List.mem_cons_self
  exact absurd hids.1 (by decide)

end Dietlibc.Accounts
