import Dietlibc.Accounts.Enumeration
import Dietlibc.Accounts.GroupCalls

/-!
# Buffers that are too small

A call that fails has moved on in the file, unless it fails at the first string of the entry
(`cur_le`). `retry_iff` says for which buffers a call that fails can be made again.
-/

namespace Dietlibc.Accounts

open Machine

variable {sh : Shape} {m : Mapped} {buflen q : Nat} {s s' : St} {line t : List UInt8} {e : Passwd}
  {g : GroupLine} {r : Answer}

/-! ## The claim -/

/-- If the call has failed, it is at the start of the entry `e`, and a call with a buffer that is
large enough gives `e`. -/
def Retries {E : Type} (sh : Shape) (read : Nat → St → E) (m : Mapped) (q : Nat) (e : E)
    (r : Answer) : Prop :=
  r.ok = false → r.st.cur = q ∧ ∃ N, ∀ buflen, N ≤ buflen → ∀ buf res,
    ∃ r', Returns sh m r.st.cur buflen buf res r' ∧ r'.ok = true ∧ read buflen r'.st = e

/-- The line stands at `q`, and a newline or the end of the file ends it. -/
def LineAt (m : Mapped) (q : Nat) (line : List UInt8) : Prop :=
  (∃ t, m.bytes.drop q = line ++ newline :: t) ∨ m.bytes.drop q = line

/-- The byte that ends the line is within the pages of the file. -/
def EndRead (m : Mapped) (q : Nat) (line : List UInt8) : Prop := m.at? (q + line.length) ≠ none

instance (m : Mapped) (q : Nat) (line : List UInt8) : Decidable (EndRead m q line) :=
  inferInstanceAs (Decidable (¬ _))

/-- The name in a line. -/
def nameOf (line : List UInt8) : List UInt8 := (fieldsOf line).headD []

/-- The strings of a line of the passwd file that are copied: the last one is not if the byte
behind it cannot be read. -/
def passwdStrings (m : Mapped) (q : Nat) (line : List UInt8) : List (List UInt8) :=
  match fieldsOf line with
  | [f0, f1, _, _, f4, f5, f6] => if EndRead m q line then [f0, f1, f4, f5, f6] else [f0, f1, f4, f5]
  | _ => []

/-! ## Calls do not go back -/

theorem copyField_stop (h : copyField m buflen s = .stop r) : r = ⟨false, s⟩ := by
  unfold copyField at h
  split at h
  · cases h
    rfl
  · cases h

/-- The step that stops does not move. -/
theorem stop_cur (h : step sh m buflen s = .stop r) : r.st.cur = s.cur := by
  unfold step at h
  split at h
  · split at h
    · cases h
      rfl
    · cases h
  · cases h
  · split at h
    · dsimp only at h
      split at h <;> cases h
    · cases h
      rfl
  · split at h <;> cases h
  · unfold switchField at h
    split at h
    · rw [copyField_stop h]
    · split at h
      · cases h
      · split at h <;> cases h
    · dsimp only at h
      split at h
      · cases h
      · rw [copyField_stop h]

/-- A call ends at or behind every place that it has been at. -/
theorem cur_le (hok : sh.Ok) (hl : s.label = .field) (hmem : s.mem = [])
    (h : Stops (step sh m buflen) s r) : s.cur ≤ r.st.cur := by
  have hin : Inside sh m s := by
    refine ⟨fun hh => ?_, fun _ => .inl (by rw [hmem]; decide)⟩
    rw [hl] at hh
    rcases hh with hh | hh <;> cases hh
  obtain ⟨s', ⟨-, hle⟩, hstop⟩ := h.last (I := fun s' => Inside sh m s' ∧ s.cur ≤ s'.cur)
    (fun s1 s2 h1 hstep => ⟨inside_step hok h1.1 hstep, h1.2.trans (step_moves hok h1.1 hstep).1⟩)
    ⟨hin, le_rfl⟩
  rw [stop_cur hstop]
  exact hle

section

variable {fs : List (List UInt8)} {f0 : List UInt8}

/-- The name at the start of a line does not fit. -/
theorem name_fails (buflen : Nat) (hok : sh.Ok) (hkind : sh.kind 0 = .string)
    (hsep : sh.sep 0 = colon) (hne : fs ≠ []) (hf : Fields (f0 :: fs))
    (ht : m.bytes.drop s.cur = joined (f0 :: fs) ++ t) (hl : s.label = .again)
    (hfit : buflen ≤ sh.start + f0.length) :
    ∃ r, Stops (step sh m buflen) s r ∧ r.ok = false ∧ r.st.cur = s.cur := by
  have hfield := (hf.fieldAt (s := passStart sh s) hne ht).scanned
  rw [← hsep] at hfield
  obtain ⟨r, hr, hrok, hcur⟩ := field_string_fails sh buflen (s := passStart sh s) rfl hok.pos
    hkind hfield (.inl rfl) hfit
  exact ⟨r, (stops_again (step_again hl)).mpr hr, hrok, hcur⟩

/-- If the name fits, the call moves on. -/
theorem name_moves (buflen : Nat) (hok : sh.Ok) (hkind : sh.kind 0 = .string)
    (hsep : sh.sep 0 = colon) (hne : fs ≠ []) (hf : Fields (f0 :: fs))
    (ht : m.bytes.drop s.cur = joined (f0 :: fs) ++ t) (hl : s.label = .again)
    (hfit : sh.start + f0.length < buflen) (h : Stops (step sh m buflen) s r) :
    s.cur < r.st.cur := by
  have hfield := (hf.fieldAt (s := passStart sh s) hne ht).scanned
  rw [← hsep] at hfield
  have hmeets := field_string sh buflen (s := passStart sh s) rfl hok.pos hkind hfield
    (.inl rfl) hfit (fun hh => by cases hh.2)
  have hle := cur_le hok rfl rfl (hmeets.stops.mp ((stops_again (step_again hl)).mp h))
  simp only [stringTaken, passStart] at hle
  omega

end

/-! ## The passwd file -/

section

variable {f0 f1 f2 f3 f4 f5 f6 : List UInt8}

/-- The line without its end. -/
theorem LineAt.drop (h : LineAt m q line) : ∃ t, m.bytes.drop q = line ++ t := by
  rcases h with ⟨t, ht⟩ | ht
  · exact ⟨_, ht⟩
  · exact ⟨[], by rw [ht, List.append_nil]⟩

/-- The text behind six fields. -/
theorem taken_text (ht : m.bytes.drop s.cur = joined [f0, f1, f2, f3, f4, f5, f6] ++ t) :
    m.bytes.drop (taken getpwentR (passStart getpwentR s) [f0, f1, f2, f3, f4, f5]).cur = f6 ++ t := by
  have hcur : (taken getpwentR (passStart getpwentR s) [f0, f1, f2, f3, f4, f5]).cur + f6.length =
      s.cur + (joined [f0, f1, f2, f3, f4, f5, f6]).length := taken_cur
  have hjoin : joined [f0, f1, f2, f3, f4, f5, f6] =
      (f0 ++ colon :: f1 ++ colon :: f2 ++ colon :: f3 ++ colon :: f4 ++ colon :: f5 ++ [colon]) ++
        f6 := by
    simp [joined, List.intercalate_cons_cons]
  rw [hjoin, List.append_assoc] at ht
  rw [← drop_append ht]
  congr 1
  rw [hjoin, List.length_append] at hcur
  omega

/-- The last field of the line, if the byte behind it can be read. -/
theorem last_scanned (hf : Fields [f0, f1, f2, f3, f4, f5, f6])
    (hline : LineAt m s.cur (joined [f0, f1, f2, f3, f4, f5, f6]))
    (hread : EndRead m s.cur (joined [f0, f1, f2, f3, f4, f5, f6])) :
    ∃ c, Scanned m (taken getpwentR (passStart getpwentR s) [f0, f1, f2, f3, f4, f5]).cur colon f6 c := by
  have hfree := hf.free f6 (by simp)
  have hcur : (taken getpwentR (passStart getpwentR s) [f0, f1, f2, f3, f4, f5]).cur + f6.length =
      s.cur + (joined [f0, f1, f2, f3, f4, f5, f6]).length := taken_cur
  rcases hline with ⟨t, ht⟩ | ht
  · exact ⟨newline, FieldAt.scanned ⟨taken_text ht, hfree, .inl rfl⟩⟩
  · refine scanned_eof ?_ hfree ?_
    · simpa using taken_text (t := []) (by rw [ht, List.append_nil])
    · rw [hcur]
      exact hread

/-- **The calls at a line of the passwd file**, from the place where they meet it. -/
theorem passwd_fits (buflen : Nat) (hf : Fields [f0, f1, f2, f3, f4, f5, f6])
    (hline : LineAt m s.cur (joined [f0, f1, f2, f3, f4, f5, f6]))
    (hread : EndRead m s.cur (joined [f0, f1, f2, f3, f4, f5, f6])) (hl : s.label = .again)
    (hd2 : f2.all isDigit = true) (hd3 : f3.all isDigit = true)
    (hfit : total [f0, f1, f4, f5, f6] ≤ buflen) :
    ∃ r, Stops (step getpwentR m buflen) s r ∧ r.ok = true ∧ readPasswd buflen r.st =
      ⟨cstring f0, cstring f1, number f2 % 2 ^ 32, number f3 % 2 ^ 32, cstring f4, cstring f5,
        cstring f6⟩ := by
  obtain ⟨t, ht⟩ := hline.drop
  obtain ⟨c, h6⟩ := last_scanned hf hline hread
  have hn6 : (taken getpwentR (passStart getpwentR s) [f0, f1, f2, f3, f4, f5]).n = _ :=
    taken_n f0 f1 f2 f3 f4 f5 rfl
  change _ = 0 + _ + _ + _ + _ at hn6
  simp only [total_cons, total_nil] at hfit
  obtain ⟨hmeets, -, hi6, hl6⟩ := six_fields buflen (s := passStart getpwentR s) hf ht rfl rfl rfl
    (by simp only [total_cons, total_nil]; omega) hd2 hd3
  have hstop := seventh_field buflen hl6 hi6 h6 (by omega)
  exact ⟨_, (stops_again (step_again hl)).mpr (hmeets.stops.mpr hstop), rfl,
    taken_entry rfl rfl c (by omega)⟩

/-- The read behind the file is a fault. -/
theorem passwd_faults (buflen : Nat) (hf : Fields [f0, f1, f2, f3, f4, f5, f6])
    (hline : LineAt m s.cur (joined [f0, f1, f2, f3, f4, f5, f6]))
    (hread : ¬ EndRead m s.cur (joined [f0, f1, f2, f3, f4, f5, f6])) (hl : s.label = .again)
    (hd2 : f2.all isDigit = true) (hd3 : f3.all isDigit = true)
    (hfit : total [f0, f1, f4, f5] ≤ buflen) (r : Answer) :
    ¬ Stops (step getpwentR m buflen) s r := by
  have hcur : (taken getpwentR (passStart getpwentR s) [f0, f1, f2, f3, f4, f5]).cur + f6.length =
      s.cur + (joined [f0, f1, f2, f3, f4, f5, f6]).length := taken_cur
  obtain ⟨t, ht⟩ := hline.drop
  rw [EndRead, not_not] at hread
  have hend : t = [] := by
    rw [at?_eq_none] at hread
    rw [← drop_append ht]
    exact List.drop_eq_nil_of_le (by omega)
  subst hend
  obtain ⟨hmeets, ht6, hi6, hl6⟩ := six_fields buflen (s := passStart getpwentR s) hf ht rfl rfl rfl hfit
    hd2 hd3
  rw [joined_singleton, List.append_nil] at ht6
  have hparse : parse1 m (taken getpwentR (passStart getpwentR s) [f0, f1, f2, f3, f4, f5]).cur colon =
      f6.length := by
    unfold parse1
    rw [ht6, List.takeWhile_eq_self_iff.mpr]
    intro b hb
    have := hf.free f6 (by simp) b hb
    simp [this.1, this.2]
  have hfault : step getpwentR m buflen
      (taken getpwentR (passStart getpwentR s) [f0, f1, f2, f3, f4, f5]) = .fault () := by
    unfold step
    rw [hl6]
    dsimp only
    rw [hi6, if_pos (by decide), show getpwentR.sep 6 = colon from rfl]
    rw [hparse, hcur, hread]
  exact fun h => not_stops_fault hfault
    (hmeets.stops.mp ((stops_again (step_again hl)).mp h))

/-- A string does not fit. -/
theorem passwd_fails (buflen : Nat) (hf : Fields [f0, f1, f2, f3, f4, f5, f6])
    (hline : LineAt m s.cur (joined [f0, f1, f2, f3, f4, f5, f6])) (hl : s.label = .again)
    (hd2 : f2.all isDigit = true) (hd3 : f3.all isDigit = true)
    (hover : buflen < total [f0, f1, f4, f5] ∨
      EndRead m s.cur (joined [f0, f1, f2, f3, f4, f5, f6]) ∧
        buflen < total [f0, f1, f4, f5, f6]) :
    ∃ r, Stops (step getpwentR m buflen) s r ∧ r.ok = false := by
  obtain ⟨t, ht⟩ := hline.drop
  have hn6 : (taken getpwentR (passStart getpwentR s) [f0, f1, f2, f3, f4, f5]).n = _ :=
    taken_n f0 f1 f2 f3 f4 f5 rfl
  change _ = 0 + _ + _ + _ + _ at hn6
  simp only [total_cons, total_nil] at hover
  by_cases hsix : buflen < total [f0, f1, f4, f5]
  · simp only [total_cons, total_nil] at hsix
    obtain ⟨r, hr, hok⟩ := fields_fail getpwentR buflen 6 [f0, f1, f2, f3, f4, f5] [f6]
      (by decide) pw_seps (List.cons_ne_nil _ _) hf (s := passStart getpwentR s) ht rfl le_rfl
      (pw_numbered hd2 hd3) (Nat.zero_le _) (by omega)
    exact ⟨r, (stops_again (step_again hl)).mpr hr, hok⟩
  · obtain ⟨hread, hover⟩ := hover.resolve_left (by simpa using hsix)
    obtain ⟨hmeets, -, hi6, hl6⟩ := six_fields buflen (s := passStart getpwentR s) hf ht rfl rfl rfl
      (Nat.le_of_not_lt hsix) hd2 hd3
    obtain ⟨c, h6⟩ := last_scanned hf hline hread
    simp only [total_cons, total_nil] at hsix
    obtain ⟨r, hr, hok, -⟩ := field_string_fails getpwentR buflen hl6
      (by rw [hi6]; exact Nat.lt_succ_self 6) (by rw [hi6]; rfl) h6
      (.inr (by rw [hi6]; rfl)) (by omega)
    exact ⟨r, (stops_again (step_again hl)).mpr (hmeets.stops.mpr hr), hok⟩

end

/-- A call that starts at the line gives the entry, if the byte behind the line can be read. -/
theorem passwd_again_iff (hn : newline ∉ line) (hd : denotes line = some e)
    (hline : LineAt m q line) :
    (∃ N, ∀ buflen, N ≤ buflen → ∀ buf res, ∃ r', Returns getpwentR m q buflen buf res r' ∧
        r'.ok = true ∧ readPasswd buflen r'.st = e) ↔ EndRead m q line := by
  obtain ⟨f0, f1, f2, f3, f4, f5, f6, hfields, hd2, hd3, rfl⟩ := fields_of_denotes hd
  obtain ⟨hf, hj⟩ := fieldsOf_spec hn
  rw [hfields] at hf hj
  rw [← hj] at hline ⊢
  obtain ⟨t, ht⟩ := hline.drop
  have hlt : q < m.bytes.length := by
    rw [joined_cons f0 (by simp), List.append_assoc] at ht
    have := getD_of_drop ht
    omega
  have hmeets (buflen : Nat) (buf : Mem) (res : Nat → Nat) :
      Meets (step getpwentR m buflen) (entryAt q buf res)
        { entryAt q buf res with label := .again } :=
    .step (entry_again buflen buf res hlt) (.refl _)
  constructor
  · rintro ⟨N, hN⟩
    by_contra hread
    obtain ⟨r', hr', -⟩ := hN (N + total [f0, f1, f4, f5]) (by omega) (fun _ => 0) fun _ => 0
    exact passwd_faults _ (s := { entryAt q (fun _ => 0) (fun _ => 0) with label := .again }) hf
      hline hread rfl hd2 hd3 (by omega) r' ((hmeets _ _ _).stops.mp hr')
  · intro hread
    refine ⟨total [f0, f1, f4, f5, f6], fun buflen hbuf buf res => ?_⟩
    obtain ⟨r, hr, hrest⟩ := passwd_fits buflen
      (s := { entryAt q buf res with label := .again }) hf hline hread rfl hd2 hd3 hbuf
    exact ⟨r, (hmeets _ _ _).stops.mpr hr, hrest⟩

theorem passwd_retry_iff (buflen : Nat) (hl : s.label = .again) (hn : newline ∉ line)
    (hd : denotes line = some e) (hline : LineAt m s.cur line) :
    (∀ r, Stops (step getpwentR m buflen) s r → Retries getpwentR readPasswd m s.cur e r) ↔
      total (passwdStrings m s.cur line) ≤ buflen ∨
        EndRead m s.cur line ∧ buflen ≤ (nameOf line).length := by
  have hagain := passwd_again_iff hn hd hline
  obtain ⟨f0, f1, f2, f3, f4, f5, f6, hfields, hd2, hd3, rfl⟩ := fields_of_denotes hd
  obtain ⟨hf, hj⟩ := fieldsOf_spec hn
  unfold passwdStrings nameOf
  rw [hfields] at hf hj ⊢
  dsimp only [List.headD_cons]
  rw [← hj] at hline hagain ⊢
  obtain ⟨t, ht⟩ := hline.drop
  constructor
  · intro h
    by_contra hcond
    rw [not_or, not_le, not_and_or, not_le] at hcond
    obtain ⟨hover, hname⟩ := hcond
    obtain ⟨r, hr, hok⟩ := passwd_fails buflen hf hline hl hd2 hd3 (by
      split at hover
      · exact .inr ⟨‹_›, hover⟩
      · exact .inl hover)
    obtain ⟨hcur, hret⟩ := h r hr hok
    by_cases hfit : f0.length < buflen
    · have := name_moves buflen getpwentR_ok rfl rfl (by simp) hf ht hl
        (by show 0 + _ < _; omega) hr
      omega
    · rw [hcur] at hret
      exact hname.resolve_right hfit (hagain.mp hret)
  · rintro (hfit | ⟨hread, hname⟩) r hr hok
    · by_cases hread : EndRead m s.cur (joined [f0, f1, f2, f3, f4, f5, f6])
      · rw [if_pos hread] at hfit
        obtain ⟨r', hr', hok', -⟩ := passwd_fits buflen hf hline hread hl hd2 hd3 hfit
        rw [stops_unique hr hr', hok'] at hok
        cases hok
      · rw [if_neg hread] at hfit
        exact absurd hr (passwd_faults buflen hf hline hread hl hd2 hd3 hfit r)
    · obtain ⟨r', hr', -, hcur⟩ := name_fails buflen getpwentR_ok rfl rfl (by simp) hf ht hl
        (by show _ ≤ 0 + _; omega)
      rw [stops_unique hr hr', hcur]
      exact ⟨rfl, hagain.mpr hread⟩

/-! ## The group file -/

/-- The strings of a line of the group file that are copied. -/
def groupStrings (g : GroupLine) : List (List UInt8) :=
  g.name :: g.passwd :: g.items.take (groups - 2)

theorem total_groupStrings (g : GroupLine) :
    groups * 8 + total (groupStrings g) = g.head + total (g.items.take (groups - 2)) := by
  simp only [groupStrings, total_cons, GroupLine.head]
  omega

theorem group_fits (buflen : Nat) (hok : g.Ok) (hl : s.label = .again)
    (htext : m.bytes.drop s.cur = g.text ++ newline :: t)
    (hfit : groups * 8 + total (groupStrings g) ≤ buflen) :
    ∃ r, Stops (step getgrentR m buflen) s r ∧ r.ok = true := by
  rw [total_groupStrings] at hfit
  by_cases hlen : g.items.length < groups - 1
  · rw [List.take_of_length_le (by simp only [groups] at hlen ⊢; omega)] at hfit
    obtain ⟨r, hr, hrok, -⟩ := group_returns buflen hok hl htext hlen hfit
    exact ⟨r, hr, hrok⟩
  · obtain ⟨r, -, -, hr, hrok, -⟩ := group_full buflen hok hl htext (Nat.le_of_not_lt hlen) hfit
    exact ⟨r, hr, hrok⟩

/-- A string does not fit. -/
theorem group_fails (buflen : Nat) (hok : g.Ok) (hl : s.label = .again)
    (htext : m.bytes.drop s.cur = g.text ++ newline :: t) (hstart : groups * 8 ≤ buflen)
    (hover : buflen < groups * 8 + total (groupStrings g)) :
    ∃ r, Stops (step getgrentR m buflen) s r ∧ r.ok = false := by
  rw [total_groupStrings] at hover
  by_cases hhead : g.head ≤ buflen
  · obtain ⟨s1, hm1, h1, ht1⟩ := group_head buflen hok hl htext hhead
    have hfree := items_free hok
    rw [← List.take_append_drop (groups - 2) g.items] at hfree ht1
    obtain ⟨r, hr, hrok⟩ := members_fail buflen _ _ hfree ht1 h1.label h1.i
      (by
        rw [h1.mem, List.length_nil, List.length_take]
        simp only [groups]
        omega)
      (by rw [h1.n]; exact hhead) (by rw [h1.n]; exact hover)
    exact ⟨r, hm1.stops.mpr hr, hrok⟩
  · have hn : (taken getgrentR (passStart getgrentR s) [g.name, g.passwd, g.gid]).n = g.head :=
      (head_taken (s := s) hok).n
    rw [g.text_eq] at htext
    obtain ⟨r, hr, hrok⟩ := fields_fail getgrentR buflen 3 [g.name, g.passwd, g.gid]
      [commaJoined g.items] (by decide) gr_seps (List.cons_ne_nil _ _) hok.fields
      (s := passStart getgrentR s) htext rfl le_rfl (gr_numbered (number_of_isId hok.gid).1)
      hstart (by rw [hn]; exact Nat.lt_of_not_le hhead)
    exact ⟨r, (stops_again (step_again hl)).mpr hr, hrok⟩

/-- A call that starts at the line gives the entry, whatever the buffer, for 1 to `GROUPS - 2`
members. -/
theorem group_again_iff (hok : g.Ok) (htext : m.bytes.drop q = g.text ++ newline :: t) :
    (∃ N, ∀ buflen, N ≤ buflen → ∀ buf res, ∃ r', Returns getgrentR m q buflen buf res r' ∧
        r'.ok = true ∧ readGroup buflen r'.st = g.entry) ↔
      1 ≤ g.members.length ∧ g.members.length ≤ groups - 2 := by
  have hlenText := g.length_text
  constructor
  · rintro ⟨N, hN⟩
    refine ⟨?_, ?_⟩
    · by_contra hk
      have hnil := List.eq_nil_of_length_eq_zero (Nat.eq_zero_of_not_pos hk)
      obtain ⟨r, hr, hne⟩ := other_of_nil (N + (groups * 8 + g.text.length)) hok htext hnil
        (by omega) fun _ => 0
      obtain ⟨r', hr', -, hentry⟩ := hN (N + (groups * 8 + g.text.length)) (by omega)
        (fun _ => 0) fun _ => 0
      rw [stops_unique hr' ((meets_line _ _ _ htext).stops.mpr hr)] at hentry
      exact hne (congrArg Group.mem hentry)
    · by_contra hk
      obtain ⟨r, hr, hne, -⟩ := other_of_full (N + (groups * 8 + g.text.length + total g.items)) hok
        htext (by simp only [groups] at hk ⊢; omega) (by omega)
      obtain ⟨r', hr', -, hentry⟩ := hN (N + (groups * 8 + g.text.length + total g.items))
        (by omega) (fun _ => 1) fun _ => 0
      rw [stops_unique hr' ((meets_line _ _ _ htext).stops.mpr hr)] at hentry
      exact hne (congrArg Group.mem hentry)
  · rintro ⟨hpos, hle⟩
    have hitems := GroupLine.items_eq (List.ne_nil_of_length_pos hpos)
    refine ⟨groups * 8 + g.text.length, fun buflen hbuf buf res => ?_⟩
    obtain ⟨r, hr, hrok, hentry, -⟩ := group_returns buflen
      (s := { entryAt q buf res with label := .again }) hok rfl htext
      (by rw [hitems]; simp only [groups] at hle ⊢; omega) (by omega)
    refine ⟨r, (meets_line buflen buf res htext).stops.mpr hr, hrok, ?_⟩
    rw [hentry, hitems]
    rfl

theorem group_retry_iff (buflen : Nat) (hl : s.label = .again) (hok : g.Ok)
    (htext : m.bytes.drop s.cur = g.text ++ newline :: t) :
    (∀ r, Stops (step getgrentR m buflen) s r → Retries getgrentR readGroup m s.cur g.entry r) ↔
      groups * 8 + total (groupStrings g) ≤ buflen ∨
        buflen ≤ groups * 8 + g.name.length ∧ 1 ≤ g.members.length ∧
          g.members.length ≤ groups - 2 := by
  have hagain := group_again_iff hok htext
  have hline := htext
  rw [g.text_eq] at hline
  constructor
  · intro h
    by_contra hcond
    rw [not_or, not_le, not_and_or, not_le] at hcond
    obtain ⟨hover, hname⟩ := hcond
    by_cases hfit : groups * 8 + g.name.length < buflen
    · obtain ⟨r, hr, hrok⟩ := group_fails buflen hok hl htext (by omega) hover
      have := name_moves buflen getgrentR_ok rfl rfl (by simp) hok.fields hline hl hfit hr
      have := (h r hr hrok).1
      omega
    · obtain ⟨r, hr, hrok, hcur⟩ := name_fails buflen getgrentR_ok rfl rfl (by simp) hok.fields
        hline hl (Nat.le_of_not_lt hfit)
      obtain ⟨-, hret⟩ := h r hr hrok
      rw [hcur] at hret
      exact hname.resolve_left hfit (hagain.mp hret)
  · rintro (hfit | ⟨hname, hcount⟩) r hr hrok
    · obtain ⟨r', hr', hrok'⟩ := group_fits buflen hok hl htext hfit
      rw [stops_unique hr hr', hrok'] at hrok
      cases hrok
    · obtain ⟨r', hr', -, hcur⟩ := name_fails buflen getgrentR_ok rfl rfl (by simp) hok.fields
        hline hl hname
      rw [stops_unique hr hr', hcur]
      exact ⟨rfl, hagain.mpr hcount⟩

/-- **A call that fails can be made again** exactly if the buffer is too small for the name
already, and the entry can be read at all. -/
theorem retry_iff (m : Mapped) (cur buflen : Nat) (buf : Mem) (res : Nat → Nat) (s : St)
    (hl : s.label = .again) :
    (∀ line e, Meets (step getpwentR m buflen) (entryAt cur buf res) s → newline ∉ line →
      denotes line = some e → LineAt m s.cur line →
      ((∀ r, Returns getpwentR m cur buflen buf res r → Retries getpwentR readPasswd m s.cur e r) ↔
        total (passwdStrings m s.cur line) ≤ buflen ∨
          EndRead m s.cur line ∧ buflen ≤ (nameOf line).length)) ∧
    ∀ g t, Meets (step getgrentR m buflen) (entryAt cur buf res) s → g.Ok →
      m.bytes.drop s.cur = g.text ++ newline :: t →
      ((∀ r, Returns getgrentR m cur buflen buf res r →
          Retries getgrentR readGroup m s.cur g.entry r) ↔
        groups * 8 + total (groupStrings g) ≤ buflen ∨
          buflen ≤ groups * 8 + g.name.length ∧ 1 ≤ g.members.length ∧
            g.members.length ≤ groups - 2) := by
  constructor
  · intro line e hmeets hn hd hline
    rw [← passwd_retry_iff buflen hl hn hd hline]
    exact forall_congr' fun r => by rw [Returns, hmeets.stops]
  · intro g t hmeets hok htext
    rw [← group_retry_iff buflen hl hok htext]
    exact forall_congr' fun r => by rw [Returns, hmeets.stops]

/-- The passwd file `ab:c:1:2:d:e:f` with a newline. -/
def abEntry : Mapped :=
  ⟨[97, 98, 58, 99, 58, 49, 58, 50, 58, 100, 58, 101, 58, 102, 10], 4081⟩

theorem abEntry_meets (buflen : Nat) : Meets (step getpwentR abEntry buflen)
    (entryAt 0 (fun _ => 0) fun _ => 0)
    { entryAt 0 (fun _ => 0) (fun _ => 0) with label := .again } :=
  .step (entry_again buflen _ _ (by decide)) (.refl _)

/-- A buffer of 2 bytes is too small for the name, and so is one of 129 bytes for `g:x:5:a,b`. -/
theorem retry_iff_small :
    (∀ r, Returns getpwentR abEntry 0 2 (fun _ => 0) (fun _ => 0) r →
      Retries getpwentR readPasswd abEntry 0 ⟨[97, 98], [99], 1, 2, [100], [101], [102]⟩ r) ∧
    ∀ r, Returns getgrentR ⟨twoMembers.text ++ [newline], 0⟩ 0 129 (fun _ => 0) (fun _ => 0) r →
      Retries getgrentR readGroup ⟨twoMembers.text ++ [newline], 0⟩ 0 twoMembers.entry r :=
  ⟨((retry_iff abEntry 0 2 (fun _ => 0) (fun _ => 0)
    { entryAt 0 (fun _ => 0) (fun _ => 0) with label := .again } rfl).1 abEntry.bytes.dropLast _
      (abEntry_meets 2) (by decide) (by decide) (.inl ⟨[], rfl⟩)).mpr
        (.inr ⟨by decide, by decide⟩),
  ((retry_iff ⟨twoMembers.text ++ [newline], 0⟩ 0 129 (fun _ => 0) (fun _ => 0)
    { entryAt 0 (fun _ => 0) (fun _ => 0) with label := .again } rfl).2 twoMembers []
      (meets_line (t := []) 129 _ _ rfl) twoMembers_ok rfl).mpr
        (.inr ⟨by decide, by decide, by decide⟩)⟩

/-- With a buffer of 3 bytes the call fails behind the name, and the entry is lost. -/
theorem retry_loses_entry :
    ∃ r, Returns getpwentR abEntry 0 3 (fun _ => 0) (fun _ => 0) r ∧ r.ok = false ∧
      r.st.cur = 3 ∧
      ¬ Retries getpwentR readPasswd abEntry 0 ⟨[97, 98], [99], 1, 2, [100], [101], [102]⟩ r := by
  have hrun : (run (step getpwentR abEntry 3) 10 (entryAt 0 (fun _ => 0) fun _ => 0)).map
      (fun x => x.map fun r => (r.ok, r.st.cur)) = some (.ok (false, 3)) := by decide
  obtain ⟨x, hx, hxr⟩ := Option.map_eq_some_iff.mp hrun
  cases x with
  | error => cases hxr
  | ok r =>
    obtain ⟨hok, hcur⟩ := Prod.mk.inj (Except.ok.inj hxr)
    refine ⟨r, ⟨10, hx⟩, hok, hcur, fun h => ?_⟩
    have := (h hok).1
    omega

end Dietlibc.Accounts
