import Dietlibc.Accounts.Passwd

/-!
# Enumeration of the passwd file

`denotes` is what a line of the file means: an entry if it has seven fields with two numerals
among them. `enumeration_iff` says for which files the loop over `getpwent_r` gives the entries
that the lines denote: every other line must be passed over (`Silent`), and the last line must
denote an entry, as behind one that is passed over the bytes after the end of the file are read.
-/

namespace Dietlibc.Accounts

open Machine

variable {m : Mapped} {buflen cur : Nat} {s : St} {line t : List UInt8} {r : Answer}
  {lines : List (List UInt8)} {e : Passwd} {es : List Passwd}

/-! ## The claim -/

/-- The lines of a text that ends with a newline. -/
def linesOf (bytes : List UInt8) : List (List UInt8) := (bytes.splitOn newline).dropLast

/-- The entry that a line denotes. -/
def denotes (line : List UInt8) : Option Passwd :=
  match fieldsOf line with
  | [f0, f1, f2, f3, f4, f5, f6] =>
    if isId f2 && isId f3 then
      some ⟨cstring f0, cstring f1, decimal f2, decimal f3, cstring f4, cstring f5, cstring f6⟩
    else none
  | _ => none

/-- A line that is passed over: a field is missing, or one that should be a number has another
byte than a digit. -/
def Silent (line : List UInt8) : Prop :=
  (fieldsOf line).length < 7 ∨
    ∃ f, ((fieldsOf line)[2]? = some f ∨ (fieldsOf line)[3]? = some f) ∧ f.all isDigit = false

/-- The results of the loop over `getpwent_r` from a parse position on, up to its failure. -/
inductive Enumerates (m : Mapped) (buflen : Nat) : Nat → List Passwd → Prop where
  | failure {cur : Nat} {buf : Mem} {res : Nat → Nat} {r : Answer}
      (h : Returns getpwentR m cur buflen buf res r) (hr : r.ok = false) :
      Enumerates m buflen cur []
  | entry {cur : Nat} {buf : Mem} {res : Nat → Nat} {r : Answer} {es : List Passwd}
      (h : Returns getpwentR m cur buflen buf res r) (hr : r.ok = true)
      (hes : Enumerates m buflen r.st.cur es) :
      Enumerates m buflen cur (readPasswd buflen r.st :: es)

/-- The loop comes to its end, and gives the entries that the lines denote. -/
def Faithful (m : Mapped) (buflen : Nat) : Prop :=
  (∃ es, Enumerates m buflen 0 es) ∧
    ∀ es, Enumerates m buflen 0 es → es = (linesOf m.bytes).filterMap denotes

/-- The text of several lines. -/
def text (lines : List (List UInt8)) : List UInt8 := lines.flatMap (· ++ [newline])

/-- The entry of the first line that gives one, and the lines behind it; of a line with more than
seven fields the rest is the next line. -/
def firstEntry : List (List UInt8) → Option (Passwd × List (List UInt8))
  | [] => none
  | line :: lines =>
    match entryOf (fieldsOf line) with
    | some e => some (e,
        if (fieldsOf line).length = 7 then lines else joined ((fieldsOf line).drop 7) :: lines)
    | none => firstEntry lines

/-- The last line of the file denotes an entry, and every other line does so or is passed over. -/
def Clean (lines : List (List UInt8)) : Prop :=
  (∀ line ∈ lines, (denotes line).isSome ∨ Silent line) ∧
    ∀ line ∈ lines.getLast?, (denotes line).isSome

/-! ## Lines -/

theorem text_cons (line : List UInt8) (lines : List (List UInt8)) :
    text (line :: lines) = line ++ newline :: text lines := by
  simp [text]

/-- A text that ends with a newline is the text of its lines. -/
theorem text_linesOf {bytes : List UInt8} (h : bytes.getLast? = some newline) :
    text (linesOf bytes) = bytes ∧ (∀ line ∈ linesOf bytes, newline ∉ line) ∧
      linesOf bytes ≠ [] := by
  obtain ⟨body, rfl⟩ := List.getLast?_eq_some_iff.mp h
  have hsplit : linesOf (body ++ [newline]) = body.splitOn newline := by
    rw [linesOf, List.splitOn_append_cons_self, List.splitOn_nil, List.dropLast_concat]
  rw [hsplit]
  refine ⟨?_, fun _ => not_mem_splitOn, List.splitOn_ne_nil _ _⟩
  have hjoin : ∀ ls : List (List UInt8), ls ≠ [] →
      text ls = [newline].intercalate ls ++ [newline] := by
    intro ls hls
    induction ls with
    | nil => exact absurd rfl hls
    | cons l ls ih =>
      rcases ls with - | ⟨l', ls⟩
      · simp [text]
      · rw [text_cons, ih (List.cons_ne_nil _ _), List.intercalate_cons_cons]
        simp
  rw [hjoin _ (List.splitOn_ne_nil _ _), List.intercalate_splitOn]

/-- The fields of a line that denotes an entry. -/
theorem fields_of_denotes (h : denotes line = some e) :
    ∃ f0 f1 f2 f3 f4 f5 f6, fieldsOf line = [f0, f1, f2, f3, f4, f5, f6] ∧
      f2.all isDigit = true ∧ f3.all isDigit = true ∧
      e = ⟨cstring f0, cstring f1, number f2 % 2 ^ 32, number f3 % 2 ^ 32, cstring f4, cstring f5,
        cstring f6⟩ := by
  unfold denotes at h
  split at h
  · rename_i f0 f1 f2 f3 f4 f5 f6 hfields
    split at h
    · rename_i hid
      rw [Bool.and_eq_true] at hid
      obtain ⟨hd2, hn2⟩ := number_of_isId hid.1
      obtain ⟨hd3, hn3⟩ := number_of_isId hid.2
      cases h
      exact ⟨f0, f1, f2, f3, f4, f5, f6, hfields, hd2, hd3, by rw [hn2, hn3]⟩
    · cases h
  · cases h

/-- A line that denotes an entry gives it, and nothing of it is left. -/
theorem entryOf_of_denotes (h : denotes line = some e) :
    entryOf (fieldsOf line) = some e ∧ (fieldsOf line).length = 7 := by
  obtain ⟨f0, f1, f2, f3, f4, f5, f6, hfields, hd2, hd3, rfl⟩ := fields_of_denotes h
  rw [hfields]
  refine ⟨?_, rfl⟩
  simp only [entryOf, hd2, hd3, Bool.and_self, if_true]

theorem denotes_of_entryOf_none (h : entryOf (fieldsOf line) = none) : denotes line = none := by
  cases hd : denotes line with
  | none => rfl
  | some e =>
    rw [(entryOf_of_denotes hd).1] at h
    cases h

/-- The lines that are passed over are those that give no entry. -/
theorem silent_iff : Silent line ↔ entryOf (fieldsOf line) = none := by
  constructor
  · intro h
    unfold entryOf
    split
    · rename_i f0 f1 f2 f3 f4 f5 f6 more hfields
      rw [Silent, hfields] at h
      rw [if_neg]
      rw [Bool.and_eq_true]
      rintro ⟨hd2, hd3⟩
      rcases h with h | ⟨f, hf | hf, hd⟩
      · simp only [List.length_cons] at h
        omega
      · cases hf
        rw [hd2] at hd
        cases hd
      · cases hf
        rw [hd3] at hd
        cases hd
    · rfl
  · intro h
    rcases entryOf_none h with hlt | ⟨k, f, hk, hf, hd⟩
    · exact .inl hlt
    · refine .inr ⟨f, ?_, hd⟩
      rcases hk with hk | hk
      · exact .inl (by rw [← hf, ← hk, Nat.zero_add])
      · exact .inr (by rw [← hf, ← hk, Nat.zero_add])

/-! ## A pass over a line -/

theorem length_text_cons (line : List UInt8) (lines : List (List UInt8)) :
    (text (line :: lines)).length = line.length + 1 + (text lines).length := by
  rw [text_cons, List.length_append, List.length_cons]
  omega

theorem length_le_of_drop (h : m.bytes.drop cur = t) (ht : t ≠ []) :
    cur + t.length = m.bytes.length := by
  have hlen : (m.bytes.drop cur).length = t.length := by rw [h]
  have hpos := List.length_pos_iff.mpr ht
  rw [List.length_drop] at hlen
  omega

/-- A line that gives no entry is left behind. -/
theorem line_skips (hlen : m.bytes.length + 7 ≤ buflen) (hl : s.label = .again)
    (htext : m.bytes.drop s.cur = text (line :: lines)) (hn : newline ∉ line)
    (hnone : entryOf (fieldsOf line) = none) :
    ∃ s', Meets (step getpwentR m buflen) s s' ∧ s'.label = .again ∧
      m.bytes.drop s'.cur = text lines ∧ s'.cur ≤ m.bytes.length := by
  obtain ⟨hf, hj⟩ := fieldsOf_spec hn
  have hcur := length_le_of_drop htext (by rw [text_cons]; simp)
  rw [length_text_cons] at hcur
  rw [text_cons] at htext
  obtain ⟨s', hm, hl', hc'⟩ := lacks_skips buflen
    (s := passStart getpwentR s) hf rfl
    (by show 0 < 7; omega) (by rw [hj]; exact htext) (by rw [hj]; show 0 + line.length < buflen; omega)
    (entryOf_none hnone)
  rw [hj] at hc'
  have hdrop := drop_append (f := line ++ [newline]) (t := text lines) (by simpa using htext)
  rw [List.length_append, List.length_singleton] at hdrop
  refine ⟨s', .step (step_again hl) hm, hl', ?_, ?_⟩
  · rw [hc']
    exact hdrop
  · rw [hc']
    show s.cur + line.length + 1 ≤ _
    omega

/-- A line that gives an entry ends the call. -/
theorem line_returns (hlen : m.bytes.length + 7 ≤ buflen) (hl : s.label = .again)
    (htext : m.bytes.drop s.cur = text (line :: lines)) (hn : newline ∉ line)
    (hsome : entryOf (fieldsOf line) = some e) :
    ∃ r, Stops (step getpwentR m buflen) s r ∧ r.ok = true ∧ readPasswd buflen r.st = e ∧
      m.bytes.drop r.st.cur = text (if (fieldsOf line).length = 7 then lines
        else joined ((fieldsOf line).drop 7) :: lines) := by
  obtain ⟨hf, hj⟩ := fieldsOf_spec hn
  have hcur := length_le_of_drop htext (by rw [text_cons]; simp)
  rw [length_text_cons] at hcur
  rw [text_cons, ← hj] at htext
  rw [← hj] at hcur
  unfold entryOf at hsome
  split at hsome
  · rename_i f0 f1 f2 f3 f4 f5 f6 more hfields
    rw [hfields] at hf htext hcur ⊢
    split at hsome
    · rename_i hd
      rw [Bool.and_eq_true] at hd
      cases hsome
      have hfits : (f0.length + 1) + (f1.length + 1) + (f4.length + 1) + (f5.length + 1) +
          f6.length ≤ (joined (f0 :: f1 :: f2 :: f3 :: f4 :: f5 :: f6 :: more)).length := by
        by_cases hmore : more = []
        · subst hmore
          simp only [joined, List.intercalate_cons_cons, List.intercalate_singleton,
            List.length_append, List.length_singleton]
          omega
        · rw [joined_cons _ (by simp), joined_cons _ (by simp), joined_cons _ (by simp),
            joined_cons _ (by simp), joined_cons _ (by simp), joined_cons _ (by simp),
            joined_cons _ hmore]
          simp only [List.length_append, List.length_cons]
          omega
      obtain ⟨r, hr, hok, he, -, htail⟩ := line_entry buflen
        (s := passStart getpwentR s) hf htext rfl rfl
        rfl (by simp only [total_cons, total_nil]; omega) hd.1 hd.2
      refine ⟨r, (stops_again (step_again hl)).mpr hr, hok, he, ?_⟩
      rw [htail]
      by_cases hmore : more = []
      · subst hmore
        rfl
      · have hlen7 : (f0 :: f1 :: f2 :: f3 :: f4 :: f5 :: f6 :: more).length ≠ 7 := by
          have := List.length_pos_iff.mpr hmore
          simp only [List.length_cons]
          omega
        rw [if_neg hmore, if_neg hlen7, text_cons]
        rfl
    · cases hsome
  · cases hsome

/-! ## The bytes behind the file -/

/-- A pass behind the end of the file: every field is empty. -/
structure Tail (m : Mapped) (s : St) : Prop where
  label : s.label = .field ∨ s.label = .parseerror ∨ s.label = .switch
  cur : m.bytes.length ≤ s.cur
  j : s.label ≠ .field → s.j = 0 ∧ s.i < 7 ∧ s.found = 0
  n : s.n ≤ s.i
  i : s.i ≤ 7

theorem tail_step {s' : St} (h : Tail m s) (hlen : m.bytes.length + 7 ≤ buflen)
    (hstep : step getpwentR m buflen s = .again s') : Tail m s' := by
  obtain ⟨hlabel, hcur, hj, hn, hi⟩ := h
  have hdrop (c : UInt8) : parse1 m s.cur c = 0 := by
    unfold parse1
    rw [List.drop_eq_nil_of_le hcur]
    rfl
  have hzero (k : Nat) (hk : m.bytes.length ≤ k) (c : UInt8) (hc : m.at? k = some c) : c = 0 := by
    unfold Mapped.at? at hc
    split at hc
    · rw [List.getD_eq_getElem?_getD, List.getElem?_eq_none hk] at hc
      cases hc
      rfl
    · cases hc
  unfold step at hstep
  rcases hlabel with hl | hl | hl
  · rw [hl] at hstep
    dsimp only at hstep
    split at hstep
    · rename_i hcount
      split at hstep
      · cases hstep
      · rename_i found hfound
        have hf0 := hzero _ (by omega) _ hfound
        cases hstep
        refine ⟨?_, hcur, fun _ => ⟨hdrop _, hcount, hf0⟩, hn, hi⟩
        dsimp only
        split
        · exact .inr (.inl rfl)
        · exact .inr (.inr rfl)
    · cases hstep
  · obtain ⟨hj0, hi7, hf0⟩ := hj (by rw [hl]; exact nofun)
    rw [hl] at hstep
    dsimp only at hstep
    rw [lineEnd_eq_none (by omega)] at hstep
    cases hstep
    refine ⟨.inr (.inr rfl), hcur, fun _ => ⟨?_, hi7, hf0⟩, hn, hi⟩
    dsimp only
    omega
  · obtain ⟨hj0, hi7, hf0⟩ := hj (by rw [hl]; exact nofun)
    rw [hl] at hstep
    dsimp only at hstep
    unfold switchField at hstep
    split at hstep
    · unfold copyField at hstep
      dsimp only at hstep
      rw [if_neg (by omega), if_neg (by rw [hf0]; rintro ⟨hh, -⟩; cases hh)] at hstep
      cases hstep
      refine ⟨.inl rfl, ?_, fun hh => absurd rfl hh, ?_, ?_⟩ <;> dsimp only [St.advance] <;> omega
    · split at hstep
      · cases hstep
      · rename_i len l hscan
        split at hstep
        · rename_i hne
          unfold scanUlong at hscan
          rw [List.drop_eq_nil_of_le hcur] at hscan
          dsimp only [List.takeWhile_nil, List.length_nil] at hscan
          split at hscan
          · cases hscan
            exact absurd hj0.symm hne
          · cases hscan
        · cases hstep
          refine ⟨.inl rfl, ?_, fun hh => absurd rfl hh, ?_, ?_⟩ <;> dsimp only [St.advance] <;>
            omega
    · rename_i hk
      exact absurd hk (by
        unfold getpwentR
        dsimp only
        split <;> exact nofun)

/-- A call that has passed over every line does not fail. -/
theorem tail_succeeds (hlen : m.bytes.length + 7 ≤ buflen) (hl : s.label = .again)
    (hcur : m.bytes.length ≤ s.cur) (hr : Stops (step getpwentR m buflen) s r) : r.ok = true := by
  have hstart : Tail m (passStart getpwentR s) :=
    ⟨.inl rfl, hcur, fun hh => absurd rfl hh, Nat.zero_le _, Nat.zero_le _⟩
  obtain ⟨s', htail, hstop⟩ := ((stops_again (step_again hl)).mp hr).last
    (fun _ _ h => tail_step h hlen) hstart
  obtain ⟨hlabel, -, hj, hn, -⟩ := htail
  unfold step at hstop
  rcases hlabel with hl' | hl' | hl'
  · rw [hl'] at hstop
    dsimp only at hstop
    split at hstop
    · split at hstop <;> cases hstop
    · cases hstop
      rfl
  · rw [hl'] at hstop
    dsimp only at hstop
    split at hstop <;> cases hstop
  · obtain ⟨hj0, hi7, -⟩ := hj (by rw [hl']; exact nofun)
    rw [hl'] at hstop
    dsimp only at hstop
    unfold switchField at hstop
    split at hstop
    · unfold copyField at hstop
      dsimp only at hstop
      rw [if_neg (by omega)] at hstop
      cases hstop
    · split at hstop
      · cases hstop
      · split at hstop <;> cases hstop
    · dsimp only at hstop
      split at hstop
      · cases hstop
      · unfold copyField at hstop
        dsimp only at hstop
        rw [if_neg (by omega)] at hstop
        cases hstop

/-! ## Calls -/

/-- A call goes on behind the start of the file's rest. -/
theorem entry_again (buflen : Nat) (buf : Mem) (res : Nat → Nat) (hlt : cur < m.bytes.length) :
    step getpwentR m buflen (entryAt cur buf res) =
      .again { entryAt cur buf res with label := .again } :=
  if_neg (Nat.not_le_of_lt hlt)

/-- **What a call does** at the start of a line, with the text of the file behind it known. -/
theorem call_lines (hlen : m.bytes.length + 7 ≤ buflen) (hl : s.label = .again)
    (hcur : s.cur ≤ m.bytes.length) (htext : m.bytes.drop s.cur = text lines)
    (hn : ∀ line ∈ lines, newline ∉ line) :
    match firstEntry lines with
    | some (e, lines') => ∃ r, Stops (step getpwentR m buflen) s r ∧ r.ok = true ∧
        readPasswd buflen r.st = e ∧ m.bytes.drop r.st.cur = text lines'
    | none => ∀ r, Stops (step getpwentR m buflen) s r → r.ok = true := by
  induction lines generalizing s with
  | nil =>
    intro r hr
    refine tail_succeeds hlen hl ?_ hr
    rw [text, List.flatMap_nil, List.drop_eq_nil_iff] at htext
    exact htext
  | cons line lines ih =>
    have hline := hn line List.mem_cons_self
    rw [firstEntry]
    cases hentry : entryOf (fieldsOf line) with
    | some e => exact line_returns hlen hl htext hline hentry
    | none =>
      obtain ⟨s', hm, hl', ht', hc'⟩ := line_skips hlen hl htext hline hentry
      have ih := ih hl' hc' ht' fun l hl => hn l (List.mem_cons_of_mem line hl)
      dsimp only
      split
      · rename_i e lines' hfirst
        rw [hfirst] at ih
        obtain ⟨r, hr, hrest⟩ := ih
        exact ⟨r, hm.stops.mpr hr, hrest⟩
      · rename_i hfirst
        rw [hfirst] at ih
        exact fun r hr => ih r (hm.stops.mp hr)

/-- At the end of the file a call fails. -/
theorem call_nil (buf : Mem) (res : Nat → Nat) (htext : m.bytes.drop cur = []) :
    Returns getpwentR m cur buflen buf res ⟨false, entryAt cur buf res⟩ :=
  have hstop : step getpwentR m buflen (entryAt cur buf res) =
      .stop ⟨false, entryAt cur buf res⟩ := if_pos (List.drop_eq_nil_iff.mp htext)
  (stops_stop hstop).mpr rfl

/-- `call_lines` for the whole call. -/
theorem returns_lines (buf : Mem) (res : Nat → Nat) (hlen : m.bytes.length + 7 ≤ buflen)
    (hne : lines ≠ []) (htext : m.bytes.drop cur = text lines)
    (hn : ∀ line ∈ lines, newline ∉ line) :
    match firstEntry lines with
    | some (e, lines') => ∃ r, Returns getpwentR m cur buflen buf res r ∧ r.ok = true ∧
        readPasswd buflen r.st = e ∧ m.bytes.drop r.st.cur = text lines'
    | none => ∀ r, Returns getpwentR m cur buflen buf res r → r.ok = true := by
  obtain ⟨line, lines', rfl⟩ := List.exists_cons_of_ne_nil hne
  have hcur := length_le_of_drop htext (by rw [text_cons]; simp)
  rw [length_text_cons] at hcur
  have hstep := entry_again buflen buf res
    (show cur < m.bytes.length by omega)
  have hcall := call_lines (s := { entryAt cur buf res with label := .again }) hlen rfl
    (by show cur ≤ _; omega) htext hn
  split
  · rename_i e lines'' hfirst
    rw [hfirst] at hcall
    obtain ⟨r, hr, hrest⟩ := hcall
    exact ⟨r, (stops_again hstep).mpr hr, hrest⟩
  · rename_i hfirst
    rw [hfirst] at hcall
    exact fun r hr => hcall r ((stops_again hstep).mp hr)

/-! ## What the first entry is -/

theorem clean_cons_denotes (h : denotes line = some e) : Clean (line :: lines) ↔ Clean lines := by
  have hsome : (denotes line).isSome := by rw [h]; rfl
  have hlast : (∀ l ∈ (line :: lines).getLast?, (denotes l).isSome) ↔
      ∀ l ∈ lines.getLast?, (denotes l).isSome := by
    rcases lines with - | ⟨l', lines⟩
    · simp [hsome]
    · rw [List.getLast?_cons_cons]
  unfold Clean
  rw [List.forall_mem_cons, hlast, and_iff_right (Or.inl hsome : _ ∨ Silent line)]

theorem clean_cons_silent (h : entryOf (fieldsOf line) = none) (hne : lines ≠ []) :
    Clean (line :: lines) ↔ Clean lines := by
  obtain ⟨l', lines', rfl⟩ := List.exists_cons_of_ne_nil hne
  unfold Clean
  rw [List.forall_mem_cons, List.getLast?_cons_cons,
    and_iff_right (Or.inr (silent_iff.mpr h) : (denotes line).isSome = true ∨ _)]

/-- The lines behind the first entry have no newlines in them. -/
theorem firstEntry_free {lines' : List (List UInt8)} (hn : ∀ line ∈ lines, newline ∉ line)
    (h : firstEntry lines = some (e, lines')) : ∀ line ∈ lines', newline ∉ line := by
  induction lines with
  | nil => cases h
  | cons line lines ih =>
    rw [List.forall_mem_cons] at hn
    rw [firstEntry] at h
    split at h
    · cases h
      split
      · exact hn.2
      · rw [List.forall_mem_cons]
        refine ⟨?_, hn.2⟩
        obtain ⟨hf, -⟩ := fieldsOf_spec hn.1
        by_cases hnil : (fieldsOf line).drop 7 = []
        · rw [hnil]
          exact List.not_mem_nil
        · exact (Fields.mk hnil fun g hg => hf.free g (List.mem_of_mem_drop hg)).newline_not_mem
    · exact ih hn.2 h

/-- The first entry is the first one that is denoted, or the lines are not clean. -/
theorem firstEntry_some {lines' : List (List UInt8)} (h : firstEntry lines = some (e, lines')) :
    lines.filterMap denotes = e :: lines'.filterMap denotes ∧ (Clean lines' ↔ Clean lines) ∧
        lines'.length < lines.length ∨
      (lines.filterMap denotes).length ≤ (lines'.filterMap denotes).length ∧ ¬ Clean lines := by
  induction lines with
  | nil => cases h
  | cons line lines ih =>
    rw [firstEntry] at h
    split at h
    · rename_i e' hentry
      cases h
      cases hd : denotes line with
      | some e' =>
        obtain ⟨hentry', hseven⟩ := entryOf_of_denotes hd
        rw [hentry] at hentry'
        cases hentry'
        rw [if_pos hseven, List.filterMap_cons_some hd]
        exact .inl ⟨rfl, (clean_cons_denotes hd).symm, Nat.lt_succ_self _⟩
      | none =>
        right
        refine ⟨?_, fun hclean => ?_⟩
        · rw [List.filterMap_cons_none hd]
          split
          · exact le_rfl
          · rw [List.filterMap_cons]
            split
            · exact le_rfl
            · exact Nat.le_succ _
        · rcases hclean.1 line List.mem_cons_self with hs | hs
          · rw [hd] at hs
            cases hs
          · rw [silent_iff.mp hs] at hentry
            cases hentry
    · rename_i hnone
      have hne : lines ≠ [] := by
        rintro rfl
        cases h
      rw [List.filterMap_cons_none (denotes_of_entryOf_none hnone), clean_cons_silent hnone hne]
      rcases ih h with ⟨he, hc, hlt⟩ | hmore
      · exact .inl ⟨he, hc, Nat.lt_succ_of_lt hlt⟩
      · exact .inr hmore

theorem firstEntry_none (h : firstEntry lines = none) (hne : lines ≠ []) :
    lines.filterMap denotes = [] ∧ ¬ Clean lines := by
  induction lines with
  | nil => exact absurd rfl hne
  | cons line lines ih =>
    rw [firstEntry] at h
    split at h
    · cases h
    · rename_i hnone
      have hd := denotes_of_entryOf_none hnone
      rw [List.filterMap_cons_none hd]
      by_cases hnil : lines = []
      · subst hnil
        refine ⟨rfl, fun hclean => ?_⟩
        have := hclean.2 line rfl
        rw [hd] at this
        cases this
      · rw [clean_cons_silent hnone hnil]
        exact ih h hnil

/-! ## Runs -/

/-- Of clean lines the loop gives the entries that they denote. -/
theorem enumerates_eq (hlen : m.bytes.length + 7 ≤ buflen) (h : Enumerates m buflen cur es)
    (htext : m.bytes.drop cur = text lines) (hn : ∀ line ∈ lines, newline ∉ line)
    (hclean : Clean lines) : es = lines.filterMap denotes := by
  induction h generalizing lines with
  | failure h hr =>
    rename_i cur buf res r
    by_cases hne : lines = []
    · rw [hne]
      rfl
    · have hcall := returns_lines buf res hlen hne htext hn
      split at hcall
      · obtain ⟨r', hr', hok, -⟩ := hcall
        rw [stops_unique h hr', hok] at hr
        cases hr
      · rw [hcall _ h] at hr
        cases hr
  | entry h hr hes ih =>
    rename_i cur buf res r es
    by_cases hne : lines = []
    · subst hne
      rw [stops_unique h (call_nil buf res htext)] at hr
      cases hr
    · have hcall := returns_lines buf res hlen hne htext hn
      split at hcall
      · rename_i e lines' hfirst
        obtain ⟨r', hr', -, hread, htext'⟩ := hcall
        cases stops_unique h hr'
        rcases firstEntry_some hfirst with ⟨heq, hc, -⟩ | ⟨-, hc⟩
        · rw [heq, hread, ih htext' (firstEntry_free hn hfirst) (hc.mpr hclean)]
        · exact absurd hclean hc
      · rename_i hfirst
        exact absurd hclean (firstEntry_none hfirst hne).2

/-- The loop comes to its end on clean lines. -/
theorem enumerates_exists (hlen : m.bytes.length + 7 ≤ buflen)
    (htext : m.bytes.drop cur = text lines) (hn : ∀ line ∈ lines, newline ∉ line)
    (hclean : Clean lines) : ∃ es, Enumerates m buflen cur es := by
  induction hk : lines.length using Nat.strong_induction_on generalizing cur lines with
  | _ k ih =>
    by_cases hne : lines = []
    · subst hne
      exact ⟨[], .failure (call_nil (fun _ => 0) (fun _ => 0) htext) rfl⟩
    · have hcall := returns_lines (fun _ => 0) (fun _ => 0) hlen hne htext hn
      split at hcall
      · rename_i e lines' hfirst
        obtain ⟨r, hr, hok, -, htext'⟩ := hcall
        rcases firstEntry_some hfirst with ⟨-, hc, hlt⟩ | ⟨-, hc⟩
        · obtain ⟨es, hes⟩ := ih lines'.length (by omega) htext' (firstEntry_free hn hfirst)
            (hc.mpr hclean) rfl
          exact ⟨_, .entry hr hok hes⟩
        · exact absurd hclean hc
      · rename_i hfirst
        exact absurd hclean (firstEntry_none hfirst hne).2

/-- The loop gives as many entries as are denoted, and more of lines that are not clean. -/
theorem enumerates_more (hlen : m.bytes.length + 7 ≤ buflen) (h : Enumerates m buflen cur es)
    (htext : m.bytes.drop cur = text lines) (hn : ∀ line ∈ lines, newline ∉ line) :
    (lines.filterMap denotes).length ≤ es.length ∧
      (¬ Clean lines → (lines.filterMap denotes).length < es.length) := by
  induction h generalizing lines with
  | failure h hr =>
    rename_i cur buf res r
    by_cases hne : lines = []
    · subst hne
      exact ⟨le_rfl, fun hc => absurd ⟨by simp, by simp⟩ hc⟩
    · have hcall := returns_lines buf res hlen hne htext hn
      split at hcall
      · obtain ⟨r', hr', hok, -⟩ := hcall
        rw [stops_unique h hr', hok] at hr
        cases hr
      · rw [hcall _ h] at hr
        cases hr
  | entry h hr hes ih =>
    rename_i cur buf res r es
    rw [List.length_cons]
    by_cases hne : lines = []
    · subst hne
      exact ⟨Nat.zero_le _, fun _ => Nat.succ_pos _⟩
    · have hcall := returns_lines buf res hlen hne htext hn
      split at hcall
      · rename_i e lines' hfirst
        obtain ⟨r', hr', -, -, htext'⟩ := hcall
        cases stops_unique h hr'
        obtain ⟨hle, hlt⟩ := ih htext' (firstEntry_free hn hfirst)
        rcases firstEntry_some hfirst with ⟨heq, hc, -⟩ | ⟨hle', -⟩
        · rw [heq, List.length_cons]
          refine ⟨by omega, fun hnc => ?_⟩
          have := hlt fun hclean => hnc (hc.mp hclean)
          omega
        · exact ⟨by omega, fun _ => by omega⟩
      · rename_i hfirst
        rw [(firstEntry_none hfirst hne).1]
        exact ⟨Nat.zero_le _, fun _ => Nat.succ_pos _⟩

/-- **The enumeration is faithful** exactly on files whose lines are clean. -/
theorem enumeration_iff (m : Mapped) (buflen : Nat) (hend : m.bytes.getLast? = some newline)
    (hlen : m.bytes.length + 7 ≤ buflen) : Faithful m buflen ↔ Clean (linesOf m.bytes) := by
  obtain ⟨htext, hn, -⟩ := text_linesOf hend
  have hdrop : m.bytes.drop 0 = text (linesOf m.bytes) := htext.symm
  constructor
  · rintro ⟨⟨es, hes⟩, hall⟩
    by_contra hclean
    have hlt := (enumerates_more hlen hes hdrop hn).2 hclean
    rw [hall es hes] at hlt
    exact lt_irrefl _ hlt
  · intro hclean
    exact ⟨enumerates_exists hlen hdrop hn hclean,
      fun es hes => enumerates_eq hlen hes hdrop hn hclean⟩

/-- `a:b:1:2:g:d:s` and a newline. -/
def oneEntry : Mapped := ⟨[97, 58, 98, 58, 49, 58, 50, 58, 103, 58, 100, 58, 115, 10], 4082⟩

theorem enumeration_iff_oneEntry : Faithful oneEntry 100 := by
  have hline : linesOf oneEntry.bytes = [oneEntry.bytes.dropLast] := by decide
  have hdenotes : denotes oneEntry.bytes.dropLast =
      some ⟨[97], [98], 1, 2, [103], [100], [115]⟩ := by decide
  refine (enumeration_iff oneEntry 100 rfl (by decide)).mpr ?_
  rw [hline, clean_cons_denotes hdenotes]
  exact ⟨by simp, by simp⟩

/-- `r:x:::g:d:s` and a newline: no number is there. -/
def noNumbers : Mapped := ⟨[114, 58, 120, 58, 58, 58, 103, 58, 100, 58, 115, 10], 4084⟩

/-- Of a line without numbers the loop makes an entry with uid 0. -/
theorem enumeration_uid_zero :
    Enumerates noNumbers 100 0 [⟨[114], [120], 0, 0, [103], [100], [115]⟩] ∧
      (linesOf noNumbers.bytes).filterMap denotes = [] ∧ ¬ Faithful noNumbers 100 := by
  have hfirst : firstEntry [noNumbers.bytes.dropLast] =
      some (⟨[114], [120], 0, 0, [103], [100], [115]⟩, []) := by decide
  have htext : noNumbers.bytes.drop 0 = text [noNumbers.bytes.dropLast] := by decide
  have hlen : noNumbers.bytes.length + 7 ≤ 100 := by decide
  have hcall := returns_lines (fun _ => 0) (fun _ => 0) hlen (List.cons_ne_nil _ _) htext
    (by decide)
  rw [hfirst] at hcall
  obtain ⟨r, hr, hok, hread, htext⟩ := hcall
  have hes : Enumerates noNumbers 100 0 [⟨[114], [120], 0, 0, [103], [100], [115]⟩] := by
    rw [← hread]
    exact .entry hr hok (.failure (call_nil (fun _ => 0) (fun _ => 0) htext) rfl)
  have hnone : (linesOf noNumbers.bytes).filterMap denotes = [] := by decide
  refine ⟨hes, hnone, fun h => ?_⟩
  have := h.2 _ hes
  rw [hnone] at this
  cases this

end Dietlibc.Accounts
