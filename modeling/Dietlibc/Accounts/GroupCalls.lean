import Dietlibc.Accounts.Group

/-!
# Calls that read a group

A call of `getgrent_r` from the start of a well-formed line: `group_returns` with a place for all
the members, `group_full` without one.
-/

namespace Dietlibc.Accounts

open Machine

variable {m : Mapped} {buflen q : Nat} {s s' : St} {t : List UInt8} {g : GroupLine}
  {ms : List (List UInt8)} {r : Answer}

/-! ## The first three fields -/

/-- The bytes of `buf` that the pointers, the name and the password take. -/
def GroupLine.head (g : GroupLine) : Nat :=
  groups * 8 + (g.name.length + 1) + (g.passwd.length + 1)

/-- The name, the password and the number have been read. -/
structure Head (g : GroupLine) (s s' : St) : Prop where
  label : s'.label = .field
  i : s'.i = 3
  n : s'.n = g.head
  mem : s'.mem = []
  cur : s'.cur = s.cur + (g.name.length + 1) + (g.passwd.length + 1) + (g.gid.length + 1)
  name : s'.res 0 = groups * 8 ∧ Holds s'.buf (groups * 8) g.name
  passwd : s'.res 1 = groups * 8 + (g.name.length + 1) ∧
    Holds s'.buf (groups * 8 + (g.name.length + 1)) g.passwd
  gid : s'.res 2 = decimal g.gid
  buf : ∀ a, g.head ≤ a → s'.buf a = s.buf a

theorem gr_seps : ∀ i < 3, getgrentR.sep i = colon ∧ getgrentR.kind i ≠ .member := by
  intro i hi
  refine ⟨if_pos hi, ?_⟩
  unfold getgrentR
  dsimp only
  split
  · exact nofun
  · rw [if_neg (by omega)]
    exact nofun

theorem gr_numbered {f0 f1 f2 : List UInt8} (h : f2.all isDigit = true) :
    Numbered getgrentR 0 [f0, f1, f2] := by
  intro k f hf hk
  have hk' : k = 2 := by
    by_contra hne
    unfold getgrentR at hk
    dsimp only at hk
    rw [Nat.zero_add, if_neg hne] at hk
    split at hk <;> cases hk
  subst hk'
  cases hf
  exact h

/-- The text of the line, with the members as the code takes them. -/
theorem GroupLine.text_eq (g : GroupLine) :
    g.text = joined [g.name, g.passwd, g.gid, commaJoined g.items] := by
  rw [text, g.commaJoined_items]

theorem GroupLine.length_text (g : GroupLine) : groups * 8 + g.text.length + 1 =
    g.head + (g.gid.length + 1) + total g.items := by
  rw [g.text_eq, ← length_commaJoined g.items_ne_nil, head]
  simp only [joined, List.intercalate_cons_cons, List.intercalate_singleton, List.length_append,
    List.length_singleton]
  omega

/-- The state behind the first three fields. -/
theorem head_taken (hok : g.Ok) :
    Head g s (taken getgrentR (passStart getgrentR s) [g.name, g.passwd, g.gid]) := by
  set p1 := groups * 8 + g.name.length + 1 with hp1
  set p2 := p1 + g.passwd.length + 1 with hp2
  set b0 := s.buf.store (groups * 8) (g.name ++ [0]) with hb0
  set b1 := b0.store p1 (g.passwd ++ [0]) with hb1
  have hst : taken getgrentR (passStart getgrentR s) [g.name, g.passwd, g.gid] =
      { taken getgrentR (passStart getgrentR s) [g.name, g.passwd, g.gid] with
        label := .field
        n := p2
        i := 3
        mem := []
        cur := s.cur + g.name.length + 1 + g.passwd.length + 1 + g.gid.length + 1
        buf := b1
        res := Function.update (Function.update (Function.update s.res 0 (groups * 8)) 1 p1) 2
          (number g.gid % 2 ^ 32) } := by
    simp [taken, fieldTaken, getgrentR, stringTaken, numberTaken, passStart, hb1, hb0, hp2, hp1]
  have hhead : p2 = g.head := by
    unfold GroupLine.head
    omega
  have hp : p1 = groups * 8 + (g.name.length + 1) := by omega
  rw [hst]
  refine ⟨rfl, rfl, hhead, rfl, ?_, ⟨?_, ?_⟩, ⟨?_, ?_⟩, ?_, fun a ha => ?_⟩
  · dsimp only
    omega
  · simp
  · exact (holds_store s.buf (groups * 8) g.name).store (by omega) _
  · rw [← hp]
    simp
  · rw [← hp]
    exact holds_store b0 p1 g.passwd
  · simpa using (number_of_isId hok.gid).2
  · dsimp only
    rw [hb1, Mem.store_out (by rw [List.length_append, List.length_singleton]; omega), hb0,
      Mem.store_out (by rw [List.length_append, List.length_singleton]; omega)]

/-- **The first three fields** of a well-formed line are read, if the strings fit. -/
theorem group_head (buflen : Nat) (hok : g.Ok) (hl : s.label = .again)
    (htext : m.bytes.drop s.cur = g.text ++ newline :: t) (hfit : g.head ≤ buflen) :
    ∃ s', Meets (step getgrentR m buflen) s s' ∧ Head g s s' ∧
      m.bytes.drop s'.cur = commaJoined g.items ++ newline :: t := by
  have hhead := head_taken (s := s) hok
  rw [g.text_eq] at htext
  obtain ⟨hm, ht, -, -⟩ := fields_taken getgrentR buflen 3 [g.name, g.passwd, g.gid]
    [commaJoined g.items] (by decide) gr_seps (List.cons_ne_nil _ _) hok.fields
    (s := passStart getgrentR s) htext rfl le_rfl (gr_numbered (number_of_isId hok.gid).1)
    (.inr (by rw [hhead.n]; exact hfit))
  rw [joined_singleton] at ht
  exact ⟨_, .step (step_again hl) hm, hhead, ht⟩

/-! ## Results -/

/-- What the caller reads behind the members. -/
theorem Head.entry (h : Head g s s') {s'' : St} (hmem : Members s' s'' ms)
    (hfit : s''.n ≤ buflen) : readGroup buflen s'' =
      ⟨cstring g.name, cstring g.passwd, decimal g.gid, ms.map cstring⟩ := by
  have hn := h.n
  have hn' := hmem.n
  unfold GroupLine.head at hn
  obtain ⟨ps, hps, hall⟩ := hmem.mem
  have hmap : s''.mem.map (strAt s''.buf buflen) = ms.map cstring := by
    rw [hps, h.mem, List.nil_append]
    exact strings_at (hall.imp fun _ _ hpf => ⟨hpf.1, hpf.2.trans hfit⟩)
  unfold readGroup
  rw [hmap, hmem.res, h.name.1, h.passwd.1, h.gid,
    (hmem.holds h.name.2 (by omega)).strAt (by omega),
    (hmem.holds h.passwd.2 (by omega)).strAt (by omega)]

theorem items_free (hok : g.Ok) : ∀ f ∈ g.items, ∀ b ∈ f, b ≠ newline ∧ b ≠ comma :=
  fun f hf b hb => ⟨(hok.free f hf b hb).1, (hok.free f hf b hb).2.1⟩

/-- **A line with a place for its members** gives its entry, and the call stops behind it. -/
theorem group_returns (buflen : Nat) (hok : g.Ok) (hl : s.label = .again)
    (htext : m.bytes.drop s.cur = g.text ++ newline :: t) (hlen : g.items.length < groups - 1)
    (hfit : g.head + total g.items ≤ buflen) :
    ∃ r, Stops (step getgrentR m buflen) s r ∧ r.ok = true ∧
      readGroup buflen r.st =
        ⟨cstring g.name, cstring g.passwd, decimal g.gid, g.items.map cstring⟩ ∧
      r.st.cur = s.cur + g.text.length + 1 ∧ r.st.mem.length = g.items.length := by
  obtain ⟨s1, hm1, hhead, ht1⟩ := group_head buflen hok hl htext (by omega)
  obtain ⟨ms, f, hitems⟩ := List.eq_nil_or_concat' g.items |>.resolve_left g.items_ne_nil
  have hfree := items_free hok
  have hn1 := hhead.n
  have hlenText := g.length_text
  rw [hitems] at hlen hfit hfree ht1 hlenText ⊢
  rw [List.length_append, List.length_singleton] at hlen
  simp only [total_append, total_cons, total_nil] at hfit hlenText
  obtain ⟨s2, hm2, hmem, hl2, hi2, hc2, hlen2, ht2⟩ := members_commas buflen ms [f]
    (List.cons_ne_nil _ _) hfree ht1 hhead.label hhead.i (by rw [hhead.mem]; simp; omega) (by omega)
  rw [commaJoined_singleton] at ht2
  have hn2 := hmem.n
  have hlen2' : s2.mem.length = ms.length := by
    rw [hlen2, hhead.mem, List.length_nil, Nat.zero_add]
  have hstop := member_last buflen (hfree f (List.mem_append_right _ List.mem_cons_self)) ht2 hl2
    hi2 (by omega) (by omega)
  refine ⟨_, hm1.stops.mpr (hm2.stops.mpr hstop), rfl, ?_, ?_, ?_⟩
  · refine hhead.entry (hmem.trans (.single s2 f newline)) ?_
    show s2.n + f.length + 1 ≤ _
    omega
  · show s2.cur + f.length + 1 = _
    have := hhead.cur
    unfold GroupLine.head at hlenText
    omega
  · show (s2.mem ++ [s2.n]).length = _
    rw [List.length_append, List.length_append, hlen2']
    rfl

/-- **A line without a place for its members**: the last pointer is to bytes that the call has not
written, and the call stops behind the member that it should be to. -/
theorem group_full (buflen : Nat) (hok : g.Ok) (hl : s.label = .again)
    (htext : m.bytes.drop s.cur = g.text ++ newline :: t) (hlen : groups - 1 ≤ g.items.length)
    (hfit : g.head + total (g.items.take (groups - 2)) ≤ buflen) :
    ∃ r ps p, Stops (step getgrentR m buflen) s r ∧ r.ok = true ∧ r.st.mem = ps ++ [p] ∧
      ps.length = groups - 2 ∧ p = g.head + total (g.items.take (groups - 2)) ∧
      (∀ a, p ≤ a → r.st.buf a = s.buf a) ∧
      r.st.cur + total (g.items.drop (groups - 1)) = s.cur + g.text.length + 1 := by
  obtain ⟨s1, hm1, hhead, ht1⟩ := group_head buflen hok hl htext (by omega)
  obtain ⟨f, more, hdrop⟩ : ∃ f more, g.items.drop (groups - 2) = f :: more := by
    refine List.exists_cons_of_ne_nil fun hnil => ?_
    rw [List.drop_eq_nil_iff] at hnil
    simp only [groups] at hlen hnil
    omega
  have hmore : g.items.drop (groups - 1) = more := by
    rw [show groups - 1 = groups - 2 + 1 from rfl, ← List.drop_drop, hdrop]
    rfl
  set ms := g.items.take (groups - 2) with hms
  have hitems : g.items = ms ++ f :: more := by
    rw [hms, ← hdrop, List.take_append_drop]
  have hmslen : ms.length = groups - 2 := by
    rw [hms, List.length_take]
    simp only [groups] at hlen ⊢
    omega
  have hfree := items_free hok
  have hn1 := hhead.n
  have hlenText := g.length_text
  rw [hitems] at hfree ht1 hlenText
  simp only [total_append, total_cons] at hlenText
  obtain ⟨s2, hm2, hmem, hl2, hi2, hc2, hlen2, ht2⟩ := members_commas buflen ms (f :: more)
    (List.cons_ne_nil _ _) hfree ht1 hhead.label hhead.i
    (by rw [hhead.mem, hmslen]; decide) (by omega)
  have hn2 := hmem.n
  have hlen2' : s2.mem.length = groups - 2 := by
    rw [hlen2, hhead.mem, List.length_nil, Nat.zero_add, hmslen]
  obtain ⟨c, t', hfield⟩ : ∃ c t', FieldAt m s2.cur comma f c t' := by
    have hf := hfree f (List.mem_append_right _ List.mem_cons_self)
    by_cases hnil : more = []
    · subst hnil
      rw [commaJoined_singleton] at ht2
      exact ⟨newline, t, ht2, hf, .inl rfl⟩
    · rw [commaJoined_cons f hnil, List.append_assoc] at ht2
      exact ⟨comma, _, ht2, hf, .inr rfl⟩
  have hstop := member_full buflen hfield hl2 hi2 (by rw [hlen2']; rfl)
  refine ⟨_, s2.mem, s2.n, hm1.stops.mpr (hm2.stops.mpr hstop), rfl, rfl, hlen2', by omega,
    fun a ha => ?_, ?_⟩
  · show s2.buf a = _
    rw [hmem.buf a (.inr ha), hhead.buf a (by omega)]
  · show s2.cur + f.length + 1 + _ = _
    rw [hmore]
    have := hhead.cur
    unfold GroupLine.head at hlenText
    omega

/-! ## Exact lists -/

/-- The start of a line is not behind the file. -/
theorem line_lt (htext : m.bytes.drop q = g.text ++ newline :: t) : q < m.bytes.length := by
  have := getD_of_drop htext
  omega

/-- A call at the start of the line. -/
theorem meets_line (buflen : Nat) (buf : Mem) (res : Nat → Nat)
    (htext : m.bytes.drop q = g.text ++ newline :: t) :
    Meets (step getgrentR m buflen) (entryAt q buf res)
      { entryAt q buf res with label := .again } :=
  .step (if_neg (Nat.not_le_of_lt (line_lt htext))) (.refl _)

theorem total_take_le (k : Nat) (ms : List (List UInt8)) : total (ms.take k) ≤ total ms := by
  have h : total (ms.take k) + total (ms.drop k) = total ms := by
    rw [← total_append, List.take_append_drop]
  omega

theorem GroupLine.items_eq (h : g.members ≠ []) : g.items = g.members := if_neg h

/-- A string that runs up to the end of the buffer. -/
theorem length_strAt {buf : Mem} {p : Nat} (h : ∀ a, p ≤ a → buf a ≠ 0) :
    (strAt buf buflen p).length = buflen - p := by
  have hall : ∀ b ∈ buf.load p (buflen - p), (b != 0) = true := by
    intro b hb
    obtain ⟨i, hi, rfl⟩ := List.mem_map.mp hb
    simpa using h (p + i) (by omega)
  unfold strAt cstring
  rw [List.takeWhile_eq_self_iff.mpr hall, Mem.length_load]

theorem length_lt_total {f : List UInt8} (h : f ∈ ms) : f.length < total ms := by
  obtain ⟨a, b, rfl⟩ := List.append_of_mem h
  simp only [total_append, total_cons]
  omega

theorem length_cstring_le (f : List UInt8) : (cstring f).length ≤ f.length :=
  (List.takeWhile_prefix _).length_le

/-- A call that starts at the line. -/
theorem MembersExact.at_line (h : MembersExact m q g)
    (htext : m.bytes.drop q = g.text ++ newline :: t) (buflen : Nat) (buf : Mem)
    (hbuf : groups * 8 + g.text.length ≤ buflen) {r : Answer}
    (hr : Stops (step getgrentR m buflen)
      { entryAt q buf (fun _ => 0) with label := .again } r) :
    (g.members.length < groups → (readGroup buflen r.st).mem = g.members.map cstring) ∧
      r.st.cur = q + g.text.length + 1 := by
  have hmeets := meets_line buflen buf (fun _ => 0) htext
  obtain ⟨r', hr', -, -, hmem, hcur⟩ := h q buf (fun _ => 0) buflen _ hbuf hmeets rfl rfl
  rw [stops_unique (hmeets.stops.mpr hr) hr']
  exact ⟨hmem, hcur⟩

/-- Without members the list is not empty. -/
theorem other_of_nil (buflen : Nat) (hok : g.Ok) (htext : m.bytes.drop q = g.text ++ newline :: t)
    (hnil : g.members = []) (hbuf : groups * 8 + g.text.length ≤ buflen) (buf : Mem) :
    ∃ r, Stops (step getgrentR m buflen)
        { entryAt q buf (fun _ => 0) with label := .again } r ∧
      (readGroup buflen r.st).mem ≠ g.members.map cstring := by
  have hlenText := g.length_text
  have hitems : g.items = [[]] := if_pos hnil
  obtain ⟨r, hr, -, hentry, -⟩ := group_returns buflen
    (s := { entryAt q buf (fun _ => 0) with label := .again }) hok rfl htext
    (by rw [hitems]; decide) (by omega)
  refine ⟨r, hr, ?_⟩
  rw [hentry, hitems, hnil]
  exact nofun

/-- With too many members the last pointer is to what the caller left in the buffer. -/
theorem other_of_full (buflen : Nat) (hok : g.Ok) (htext : m.bytes.drop q = g.text ++ newline :: t)
    (hfull : groups - 1 ≤ g.members.length)
    (hbuf : groups * 8 + g.text.length + total g.items ≤ buflen) :
    ∃ r, Stops (step getgrentR m buflen)
        { entryAt q (fun _ => 1) (fun _ => 0) with label := .again } r ∧
      (readGroup buflen r.st).mem ≠ g.members.map cstring ∧
      r.st.cur + total (g.items.drop (groups - 1)) = q + g.text.length + 1 := by
  have hlenText := g.length_text
  have hitems := GroupLine.items_eq (List.ne_nil_of_length_pos
    (Nat.lt_of_lt_of_le (by decide : 0 < groups - 1) hfull))
  have htake := total_take_le (groups - 2) g.items
  obtain ⟨r, ps, p, hr, -, hmem, -, hp, hkeep, hcur⟩ := group_full buflen
    (s := { entryAt q (fun _ => 1) (fun _ => 0) with label := .again }) hok rfl htext
    (by rw [hitems]; exact hfull) (by omega)
  refine ⟨r, hr, fun hexact => ?_, hcur⟩
  have hread : strAt r.st.buf buflen p ∈ g.members.map cstring := by
    rw [← hexact, readGroup, hmem]
    simp
  obtain ⟨f, hf, hfp⟩ := List.mem_map.mp hread
  have hlt := length_lt_total hf
  have hle := length_cstring_le f
  rw [hfp, length_strAt (fun a ha => by
    rw [hkeep a ha]
    show (1 : UInt8) ≠ 0
    decide)] at hle
  rw [← hitems] at hlt
  omega

theorem not_exact_of_nil (hok : g.Ok) (htext : m.bytes.drop q = g.text ++ newline :: t)
    (hnil : g.members = []) : ¬ MembersExact m q g := by
  intro h
  obtain ⟨r, hr, hne⟩ := other_of_nil _ hok htext hnil le_rfl fun _ => 0
  exact hne ((h.at_line htext _ _ le_rfl hr).1 (by rw [hnil]; decide))

/-- With more members still the call stops within the line. -/
theorem not_exact_of_full (hok : g.Ok) (htext : m.bytes.drop q = g.text ++ newline :: t)
    (hfull : groups - 1 ≤ g.members.length) : ¬ MembersExact m q g := by
  intro h
  have hitems := GroupLine.items_eq (List.ne_nil_of_length_pos
    (Nat.lt_of_lt_of_le (by decide : 0 < groups - 1) hfull))
  obtain ⟨r, hr, hne, hcur⟩ := other_of_full _ hok htext hfull le_rfl
  obtain ⟨hexact, hend⟩ := h.at_line htext _ _ (by omega) hr
  by_cases hlast : g.members.length < groups
  · exact hne (hexact hlast)
  · have hdrop : g.items.drop (groups - 1) ≠ [] := by
      rw [ne_eq, List.drop_eq_nil_iff, hitems]
      simp only [groups] at hlast ⊢
      omega
    obtain ⟨f, hf⟩ := List.exists_mem_of_ne_nil _ hdrop
    have := length_lt_total hf
    omega

/-- **The list of members is exact** for 1 to `GROUPS - 2` members. -/
theorem members_iff (m : Mapped) (q : Nat) (g : GroupLine) (t : List UInt8) (hok : g.Ok)
    (htext : m.bytes.drop q = g.text ++ newline :: t) :
    MembersExact m q g ↔ 1 ≤ g.members.length ∧ g.members.length ≤ groups - 2 := by
  have hlenText := g.length_text
  constructor
  · intro h
    refine ⟨?_, ?_⟩
    · by_contra hk
      exact not_exact_of_nil hok htext (List.eq_nil_of_length_eq_zero (by omega)) h
    · by_contra hk
      exact not_exact_of_full hok htext (by simp only [groups] at hk ⊢; omega) h
  · rintro ⟨hpos, hle⟩ cur buf res buflen s hbuf hmeets hl rfl
    have hitems := GroupLine.items_eq (List.ne_nil_of_length_pos hpos)
    obtain ⟨r, hr, hrok, hentry, hcur, hcount⟩ := group_returns buflen hok hl htext
      (by rw [hitems]; simp only [groups] at hle ⊢; omega) (by omega)
    refine ⟨r, hmeets.stops.mpr hr, hrok, ?_, fun _ => ?_, hcur⟩
    · rw [hcount, hitems]
      simp only [groups] at hle ⊢
      omega
    · rw [hentry, hitems]

/-- `g:x:5:a,b` -/
def twoMembers : GroupLine := ⟨[103], [120], [53], [[97], [98]]⟩

theorem twoMembers_ok : twoMembers.Ok where
  name := by simp [twoMembers, newline, colon]
  passwd := by simp [twoMembers, newline, colon]
  gid := by decide
  members := by simp [twoMembers, newline, comma, colon]

theorem members_iff_twoMembers : MembersExact ⟨twoMembers.text ++ [newline], 0⟩ 0 twoMembers :=
  (members_iff ⟨twoMembers.text ++ [newline], 0⟩ 0 twoMembers [] twoMembers_ok rfl).mpr
    ⟨by decide, by decide⟩

/-- `g:x:5:` -/
def noMembers : GroupLine := ⟨[103], [120], [53], []⟩

theorem noMembers_ok : noMembers.Ok where
  name := by simp [noMembers, newline, colon]
  passwd := by simp [noMembers, newline, colon]
  gid := by decide
  members := by simp [noMembers]

/-- For a group without members the list has an empty string. -/
theorem members_of_none :
    (∃ r, Returns getgrentR ⟨noMembers.text ++ [newline], 0⟩ 0 200 (fun _ => 0) (fun _ => 0) r ∧
      r.ok = true ∧ (readGroup 200 r.st).mem = [[]]) ∧
    ¬ MembersExact ⟨noMembers.text ++ [newline], 0⟩ 0 noMembers := by
  have htext : (noMembers.text ++ [newline]).drop 0 = noMembers.text ++ newline :: [] := rfl
  refine ⟨?_, not_exact_of_nil noMembers_ok htext rfl⟩
  obtain ⟨r, hr, hok, hentry, -⟩ := group_returns (m := ⟨noMembers.text ++ [newline], 0⟩) 200
    (s := { entryAt 0 (fun _ => 0) (fun _ => 0) with label := .again }) noMembers_ok rfl htext
    (by decide) (by decide)
  refine ⟨r, (meets_line 200 _ _ htext).stops.mpr hr, hok, ?_⟩
  rw [hentry]
  rfl

end Dietlibc.Accounts
