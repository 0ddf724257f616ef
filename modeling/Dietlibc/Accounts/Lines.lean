import Mathlib.Data.List.TakeWhile
import Dietlibc.Accounts.Ends

/-!
# Fields and lines

What the machine of the readers does with a field whose text is known: it copies a string, keeps a
number, or goes on behind the newline of the line. `FieldAt` gives the text of a field and what
follows it.
-/

namespace Dietlibc.Accounts

open Machine

variable {sh : Shape} {m : Mapped} {buflen cur k : Nat} {s : St} {f t line rest : List UInt8}
  {fs : List (List UInt8)} {c sep : UInt8}

/-! ## Text -/

/-- At `cur` stands the field `f`, the byte `c` that ends it, and `t`. -/
structure FieldAt (m : Mapped) (cur : Nat) (sep : UInt8) (f : List UInt8) (c : UInt8)
    (t : List UInt8) : Prop where
  text : m.bytes.drop cur = f ++ c :: t
  free : ∀ b ∈ f, b ≠ newline ∧ b ≠ sep
  stop : c = newline ∨ c = sep

theorem drop_append (h : m.bytes.drop cur = f ++ t) : m.bytes.drop (cur + f.length) = t := by
  rw [← List.drop_drop, h, List.drop_left]

theorem getD_of_drop (h : m.bytes.drop cur = f ++ c :: t) :
    cur + f.length < m.bytes.length ∧ m.bytes.getD (cur + f.length) 0 = c := by
  have hd := drop_append h
  have hlt : cur + f.length < m.bytes.length := by
    by_contra hge
    rw [List.drop_eq_nil_of_le (Nat.le_of_not_lt hge)] at hd
    cases hd
  rw [List.drop_eq_getElem_cons hlt] at hd
  rw [List.getD_eq_getElem?_getD, List.getElem?_eq_getElem hlt, Option.getD_some]
  exact ⟨hlt, (List.cons.inj hd).1⟩

theorem FieldAt.next (h : FieldAt m cur sep f c t) : m.bytes.drop (cur + f.length + 1) = t := by
  have hd := drop_append (f := f ++ [c]) (t := t) (by simpa using h.text)
  rwa [List.length_append, List.length_singleton] at hd

theorem FieldAt.parse1 (h : FieldAt m cur sep f c t) : parse1 m cur sep = f.length := by
  unfold Accounts.parse1
  rw [h.text, List.takeWhile_append_of_pos, List.takeWhile_cons_of_neg, List.append_nil]
  · rcases h.stop with rfl | rfl <;> simp
  · intro b hb
    have := h.free b hb
    simp [this.1, this.2]

theorem FieldAt.at? (h : FieldAt m cur sep f c t) : m.at? (cur + f.length) = some c := by
  obtain ⟨hlt, hget⟩ := getD_of_drop h.text
  rw [Mapped.at?, if_pos (by omega), hget]

/-- `memcpy` of a field. -/
theorem copied_of_drop (h : m.bytes.drop cur = f ++ t) :
    (List.range f.length).map (fun k => m.bytes.getD (cur + k) 0) = f := by
  apply List.ext_getElem?
  intro i
  by_cases hi : i < f.length
  · have hget : (m.bytes.drop cur)[i]? = f[i]? := by
      rw [h, List.getElem?_append_left hi]
    rw [List.getElem?_drop] at hget
    rw [List.getElem?_map, List.getElem?_range hi, Option.map_some,
      List.getD_eq_getElem?_getD, hget, List.getElem?_eq_getElem hi, Option.getD_some]
  · rw [List.getElem?_eq_none (by simpa using hi), List.getElem?_eq_none (by omega)]

/-- The field that is read at `cur` is `f`, with the byte `c` behind it. -/
structure Scanned (m : Mapped) (cur : Nat) (sep : UInt8) (f : List UInt8) (c : UInt8) : Prop where
  parse1 : parse1 m cur sep = f.length
  at? : m.at? (cur + f.length) = some c
  copied : (List.range f.length).map (fun k => m.bytes.getD (cur + k) 0) = f

theorem FieldAt.scanned (h : FieldAt m cur sep f c t) : Scanned m cur sep f c :=
  ⟨h.parse1, h.at?, copied_of_drop h.text⟩

/-- A field that the end of the file ends. -/
theorem scanned_eof (h : m.bytes.drop cur = f) (hfree : ∀ b ∈ f, b ≠ newline ∧ b ≠ sep)
    (hread : m.at? (cur + f.length) ≠ none) : ∃ c, Scanned m cur sep f c := by
  obtain ⟨c, hc⟩ := Option.ne_none_iff_exists'.mp hread
  refine ⟨c, ?_, hc, copied_of_drop (t := []) (by rw [h, List.append_nil])⟩
  unfold Accounts.parse1
  rw [h, List.takeWhile_eq_self_iff.mpr]
  intro b hb
  have := hfree b hb
  simp [this.1, this.2]

/-- A numeral is scanned to its end; other text is not. -/
theorem FieldAt.scan (h : FieldAt m cur sep f c t) (hsep : isDigit sep = false) :
    ∃ len l, scanUlong m cur = some (len, l) ∧ (len = f.length ↔ f.all isDigit = true) ∧
      (f.all isDigit = true → l = number f) := by
  have hd : digits m cur = f.takeWhile isDigit := by
    unfold digits
    rw [h.text]
    by_cases hall : f.all isDigit = true
    · have hc : isDigit c = false := by
        rcases h.stop with rfl | rfl
        · rfl
        · exact hsep
      have hall' := List.all_eq_true.mp hall
      rw [List.takeWhile_append_of_pos hall', List.takeWhile_cons_of_neg (by simp [hc]),
        List.append_nil, List.takeWhile_eq_self_iff.mpr hall']
    · rw [List.takeWhile_append, if_neg]
      intro hlen
      refine hall (List.all_eq_true.mpr fun b hb => ?_)
      have heq := (List.takeWhile_prefix isDigit (l := f)).eq_of_length hlen
      rw [← heq] at hb
      exact List.mem_takeWhile_imp hb
  have hle : (digits m cur).length ≤ f.length := by
    rw [hd]
    exact (List.takeWhile_prefix isDigit).length_le
  have hread : m.at? (cur + f.length) ≠ none := by
    rw [h.at?]
    exact nofun
  refine ⟨_, _, scanUlong_eq hle hread, ?_, fun hall => ?_⟩
  · rw [hd]
    constructor
    · intro hlen
      have heq := (List.takeWhile_prefix isDigit (l := f)).eq_of_length hlen
      refine List.all_eq_true.mpr fun b hb => ?_
      rw [← heq] at hb
      exact List.mem_takeWhile_imp hb
    · intro hall
      rw [List.takeWhile_eq_self_iff.mpr (List.all_eq_true.mp hall)]
  · rw [hd, List.takeWhile_eq_self_iff.mpr (List.all_eq_true.mp hall)]

theorem lineEnd_eq (h : m.bytes.drop k = line ++ newline :: rest) (hl : newline ∉ line) :
    lineEnd m k = some (k + line.length) := by
  have htake : (m.bytes.drop k).takeWhile (· != newline) = line := by
    rw [h, List.takeWhile_append_of_pos, List.takeWhile_cons_of_neg (by simp), List.append_nil]
    intro b hb
    rw [bne_iff_ne]
    rintro rfl
    exact hl hb
  unfold lineEnd
  rw [htake]
  exact if_pos (getD_of_drop h).1

/-! ## Strings and numbers that are read -/

/-- The bytes up to the NUL. -/
def cstring (f : List UInt8) : List UInt8 := f.takeWhile (· != 0)

/-- The string at offset `p` of the buffer. -/
def strAt (buf : Mem) (buflen p : Nat) : List UInt8 := cstring (buf.load p (buflen - p))

/-- The string `f` and its NUL stand at `p`. -/
def Holds (buf : Mem) (p : Nat) (f : List UInt8) : Prop := buf.load p (f.length + 1) = f ++ [0]

theorem holds_store (buf : Mem) (p : Nat) (f : List UInt8) :
    Holds (buf.store p (f ++ [0])) p f :=
  Mem.load_store_self (by simp)

theorem Holds.store {buf : Mem} {p a : Nat} (h : Holds buf p f) (ha : p + f.length + 1 ≤ a)
    (d : List UInt8) : Holds (buf.store a d) p f := by
  unfold Holds
  rw [Mem.load_store_out (.inl (by omega))]
  exact h

theorem cstring_append (f t : List UInt8) : cstring (f ++ 0 :: t) = cstring f := by
  induction f with
  | nil => rfl
  | cons b f ih =>
    unfold cstring at ih ⊢
    by_cases hb : b = 0
    · subst hb
      rfl
    · rw [List.cons_append, List.takeWhile_cons_of_pos (by simpa using hb),
        List.takeWhile_cons_of_pos (by simpa using hb), ih]

theorem Holds.strAt {buf : Mem} {p : Nat} (h : Holds buf p f) (hle : p + f.length + 1 ≤ buflen) :
    strAt buf buflen p = cstring f := by
  obtain ⟨k, hk⟩ : ∃ k, buflen - p = f.length + 1 + k := ⟨buflen - p - (f.length + 1), by omega⟩
  unfold Accounts.strAt
  rw [hk, Mem.load_add, h, List.append_assoc]
  exact cstring_append f _

/-- The strings at the pointers. -/
theorem strings_at {buf : Mem} {ps : List Nat} {fs : List (List UInt8)}
    (h : List.Forall₂ (fun p f => Holds buf p f ∧ p + f.length + 1 ≤ buflen) ps fs) :
    ps.map (strAt buf buflen) = fs.map cstring := by
  induction h with
  | nil => rfl
  | cons hpf _ ih => rw [List.map_cons, List.map_cons, hpf.1.strAt hpf.2, ih]

/-- The bytes that the strings and their ends take. -/
def total (ms : List (List UInt8)) : Nat := (ms.map (·.length + 1)).sum

@[simp] theorem total_nil : total [] = 0 := rfl

@[simp] theorem total_cons (f : List UInt8) (ms : List (List UInt8)) :
    total (f :: ms) = f.length + 1 + total ms := rfl

@[simp] theorem total_append (ms more : List (List UInt8)) :
    total (ms ++ more) = total ms + total more := by
  simp [total]

/-- The value of a decimal numeral. -/
def decimal (ds : List UInt8) : Nat := ds.foldl (fun x d => x * 10 + (d.toNat - 48)) 0

/-- A non-empty decimal numeral that fits `uid_t` and `gid_t`. -/
def isId (f : List UInt8) : Bool := f != [] && f.all isDigit && decide (decimal f < 2 ^ 32)

theorem decimal_eq (ds : List UInt8) : number ds = decimal ds % 2 ^ 64 := by
  unfold number decimal
  suffices h : ∀ x, ds.foldl (fun x d => (x * 10 + (d.toNat - 48)) % 2 ^ 64) (x % 2 ^ 64) =
      ds.foldl (fun x d => x * 10 + (d.toNat - 48)) x % 2 ^ 64 from h 0
  induction ds with
  | nil => exact fun x => rfl
  | cons d ds ih =>
    intro x
    rw [List.foldl_cons, List.foldl_cons, ← ih]
    congr 1
    omega

theorem number_of_isId {f : List UInt8} (h : isId f = true) :
    f.all isDigit = true ∧ number f % 2 ^ 32 = decimal f := by
  unfold isId at h
  rw [Bool.and_eq_true, Bool.and_eq_true, decide_eq_true_eq] at h
  refine ⟨h.1.2, ?_⟩
  rw [decimal_eq]
  omega

/-! ## Fields of a line -/

/-- The fields of a line. -/
def fieldsOf (line : List UInt8) : List (List UInt8) := line.splitOn colon

/-- The line with the fields `fs`. -/
def joined (fs : List (List UInt8)) : List UInt8 := [colon].intercalate fs

/-- Fields that a line can have. -/
structure Fields (fs : List (List UInt8)) : Prop where
  ne_nil : fs ≠ []
  free : ∀ f ∈ fs, ∀ b ∈ f, b ≠ newline ∧ b ≠ colon

theorem joined_cons (f : List UInt8) (h : fs ≠ []) :
    joined (f :: fs) = f ++ colon :: joined fs := by
  obtain ⟨f', fs', rfl⟩ := List.exists_cons_of_ne_nil h
  simp [joined, List.intercalate_cons_cons]

@[simp] theorem joined_singleton (f : List UInt8) : joined [f] = f := by
  simp [joined]

theorem not_mem_splitOn {c : UInt8} {l f : List UInt8} (h : f ∈ l.splitOn c) : c ∉ f := by
  induction l generalizing f with
  | nil =>
    rw [List.splitOn_nil, List.mem_singleton] at h
    rw [h]
    exact List.not_mem_nil
  | cons b l ih =>
    rw [List.splitOn_cons_eq_if_modifyHead] at h
    split at h
    · rcases List.mem_cons.mp h with rfl | h
      · exact List.not_mem_nil
      · exact ih h
    · rename_i hb
      obtain ⟨g, gs, hsplit⟩ := List.exists_cons_of_ne_nil (List.splitOn_ne_nil c l)
      rw [hsplit, List.modifyHead_cons] at h
      rcases List.mem_cons.mp h with rfl | h
      · rw [List.mem_cons, not_or]
        refine ⟨fun he => hb (by simp [he]), ih (hsplit ▸ List.mem_cons_self)⟩
      · exact ih (hsplit ▸ List.mem_cons_of_mem _ h)

theorem mem_of_splitOn {c b : UInt8} {l f : List UInt8} (h : f ∈ l.splitOn c) (hb : b ∈ f) :
    b ∈ l := by
  have hl : [c].intercalate (l.splitOn c) = l := List.intercalate_splitOn c
  rw [← hl]
  clear hl
  generalize l.splitOn c = fs at h
  induction fs with
  | nil => cases h
  | cons g gs ih =>
    rcases gs with - | ⟨g', gs⟩
    · rw [List.mem_singleton] at h
      simpa [← h] using hb
    · rw [List.intercalate_cons_cons, List.append_assoc, List.mem_append, List.mem_append]
      rcases List.mem_cons.mp h with rfl | h
      · exact .inl hb
      · exact .inr (.inr (ih h))

/-- A line is its fields. -/
theorem fieldsOf_spec (h : newline ∉ line) :
    Fields (fieldsOf line) ∧ joined (fieldsOf line) = line := by
  refine ⟨⟨List.splitOn_ne_nil _ _, fun f hf b hb => ⟨?_, ?_⟩⟩, List.intercalate_splitOn _⟩
  · rintro rfl
    exact h (mem_of_splitOn hf hb)
  · rintro rfl
    exact not_mem_splitOn hf hb

theorem Fields.newline_not_mem (h : Fields fs) : newline ∉ joined fs := by
  have hfree := h.free
  clear h
  induction fs with
  | nil => simp [joined]
  | cons f fs ih =>
    have hf : newline ∉ f := fun hb => (hfree f List.mem_cons_self _ hb).1 rfl
    have ih := ih fun g hg => hfree g (List.mem_cons_of_mem f hg)
    by_cases hnil : fs = []
    · subst hnil
      rwa [joined_singleton]
    · rw [joined_cons f hnil, List.mem_append, List.mem_cons]
      rintro (hb | hb | hb)
      · exact hf hb
      · cases hb
      · exact ih hb

theorem Fields.tail (h : Fields (f :: fs)) (hne : fs ≠ []) : Fields fs :=
  ⟨hne, fun g hg => h.free g (List.mem_cons_of_mem f hg)⟩

/-- The first field of the line, with another one behind it. -/
theorem Fields.fieldAt (h : Fields (f :: fs)) (hne : fs ≠ [])
    (htext : m.bytes.drop s.cur = joined (f :: fs) ++ t) :
    FieldAt m s.cur colon f colon (joined fs ++ t) := by
  refine ⟨?_, h.free f List.mem_cons_self, .inr rfl⟩
  rw [htext, joined_cons f hne, List.append_assoc]
  rfl

theorem Fields.fieldAt_last (h : Fields [f])
    (htext : m.bytes.drop s.cur = joined [f] ++ newline :: t) :
    FieldAt m s.cur colon f newline t := by
  refine ⟨?_, h.free f List.mem_cons_self, .inl rfl⟩
  rwa [joined_singleton] at htext

/-! ## Steps -/

/-- The state behind a string that has been copied. -/
def stringTaken (s : St) (f : List UInt8) (c : UInt8) : St where
  label := .field
  cur := s.cur + f.length + 1
  i := s.i + 1
  j := f.length
  n := s.n + f.length + 1
  found := c
  buf := s.buf.store s.n (f ++ [0])
  res := Function.update s.res s.i s.n
  mem := s.mem

/-- The state behind a number that has been kept. -/
def numberTaken (sh : Shape) (s : St) (f : List UInt8) (c : UInt8) : St where
  label := .field
  cur := s.cur + f.length + 1
  i := s.i + 1
  j := f.length
  n := s.n
  found := c
  buf := s.buf
  res := Function.update s.res s.i (sh.value (number f) f.length)
  mem := s.mem

/-- The head of the loop. -/
theorem step_field (buflen : Nat) (hl : s.label = .field) (hi : s.i < sh.count)
    (h : Scanned m s.cur (sh.sep s.i) f c) :
    step sh m buflen s = .again { s with
      j := f.length
      found := c
      label := if c ≠ sh.sep s.i ∧ sh.strict s.i c then .parseerror else .switch } := by
  unfold step
  rw [hl]
  dsimp only
  rw [if_pos hi, h.parse1, h.at?]

/-- The field ends as it should. -/
def Ended (sh : Shape) (s : St) (c : UInt8) : Prop := c = sh.sep s.i ∨ sh.strict s.i c = false

theorem step_ended (hl : s.label = .field) (hi : s.i < sh.count)
    (h : Scanned m s.cur (sh.sep s.i) f c) (hc : Ended sh s c) :
    step sh m buflen s = .again { s with j := f.length, found := c, label := .switch } := by
  rw [step_field buflen hl hi h, if_neg]
  rintro ⟨hne, hst⟩
  rcases hc with hc | hc
  · exact hne hc
  · rw [hc] at hst
    cases hst

theorem field_string (sh : Shape) (buflen : Nat) (hl : s.label = .field) (hi : s.i < sh.count)
    (hk : sh.kind s.i = .string) (h : Scanned m s.cur (sh.sep s.i) f c) (hc : Ended sh s c)
    (hfit : s.n + f.length < buflen) (h2 : ¬ (c = newline ∧ s.i = 2)) :
    Meets (step sh m buflen) s (stringTaken s f c) := by
  refine .step (step_ended hl hi h hc) (.step ?_ (.refl _))
  unfold step switchField
  dsimp only
  rw [hk]
  dsimp only
  unfold copyField
  dsimp only
  rw [if_neg (by omega), h.copied, if_neg h2]
  rfl

theorem field_string_fails (sh : Shape) (buflen : Nat) (hl : s.label = .field) (hi : s.i < sh.count)
    (hk : sh.kind s.i = .string) (h : Scanned m s.cur (sh.sep s.i) f c) (hc : Ended sh s c)
    (hfit : buflen ≤ s.n + f.length) :
    ∃ r, Stops (step sh m buflen) s r ∧ r.ok = false ∧ r.st.cur = s.cur := by
  have hstop : step sh m buflen { s with j := f.length, found := c, label := .switch } =
      .stop ⟨false, { s with
        j := f.length, found := c, label := .switch, res := Function.update s.res s.i s.n }⟩ := by
    unfold step switchField
    dsimp only
    rw [hk]
    dsimp only
    exact if_pos hfit
  exact ⟨_, (stops_again (step_ended hl hi h hc)).mpr ((stops_stop hstop).mpr rfl), rfl, rfl⟩

theorem field_number (sh : Shape) (buflen : Nat) (hsep : isDigit (sh.sep s.i) = false)
    (hl : s.label = .field)
    (hi : s.i < sh.count) (hk : sh.kind s.i = .number)
    (h : FieldAt m s.cur (sh.sep s.i) f c t) (hc : Ended sh s c) (hd : f.all isDigit = true) :
    Meets (step sh m buflen) s (numberTaken sh s f c) := by
  obtain ⟨len, l, hscan, hlen, hnum⟩ := h.scan hsep
  refine .step (step_ended hl hi h.scanned hc) (.step ?_ (.refl _))
  unfold step switchField
  dsimp only
  rw [hk]
  dsimp only
  rw [hscan]
  dsimp only
  rw [if_neg (not_not.mpr (hlen.mpr hd)), hnum hd]
  rfl

/-- `parseerror:` goes to the next line. -/
theorem parseerror_skips (line rest : List UInt8) (hl : s.label = .parseerror)
    (h : m.bytes.drop (s.cur + s.j) = line ++ newline :: rest) (hn : newline ∉ line) :
    step sh m buflen s = .again { s with label := .again, cur := s.cur + s.j + line.length + 1 } := by
  unfold step
  rw [hl]
  dsimp only
  rw [lineEnd_eq h hn]

/-- A field that ends at the newline of the line before it should. -/
theorem field_short (hl : s.label = .field) (hi : s.i < sh.count)
    (h : FieldAt m s.cur (sh.sep s.i) f newline t) (hc : ¬ Ended sh s newline) :
    ∃ s', Meets (step sh m buflen) s s' ∧ s'.label = .again ∧ s'.cur = s.cur + f.length + 1 := by
  have hstep := step_field buflen hl hi h.scanned
  rw [if_pos ⟨fun he => hc (.inl he), by simpa using fun hst => hc (.inr hst)⟩] at hstep
  refine ⟨_, .step hstep (.step (parseerror_skips [] t rfl ?_ (by simp))
    (.refl _)), rfl, rfl⟩
  exact drop_append h.text

/-- A field that should be a number and is none. -/
theorem field_bad (sh : Shape) (buflen : Nat) (line rest : List UInt8)
    (hsep : isDigit (sh.sep s.i) = false) (hl : s.label = .field)
    (hi : s.i < sh.count) (hk : sh.kind s.i = .number)
    (h : FieldAt m s.cur (sh.sep s.i) f c t) (hc : Ended sh s c) (hd : f.all isDigit = false)
    (hline : c :: t = line ++ newline :: rest) (hn : newline ∉ line) :
    ∃ s', Meets (step sh m buflen) s s' ∧ s'.label = .again ∧
      s'.cur = s.cur + f.length + line.length + 1 := by
  obtain ⟨len, l, hscan, hlen, -⟩ := h.scan hsep
  have hne : len ≠ f.length := fun he => by
    rw [hlen.mp he] at hd
    cases hd
  have hswitch : step sh m buflen { s with j := f.length, found := c, label := .switch } =
      .again { s with j := f.length, found := c, label := .parseerror } := by
    unfold step switchField
    dsimp only
    rw [hk]
    dsimp only
    rw [hscan]
    dsimp only
    rw [if_pos hne]
  refine ⟨_, .step (step_ended hl hi h.scanned hc) (.step hswitch (.step
    (parseerror_skips line rest rfl ?_ hn) (.refl _))), rfl, rfl⟩
  dsimp only
  rw [← hline]
  exact drop_append h.text

/-! ## Entry and end -/

/-- The state in which the pass over a line starts. -/
def passStart (sh : Shape) (s : St) : St :=
  { s with label := .field, i := 0, n := sh.start, mem := [] }

theorem step_again (hl : s.label = .again) :
    step sh m buflen s = .again (passStart sh s) := by
  unfold step
  rw [hl]
  rfl

theorem step_success (sh : Shape) (m : Mapped) (buflen : Nat) (s : St) (hl : s.label = .field)
    (hi : sh.count ≤ s.i) :
    step sh m buflen s = .stop ⟨true, s⟩ := by
  unfold step
  rw [hl]
  dsimp only
  rw [if_neg (by omega)]

/-! ## The first fields of a line -/

/-- The state behind a field that its separator ends. -/
def fieldTaken (sh : Shape) (s : St) (f : List UInt8) : St :=
  match sh.kind s.i with
  | .number => numberTaken sh s f (sh.sep s.i)
  | _ => stringTaken s f (sh.sep s.i)

/-- The state behind several fields. -/
def taken (sh : Shape) (s : St) (fs : List (List UInt8)) : St := fs.foldl (fieldTaken sh) s

theorem fieldTaken_spec (sh : Shape) (s : St) (f : List UInt8) :
    (fieldTaken sh s f).label = .field ∧ (fieldTaken sh s f).i = s.i + 1 ∧
      (fieldTaken sh s f).cur = s.cur + f.length + 1 ∧ s.n ≤ (fieldTaken sh s f).n := by
  unfold fieldTaken
  split
  · exact ⟨rfl, rfl, rfl, le_rfl⟩
  · exact ⟨rfl, rfl, rfl, by simp only [stringTaken]; omega⟩

theorem taken_n_le (sh : Shape) (fs : List (List UInt8)) (s : St) : s.n ≤ (taken sh s fs).n := by
  induction fs generalizing s with
  | nil => exact le_rfl
  | cons f fs ih => exact (fieldTaken_spec sh s f).2.2.2.trans (ih _)

/-- The numbers among the fields are numerals. -/
def Numbered (sh : Shape) (i : Nat) (fs : List (List UInt8)) : Prop :=
  ∀ k f, fs[k]? = some f → sh.kind (i + k) = .number → f.all isDigit = true

/-- **Fields that colons end** are taken one by one, as long as the strings fit. -/
theorem fields_taken (sh : Shape) (buflen lim : Nat) (fs more : List (List UInt8)) (hlim : lim ≤ sh.count)
    (hsep : ∀ i < lim, sh.sep i = colon ∧ sh.kind i ≠ .member) (hmore : more ≠ [])
    (hf : Fields (fs ++ more)) (htext : m.bytes.drop s.cur = joined (fs ++ more) ++ t)
    (hl : s.label = .field) (hi : s.i + fs.length ≤ lim) (hnum : Numbered sh s.i fs)
    (hfit : fs = [] ∨ (taken sh s fs).n ≤ buflen) :
    Meets (step sh m buflen) s (taken sh s fs) ∧
      m.bytes.drop (taken sh s fs).cur = joined more ++ t ∧
      (taken sh s fs).i = s.i + fs.length ∧ (taken sh s fs).label = .field := by
  induction fs generalizing s with
  | nil => exact ⟨.refl s, htext, rfl, hl⟩
  | cons f fs ih =>
    rw [List.length_cons] at hi
    obtain ⟨hsepi, hkind⟩ := hsep s.i (by omega)
    have hne : fs ++ more ≠ [] := List.append_ne_nil_of_right_ne_nil _ hmore
    have hfield := hf.fieldAt hne htext
    obtain ⟨hl', hi', hcur', hn'⟩ := fieldTaken_spec sh s f
    have hfit := hfit.resolve_left (List.cons_ne_nil f fs)
    have hfits : (fieldTaken sh s f).n ≤ buflen := (taken_n_le sh fs _).trans hfit
    have hmeets : Meets (step sh m buflen) s (fieldTaken sh s f) := by
      rw [← hsepi] at hfield
      unfold fieldTaken at hfits ⊢
      split
      · rename_i hk
        exact field_number sh buflen (by rw [hsepi]; rfl) hl (by omega) hk hfield (.inl rfl)
          (hnum 0 f rfl hk)
      · rename_i hk
        have hstr : sh.kind s.i = .string := by
          cases hkk : sh.kind s.i with
          | string => rfl
          | number => exact absurd hkk hk
          | member => exact absurd hkk hkind
        rw [hstr] at hfits
        refine field_string sh buflen hl (by omega) hstr hfield.scanned (.inl rfl) ?_ ?_
        · simp only [stringTaken] at hfits
          omega
        · rintro ⟨hc, -⟩
          rw [hsepi] at hc
          cases hc
    obtain ⟨hm, ht, hi'', hl''⟩ := ih (s := fieldTaken sh s f) (hf.tail hne)
      (by rw [hcur']; exact hfield.next) hl' (by omega) (by
        intro k g hg hk
        rw [hi'] at hk
        exact hnum (k + 1) g (by simpa using hg) (by rwa [show s.i + (k + 1) = s.i + 1 + k by omega]))
      (.inr hfit)
    refine ⟨hmeets.trans hm, ht, ?_, hl''⟩
    rw [show taken sh s (f :: fs) = taken sh (fieldTaken sh s f) fs from rfl, hi'', hi',
      List.length_cons]
    omega

/-- Fields that colons end, with a string among them that does not fit. -/
theorem fields_fail (sh : Shape) (buflen lim : Nat) (fs more : List (List UInt8))
    (hlim : lim ≤ sh.count) (hsep : ∀ i < lim, sh.sep i = colon ∧ sh.kind i ≠ .member)
    (hmore : more ≠ []) (hf : Fields (fs ++ more))
    (htext : m.bytes.drop s.cur = joined (fs ++ more) ++ t) (hl : s.label = .field)
    (hi : s.i + fs.length ≤ lim) (hnum : Numbered sh s.i fs) (hn : s.n ≤ buflen)
    (hover : buflen < (taken sh s fs).n) :
    ∃ r, Stops (step sh m buflen) s r ∧ r.ok = false := by
  induction fs generalizing s with
  | nil => exact absurd hover (Nat.not_lt_of_le hn)
  | cons f fs ih =>
    rw [List.length_cons] at hi
    have hne : fs ++ more ≠ [] := List.append_ne_nil_of_right_ne_nil _ hmore
    have hfield := hf.fieldAt hne htext
    obtain ⟨hl', hi', hcur', -⟩ := fieldTaken_spec sh s f
    by_cases hfits : (fieldTaken sh s f).n ≤ buflen
    · -- the string that does not fit is behind this field
      obtain ⟨hm, -⟩ := fields_taken sh buflen lim [f] (fs ++ more) hlim hsep hne hf htext hl
        (by rw [List.length_singleton]; omega)
        (fun k g hg => by
          rcases k with - | k
          · exact fun hk => hnum 0 g (by simpa using hg) hk
          · cases hg)
        (.inr hfits)
      obtain ⟨r, hr, hok⟩ := ih (s := fieldTaken sh s f) (hf.tail hne)
        (by rw [hcur']; exact hfield.next) hl' (by omega) (by
          intro k g hg hk
          rw [hi'] at hk
          exact hnum (k + 1) g (by simpa using hg)
            (by rwa [show s.i + (k + 1) = s.i + 1 + k by omega]))
        hfits hover
      exact ⟨r, hm.stops.mpr hr, hok⟩
    · obtain ⟨hsepi, hkind⟩ := hsep s.i (by omega)
      rw [← hsepi] at hfield
      unfold fieldTaken at hfits
      split at hfits
      · exact absurd hn hfits
      · rename_i hk
        have hstr : sh.kind s.i = .string := by
          cases hkk : sh.kind s.i with
          | string => rfl
          | number => exact absurd hkk hk
          | member => exact absurd hkk hkind
        simp only [stringTaken] at hfits
        obtain ⟨r, hr, hok, -⟩ := field_string_fails sh buflen hl (by omega) hstr hfield.scanned
          (.inl (by rw [hsepi])) (by omega)
        exact ⟨r, hr, hok⟩

end Dietlibc.Accounts
