import Dietlibc.Accounts.Lines

/-!
# `getservent_r`

The reader of the services file as a machine, and what it does with one word of a line. The fields
are found with `__parse_ws` and `__parse_nws`, the field counter steps back for every alias, and
a line that is no entry is left at `parseerror`. Pointers into `buf` are offsets; the pointers of
`s_aliases`, which stand at its start, are kept apart.
-/

namespace Dietlibc.Netdb

open Machine Accounts

/-! ## `parselib.h` -/

/-- `'#'` -/
def hash : UInt8 := 35

/-- `isblank` -/
def isblank (ch : UInt8) : Bool := ch == 32 || ch == 9

/-- `__isnonblank` -/
def isnonblank (ch : UInt8) : Bool := ch != 32 && ch != 9 && ch != hash

/-- `__parse` -/
def parse (m : Mapped) (cur : Nat) (pred : UInt8 → Bool) : Nat :=
  ((m.bytes.drop cur).takeWhile fun b => b != newline && pred b).length

/-- `__parse_ws` -/
def parseWs (m : Mapped) (cur : Nat) : Nat := parse m cur isblank

/-- `__parse_nws` -/
def parseNws (m : Mapped) (cur : Nat) : Nat := parse m cur isnonblank

/-- `htons` of the low half of a word. -/
def htons (l : Nat) : Nat := l % 256 * 256 + l / 256 % 256

/-! ## The machine -/

/-- `ALIASES` -/
def aliasesMax : Nat := 16

inductive Label where
  | entry
  | again
  | field
  | parseerror
  | switch
  deriving DecidableEq

/-- `__ps.cur`, the local variables, `buf` and `*res`. -/
structure St where
  label : Label
  cur : Nat
  i : Nat
  j : Nat
  n : Nat
  g : Nat
  found : UInt8
  buf : Mem
  name : Nat
  port : Nat
  proto : Nat
  /-- `s_aliases`: `none` is a null pointer -/
  aliases : Nat → Option Nat

/-- The value returned is 0 if `ok`. -/
structure Answer where
  ok : Bool
  st : St

section

variable (m : Mapped) (buflen : Nat)

/-- The code at `copy:`. -/
def copyField (s : St) : Next St Answer Unit :=
  if s.j = 0 then .again { s with label := .parseerror }
  else if buflen ≤ s.n + s.j then .stop ⟨false, s⟩
  else
    .again { s with
      label := .field
      buf := s.buf.store s.n ((List.range s.j).map (fun k => m.bytes.getD (s.cur + k) 0) ++ [0])
      n := s.n + s.j + 1
      -- no aliases behind the end of the line
      i := (if (s.found = newline ∨ s.found = hash) ∧ s.i = 1 then 3 else s.i) + 1
      cur := s.cur + s.j + 1 }

/-- `switch (i)` -/
def switchField (s : St) : Next St Answer Unit :=
  if s.i = 0 then copyField m buflen { s with name := s.n }
  else if s.i = 1 then
    match scanUlong m s.cur with
    | none => .fault ()
    | some (k, l) =>
      match m.at? (s.cur + k) with
      | none => .fault ()
      | some c =>
        if c ≠ 47 then .again { s with label := .parseerror }
        else
          copyField m buflen { s with
            port := htons l, proto := s.n, j := s.j - (k + 1), cur := s.cur + (k + 1) }
  else
    let s := { s with aliases := Function.update s.aliases s.g (some s.n), g := s.g + 1 }
    if s.g = aliasesMax - 1 then
      .again { s with label := .field, cur := s.cur + s.j + 1, i := s.i + 1 }
    else copyField m buflen { s with i := s.i - 1 }

/-- The way out of the loop. -/
def success (s : St) : Answer :=
  ⟨true, { s with aliases := Function.update s.aliases s.g none }⟩

def step (s : St) : Next St Answer Unit :=
  match s.label with
  | .entry =>
    if m.bytes.length ≤ s.cur then .stop ⟨false, s⟩ else .again { s with label := .again }
  | .again => .again { s with label := .field, n := aliasesMax * 8, g := 0, i := 0 }
  | .field =>
    if s.i < 3 then
      let s := { s with cur := s.cur + parseWs m s.cur }
      if m.bytes.length ≤ s.cur then .stop (if s.i = 2 then success s else ⟨false, s⟩)
      else
        let s := { s with j := parseNws m s.cur }
        if s.i = 2 ∧ s.j = 0 then .stop (success s)
        else
          match m.at? (s.cur + s.j) with
          | none => .fault ()
          | some found =>
            .again { s with
              found
              label := if isblank found = false ∧ (found = hash ∨ (1 < s.i ∧ found ≠ newline))
                then .parseerror else .switch }
    else .stop (success s)
  | .parseerror =>
    match lineEnd m (s.cur + s.j) with
    | some k => .again { s with label := .again, cur := k + 1 }
    | none => .stop ⟨false, s⟩
  | .switch => switchField m buflen s

/-- A call at parse position `cur` with a buffer of `buflen` bytes returns `r`. What the caller
left in `buf` and `*res`, and the local variables, are those of `s`. -/
def Returns (cur : Nat) (s : St) (r : Answer) : Prop :=
  Stops (step m buflen) { s with label := .entry, cur := cur } r

end

/-! ## Text -/

variable {m : Mapped} {buflen : Nat} {s : St} {ws f t : List UInt8} {c : UInt8}

/-- A word of a line. -/
structure Token (f : List UInt8) : Prop where
  ne_nil : f ≠ []
  free : ∀ b ∈ f, b ≠ newline ∧ isnonblank b = true

/-- A byte behind a word. -/
def Stop (c : UInt8) : Prop := isblank c = true ∨ c = hash ∨ c = newline

theorem Stop.ends (h : Stop c) : (c != newline && isnonblank c) = false := by
  unfold Stop isblank at h
  unfold isnonblank
  rcases h with h | rfl | rfl
  · rw [Bool.or_eq_true, beq_iff_eq, beq_iff_eq] at h
    rcases h with rfl | rfl <;> rfl
  · rfl
  · rfl

theorem not_isblank_of_nonblank {b : UInt8} (h : isnonblank b = true) : isblank b = false := by
  unfold isnonblank at h
  unfold isblank
  simp only [Bool.and_eq_true, bne_iff_ne] at h
  simp [h.1.1, h.1.2]

theorem takeWhile_stop {p : UInt8 → Bool} (hf : ∀ b ∈ f, p b = true) (hc : p c = false) :
    (f ++ c :: t).takeWhile p = f := by
  rw [List.takeWhile_append_of_pos hf, List.takeWhile_cons_of_neg (by simp [hc]), List.append_nil]

theorem parseWs_eq {cur : Nat} (h : m.bytes.drop cur = ws ++ c :: t)
    (hws : ∀ b ∈ ws, isblank b = true) (hc : isblank c = false) : parseWs m cur = ws.length := by
  have hb (b : UInt8) (hb : isblank b = true) : (b != newline) = true := by
    rw [bne_iff_ne]
    rintro rfl
    cases hb
  unfold parseWs parse
  rw [h, takeWhile_stop (fun b hm => by rw [hb b (hws b hm), hws b hm]; rfl) (by simp [hc])]

theorem parseNws_eq {cur : Nat} (h : m.bytes.drop cur = f ++ c :: t)
    (hf : ∀ b ∈ f, b ≠ newline ∧ isnonblank b = true) (hc : Stop c) :
    parseNws m cur = f.length := by
  unfold parseNws parse
  rw [h, takeWhile_stop (fun b hb => by simp [(hf b hb).1, (hf b hb).2]) hc.ends]

theorem at?_of_drop {cur : Nat} (h : m.bytes.drop cur = f ++ c :: t) :
    cur + f.length < m.bytes.length ∧ m.at? (cur + f.length) = some c := by
  obtain ⟨hlt, hget⟩ := getD_of_drop h
  refine ⟨hlt, ?_⟩
  rw [Mapped.at?, if_pos (by omega), hget]

/-! ## The head of the loop -/

/-- Blanks, the word `f`, and the byte `c` behind it. -/
structure WordAt (m : Mapped) (cur : Nat) (ws f : List UInt8) (c : UInt8) (t : List UInt8) :
    Prop where
  text : m.bytes.drop cur = ws ++ (f ++ c :: t)
  blanks : ∀ b ∈ ws, isblank b = true
  free : ∀ b ∈ f, b ≠ newline ∧ isnonblank b = true
  stop : Stop c
  /-- the blanks end where the word starts -/
  empty : f = [] → isblank c = false

theorem WordAt.behind {cur : Nat} (h : WordAt m cur ws f c t) :
    m.bytes.drop (cur + ws.length) = f ++ c :: t := drop_append h.text

theorem WordAt.parseWs {cur : Nat} (h : WordAt m cur ws f c t) : parseWs m cur = ws.length := by
  rcases f with - | ⟨b, f⟩
  · exact parseWs_eq h.text h.blanks (h.empty rfl)
  · exact parseWs_eq h.text h.blanks
      (not_isblank_of_nonblank (h.free b List.mem_cons_self).2)

/-- **The head of the loop** finds the blanks, the word and the byte behind it. -/
theorem step_field (buflen : Nat) (hl : s.label = .field) (hi : s.i < 3)
    (h : WordAt m s.cur ws f c t) :
    step m buflen s =
      if s.i = 2 ∧ f = [] then
        .stop (success { s with cur := s.cur + ws.length, j := 0 })
      else
        .again { s with
          cur := s.cur + ws.length
          j := f.length
          found := c
          label := if isblank c = false ∧ (c = hash ∨ (1 < s.i ∧ c ≠ newline))
            then .parseerror else .switch } := by
  obtain ⟨hlt, hat⟩ := at?_of_drop h.behind
  have hnws := parseNws_eq h.behind h.free h.stop
  unfold step
  rw [hl]
  dsimp only
  rw [if_pos hi, h.parseWs, if_neg (by omega), hnws, hat]
  by_cases hf : f = []
  · subst hf
    by_cases h2 : s.i = 2
    · rw [if_pos ⟨h2, rfl⟩, if_pos ⟨h2, rfl⟩]
      rfl
    · rw [if_neg fun hh => h2 hh.1, if_neg fun hh => h2 hh.1]
  · have hlen : f.length ≠ 0 := fun h0 => hf (List.length_eq_zero_iff.mp h0)
    rw [if_neg fun hh => hlen hh.2, if_neg fun hh => hf hh.2]

/-! ## Words that are copied -/

/-- The state behind a word that has been copied. -/
def afterCopy (s : St) (f : List UInt8) (c : UInt8) : St := { s with
  label := .field
  j := f.length
  found := c
  buf := s.buf.store s.n (f ++ [0])
  n := s.n + f.length + 1
  i := (if (c = newline ∨ c = hash) ∧ s.i = 1 then 3 else s.i) + 1
  cur := s.cur + f.length + 1 }

theorem copyField_eq (hf : f ≠ []) (hj : s.j = f.length) (hc : s.found = c)
    (h : m.bytes.drop s.cur = f ++ t) (hfit : s.n + f.length < buflen) :
    copyField m buflen s = .again (afterCopy s f c) := by
  have hlen : f.length ≠ 0 := fun h0 => hf (List.length_eq_zero_iff.mp h0)
  unfold copyField afterCopy
  rw [hj, hc, if_neg hlen, if_neg (by omega), copied_of_drop h]

/-- The state behind the name. -/
def afterName (s : St) (w : Nat) (f : List UInt8) (c : UInt8) : St :=
  afterCopy { s with cur := s.cur + w, name := s.n } f c

/-- The head of the loop goes on to `switch (i)`. -/
theorem step_word (buflen : Nat) (hl : s.label = .field) (hi : s.i < 3)
    (h : WordAt m s.cur ws f c t) (hf : f ≠ []) (hc : c ≠ hash) :
    step m buflen s = .again { s with
      cur := s.cur + ws.length, j := f.length, found := c, label := .switch } := by
  rw [step_field buflen hl hi h, if_neg fun hh => hf hh.2, if_neg]
  rintro ⟨hblank, hh | ⟨hlt, hne⟩⟩
  · exact hc hh
  · rcases h.stop with hb | hb | hb
    · rw [hblank] at hb
      cases hb
    · exact hc hb
    · exact hne hb

theorem name_field (buflen : Nat) (hl : s.label = .field) (hi : s.i = 0) (h : WordAt m s.cur ws f c t)
    (hf : f ≠ []) (hc : c ≠ hash) (hfit : s.n + f.length < buflen) :
    Meets (step m buflen) s (afterName s ws.length f c) := by
  have hswitch (s : St) (hi : s.i = 0) :
      switchField m buflen s = copyField m buflen { s with name := s.n } := if_pos hi
  refine .step (step_word buflen hl (by omega) h hf hc) (.step ?_ (.refl _))
  show switchField m buflen _ = _
  refine (hswitch _ ?_).trans ?_
  · exact hi
  · exact copyField_eq hf rfl rfl h.behind hfit

/-- The state behind the port and the protocol. -/
def afterPort (s : St) (w : Nat) (port proto : List UInt8) (c : UInt8) : St :=
  afterCopy { s with
    cur := s.cur + w + (port.length + 1), port := htons (number port), proto := s.n } proto c

theorem isDigit_nonblank {b : UInt8} (h : isDigit b = true) :
    b ≠ newline ∧ isnonblank b = true := by
  unfold isDigit at h
  rw [Bool.and_eq_true, decide_eq_true_eq, decide_eq_true_eq] at h
  have hne (k : UInt8) (hk : k.toNat < 48) : b ≠ k := by
    rintro rfl
    omega
  unfold isnonblank
  refine ⟨hne _ (by decide), ?_⟩
  rw [Bool.and_eq_true, Bool.and_eq_true, bne_iff_ne, bne_iff_ne, bne_iff_ne]
  exact ⟨⟨hne _ (by decide), hne _ (by decide)⟩, hne _ (by decide)⟩

theorem port_field {port proto : List UInt8} (buflen : Nat) (hl : s.label = .field) (hi : s.i = 1)
    (hport : port.all isDigit = true) (hproto : proto ≠ [])
    (h : WordAt m s.cur ws (port ++ 47 :: proto) c t) (hc : c ≠ hash)
    (hfit : s.n + proto.length < buflen) :
    Meets (step m buflen) s (afterPort s ws.length port proto c) := by
  have hb := h.behind
  rw [List.append_assoc, List.cons_append] at hb
  obtain ⟨-, hat⟩ := at?_of_drop hb
  have hdigits : digits m (s.cur + ws.length) = port := by
    unfold digits
    rw [hb]
    exact takeWhile_stop (List.all_eq_true.mp hport) rfl
  have hscan : scanUlong m (s.cur + ws.length) = some (port.length, number port) := by
    have hscan : scanUlong m (s.cur + ws.length) = _ :=
      scanUlong_eq (k := port.length) (by rw [hdigits]) (by rw [hat]; exact nofun)
    rwa [hdigits] at hscan
  have hbehind : m.bytes.drop (s.cur + ws.length + (port.length + 1)) = proto ++ c :: t := by
    have hd := drop_append (f := port ++ [47]) (t := proto ++ c :: t) (by simpa using hb)
    rwa [List.length_append, List.length_singleton] at hd
  have hlen : (port ++ 47 :: proto).length - (port.length + 1) = proto.length := by
    rw [List.length_append, List.length_cons]
    omega
  have hswitch (s : St) (hi : s.i = 1)
      (hscan : scanUlong m s.cur = some (port.length, number port))
      (hat : m.at? (s.cur + port.length) = some 47) :
      switchField m buflen s = copyField m buflen { s with
        port := htons (number port), proto := s.n, j := s.j - (port.length + 1),
        cur := s.cur + (port.length + 1) } := by
    unfold switchField
    rw [if_neg (by omega), if_pos hi, hscan]
    dsimp only
    rw [hat]
    exact if_neg fun hne => hne rfl
  refine .step (step_word buflen hl (by omega) h (by simp) hc) (.step ?_ (.refl _))
  show switchField m buflen _ = _
  refine (hswitch _ ?_ ?_ ?_).trans ?_
  · exact hi
  · exact hscan
  · exact hat
  · exact copyField_eq hproto hlen rfl hbehind hfit

/-- The state behind an alias that has been copied. -/
def afterAlias (s : St) (w : Nat) (f : List UInt8) (c : UInt8) : St :=
  afterCopy { s with
    cur := s.cur + w, aliases := Function.update s.aliases s.g (some s.n), g := s.g + 1
    i := s.i - 1 } f c

theorem alias_field (buflen : Nat) (hl : s.label = .field) (hi : s.i = 2) (h : WordAt m s.cur ws f c t)
    (hf : f ≠ []) (hc : c ≠ hash) (hg : s.g + 1 < aliasesMax - 1)
    (hfit : s.n + f.length < buflen) :
    Meets (step m buflen) s (afterAlias s ws.length f c) := by
  have hswitch (s : St) (hi : s.i = 2) (hg : s.g + 1 < aliasesMax - 1) :
      switchField m buflen s = copyField m buflen { s with
        aliases := Function.update s.aliases s.g (some s.n), g := s.g + 1, i := s.i - 1 } := by
    unfold switchField
    rw [if_neg (by omega), if_neg (by omega)]
    exact if_neg (Nat.ne_of_lt hg)
  refine .step (step_word buflen hl (by omega) h hf hc) (.step ?_ (.refl _))
  show switchField m buflen _ = _
  refine (hswitch _ ?_ ?_).trans ?_
  · exact hi
  · exact hg
  · exact copyField_eq hf rfl rfl h.behind hfit

/-- A word without a next one ends the call. -/
theorem step_last (buflen : Nat) (hl : s.label = .field) (hi : s.i = 2)
    (h : WordAt m s.cur ws [] c t) :
    step m buflen s = .stop (success { s with cur := s.cur + ws.length, j := 0 }) := by
  rw [step_field buflen hl (by omega) h, if_pos ⟨hi, rfl⟩]

/-- The counter is behind the last field. -/
theorem step_out (m : Mapped) (buflen : Nat) (hl : s.label = .field) (hi : 3 ≤ s.i) :
    step m buflen s = .stop (success s) := by
  unfold step
  rw [hl]
  exact if_neg (Nat.not_lt_of_le hi)

/-! ## Lines without an entry -/

/-- `parseerror:` goes to the next line. -/
theorem parseerror_skips {line rest : List UInt8} (buflen : Nat) (hl : s.label = .parseerror)
    (h : m.bytes.drop (s.cur + s.j) = line ++ newline :: rest) (hn : newline ∉ line) :
    step m buflen s =
      .again { s with label := .again, cur := s.cur + s.j + line.length + 1 } := by
  unfold step
  rw [hl]
  dsimp only
  rw [lineEnd_eq h hn]

/-- Blanks and a comment, or the end of the line behind them. -/
theorem empty_skips (line : List UInt8) {rest : List UInt8} (buflen : Nat) (hl : s.label = .field)
    (hi : s.i = 0)
    (hws : ∀ b ∈ ws, isblank b = true) (hline : line = [] ∨ ∃ f, line = hash :: f)
    (hn : newline ∉ line) (h : m.bytes.drop s.cur = ws ++ (line ++ newline :: rest)) :
    ∃ s', Meets (step m buflen) s s' ∧ s'.label = .again ∧ m.bytes.drop s'.cur = rest := by
  obtain ⟨c, t, hct, hc, hcase⟩ : ∃ c t, line ++ newline :: rest = c :: t ∧
      isblank c = false ∧ (c = hash ∨ c = newline) := by
    rcases hline with rfl | ⟨f, rfl⟩
    · exact ⟨newline, rest, rfl, rfl, .inr rfl⟩
    · exact ⟨hash, f ++ newline :: rest, rfl, rfl, .inl rfl⟩
  have hword : WordAt m s.cur ws [] c t :=
    ⟨by rw [h, hct]; rfl, hws, fun b hb => absurd hb List.not_mem_nil, .inr hcase, fun _ => hc⟩
  have hstep := step_field buflen hl (by omega) hword
  rw [if_neg fun hh => by omega] at hstep
  have hdrop : m.bytes.drop (s.cur + ws.length + ([] : List UInt8).length) =
      line ++ newline :: rest := by
    rw [List.length_nil, Nat.add_zero, drop_append h]
  have hrest : m.bytes.drop (s.cur + ws.length + ([] : List UInt8).length + line.length + 1) =
      rest := by
    have hd := drop_append (f := line ++ [newline]) (t := rest) (by simpa using hdrop)
    rwa [List.length_append, List.length_singleton] at hd
  have hskip (s : St) (hl : s.label = .parseerror)
      (hcur : m.bytes.drop (s.cur + s.j) = line ++ newline :: rest) :=
    parseerror_skips buflen hl hcur hn
  by_cases hh : c = hash
  · rw [if_pos ⟨hc, .inl hh⟩] at hstep
    exact ⟨_, .step hstep (.step (hskip _ rfl hdrop) (.refl _)), rfl, hrest⟩
  · rw [if_neg fun hbad => by
      rcases hbad.2 with hbad | hbad
      · exact hh hbad
      · omega] at hstep
    have hswitch (s : St) (hi : s.i = 0) (hj : s.j = 0) : switchField m buflen s =
        .again { s with name := s.n, label := .parseerror } := by
      unfold switchField copyField
      rw [if_pos hi]
      exact if_pos hj
    exact ⟨_, .step hstep (.step (hswitch _ hi rfl) (.step (hskip _ rfl hdrop) (.refl _))), rfl,
      hrest⟩

end Dietlibc.Netdb
