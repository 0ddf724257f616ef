import Dietlibc.Netdb.Getservent

/-!
# The services file

A file of blank lines, comments and entries, and what the loop over `getservent_r` gives of it.
`services_enumerated`: the entries, in order, with the aliases up to the null pointer. An entry
whose aliases end in front of blanks leaves the rest of its line to the next call, for which it is
a line without an entry.
-/

namespace Dietlibc.Netdb

open Machine Accounts

/-! ## The file -/

def Blanks (ws : List UInt8) : Prop := ∀ b ∈ ws, isblank b = true

/-- `#` and the text up to the end of the line. -/
def commentText : Option (List UInt8) → List UInt8
  | none => []
  | some f => hash :: f

/-- An entry line: every alias with the blanks in front of it. -/
structure Entry where
  name : List UInt8
  gap : List UInt8
  port : List UInt8
  proto : List UInt8
  aliases : List (List UInt8 × List UInt8)
  blanks : List UInt8
  comment : Option (List UInt8)

/-- What follows the protocol. -/
def restText (as : List (List UInt8 × List UInt8)) (blanks : List UInt8)
    (comment : Option (List UInt8)) : List UInt8 :=
  as.flatMap (fun a => a.1 ++ a.2) ++ (blanks ++ commentText comment)

def Entry.text (e : Entry) : List UInt8 :=
  e.name ++ (e.gap ++ (e.port ++ 47 :: (e.proto ++ restText e.aliases e.blanks e.comment)))

/-- Blanks and an alias. -/
def AliasOk (a : List UInt8 × List UInt8) : Prop := a.1 ≠ [] ∧ Blanks a.1 ∧ Token a.2

/-- What follows the aliases: a comment has a blank in front of it. -/
def TailOk (blanks : List UInt8) (comment : Option (List UInt8)) : Prop :=
  Blanks blanks ∧ ∀ f ∈ comment, newline ∉ f ∧ blanks ≠ []

structure Entry.Ok (e : Entry) : Prop where
  name : Token e.name
  gap : e.gap ≠ [] ∧ Blanks e.gap
  port : e.port ≠ [] ∧ e.port.all isDigit = true ∧ decimal e.port < 65536
  proto : Token e.proto
  aliases : ∀ a ∈ e.aliases, AliasOk a
  count : e.aliases.length ≤ 14
  tail : TailOk e.blanks e.comment

inductive Line where
  | blank (blanks : List UInt8)
  | comment (blanks text : List UInt8)
  | entry (e : Entry)

def Line.text : Line → List UInt8
  | .blank blanks => blanks
  | .comment blanks text => blanks ++ hash :: text
  | .entry e => e.text

def Line.Ok : Line → Prop
  | .blank blanks => Blanks blanks
  | .comment blanks text => Blanks blanks ∧ newline ∉ text
  | .entry e => e.Ok

def Line.entry? : Line → Option Entry
  | .entry e => some e
  | _ => none

/-- The bytes of the file. -/
def fileText (lines : List Line) : List UInt8 := lines.flatMap fun l => l.text ++ [newline]

/-! ## The claim -/

/-- `struct servent`, with the strings that the caller reads. -/
structure Servent where
  name : List UInt8
  aliases : List (List UInt8)
  port : Nat
  proto : List UInt8
  deriving DecidableEq

/-- The pointers up to the null pointer. -/
def aliasPointers (slots : Nat → Option Nat) : List Nat :=
  (((List.range aliasesMax).map slots).takeWhile Option.isSome).filterMap id

def readServent (buflen : Nat) (st : St) : Servent where
  name := strAt st.buf buflen st.name
  aliases := (aliasPointers st.aliases).map (strAt st.buf buflen)
  port := st.port
  proto := strAt st.buf buflen st.proto

/-- The entry that a line stands for. A string ends at a NUL, should one be in the file. -/
def Entry.servent (e : Entry) : Servent where
  name := cstring e.name
  aliases := e.aliases.map fun a => cstring a.2
  port := htons (decimal e.port)
  proto := cstring e.proto

/-- The results of the loop over `getservent_r` from a parse position on, up to its failure. -/
inductive Enumerates (m : Mapped) (buflen : Nat) : Nat → List Servent → Prop where
  | failure {cur : Nat} {s : St} {r : Answer} (h : Returns m buflen cur s r) (hr : r.ok = false) :
      Enumerates m buflen cur []
  | entry {cur : Nat} {s : St} {r : Answer} {es : List Servent} (h : Returns m buflen cur s r)
      (hr : r.ok = true) (hes : Enumerates m buflen r.st.cur es) :
      Enumerates m buflen cur (readServent buflen r.st :: es)

variable {m : Mapped} {buflen cur : Nat} {s s' : St} {t f ws blanks : List UInt8} {c : UInt8}
  {comment : Option (List UInt8)} {as : List (List UInt8 × List UInt8)} {e : Entry}
  {lines more : List Line}

/-! ## The pointers -/

theorem aliasPointers_eq {slots : Nat → Option Nat} {ps : List Nat}
    (h : ∀ k ≤ ps.length, slots k = ps[k]?) (hlen : ps.length < aliasesMax) :
    aliasPointers slots = ps := by
  obtain ⟨d, hd⟩ : ∃ d, aliasesMax = ps.length + (d + 1) :=
    ⟨aliasesMax - (ps.length + 1), by omega⟩
  have hps : (List.range ps.length).map slots = ps.map some := by
    refine List.ext_getElem (by simp) fun k hk hk' => ?_
    have hk'' : k < ps.length := by simpa using hk
    rw [List.getElem_map, List.getElem_range, List.getElem_map, h k (Nat.le_of_lt hk''),
      List.getElem?_eq_getElem hk'']
  have hnone : slots ps.length = none := by
    rw [h _ le_rfl, List.getElem?_eq_none le_rfl]
  unfold aliasPointers
  rw [hd, List.range_add, List.map_append, hps, List.range_succ_eq_map, List.map_cons, List.map_cons,
    Nat.add_zero, hnone, List.takeWhile_append_of_pos (by simp),
    List.takeWhile_cons_of_neg (by simp), List.append_nil]
  rw [List.filterMap_map]
  exact List.filterMap_some

/-! ## The aliases -/

/-- What the rest of the call adds: the aliases `fs`. -/
structure Listed (buflen : Nat) (s s' : St) (fs : List (List UInt8)) : Prop where
  name : s'.name = s.name
  port : s'.port = s.port
  proto : s'.proto = s.proto
  buf : ∀ a < s.n, s'.buf a = s.buf a
  slots : ∀ k < s.g, s'.aliases k = s.aliases k
  strings : ∃ ps : List Nat, (∀ k ≤ ps.length, s'.aliases (s.g + k) = ps[k]?) ∧
    List.Forall₂ (fun p f => Holds s'.buf p f ∧ p + f.length + 1 ≤ buflen) ps fs

theorem Listed.of_success (s : St) (cur j : Nat) :
    Listed buflen s (success { s with cur := cur, j := j }).st [] := by
  refine ⟨rfl, rfl, rfl, fun _ _ => rfl, fun k hk => ?_, [], fun k hk => ?_, .nil⟩
  · exact Function.update_of_ne (Nat.ne_of_lt hk) _ _
  · obtain rfl : k = 0 := Nat.le_zero.mp hk
    exact Function.update_self _ _ _

theorem Listed.holds {fs : List (List UInt8)} {p : Nat} (h : Listed buflen s s' fs)
    (hh : Holds s.buf p f) (hle : p + f.length + 1 ≤ s.n) : Holds s'.buf p f := by
  unfold Holds at hh ⊢
  rw [← hh]
  exact Mem.load_congr fun i hi => h.buf _ (by omega)

/-- An alias in front of the others. -/
theorem Listed.cons {fs : List (List UInt8)} (w : Nat)
    (hfit : s.n + f.length + 1 ≤ buflen) (h : Listed buflen (afterAlias s w f c) s' fs) :
    Listed buflen s s' (f :: fs) := by
  obtain ⟨ps, hps, hall⟩ := h.strings
  have hheld : Holds (afterAlias s w f c).buf s.n f := holds_store s.buf s.n f
  refine ⟨h.name, h.port, h.proto, fun a ha => ?_, fun k hk => ?_, s.n :: ps, fun k hk => ?_,
    .cons ⟨h.holds hheld le_rfl, hfit⟩ hall⟩
  · rw [h.buf a (by show a < s.n + f.length + 1; omega)]
    exact Mem.store_out (.inl ha)
  · rw [h.slots k (by show k < s.g + 1; omega)]
    exact Function.update_of_ne (Nat.ne_of_lt hk) _ _
  · rcases k with - | k
    · rw [Nat.add_zero, h.slots s.g (Nat.lt_succ_self s.g)]
      exact Function.update_self _ _ _
    · rw [List.getElem?_cons_succ, ← hps k (by rw [List.length_cons] at hk; omega)]
      show s'.aliases (s.g + (k + 1)) = s'.aliases (s.g + 1 + k)
      rw [Nat.add_right_comm, Nat.add_assoc]

/-- A word has been copied, and `R` with the byte that ended it follows. -/
def Gone (m : Mapped) (s : St) (R : List UInt8) : Prop :=
  (∃ b, isblank b = true ∧ s.i = 2 ∧ R = b :: m.bytes.drop s.cur) ∨
    (s.i = 4 ∧ R = newline :: m.bytes.drop s.cur)

/-- The byte behind a word. -/
def Sep (c : UInt8) : Prop := isblank c = true ∨ c = newline

theorem Sep.stop (h : Sep c) : Stop c := h.imp id .inr

theorem Sep.ne_hash (h : Sep c) : c ≠ hash := by
  rintro rfl
  rcases h with h | h <;> cases h

theorem gone_afterCopy (hi : s.i = 1) (hc : Sep c) (h : m.bytes.drop s.cur = f ++ c :: t) :
    Gone m (afterCopy s f c) (c :: t) := by
  have hdrop : m.bytes.drop (afterCopy s f c).cur = t := by
    have hd := drop_append (f := f ++ [c]) (t := t) (by simpa using h)
    rwa [List.length_append, List.length_singleton] at hd
  rw [← hdrop]
  rcases hc with hb | rfl
  · refine .inl ⟨c, hb, ?_, rfl⟩
    show (if (c = newline ∨ c = hash) ∧ s.i = 1 then 3 else s.i) + 1 = 2
    rw [if_neg, hi]
    rintro ⟨rfl | rfl, -⟩ <;> cases hb
  · refine .inr ⟨?_, rfl⟩
    show (if (newline = newline ∨ newline = hash) ∧ s.i = 1 then 3 else s.i) + 1 = 4
    rw [if_pos ⟨.inl rfl, hi⟩]

theorem restText_cons (a : List UInt8 × List UInt8) (as : List (List UInt8 × List UInt8))
    (blanks : List UInt8) (comment : Option (List UInt8)) :
    restText (a :: as) blanks comment = a.1 ++ (a.2 ++ restText as blanks comment) := by
  simp [restText]

/-- What follows a word starts with a blank or the newline. -/
theorem restText_head (has : ∀ a ∈ as, AliasOk a) (htail : TailOk blanks comment)
    (t : List UInt8) : ∃ c t', restText as blanks comment ++ newline :: t = c :: t' ∧ Sep c := by
  have hblank {ws : List UInt8} (hne : ws ≠ []) (hb : Blanks ws) (t : List UInt8) :
      ∃ c t', ws ++ t = c :: t' ∧ Sep c := by
    obtain ⟨b, ws, rfl⟩ := List.exists_cons_of_ne_nil hne
    exact ⟨b, ws ++ t, rfl, .inl (hb b List.mem_cons_self)⟩
  rcases as with - | ⟨a, as⟩
  · obtain ⟨hb, hcomment⟩ := htail
    by_cases hne : blanks = []
    · rcases comment with - | f
      · exact ⟨newline, t, by simp [restText, hne, commentText], .inr rfl⟩
      · exact absurd hne (hcomment f rfl).2
    · obtain ⟨c, t', ht, hc⟩ := hblank hne hb (commentText comment ++ newline :: t)
      exact ⟨c, t', by simpa [restText] using ht, hc⟩
  · obtain ⟨hne, hb, -⟩ := has a List.mem_cons_self
    obtain ⟨c, t', ht, hc⟩ := hblank hne hb (a.2 ++ (restText as blanks comment ++ newline :: t))
    exact ⟨c, t', by rw [restText_cons]; simpa using ht, hc⟩

/-- The lines that stand for no entry. -/
def Idle (lines : List Line) : Prop := ∀ l ∈ lines, l.Ok ∧ l.entry? = none

/-- **The aliases** are taken one by one, and the call ends behind the last one; what is left of
the line stands for no entry. -/
theorem aliases_listed (buflen : Nat) (has : ∀ a ∈ as, AliasOk a) (htail : TailOk blanks comment)
    (hl : s.label = .field) (hg : s.g + as.length ≤ 14)
    (hgone : Gone m s (restText as blanks comment ++ newline :: t))
    (hfit : s.n + total (as.map (·.2)) ≤ buflen) :
    ∃ r, Stops (step m buflen) s r ∧ r.ok = true ∧ Listed buflen s r.st (as.map (·.2)) ∧
      ∃ idle, Idle idle ∧ m.bytes.drop r.st.cur = fileText idle ++ t := by
  induction as generalizing s with
  | nil =>
    rcases hgone with ⟨b, hb, hi, hR⟩ | ⟨hi, hR⟩
    · -- blanks, and perhaps a comment, are left for the next call
      have hne : blanks ≠ [] := by
        rintro rfl
        rcases comment with - | f
        · obtain rfl : newline = b := (List.cons.inj hR).1
          cases hb
        · exact (htail.2 f rfl).2 rfl
      obtain ⟨b', bs, rfl⟩ := List.exists_cons_of_ne_nil hne
      have hR' : m.bytes.drop s.cur = bs ++ (commentText comment ++ newline :: t) := by
        rw [← (List.cons.inj hR).2]
        simp
      have hbs : Blanks bs := fun b hb => htail.1 b (List.mem_cons_of_mem b' hb)
      obtain ⟨c, t', hct, hc, hstop⟩ : ∃ c t', commentText comment ++ newline :: t = c :: t' ∧
          isblank c = false ∧ Stop c := by
        rcases comment with - | f
        · exact ⟨newline, t, rfl, rfl, .inr (.inr rfl)⟩
        · exact ⟨hash, f ++ newline :: t, rfl, rfl, .inr (.inl rfl)⟩
      have hword : WordAt m s.cur bs [] c t' :=
        ⟨by rw [hR', hct]; rfl, hbs, fun b hb => absurd hb List.not_mem_nil, hstop, fun _ => hc⟩
      refine ⟨_, (stops_stop (step_last buflen hl hi hword)).mpr rfl, rfl,
        Listed.of_success s _ _, ?_⟩
      have hcur : m.bytes.drop (s.cur + bs.length) = commentText comment ++ newline :: t :=
        drop_append hR'
      rcases comment with - | f
      · refine ⟨[.blank []], ?_, hcur⟩
        intro l hl
        rw [List.mem_singleton.mp hl]
        exact ⟨fun b hb => absurd hb List.not_mem_nil, rfl⟩
      · refine ⟨[.comment [] f], ?_, ?_⟩
        · intro l hl
          rw [List.mem_singleton.mp hl]
          exact ⟨⟨fun b hb => absurd hb List.not_mem_nil, (htail.2 f rfl).1⟩, rfl⟩
        · refine hcur.trans ?_
          simp [commentText, fileText, Line.text]
    · have hR' : restText [] blanks comment ++ newline :: t = newline :: t := by
        rcases blanks with - | ⟨b, bs⟩
        · rcases comment with - | f
          · rfl
          · exact absurd rfl (htail.2 f rfl).2
        · have hb := htail.1 b List.mem_cons_self
          obtain rfl : b = newline := (List.cons.inj hR).1
          cases hb
      rw [hR'] at hR
      refine ⟨_, (stops_stop (step_out m buflen hl (by omega))).mpr rfl, rfl,
        Listed.of_success s s.cur s.j, [], fun l hl => absurd hl List.not_mem_nil, ?_⟩
      exact (List.cons.inj hR).2.symm
  | cons a as ih =>
    obtain ⟨hne, hb, htok⟩ := has a List.mem_cons_self
    have has' := fun a' h => has a' (List.mem_cons_of_mem a h)
    rw [List.map_cons, total_cons] at hfit
    rw [List.length_cons] at hg
    obtain ⟨ws, f⟩ := a
    obtain ⟨b', bs, rfl⟩ := List.exists_cons_of_ne_nil (show ws ≠ [] from hne)
    have htok : Token f := htok
    have hfit : s.n + (f.length + 1 + total (as.map (·.2))) ≤ buflen := hfit
    rw [restText_cons] at hgone
    obtain ⟨c, t', hct, hsep⟩ := restText_head has' htail t
    rcases hgone with ⟨b, -, hi, hR⟩ | ⟨-, hR⟩
    · have hR' : m.bytes.drop s.cur = bs ++ (f ++ c :: t') := by
        rw [← (List.cons.inj hR).2, ← hct]
        simp
      have hword : WordAt m s.cur bs f c t' :=
        ⟨hR', fun b hm => hb b (List.mem_cons_of_mem b' hm), htok.free, hsep.stop,
          fun h => absurd h htok.ne_nil⟩
      have hmeets := alias_field buflen hl hi hword htok.ne_nil hsep.ne_hash
        (by unfold aliasesMax; omega) (by omega)
      have hgone' : Gone m (afterAlias s bs.length f c)
          (restText as blanks comment ++ newline :: t) := by
        rw [hct]
        exact gone_afterCopy (by show s.i - 1 = 1; omega) hsep (drop_append hR')
      obtain ⟨r, hr, hok, hlisted, hidle⟩ := ih (s := afterAlias s bs.length f c) has' rfl
        (by show s.g + 1 + as.length ≤ 14; omega) hgone'
        (by show s.n + f.length + 1 + _ ≤ _; omega)
      have hcopied : s.n + f.length + 1 ≤ buflen := by omega
      exact ⟨r, hmeets.stops.mpr hr, hok, hlisted.cons bs.length hcopied, hidle⟩
    · obtain rfl : b' = newline := (List.cons.inj hR).1
      have := hb newline List.mem_cons_self
      cases this

/-! ## Lines -/

theorem total_aliases_le (has : ∀ a ∈ as, AliasOk a) (blanks : List UInt8)
    (comment : Option (List UInt8)) :
    total (as.map (·.2)) ≤ (restText as blanks comment).length := by
  induction as with
  | nil => exact Nat.zero_le _
  | cons a as ih =>
    rw [List.forall_mem_cons] at has
    have hpos := List.length_pos_iff.mpr has.1.1
    have := ih has.2
    rw [restText_cons, List.map_cons, total_cons, List.length_append, List.length_append]
    omega

/-- A line without an entry is left behind. -/
theorem idle_skips {l : Line} (buflen : Nat) (hok : l.Ok) (hidle : l.entry? = none)
    (hl : s.label = .again) (h : m.bytes.drop s.cur = l.text ++ newline :: t) :
    ∃ s', Meets (step m buflen) s s' ∧ s'.label = .again ∧ m.bytes.drop s'.cur = t := by
  have hstep : step m buflen s =
      .again { s with label := .field, n := aliasesMax * 8, g := 0, i := 0 } := by
    unfold step
    rw [hl]
  cases l with
  | blank blanks =>
    obtain ⟨s', hm, hs'⟩ := empty_skips [] buflen
      (s := { s with label := .field, n := aliasesMax * 8, g := 0, i := 0 }) rfl rfl hok (.inl rfl)
      List.not_mem_nil h
    exact ⟨s', .step hstep hm, hs'⟩
  | comment blanks text =>
    have hn : newline ∉ hash :: text := by
      rw [List.mem_cons, not_or]
      exact ⟨by decide, hok.2⟩
    obtain ⟨s', hm, hs'⟩ := empty_skips (hash :: text) buflen
      (s := { s with label := .field, n := aliasesMax * 8, g := 0, i := 0 }) rfl rfl hok.1
      (.inr ⟨text, rfl⟩) hn (by rw [← List.append_assoc]; exact h)
    exact ⟨s', .step hstep hm, hs'⟩
  | entry e => cases hidle

/-- **An entry line** ends the call with the entry it stands for. -/
theorem entry_returns (buflen : Nat) (hok : e.Ok) (hl : s.label = .again)
    (h : m.bytes.drop s.cur = e.text ++ newline :: t)
    (hfit : aliasesMax * 8 + e.text.length + 1 ≤ buflen) :
    ∃ r, Stops (step m buflen) s r ∧ r.ok = true ∧ readServent buflen r.st = e.servent ∧
      ∃ idle, Idle idle ∧ m.bytes.drop r.st.cur = fileText idle ++ t := by
  obtain ⟨name, gap, port, proto, as, blanks, comment⟩ := e
  obtain ⟨hname, ⟨hgap, hgapb⟩, ⟨-, hport, hvalue⟩, hproto, has, hcount, htail⟩ := hok
  dsimp only at hname hgap hgapb hport hvalue hproto has hcount htail
  obtain ⟨b, gap, rfl⟩ := List.exists_cons_of_ne_nil hgap
  obtain ⟨c, t', hct, hsep⟩ := restText_head has htail t
  have htotal := total_aliases_le has blanks comment
  simp only [Entry.text, List.length_append, List.length_cons] at hfit
  have hb := hgapb b List.mem_cons_self
  -- the name
  set s0 : St := { s with label := .field, n := aliasesMax * 8, g := 0, i := 0 } with hs0
  have hstep : step m buflen s = .again s0 := by
    unfold step
    rw [hl]
  have htext : m.bytes.drop s.cur =
      name ++ b :: (gap ++ ((port ++ 47 :: proto) ++ c :: t')) := by
    rw [h, ← hct]
    simp [Entry.text]
  have hword : WordAt m s0.cur [] name b (gap ++ ((port ++ 47 :: proto) ++ c :: t')) :=
    ⟨htext, fun b hb => absurd hb List.not_mem_nil, hname.free, .inl hb,
      fun h => absurd h hname.ne_nil⟩
  have hbn : b ≠ newline ∧ b ≠ hash := by
    constructor <;> (rintro rfl; cases hb)
  have hm1 := name_field buflen rfl rfl hword hname.ne_nil hbn.2
    (by show aliasesMax * 8 + _ < _; omega)
  -- the port and the protocol
  set s1 := afterName s0 ([] : List UInt8).length name b with hs1
  have htext1 : m.bytes.drop s1.cur = gap ++ ((port ++ 47 :: proto) ++ c :: t') := by
    have hd := drop_append (f := name ++ [b]) (t := gap ++ ((port ++ 47 :: proto) ++ c :: t'))
      (by simpa using htext)
    rwa [List.length_append, List.length_singleton] at hd
  have hi1 : s1.i = 1 := by
    show (if (b = newline ∨ b = hash) ∧ (0 : Nat) = 1 then 3 else 0) + 1 = 1
    rw [if_neg fun hh => by cases hh.2]
  have hword1 : WordAt m s1.cur gap (port ++ 47 :: proto) c t' := by
    refine ⟨htext1, fun b' hb' => hgapb b' (List.mem_cons_of_mem b hb'), fun x hx => ?_, hsep.stop,
      fun h => absurd h (by simp)⟩
    rcases List.mem_append.mp hx with hx | hx
    · exact isDigit_nonblank (List.all_eq_true.mp hport x hx)
    · rcases List.mem_cons.mp hx with rfl | hx
      · decide
      · exact hproto.free x hx
  have hm2 := port_field buflen rfl hi1 hport hproto.ne_nil hword1 hsep.ne_hash
    (by show aliasesMax * 8 + name.length + 1 + proto.length < buflen; omega)
  -- the aliases
  set s2 := afterPort s1 gap.length port proto c with hs2
  have hgone : Gone m s2 (restText as blanks comment ++ newline :: t) := by
    rw [hct]
    refine gone_afterCopy hi1 hsep ?_
    have hd := drop_append (f := gap ++ (port ++ [47])) (t := proto ++ c :: t')
      (by simpa using htext1)
    rw [List.length_append, List.length_append, List.length_singleton, ← Nat.add_assoc] at hd
    exact hd
  obtain ⟨r, hr, hok, hlisted, hidle⟩ := aliases_listed (s := s2) buflen has htail rfl
    (by show 0 + as.length ≤ 14; omega) hgone
    (by show aliasesMax * 8 + name.length + 1 + proto.length + 1 + _ ≤ _; omega)
  refine ⟨r, ((stops_again hstep).mpr (hm1.stops.mpr (hm2.stops.mpr hr))), hok, ?_, hidle⟩
  have hname' : Holds s2.buf s2.name name :=
    (holds_store s0.buf (aliasesMax * 8) name).store (by show _ ≤ aliasesMax * 8 + _ + 1; omega) _
  have hproto' : Holds s2.buf s2.proto proto :=
    holds_store s1.buf (aliasesMax * 8 + name.length + 1) proto
  have hnameAt : strAt _ buflen _ = _ := (hlisted.holds hname' (by
    show aliasesMax * 8 + _ + 1 ≤ aliasesMax * 8 + _ + 1 + _ + 1; omega)).strAt
    (by show aliasesMax * 8 + _ + 1 ≤ _; omega)
  have hprotoAt : strAt _ buflen _ = _ := (hlisted.holds hproto' le_rfl).strAt
    (by show aliasesMax * 8 + _ + 1 + _ + 1 ≤ _; omega)
  obtain ⟨ps, hps, hall⟩ := hlisted.strings
  have hlen : ps.length = as.length := by
    rw [hall.length_eq, List.length_map]
  have hpointers : aliasPointers r.st.aliases = ps := by
    refine aliasPointers_eq (fun k hk => ?_) (by unfold aliasesMax; omega)
    rw [← hps k hk]
    exact congrArg r.st.aliases (Nat.zero_add k).symm
  have hstrings := strings_at hall
  have hnumber : number port = decimal port := by
    rw [decimal_eq]
    exact Nat.mod_eq_of_lt (by omega)
  unfold readServent Entry.servent
  rw [hlisted.name, hlisted.port, hlisted.proto, hpointers, hstrings, hnameAt, hprotoAt,
    List.map_map]
  show Servent.mk _ _ (htons (number port)) _ = _
  rw [hnumber]
  rfl

/-! ## Calls -/

theorem fileText_cons (l : Line) (lines : List Line) :
    fileText (l :: lines) = l.text ++ newline :: fileText lines := by
  simp [fileText]

theorem fileText_append (lines more : List Line) :
    fileText (lines ++ more) = fileText lines ++ fileText more := List.flatMap_append

/-- Lines without an entry are left behind. -/
theorem idle_lines (buflen : Nat) (hidle : Idle lines) (hl : s.label = .again)
    (h : m.bytes.drop s.cur = fileText lines ++ t) :
    ∃ s', Meets (step m buflen) s s' ∧ s'.label = .again ∧ m.bytes.drop s'.cur = t := by
  induction lines generalizing s with
  | nil => exact ⟨s, .refl s, hl, h⟩
  | cons l lines ih =>
    have hl' := hidle l List.mem_cons_self
    rw [fileText_cons, List.append_assoc, List.cons_append] at h
    obtain ⟨s1, hm1, hl1, ht1⟩ := idle_skips buflen hl'.1 hl'.2 hl h
    obtain ⟨s', hm, hs'⟩ := ih (fun l hl => hidle l (List.mem_cons_of_mem _ hl)) hl1 ht1
    exact ⟨s', hm1.trans hm, hs'⟩

/-- At the end of the file a call fails. -/
theorem end_fails (buflen : Nat) (hl : s.label = .again) (h : m.bytes.drop s.cur = []) :
    ∃ r, Stops (step m buflen) s r ∧ r.ok = false := by
  have hstep : step m buflen s =
      .again { s with label := .field, n := aliasesMax * 8, g := 0, i := 0 } := by
    unfold step
    rw [hl]
  have hle := List.drop_eq_nil_iff.mp h
  have hstop (s : St) (hl : s.label = .field) (hi : s.i = 0) (hcur : m.bytes.length ≤ s.cur) :
      step m buflen s = .stop ⟨false, { s with cur := s.cur + parseWs m s.cur }⟩ := by
    unfold step
    rw [hl]
    dsimp only
    rw [if_pos (by omega), if_pos (by omega), if_neg (by omega)]
  refine ⟨_, (stops_again hstep).mpr ((stops_stop (hstop _ ?_ ?_ ?_)).mpr rfl), rfl⟩
  · rfl
  · rfl
  · exact hle

/-- The first entry line and the lines in front of it. -/
theorem idle_or_entry (hok : ∀ l ∈ lines, l.Ok) :
    Idle lines ∨ ∃ idle e more, lines = idle ++ .entry e :: more ∧ Idle idle ∧ e.Ok ∧
      ∀ l ∈ more, l.Ok := by
  induction lines with
  | nil => exact .inl fun l hl => absurd hl List.not_mem_nil
  | cons l lines ih =>
    rw [List.forall_mem_cons] at hok
    cases hl : l.entry? with
    | some e =>
      cases l with
      | entry e => exact .inr ⟨[], e, lines, rfl, fun l hl => absurd hl List.not_mem_nil, hok⟩
      | _ => cases hl
    | none =>
      rcases ih hok.2 with hidle | ⟨idle, e, more, rfl, hidle, he, hmore⟩
      · exact .inl (List.forall_mem_cons.mpr ⟨⟨hok.1, hl⟩, hidle⟩)
      · exact .inr ⟨l :: idle, e, more, rfl, List.forall_mem_cons.mpr ⟨⟨hok.1, hl⟩, hidle⟩, he,
          hmore⟩

theorem entries_idle (h : Idle lines) : lines.filterMap Line.entry? = [] := by
  rw [List.filterMap_eq_nil_iff]
  exact fun l hl => (h l hl).2

/-- The first step of a call. -/
theorem returns_again {r : Answer} (hlt : cur < m.bytes.length) (s : St)
    (h : Stops (step m buflen) { s with label := .again, cur := cur } r) :
    Returns m buflen cur s r := by
  have hstep : step m buflen { s with label := .entry, cur := cur } =
      .again { s with label := .again, cur := cur } := if_neg (Nat.not_le_of_lt hlt)
  exact (stops_again hstep).mpr h

/-- What a call does with the lines that are left. -/
theorem call_lines (hok : ∀ l ∈ lines, l.Ok) (h : m.bytes.drop cur = fileText lines)
    (hlen : aliasesMax * 8 + m.bytes.length ≤ buflen) (s : St) :
    (lines.filterMap Line.entry? = [] ∧ ∃ r, Returns m buflen cur s r ∧ r.ok = false) ∨
      ∃ e more, lines.filterMap Line.entry? = e :: more.filterMap Line.entry? ∧
        (∀ l ∈ more, l.Ok) ∧ ∃ r, Returns m buflen cur s r ∧ r.ok = true ∧
          readServent buflen r.st = e.servent ∧ m.bytes.drop r.st.cur = fileText more := by
  rcases idle_or_entry hok with hidle | ⟨idle, e, more, rfl, hidle, he, hmore⟩
  · refine .inl ⟨entries_idle hidle, ?_⟩
    by_cases hcur : m.bytes.length ≤ cur
    · have hstop : step m buflen { s with label := .entry, cur := cur } =
          .stop ⟨false, { s with label := .entry, cur := cur }⟩ := if_pos hcur
      exact ⟨_, (stops_stop hstop).mpr rfl, rfl⟩
    · obtain ⟨s', hm, hl, ht⟩ := idle_lines buflen (t := [])
        (s := { s with label := .again, cur := cur }) hidle rfl (by rw [List.append_nil]; exact h)
      obtain ⟨r, hr, hrok⟩ := end_fails buflen hl ht
      exact ⟨r, returns_again (Nat.lt_of_not_le hcur) s (hm.stops.mpr hr), hrok⟩
  · right
    rw [fileText_append, fileText_cons] at h
    have hlt : cur < m.bytes.length := by
      by_contra hge
      rw [List.drop_eq_nil_of_le (Nat.le_of_not_lt hge)] at h
      simpa using congrArg List.length h
    have htotal := congrArg List.length h
    rw [List.length_drop, List.length_append, List.length_append, List.length_cons] at htotal
    obtain ⟨s', hm, hl, ht⟩ := idle_lines buflen
      (s := { s with label := .again, cur := cur }) hidle rfl h
    obtain ⟨r, hr, hrok, hread, idle', hidle', ht'⟩ := entry_returns buflen he hl ht
      (by change _ + (Line.entry e).text.length + 1 ≤ _; omega)
    refine ⟨e, idle' ++ more, ?_, ?_, r, returns_again hlt s (hm.stops.mpr hr), hrok, hread, ?_⟩
    · rw [List.filterMap_append, List.filterMap_append, entries_idle hidle, entries_idle hidle',
        List.nil_append, List.nil_append]
      rfl
    · intro l hl
      rcases List.mem_append.mp hl with hl | hl
      · exact (hidle' l hl).1
      · exact hmore l hl
    · rw [ht', fileText_append]

/-! ## The loop -/

theorem enumerates_lines (hok : ∀ l ∈ lines, l.Ok) (h : m.bytes.drop cur = fileText lines)
    (hlen : aliasesMax * 8 + m.bytes.length ≤ buflen) (s : St) :
    Enumerates m buflen cur ((lines.filterMap Line.entry?).map Entry.servent) ∧
      ∀ es, Enumerates m buflen cur es → es = (lines.filterMap Line.entry?).map Entry.servent := by
  induction hn : (lines.filterMap Line.entry?).length generalizing lines cur with
  | zero =>
    have hnil := List.length_eq_zero_iff.mp hn
    have hcall (s : St) : ∃ r, Returns m buflen cur s r ∧ r.ok = false := by
      rcases call_lines hok h hlen s with ⟨-, hr⟩ | ⟨e, more, he, -⟩
      · exact hr
      · rw [hnil] at he
        cases he
    rw [hnil]
    refine ⟨?_, fun es hes => ?_⟩
    · obtain ⟨r, hr, hrok⟩ := hcall s
      exact .failure hr hrok
    · cases hes with
      | failure h hr => rfl
      | entry h hr hes =>
        obtain ⟨r', hr', hrok'⟩ := hcall _
        rw [stops_unique h hr', hrok'] at hr
        cases hr
  | succ n ih =>
    have hcall (s : St) : ∃ e more, lines.filterMap Line.entry? = e :: more.filterMap Line.entry? ∧
        (∀ l ∈ more, l.Ok) ∧ ∃ r, Returns m buflen cur s r ∧ r.ok = true ∧
          readServent buflen r.st = e.servent ∧ m.bytes.drop r.st.cur = fileText more := by
      rcases call_lines hok h hlen s with ⟨hnil, -⟩ | hcall
      · rw [hnil] at hn
        cases hn
      · exact hcall
    refine ⟨?_, fun es hes => ?_⟩
    · obtain ⟨e, more, he, hmore, r, hr, hrok, hread, ht⟩ := hcall s
      rw [he, List.length_cons] at hn
      rw [he, List.map_cons, ← hread]
      exact .entry hr hrok (ih hmore ht (Nat.succ.inj hn)).1
    · cases hes with
      | failure h hr =>
        obtain ⟨-, -, -, -, r', hr', hrok', -⟩ := hcall _
        rw [stops_unique h hr', hrok'] at hr
        cases hr
      | entry h hr hes =>
        obtain ⟨e, more, he, hmore, r', hr', -, hread, ht⟩ := hcall _
        cases stops_unique h hr'
        rw [he, List.length_cons] at hn
        rw [he, List.map_cons, hread, (ih hmore ht (Nat.succ.inj hn)).2 _ hes]

/-- The caller's memory before the first call. -/
def anySt : St where
  label := .entry
  cur := 0
  i := 0
  j := 0
  n := 0
  g := 0
  found := 0
  buf := fun _ => 0
  name := 0
  port := 0
  proto := 0
  aliases := fun _ => none

/-- **The enumeration is faithful**: the loop over `getservent_r` ends, and gives the entries of
the file in their order. -/
theorem services_enumerated (lines : List Line) (hok : ∀ l ∈ lines, l.Ok) (pad buflen : Nat)
    (hlen : aliasesMax * 8 + (fileText lines).length ≤ buflen) :
    Enumerates ⟨fileText lines, pad⟩ buflen 0 ((lines.filterMap Line.entry?).map Entry.servent) ∧
      ∀ es, Enumerates ⟨fileText lines, pad⟩ buflen 0 es →
        es = (lines.filterMap Line.entry?).map Entry.servent :=
  enumerates_lines hok rfl hlen anySt

/-- `# x`, an empty line and `a 7/t b # c` -/
def threeLines : List Line :=
  [.comment [] [32, 120], .blank [], .entry ⟨[97], [32], [55], [116], [([32], [98])], [32],
    some [32, 99]⟩]

theorem services_enumerated_threeLines :
    Enumerates ⟨fileText threeLines, 0⟩ 200 0 [⟨[97], [[98]], 1792, [116]⟩] := by
  refine (services_enumerated threeLines ?_ 0 200 (by decide)).1
  have hblanks : Blanks [32] := by simp [Blanks, isblank]
  have htoken {b : UInt8} (hb : b ≠ newline ∧ isnonblank b = true) : Token [b] :=
    ⟨List.cons_ne_nil _ _, by simpa using hb⟩
  have hnil : Blanks [] := fun b hb => absurd hb List.not_mem_nil
  simp only [threeLines, List.forall_mem_cons]
  refine ⟨⟨hnil, by decide⟩, hnil, ⟨htoken (by decide), ⟨by simp, hblanks⟩, ⟨by simp, rfl, by decide⟩,
    htoken (by decide), ?_, by decide, hblanks, ?_⟩, by simp⟩
  · simpa [AliasOk] using ⟨hblanks, htoken (by decide)⟩
  · intro f hf
    cases hf
    exact ⟨by decide, List.cons_ne_nil _ _⟩

end Dietlibc.Netdb
