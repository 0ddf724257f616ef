import Mathlib.Data.List.TakeWhile
import Dietlibc.Dns.ResolvConf

/-!
# Which `resolv.conf` is parsed to its end

`FileOk` is a condition on the text of the file alone: it walks over the lines and asks of the
line of a keyword which bytes it has and how many entries. `stops_iff_fileOk` says that the
machine of the parse loop comes to its end, with both counts in range, exactly for these texts.
-/

namespace Dietlibc.Dns

open Machine Inet

/-- The text in front of the newline. -/
def line (buf : List UInt8) : List UInt8 := buf.takeWhile (· != 10)

section

variable (sep word : UInt8 → Bool)

/-- The line has only the bytes that a turn of its loop moves over. -/
def Plain (buf : List UInt8) : Prop := ∀ c ∈ line buf, sep c ∨ word c

/-- The text behind the next word. -/
def behindWord (buf : List UInt8) : List UInt8 := (buf.dropWhile sep).dropWhile word

/-- The next word. -/
def nextWord (buf : List UInt8) : List UInt8 := (buf.dropWhile sep).takeWhile word

/-- The words of a line, each with the length of the text behind it. -/
def entries (buf : List UInt8) : List (List UInt8 × Nat) :=
  if atEol buf then []
  else if behindWord sep word buf = [] then []
  else if (behindWord sep word buf).length < buf.length then
    (nextWord sep word buf, (behindWord sep word buf).length) :: entries (behindWord sep word buf)
  else []
termination_by buf.length

variable {sep word} {buf : List UInt8}

theorem entries_eol (h : atEol buf) : entries sep word buf = [] := by
  rw [entries, if_pos h]

theorem entries_last (h : ¬ atEol buf) (hb : behindWord sep word buf = []) :
    entries sep word buf = [] := by
  rw [entries, if_neg h, if_pos hb]

theorem entries_word (h : ¬ atEol buf) (hb : behindWord sep word buf ≠ [])
    (hlt : (behindWord sep word buf).length < buf.length) :
    entries sep word buf = (nextWord sep word buf, (behindWord sep word buf).length) ::
      entries sep word (behindWord sep word buf) := by
  rw [entries, if_neg h, if_neg hb, if_pos hlt]

theorem line_append {pre rest : List UInt8} (h : ∀ c ∈ pre, c ≠ 10) :
    line (pre ++ rest) = pre ++ line rest :=
  List.takeWhile_append_of_pos (by simpa using h)

theorem toNewline_append {pre rest : List UInt8} (h : ∀ c ∈ pre, c ≠ 10) :
    toNewline (pre ++ rest) = toNewline rest :=
  List.dropWhile_append_of_pos (by simpa using h)

theorem plain_eol (h : atEol buf) : Plain sep word buf := by
  intro c hc
  cases buf with
  | nil => cases hc
  | cons b t =>
    rw [line, List.takeWhile_cons_of_neg (by simpa [atEol] using h)] at hc
    cases hc

theorem newline_eol (h : atEol buf) : buf = [] ∨ 10 ∈ buf := by
  cases buf with
  | nil => exact .inl rfl
  | cons b t =>
    have hb : b = 10 := by simpa [atEol] using h
    exact .inr (by simp [hb])

theorem toNewline_eol (h : atEol buf) : toNewline buf = buf := by
  cases buf with
  | nil => rfl
  | cons b t => exact List.dropWhile_cons_of_neg (by simpa [atEol] using h)

/-- What a turn moves over: separators and a word. -/
theorem exists_moved (sep word : UInt8 → Bool) (buf : List UInt8) :
    ∃ pre, buf = pre ++ behindWord sep word buf ∧ ∀ c ∈ pre, sep c ∨ word c := by
  refine ⟨buf.takeWhile sep ++ nextWord sep word buf, ?_, ?_⟩
  · rw [List.append_assoc, nextWord, behindWord, List.takeWhile_append_dropWhile,
      List.takeWhile_append_dropWhile]
  · intro c hc
    rcases List.mem_append.mp hc with hc | hc
    · exact .inl (List.mem_takeWhile_imp hc)
    · exact .inr (List.mem_takeWhile_imp hc)

section

variable (hs : sep 10 = false) (hw : word 10 = false)

include hs hw

theorem ne_newline {c : UInt8} (h : sep c ∨ word c) : c ≠ 10 := by
  rintro rfl
  rw [hs, hw] at h
  simp at h

theorem plain_behindWord : Plain sep word buf ↔ Plain sep word (behindWord sep word buf) := by
  obtain ⟨pre, hpre, hall⟩ := exists_moved sep word buf
  have hne : ∀ c ∈ pre, c ≠ 10 := fun c hc => ne_newline hs hw (hall c hc)
  unfold Plain
  constructor
  · intro h c hc
    apply h
    rw [hpre, line_append hne]
    exact List.mem_append_right _ hc
  · intro h c hc
    rw [hpre, line_append hne] at hc
    rcases List.mem_append.mp hc with hc | hc
    · exact hall c hc
    · exact h c hc

theorem toNewline_behindWord : toNewline (behindWord sep word buf) = toNewline buf := by
  obtain ⟨pre, hpre, hall⟩ := exists_moved sep word buf
  conv_rhs => rw [hpre]
  exact (toNewline_append fun c hc => ne_newline hs hw (hall c hc)).symm

theorem mem_behindWord : 10 ∈ behindWord sep word buf ↔ 10 ∈ buf := by
  obtain ⟨pre, hpre, hall⟩ := exists_moved sep word buf
  conv_rhs => rw [hpre, List.mem_append]
  constructor
  · exact .inr
  · rintro (h | h)
    · exact absurd rfl (ne_newline hs hw (hall 10 h))
    · exact h

theorem plain_of_behindWord_nil (h : behindWord sep word buf = []) : Plain sep word buf := by
  rw [plain_behindWord hs hw, h]
  intro c hc
  cases hc

theorem toNewline_of_behindWord_nil (h : behindWord sep word buf = []) : toNewline buf = [] := by
  rw [← toNewline_behindWord hs hw, h]
  rfl

end

/-- A turn that does not move is at a byte that does not belong on the line. -/
theorem stuck (h : ¬ (behindWord sep word buf).length < buf.length) :
    behindWord sep word buf = buf ∧ ∀ c t, buf = c :: t → ¬ (sep c ∨ word c) := by
  obtain ⟨pre, hpre, hall⟩ := exists_moved sep word buf
  have hlen := congrArg List.length hpre
  rw [List.length_append] at hlen
  have hnil : pre = [] := List.length_eq_zero_iff.mp (by omega)
  rw [hnil, List.nil_append] at hpre
  refine ⟨hpre.symm, ?_⟩
  rintro c t rfl
  rw [behindWord] at hpre
  by_cases hc : sep c
  · have hle := List.length_dropWhile_le word (t.dropWhile sep)
    have hle' := List.length_dropWhile_le sep t
    rw [List.dropWhile_cons_of_pos hc] at hpre
    have hl := congrArg List.length hpre
    rw [List.length_cons] at hl
    omega
  · rw [List.dropWhile_cons_of_neg hc] at hpre
    intro h'
    rcases h' with h' | h'
    · exact hc h'
    · have hle := List.length_dropWhile_le word t
      rw [List.dropWhile_cons_of_pos h'] at hpre
      have hl := congrArg List.length hpre
      rw [List.length_cons] at hl
      omega

theorem nextWord_stuck (h : ∀ c t, buf = c :: t → ¬ (sep c ∨ word c)) :
    nextWord sep word buf = [] := by
  cases buf with
  | nil => rfl
  | cons c t =>
    have hc := not_or.mp (h c t rfl)
    rw [nextWord, List.dropWhile_cons_of_neg hc.1, List.takeWhile_cons_of_neg hc.2]

theorem not_plain_of_stuck (heol : ¬ atEol buf)
    (h : ¬ (behindWord sep word buf).length < buf.length) : ¬ Plain sep word buf := by
  obtain ⟨-, hst⟩ := stuck h
  cases buf with
  | nil => exact absurd rfl heol
  | cons c t =>
    intro hp
    have hc : c ≠ 10 := by simpa [atEol] using heol
    exact hst c t rfl (hp c (by simp [line, hc]))

end

/-! ## The lines of the keywords -/

/-- A byte of an address: `!isspace(*buf)`. -/
def isAddress (ch : UInt8) : Bool := !isspace ch

/-- How many addresses of a `nameserver` line are stored. -/
def servers (buf : List UInt8) : Nat :=
  (entries isblank isAddress buf).countP fun e => parsesockaddr e.1

/-- An entry of a `search` line that gets a place. -/
def Stored (strdup : Nat → Bool) (e : List UInt8 × Nat) : Prop := e.1 ≠ [] ∧ strdup e.2

instance (strdup : Nat → Bool) (e : List UInt8 × Nat) : Decidable (Stored strdup e) :=
  inferInstanceAs (Decidable (_ ∧ _))

/-- How many domains of a `search` line get a place. -/
def stored (strdup : Nat → Bool) (es : List (List UInt8 × Nat)) : Nat :=
  es.countP fun e => Stored strdup e

/-- There is a place for each entry of a `search` line when its turn comes. -/
def Room (strdup : Nat → Bool) : Nat → List (List UInt8 × Nat) → Prop
  | _, [] => True
  | search, e :: es => search < maxDomains ∧ Room strdup (search + stored strdup [e]) es

/-- A `nameserver` line, at which `nscount` addresses are known. -/
def ServerLine (nscount : Nat) (buf : List UInt8) : Prop :=
  Plain isblank isAddress buf ∧ nscount + servers buf ≤ maxns

/-- The entries of a `search` line. -/
def domainEntries (buf : List UInt8) : List (List UInt8 × Nat) := entries isSeparator isDomain buf

/-- A `search` or `domain` line, at which `search` domains are known. -/
def DomainLine (strdup : Nat → Bool) (search : Nat) (buf : List UInt8) : Prop :=
  (buf = [] ∨ 10 ∈ buf) ∧ Plain isSeparator isDomain buf ∧ Room strdup search (domainEntries buf)

section

variable {strdup : Nat → Bool} {buf : List UInt8} {nscount search : Nat} {r : Nat × Nat}

theorem stored_singleton (e : List UInt8 × Nat) :
    stored strdup [e] = if Stored strdup e then 1 else 0 := by
  simp [stored, List.countP_cons]

theorem stored_cons (strdup : Nat → Bool) (e : List UInt8 × Nat) (es : List (List UInt8 × Nat)) :
    stored strdup (e :: es) = stored strdup [e] + stored strdup es := by
  rw [stored, List.countP_cons, stored_singleton, Nat.add_comm]
  simp [stored]

theorem parsesockaddr_nil : parsesockaddr [] = true := by
  have h : (inetAton (cString [])).isSome = true := by
    rw [inetAton, atonLoop_eq]
    decide
  rw [parsesockaddr, h, Bool.true_or]

theorem scanTurn_server_eol (h : atEol buf) :
    scanTurn strdup ⟨.server, buf, nscount, search⟩ =
      .again ⟨.lines, skipLine buf, nscount, search⟩ :=
  if_pos h

theorem scanTurn_server_last (h : ¬ atEol buf) (hb : behindWord isblank isAddress buf = []) :
    scanTurn strdup ⟨.server, buf, nscount, search⟩ = .again ⟨.lines, [], nscount, search⟩ := by
  show serverTurn _ = _
  unfold serverTurn
  rw [if_neg h]
  exact if_pos hb

theorem scanTurn_server_word (h : ¬ atEol buf) (hb : behindWord isblank isAddress buf ≠ []) :
    scanTurn strdup ⟨.server, buf, nscount, search⟩ =
      if parsesockaddr (nextWord isblank isAddress buf) then
        if nscount < maxns then
          .again ⟨.server, behindWord isblank isAddress buf, nscount + 1, search⟩
        else .fault .write
      else .again ⟨.server, behindWord isblank isAddress buf, nscount, search⟩ := by
  show serverTurn _ = _
  unfold serverTurn
  rw [if_neg h]
  exact if_neg hb

theorem scanTurn_domains_eol (h : atEol buf) :
    scanTurn strdup ⟨.domains, buf, nscount, search⟩ = .again ⟨.lines, buf, nscount, search⟩ :=
  if_pos h

theorem scanTurn_domains_full (h : ¬ atEol buf) (hs : maxDomains ≤ search) :
    scanTurn strdup ⟨.domains, buf, nscount, search⟩ = .fault .write := by
  show domainTurn strdup _ = _
  unfold domainTurn
  rw [if_neg h]
  exact if_pos hs

theorem scanTurn_domains_last (h : ¬ atEol buf) (hs : search < maxDomains)
    (hb : behindWord isSeparator isDomain buf = []) :
    scanTurn strdup ⟨.domains, buf, nscount, search⟩ = .fault .read := by
  show domainTurn strdup _ = _
  unfold domainTurn
  rw [if_neg h]
  dsimp only
  rw [if_neg (Nat.not_le_of_lt hs)]
  exact if_pos hb

theorem scanTurn_domains_word (h : ¬ atEol buf) (hs : search < maxDomains)
    (hb : behindWord isSeparator isDomain buf ≠ []) :
    scanTurn strdup ⟨.domains, buf, nscount, search⟩ =
      .again ⟨.domains, behindWord isSeparator isDomain buf, nscount,
        search + stored strdup [(nextWord isSeparator isDomain buf,
          (behindWord isSeparator isDomain buf).length)]⟩ := by
  show domainTurn strdup _ = _
  unfold domainTurn
  rw [if_neg h]
  dsimp only
  rw [if_neg (Nat.not_le_of_lt hs), if_neg (by exact hb)]
  by_cases hst : Stored strdup (nextWord isSeparator isDomain buf,
      (behindWord isSeparator isDomain buf).length)
  · rw [if_pos (by exact hst), stored_singleton, if_pos hst]
    rfl
  · rw [if_neg (by exact hst), stored_singleton, if_neg hst]
    rfl

theorem behindWord_stuck (heol : ¬ atEol buf) {sep word : UInt8 → Bool}
    (h : ¬ (behindWord sep word buf).length < buf.length) : behindWord sep word buf ≠ [] := by
  rw [(stuck h).1]
  rintro rfl
  exact heol rfl

/-- At a space that is no blank the empty word is stored as an address, turn after turn. -/
theorem server_stuck (heol : ¬ atEol buf)
    (h : ¬ (behindWord isblank isAddress buf).length < buf.length) :
    ¬ Stops (scanTurn strdup) ⟨.server, buf, nscount, search⟩ r := by
  obtain ⟨hself, hhead⟩ := stuck h
  have hturn (n : Nat) : scanTurn strdup ⟨.server, buf, n, search⟩ =
      if n < maxns then .again ⟨.server, buf, n + 1, search⟩ else .fault .write := by
    rw [scanTurn_server_word heol (behindWord_stuck heol h), nextWord_stuck hhead,
      parsesockaddr_nil, if_pos rfl, hself]
  induction hk : maxns - nscount generalizing nscount with
  | zero =>
    apply not_stops_fault
    rw [hturn, if_neg (by omega)]
  | succ k ih =>
    have hagain := hturn nscount
    rw [if_pos (by omega)] at hagain
    rw [stops_again hagain]
    exact ih (by omega)

theorem domains_last (heol : ¬ atEol buf) (hb : behindWord isSeparator isDomain buf = []) :
    ¬ Stops (scanTurn strdup) ⟨.domains, buf, nscount, search⟩ r := by
  by_cases hs : search < maxDomains
  · exact not_stops_fault (scanTurn_domains_last heol hs hb)
  · exact not_stops_fault (scanTurn_domains_full heol (Nat.le_of_not_lt hs))

/-- At a byte that belongs to no domain a turn changes nothing. -/
theorem domains_stuck (heol : ¬ atEol buf)
    (h : ¬ (behindWord isSeparator isDomain buf).length < buf.length) :
    ¬ Stops (scanTurn strdup) ⟨.domains, buf, nscount, search⟩ r := by
  obtain ⟨hself, hhead⟩ := stuck h
  by_cases hs : search < maxDomains
  · apply not_stops_self
    rw [scanTurn_domains_word heol hs (behindWord_stuck heol h), nextWord_stuck hhead, hself,
      stored_singleton, if_neg fun hst => hst.1 rfl, Nat.add_zero]
  · exact not_stops_fault (scanTurn_domains_full heol (Nat.le_of_not_lt hs))

theorem servers_word (heol : ¬ atEol buf) (hb : behindWord isblank isAddress buf ≠ [])
    (hlt : (behindWord isblank isAddress buf).length < buf.length) :
    servers buf = (if parsesockaddr (nextWord isblank isAddress buf) then 1 else 0) +
      servers (behindWord isblank isAddress buf) := by
  rw [servers, entries_word heol hb hlt, List.countP_cons, Nat.add_comm]
  rfl

/-- **The addresses of a line.** -/
theorem server_stops (hns : nscount ≤ maxns) :
    Stops (scanTurn strdup) ⟨.server, buf, nscount, search⟩ r ↔
      ServerLine nscount buf ∧
        Stops (scanTurn strdup) ⟨.lines, skipLine buf, nscount + servers buf, search⟩ r := by
  have hs : isblank 10 = false := by decide
  have hw : isAddress 10 = false := by decide
  induction hlen : buf.length using Nat.strong_induction_on generalizing buf nscount with
  | _ k ih =>
    subst hlen
    by_cases heol : atEol buf
    · have hservers : servers buf = 0 := by rw [servers, entries_eol heol]; rfl
      rw [stops_again (scanTurn_server_eol heol), ServerLine, hservers, Nat.add_zero]
      exact ⟨fun h => ⟨⟨plain_eol heol, hns⟩, h⟩, fun h => h.2⟩
    by_cases hb : behindWord isblank isAddress buf = []
    · have hservers : servers buf = 0 := by rw [servers, entries_last heol hb]; rfl
      have hskip : skipLine buf = [] := by
        rw [skipLine, toNewline_of_behindWord_nil hs hw hb]
        rfl
      rw [stops_again (scanTurn_server_last heol hb), ServerLine, hservers, Nat.add_zero, hskip]
      exact ⟨fun h => ⟨⟨plain_of_behindWord_nil hs hw hb, hns⟩, h⟩, fun h => h.2⟩
    by_cases hlt : (behindWord isblank isAddress buf).length < buf.length
    · have hturn : scanTurn strdup ⟨.server, buf, nscount, search⟩ = _ :=
        scanTurn_server_word heol hb
      have hskip : skipLine (behindWord isblank isAddress buf) = skipLine buf := by
        rw [skipLine, skipLine, toNewline_behindWord hs hw]
      have hservers := servers_word heol hb hlt
      rw [ServerLine, plain_behindWord hs hw, hservers, ← hskip, ← Nat.add_assoc]
      by_cases hparse : parsesockaddr (nextWord isblank isAddress buf)
      · rw [if_pos hparse]
        rw [if_pos hparse] at hturn
        by_cases hroom : nscount < maxns
        · rw [if_pos hroom] at hturn
          exact (stops_again hturn).trans (ih _ hlt hroom rfl)
        · rw [if_neg hroom] at hturn
          constructor
          · exact fun h => absurd h (not_stops_fault hturn)
          · intro h
            have hle := h.1.2
            omega
      · rw [if_neg hparse, Nat.add_zero]
        rw [if_neg hparse] at hturn
        exact (stops_again hturn).trans (ih _ hlt hns rfl)
    · constructor
      · exact fun h => absurd h (server_stuck heol hlt)
      · exact fun h => absurd h.1.1 (not_plain_of_stuck heol hlt)

/-- **The domains of a line.** -/
theorem domains_stops :
    Stops (scanTurn strdup) ⟨.domains, buf, nscount, search⟩ r ↔
      DomainLine strdup search buf ∧ Stops (scanTurn strdup)
        ⟨.lines, toNewline buf, nscount, search + stored strdup (domainEntries buf)⟩ r := by
  have hs : isSeparator 10 = false := by decide
  have hw : isDomain 10 = false := by decide
  induction hlen : buf.length using Nat.strong_induction_on generalizing buf search with
  | _ k ih =>
    subst hlen
    by_cases heol : atEol buf
    · have hentries : domainEntries buf = [] := entries_eol heol
      rw [stops_again (scanTurn_domains_eol heol), DomainLine, hentries, toNewline_eol heol]
      exact ⟨fun h => ⟨⟨newline_eol heol, plain_eol heol, trivial⟩, h⟩, fun h => h.2⟩
    have hnil : buf ≠ [] := by
      rintro rfl
      exact heol rfl
    by_cases hb : behindWord isSeparator isDomain buf = []
    · have hmem : 10 ∉ buf := by
        rw [← mem_behindWord hs hw, hb]
        exact List.not_mem_nil
      constructor
      · exact fun h => absurd h (domains_last heol hb)
      · rintro ⟨⟨h, -⟩, -⟩
        exact absurd h (not_or.mpr ⟨hnil, hmem⟩)
    by_cases hlt : (behindWord isSeparator isDomain buf).length < buf.length
    · have hentries : domainEntries buf = (nextWord isSeparator isDomain buf,
          (behindWord isSeparator isDomain buf).length) ::
            domainEntries (behindWord isSeparator isDomain buf) := entries_word heol hb hlt
      have hstored := stored_cons strdup (nextWord isSeparator isDomain buf,
        (behindWord isSeparator isDomain buf).length)
          (domainEntries (behindWord isSeparator isDomain buf))
      rw [DomainLine, hentries, Room, hstored, ← Nat.add_assoc]
      by_cases hfull : search < maxDomains
      · apply (stops_again (scanTurn_domains_word heol hfull hb)).trans
        apply (ih _ hlt rfl).trans
        rw [DomainLine, ← plain_behindWord hs hw, mem_behindWord hs hw, toNewline_behindWord hs hw]
        simp only [hb, hnil, hfull, false_or, true_and]
      · constructor
        · exact fun h =>
            absurd h (not_stops_fault (scanTurn_domains_full heol (Nat.le_of_not_lt hfull)))
        · exact fun h => absurd h.1.2.2.1 hfull
    · constructor
      · exact fun h => absurd h (domains_stuck heol hlt)
      · exact fun h => absurd h.1.2.1 (not_plain_of_stuck heol hlt)

end

/-! ## The file -/

theorem length_skipLine_lt {buf : List UInt8} (h : buf ≠ []) :
    (skipLine buf).length < buf.length := by
  cases buf with
  | nil => exact absurd rfl h
  | cons c t =>
    have hn := List.length_dropWhile_le (· != 10) t
    by_cases hc : c = 10
    · have hd := List.length_dropWhile_le (· == 10) t
      rw [skipLine, toNewline, List.dropWhile_cons_of_neg (by simp [hc]),
        List.dropWhile_cons_of_pos (by simp [hc]), List.length_cons]
      omega
    · have hd := List.length_dropWhile_le (· == 10) (t.dropWhile (· != 10))
      rw [skipLine, toNewline, List.dropWhile_cons_of_pos (by simp [hc]), List.length_cons]
      omega

theorem length_skipLine_le (buf : List UInt8) : (skipLine buf).length ≤ buf.length :=
  (List.length_dropWhile_le _ _).trans (List.length_dropWhile_le _ _)

/-- A text that is parsed to its end: what is left at the start of a line, with the addresses
and the domains known there. -/
def FileOk (strdup : Nat → Bool) (buf : List UInt8) (nscount search : Nat) : Prop :=
  if h : buf = [] then True
  else
    match keyword buf with
    | .behind => False
    | .nameserver =>
      ServerLine nscount (buf.drop 10) ∧
        FileOk strdup (skipLine (buf.drop 10)) (nscount + servers (buf.drop 10)) search
    | .search =>
      if search < maxDomains then
        DomainLine strdup search (buf.drop 6) ∧
          FileOk strdup (toNewline (buf.drop 6)) nscount
            (search + stored strdup (domainEntries (buf.drop 6)))
      else FileOk strdup (skipLine buf) nscount search
    | .other => FileOk strdup (skipLine buf) nscount search
termination_by buf.length
decreasing_by
  all_goals
    have hpos : 0 < buf.length := List.length_pos_iff.mpr h
  · have hle := length_skipLine_le (buf.drop 10)
    rw [List.length_drop] at hle
    omega
  · have hle : (toNewline (buf.drop 6)).length ≤ _ := List.length_dropWhile_le _ _
    rw [List.length_drop] at hle
    omega
  · exact length_skipLine_lt h
  · exact length_skipLine_lt h

/-- The parse loop comes to its end without a fault, and both counts are in range. -/
def Parsed (strdup : Nat → Bool) (s : Scan) : Prop :=
  ∃ r, Stops (scanTurn strdup) s r ∧ r.1 ≤ maxns ∧ r.2 ≤ maxDomains

theorem parsed_again {strdup : Nat → Bool} {s s' : Scan} (h : scanTurn strdup s = .again s') :
    Parsed strdup s ↔ Parsed strdup s' :=
  exists_congr fun _ => and_congr_left fun _ => stops_again h

theorem room_stored {strdup : Nat → Bool} {search : Nat} {es : List (List UInt8 × Nat)}
    (hle : search ≤ maxDomains) (h : Room strdup search es) :
    search + stored strdup es ≤ maxDomains := by
  induction es generalizing search with
  | nil => exact hle
  | cons e es ih =>
    obtain ⟨hlt, hroom⟩ := h
    rw [stored_cons, ← Nat.add_assoc]
    apply ih _ hroom
    rw [stored_singleton]
    split <;> omega

section

variable {strdup : Nat → Bool} {buf : List UInt8} {nscount search : Nat}

theorem parsed_server (hns : nscount ≤ maxns) :
    Parsed strdup ⟨.server, buf, nscount, search⟩ ↔
      ServerLine nscount buf ∧
        Parsed strdup ⟨.lines, skipLine buf, nscount + servers buf, search⟩ := by
  simp only [Parsed, server_stops hns, and_assoc, exists_and_left]

theorem parsed_domains :
    Parsed strdup ⟨.domains, buf, nscount, search⟩ ↔
      DomainLine strdup search buf ∧ Parsed strdup
        ⟨.lines, toNewline buf, nscount, search + stored strdup (domainEntries buf)⟩ := by
  simp only [Parsed, domains_stops, and_assoc, exists_and_left]

theorem scanTurn_lines_nil (h : buf = []) :
    scanTurn strdup ⟨.lines, buf, nscount, search⟩ = .stop (nscount, search) :=
  if_pos h

theorem fileOk_nil (h : buf = []) : FileOk strdup buf nscount search ↔ True := by
  rw [FileOk, dif_pos h]

variable (hnil : buf ≠ [])

include hnil

theorem fileOk_behind (hkw : keyword buf = .behind) :
    FileOk strdup buf nscount search ↔ False := by
  rw [FileOk, dif_neg hnil, hkw]

theorem fileOk_nameserver (hkw : keyword buf = .nameserver) :
    FileOk strdup buf nscount search ↔ ServerLine nscount (buf.drop 10) ∧
      FileOk strdup (skipLine (buf.drop 10)) (nscount + servers (buf.drop 10)) search := by
  rw [FileOk, dif_neg hnil, hkw]

theorem fileOk_search (hkw : keyword buf = .search) (h : search < maxDomains) :
    FileOk strdup buf nscount search ↔ DomainLine strdup search (buf.drop 6) ∧
      FileOk strdup (toNewline (buf.drop 6)) nscount
        (search + stored strdup (domainEntries (buf.drop 6))) := by
  rw [FileOk, dif_neg hnil, hkw]
  exact iff_of_eq (if_pos h)

theorem fileOk_full (hkw : keyword buf = .search) (h : ¬ search < maxDomains) :
    FileOk strdup buf nscount search ↔ FileOk strdup (skipLine buf) nscount search := by
  rw [FileOk, dif_neg hnil, hkw]
  exact iff_of_eq (if_neg h)

theorem fileOk_other (hkw : keyword buf = .other) :
    FileOk strdup buf nscount search ↔ FileOk strdup (skipLine buf) nscount search := by
  rw [FileOk, dif_neg hnil, hkw]

theorem scanTurn_lines_behind (hkw : keyword buf = .behind) :
    scanTurn strdup ⟨.lines, buf, nscount, search⟩ = .fault .read := by
  simp [scanTurn, lineTurn, hnil, hkw]

theorem scanTurn_lines_nameserver (hkw : keyword buf = .nameserver) :
    scanTurn strdup ⟨.lines, buf, nscount, search⟩ =
      .again ⟨.server, buf.drop 10, nscount, search⟩ := by
  simp [scanTurn, lineTurn, hnil, hkw]

theorem scanTurn_lines_search (hkw : keyword buf = .search) (h : search < maxDomains) :
    scanTurn strdup ⟨.lines, buf, nscount, search⟩ =
      .again ⟨.domains, buf.drop 6, nscount, search⟩ := by
  simp [scanTurn, lineTurn, hnil, hkw, h]

theorem scanTurn_lines_full (hkw : keyword buf = .search) (h : ¬ search < maxDomains) :
    scanTurn strdup ⟨.lines, buf, nscount, search⟩ =
      .again ⟨.lines, skipLine buf, nscount, search⟩ := by
  simp [scanTurn, lineTurn, hnil, hkw, h]

theorem scanTurn_lines_other (hkw : keyword buf = .other) :
    scanTurn strdup ⟨.lines, buf, nscount, search⟩ =
      .again ⟨.lines, skipLine buf, nscount, search⟩ := by
  simp [scanTurn, lineTurn, hnil, hkw]

end

/-- **The texts that are parsed to the end.** -/
theorem parsed_lines_iff {strdup : Nat → Bool} {buf : List UInt8} {nscount search : Nat}
    (hns : nscount ≤ maxns) (hse : search ≤ maxDomains) :
    Parsed strdup ⟨.lines, buf, nscount, search⟩ ↔ FileOk strdup buf nscount search := by
  induction hlen : buf.length using Nat.strong_induction_on generalizing buf nscount search with
  | _ k ih =>
    subst hlen
    by_cases hnil : buf = []
    · rw [fileOk_nil hnil]
      refine iff_of_true ⟨(nscount, search), ?_, hns, hse⟩ trivial
      exact (stops_stop (scanTurn_lines_nil hnil)).mpr rfl
    have hskip := length_skipLine_lt hnil
    have hpos : 0 < buf.length := List.length_pos_iff.mpr hnil
    cases hkw : keyword buf with
    | behind =>
      rw [fileOk_behind hnil hkw]
      refine iff_of_false ?_ id
      rintro ⟨r, hr, -⟩
      exact not_stops_fault (scanTurn_lines_behind hnil hkw) hr
    | nameserver =>
      rw [fileOk_nameserver hnil hkw, parsed_again (scanTurn_lines_nameserver hnil hkw),
        parsed_server hns]
      refine and_congr_right fun hline => ih _ ?_ hline.2 hse rfl
      have hle := length_skipLine_le (buf.drop 10)
      rw [List.length_drop] at hle
      omega
    | search =>
      by_cases hroom : search < maxDomains
      · rw [fileOk_search hnil hkw hroom, parsed_again (scanTurn_lines_search hnil hkw hroom),
          parsed_domains]
        refine and_congr_right fun hline => ih _ ?_ hns (room_stored hse hline.2.2) rfl
        have hle : (toNewline (buf.drop 6)).length ≤ _ := List.length_dropWhile_le _ _
        rw [List.length_drop] at hle
        omega
      · rw [fileOk_full hnil hkw hroom, parsed_again (scanTurn_lines_full hnil hkw hroom)]
        exact ih _ hskip hns hse rfl
    | other =>
      rw [fileOk_other hnil hkw, parsed_again (scanTurn_lines_other hnil hkw)]
      exact ih _ hskip hns hse rfl

/-- **What is parsed to its end**: for every `DNSCACHEIP` and every file, the parse loop of
`__dns_readstartfiles` terminates in range exactly if the text read is `FileOk`. -/
theorem readstartfiles_parsed_iff (strdup : Nat → Bool) (cacheip : Option (List UInt8))
    (file : List UInt8) :
    Parsed strdup (readstartfiles cacheip file) ↔
      FileOk strdup (file.take 4096) (if cacheip.any parsesockaddr then 1 else 0) 0 := by
  apply parsed_lines_iff
  · split <;> decide
  · decide

example : run (scanTurn fun _ => true) 7 (readstartfiles none
    [115, 101, 97, 114, 99, 104, 32, 97, 46, 98, 32, 99, 10]) = some (.ok (0, 2)) := by decide

/-- The line `search a_b` keeps the loop over the domains running for ever. -/
theorem readstartfiles_underscore :
    ¬ Parsed (fun _ => true)
      (readstartfiles none [115, 101, 97, 114, 99, 104, 32, 97, 95, 98, 10]) := by
  rw [readstartfiles, parsed_lines_iff (by decide) (by decide),
    fileOk_search (by decide) (by decide) (by decide)]
  rintro ⟨⟨-, hplain, -⟩, -⟩
  exact absurd (hplain 95 (by decide)) (by decide)

end Dietlibc.Dns
