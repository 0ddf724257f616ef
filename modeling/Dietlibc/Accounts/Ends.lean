import Dietlibc.Accounts.Reader

/-!
# When the readers end

`Stuck` are the two states in which a call does not go on: the byte behind a field is behind the
pages of the file, or a field that should be a number is none and no newline is left. Every other
step goes down in `Less`, so that a call returns exactly if it meets no state that is stuck.
-/

namespace Dietlibc.Accounts

open Machine

variable {sh : Shape} {m : Mapped} {buflen : Nat} {s s' : St} {r : Answer}

/-! ## The claim -/

/-- A parse position that calls lead to, with any buffers. -/
inductive Reached (sh : Shape) (m : Mapped) : Nat → Prop where
  | start : Reached sh m 0
  | call {cur buflen : Nat} {buf : Mem} {res : Nat → Nat} {r : Answer} (h : Reached sh m cur)
      (hr : Returns sh m cur buflen buf res r) : Reached sh m r.st.cur

/-- Each call returns, one that succeeds has moved on, and no loop of calls succeeds for ever. -/
def Ends (sh : Shape) (m : Mapped) : Prop :=
  (∀ cur, Reached sh m cur → ∀ buflen buf res,
    ∃ r, Returns sh m cur buflen buf res r ∧ (r.ok = true → cur < r.st.cur)) ∧
  ¬ ∃ c : Nat → Nat, Reached sh m (c 0) ∧ ∀ n, ∃ buflen buf res r,
    Returns sh m (c n) buflen buf res r ∧ r.ok = true ∧ r.st.cur = c (n + 1)

/-- A state in which the call does not go on. -/
def Stuck (sh : Shape) (m : Mapped) (s : St) : Prop :=
  (s.label = .field ∧ s.i < sh.count ∧ m.at? (s.cur + parse1 m s.cur (sh.sep s.i)) = none) ∨
  (s.label = .switch ∧ sh.kind s.i = .number ∧ (∀ l, scanUlong m s.cur ≠ some (s.j, l)) ∧
    lineEnd m (s.cur + s.j) = none)

/-! ## Scanning -/

theorem at?_eq_none {i : Nat} : m.at? i = none ↔ m.bytes.length + m.pad ≤ i := by
  unfold Mapped.at?
  split
  · exact iff_of_false nofun (by omega)
  · exact iff_of_true rfl (by omega)

/-- The length that `scan_ulong` finds. -/
def digits (m : Mapped) (cur : Nat) : List UInt8 := (m.bytes.drop cur).takeWhile isDigit

/-- The digits are in front of a separator. -/
theorem digits_le {cur : Nat} {c : UInt8} (hc : isDigit c = false) :
    (digits m cur).length ≤ parse1 m cur c := by
  unfold digits parse1
  generalize m.bytes.drop cur = t
  induction t with
  | nil => exact le_rfl
  | cons b t ih =>
    by_cases hb : isDigit b = true
    · have hb' : (b != newline && b != c) = true := by
        rw [Bool.and_eq_true, bne_iff_ne, bne_iff_ne]
        refine ⟨?_, ?_⟩
        · rintro rfl
          cases hb
        · rintro rfl
          rw [hc] at hb
          cases hb
      rw [List.takeWhile_cons_of_pos hb,
        List.takeWhile_cons_of_pos (p := fun b => b != newline && b != c) hb']
      exact Nat.succ_le_succ ih
    · rw [List.takeWhile_cons_of_neg hb]
      exact Nat.zero_le _

theorem scanUlong_eq {cur k : Nat} (hk : (digits m cur).length ≤ k)
    (h : m.at? (cur + k) ≠ none) :
    scanUlong m cur = some ((digits m cur).length, number (digits m cur)) := by
  rw [ne_eq, at?_eq_none] at h
  unfold scanUlong
  exact if_pos (by unfold digits at hk; omega)

theorem lineEnd_le {k e : Nat} (h : lineEnd m k = some e) : k ≤ e ∧ e < m.bytes.length := by
  unfold lineEnd at h
  dsimp only at h
  split at h
  · cases h
    omega
  · cases h

theorem lineEnd_eq_none {k : Nat} (h : m.bytes.length ≤ k) : lineEnd m k = none :=
  if_neg (by omega)

/-! ## Shapes -/

/-- What the proofs need of a shape. -/
structure Shape.Ok (sh : Shape) : Prop where
  pos : 0 < sh.count
  sep : ∀ i, sh.kind i = .number → isDigit (sh.sep i) = false
  member : ∀ i, sh.kind i = .member → i = 3 ∧ sh.count = 4

theorem getpwentR_ok : getpwentR.Ok :=
  ⟨by decide, fun _ _ => rfl, fun i h => by simp only [getpwentR] at h; split at h <;> cases h⟩

theorem getspentR_ok : getspentR.Ok :=
  ⟨by decide, fun _ _ => rfl, fun i h => by simp only [getspentR] at h; split at h <;> cases h⟩

theorem getgrentR_ok : getgrentR.Ok := by
  refine ⟨by decide, fun i _ => ?_, fun i h => ?_⟩
  · simp only [getgrentR]
    split <;> rfl
  · simp only [getgrentR] at h
    split at h
    · cases h
    · split at h
      · exact ⟨‹_›, rfl⟩
      · cases h

/-! ## The invariant -/

/-- Behind the head of the loop, the field has been scanned and its end has been read. -/
structure Inside (sh : Shape) (m : Mapped) (s : St) : Prop where
  scanned : s.label = .parseerror ∨ s.label = .switch →
    s.i < sh.count ∧ parse1 m s.cur (sh.sep s.i) ≤ s.j ∧
      m.at? (s.cur + parse1 m s.cur (sh.sep s.i)) ≠ none
  mem : s.label = .field ∨ s.label = .parseerror ∨ s.label = .switch →
    s.mem.length < groups - 1 ∨ sh.count ≤ s.i

theorem inside_entry (cur : Nat) (buf : Mem) (res : Nat → Nat) :
    Inside sh m (entryAt cur buf res) :=
  ⟨by simp [entryAt], by simp [entryAt]⟩

/-- The fields and members that are left. -/
def rest (sh : Shape) (s : St) : Nat := sh.count - s.i + (groups - s.mem.length)

/-- What `switch(i)` does. -/
inductive SwitchEnd (sh : Shape) (m : Mapped) (s : St) : StNext → Prop where
  | fail (s' : St) : SwitchEnd sh m s (.stop ⟨false, s'⟩)
  | next (s' : St) (hlabel : s'.label = .field) (hcur : s'.cur = s.cur + s.j + 1)
      (hmem : s'.mem.length < groups - 1 ∨ sh.count ≤ s'.i) (hrest : rest sh s' < rest sh s) :
      SwitchEnd sh m s (.again s')
  | bad (hkind : sh.kind s.i = .number) (hscan : ∀ l, scanUlong m s.cur ≠ some (s.j, l)) :
      SwitchEnd sh m s (.again { s with label := .parseerror })

/-- `copy:` goes to the next turn; `found` and `i` tell to which. -/
theorem copyField_cases (m : Mapped) (buflen : Nat) (s : St) :
    copyField m buflen s = .stop ⟨false, s⟩ ∨
      ∃ s', copyField m buflen s = .again s' ∧ s'.label = .field ∧ s'.cur = s.cur + s.j + 1 ∧
        s'.mem = s.mem ∧ (s'.i = s.i + 1 ∨ s.i = 2 ∧ s'.i = 4) := by
  unfold copyField
  by_cases hb : buflen ≤ s.n + s.j
  · exact .inl (if_pos hb)
  · rw [if_neg hb]
    refine .inr ⟨_, rfl, rfl, ?_, ?_, ?_⟩
    · unfold St.advance
      split <;> rfl
    · unfold St.advance
      split <;> rfl
    · unfold St.advance
      split
      · rename_i hlast
        exact .inr ⟨hlast.2, rfl⟩
      · exact .inl rfl

theorem switchField_end (buflen : Nat) (hok : sh.Ok) (hlabel : s.label = .switch) (h : Inside sh m s) :
    SwitchEnd sh m s (switchField sh m buflen s) := by
  obtain ⟨hi, hj, hread⟩ := h.scanned (.inr hlabel)
  have hmem := (h.mem (.inr (.inr hlabel))).resolve_right (by omega)
  unfold groups at hmem
  unfold switchField
  split
  · rcases copyField_cases m buflen { s with res := Function.update s.res s.i s.n } with
      hc | ⟨s', hc, hl, hcur, hm, hi'⟩
    · rw [hc]
      exact .fail _
    · rw [hc]
      refine .next s' hl hcur (.inl (by rw [hm]; exact hmem)) ?_
      unfold rest groups
      rw [hm]
      simp only at hi' ⊢
      omega
  · rename_i hkind
    have hscan := scanUlong_eq ((digits_le (hok.sep s.i hkind)).trans le_rfl) hread
    rw [hscan]
    dsimp only
    split
    · rename_i hne
      refine .bad hkind fun l hl => hne ?_
      rw [hscan] at hl
      exact congrArg Prod.fst (Option.some.inj hl)
    · refine .next _ rfl rfl (.inl hmem) ?_
      unfold rest St.advance
      dsimp only
      omega
  · rename_i hkind
    obtain ⟨h3, h4⟩ := hok.member s.i hkind
    dsimp only
    split
    · rename_i hfull
      refine .next _ rfl rfl (.inr ?_) ?_
      · show sh.count ≤ s.i + 1
        omega
      · unfold rest St.advance groups
        simp only [List.length_append, List.length_singleton]
        omega
    · rename_i hfull
      rw [List.length_append, List.length_singleton, groups] at hfull
      rcases copyField_cases m buflen { s with mem := s.mem ++ [s.n], i := s.i - 1 } with
        hc | ⟨s', hc, hl, hcur, hm, hi'⟩
      · rw [hc]
        exact .fail _
      · rw [hc]
        have hlen : s'.mem.length = s.mem.length + 1 := by
          rw [hm, List.length_append, List.length_singleton]
        refine .next s' hl hcur (.inl (by unfold groups; omega)) ?_
        unfold rest groups
        simp only at hi'
        omega

/-- Every step keeps the invariant. -/
theorem inside_step (hok : sh.Ok) (h : Inside sh m s) (hstep : step sh m buflen s = .again s') :
    Inside sh m s' := by
  unfold step at hstep
  split at hstep
  · rename_i hlabel
    split at hstep
    · cases hstep
    · cases hstep
      exact ⟨by simp, by simp⟩
  · cases hstep
    exact ⟨by simp, fun _ => .inl (by simp [groups])⟩
  · rename_i hlabel
    split at hstep
    · rename_i hi
      dsimp only at hstep
      split at hstep
      · cases hstep
      · rename_i found hfound
        cases hstep
        refine ⟨fun _ => ⟨hi, le_rfl, ?_⟩, fun _ => h.mem (.inl hlabel)⟩
        rw [hfound]
        exact nofun
    · cases hstep
  · rename_i hlabel
    have hscanned := h.scanned (.inl hlabel)
    have hmem := h.mem (.inr (.inl hlabel))
    split at hstep
    · cases hstep
      exact ⟨by simp, by simp⟩
    · cases hstep
      exact ⟨fun _ => ⟨hscanned.1, hscanned.2.1.trans (le_max_left _ _), hscanned.2.2⟩,
        fun _ => hmem⟩
  · rename_i hlabel
    have hend := switchField_end buflen hok hlabel h
    rw [hstep] at hend
    cases hend with
    | next _ hl _ hmem _ => exact ⟨fun hh => by rw [hl] at hh; simp at hh, fun _ => hmem⟩
    | bad hkind hscan => exact ⟨fun _ => h.scanned (.inr hlabel), fun _ => h.mem (.inr (.inr hlabel))⟩

/-! ## The order -/

/-- The label, and whether a newline is left for `parseerror`. -/
def rank (m : Mapped) (s : St) : Nat :=
  match s.label with
  | .entry => 1
  | .again => 0
  | .field => 4
  | .parseerror => if lineEnd m (s.cur + s.j) = none then 3 else 1
  | .switch => 2

theorem rank_field (h : s.label = .field) : rank m s = 4 := by
  unfold rank
  rw [h]

theorem rank_lt (h : s.label = .parseerror ∨ s.label = .switch) : rank m s < 4 := by
  unfold rank
  rcases h with h | h
  · rw [h]
    dsimp only
    split <;> decide
  · rw [h]
    exact Nat.lt_of_sub_eq_succ rfl

/-- What is left of the file, of the fields of the entry and of the turn. -/
def remaining (sh : Shape) (m : Mapped) (s : St) : Nat × Nat × Nat :=
  (m.bytes.length + 1 - s.cur,
    if s.label = .entry ∨ s.label = .again then sh.count + groups + 1 else rest sh s, rank m s)

def Less (sh : Shape) (m : Mapped) (s' s : St) : Prop :=
  Prod.Lex (· < ·) (Prod.Lex (· < ·) (· < ·)) (remaining sh m s') (remaining sh m s)

theorem less_wf (sh : Shape) (m : Mapped) : WellFounded (Less sh m) :=
  InvImage.wf (remaining sh m)
    (WellFounded.prod_lex Nat.lt_wfRel.wf (WellFounded.prod_lex Nat.lt_wfRel.wf Nat.lt_wfRel.wf))

/-- A step that does not come back in the file goes down if it goes down in what is left of the
entry, or of the turn. -/
theorem less_of_le {n n' k k' : Nat} {x x' : Nat} (hn : n' ≤ n) (h : k' < k ∨ k' = k ∧ x' < x) :
    Prod.Lex (· < ·) (Prod.Lex (· < ·) (· < ·)) (n', k', x') (n, k, x) := by
  rcases Nat.lt_or_eq_of_le hn with hlt | rfl
  · exact .left _ _ hlt
  · rcases h with hlt | ⟨rfl, hlt⟩
    · exact .right _ (.left _ _ hlt)
    · exact .right _ (.right _ hlt)

/-- A step from a state that is not stuck ends the call or goes down. -/
theorem step_less (hok : sh.Ok) (h : Inside sh m s) (hs : ¬ Stuck sh m s) :
    (∃ r, step sh m buflen s = .stop r) ∨ ∃ s', step sh m buflen s = .again s' ∧ Less sh m s' s := by
  have hrest (s : St) : rest sh s ≤ sh.count + groups := by
    unfold rest
    omega
  unfold step
  split
  · rename_i hlabel
    split
    · exact .inl ⟨_, rfl⟩
    · refine .inr ⟨_, rfl, less_of_le le_rfl (.inr ⟨by simp [hlabel], ?_⟩)⟩
      simp [rank, hlabel]
  · rename_i hlabel
    refine .inr ⟨_, rfl, less_of_le le_rfl (.inl ?_)⟩
    simp only [hlabel, or_true, if_true]
    rw [if_neg (by simp)]
    exact Nat.lt_succ_of_le (hrest _)
  · rename_i hlabel
    split
    · rename_i hi
      dsimp only
      split
      · rename_i hnone
        exact absurd (.inl ⟨hlabel, hi, hnone⟩) hs
      · refine .inr ⟨_, rfl, less_of_le le_rfl (.inr ⟨?_, ?_⟩)⟩
        · simp only [hlabel]
          split <;> simp [rest]
        · rw [rank_field hlabel]
          refine rank_lt ?_
          dsimp only
          split
          · exact .inl rfl
          · exact .inr rfl
    · exact .inl ⟨_, rfl⟩
  · rename_i hlabel
    split
    · rename_i k hk
      have hle := lineEnd_le hk
      refine .inr ⟨_, rfl, .left _ _ ?_⟩
      dsimp only
      omega
    · rename_i hnone
      refine .inr ⟨_, rfl, less_of_le le_rfl (.inr ⟨by simp [hlabel, rest], ?_⟩)⟩
      simp [rank, hlabel, hnone]
  · rename_i hlabel
    have hend := switchField_end buflen hok hlabel h
    generalize switchField sh m buflen s = next at hend
    cases hend with
    | fail s' => exact .inl ⟨_, rfl⟩
    | next s' hl hcur hmem hr =>
      refine .inr ⟨_, rfl, less_of_le (by omega) (.inl ?_)⟩
      simpa [hl, hlabel] using hr
    | bad hkind hscan =>
      refine .inr ⟨_, rfl, less_of_le le_rfl (.inr ⟨by simp [hlabel, rest], ?_⟩)⟩
      have hline : lineEnd m (s.cur + s.j) ≠ none := fun hn =>
        hs (.inr ⟨hlabel, hkind, hscan, hn⟩)
      simp [rank, hlabel, hline]

/-! ## Stuck states -/

/-- A number that is none, with no newline behind it, is scanned for ever. -/
theorem stuck_endless (hok : sh.Ok) (h : Inside sh m s) (hs : Stuck sh m s) (r : Answer) :
    ¬ Stops (step sh m buflen) s r := by
  rcases hs with ⟨hlabel, hi, hnone⟩ | ⟨hlabel, hkind, hscan, hline⟩
  · have hstep : step sh m buflen s = .fault () := by
      unfold step
      rw [hlabel]
      dsimp only
      rw [if_pos hi, hnone]
    exact not_stops_fault hstep
  · obtain ⟨hi, hj, hread⟩ := h.scanned (.inr hlabel)
    have hd : (digits m s.cur).length ≤ _ := digits_le (hok.sep s.i hkind)
    have hscanned := scanUlong_eq hd hread
    have hlt : (digits m s.cur).length < s.j := by
      refine lt_of_le_of_ne (hd.trans hj) fun heq => ?_
      rw [heq] at hscanned
      exact hscan _ hscanned
    -- `j` only grows, and stays behind the digits
    refine not_stops_of_forever (E := fun t => (t.label = .switch ∨ t.label = .parseerror) ∧
      sh.kind t.i = .number ∧ t.cur = s.cur ∧ s.j ≤ t.j ∧ lineEnd m (t.cur + t.j) = none) ?_
      ⟨.inl hlabel, hkind, rfl, le_rfl, hline⟩
    rintro t ⟨hl | hl, hk, hc, hjt, hn⟩
    · refine ⟨{ t with label := .parseerror }, ?_, .inr rfl, hk, hc, hjt, hn⟩
      unfold step
      rw [hl]
      dsimp only
      unfold switchField
      rw [hk]
      dsimp only
      rw [hc, hscanned]
      dsimp only
      rw [if_pos (by omega)]
    · refine ⟨{ t with label := .switch, j := max t.j (m.bytes.length - t.cur) }, ?_, .inl rfl, hk,
        hc, hjt.trans (le_max_left _ _), lineEnd_eq_none ?_⟩
      · unfold step
        rw [hl]
        dsimp only
        rw [hn]
      · dsimp only
        omega

/-- **A call returns** exactly if it meets no state that is stuck. -/
theorem returns_iff (hok : sh.Ok) (cur : Nat) (buf : Mem) (res : Nat → Nat) :
    (∃ r, Returns sh m cur buflen buf res r) ↔
      ∀ s, Meets (step sh m buflen) (entryAt cur buf res) s → ¬ Stuck sh m s :=
  stops_iff_not_stuck (less_wf sh m) (fun _ _ => inside_step hok) (fun _ => step_less hok)
    (fun _ h hs r => stuck_endless hok h hs r) (inside_entry cur buf res)

/-! ## Progress -/

/-- A step does not go back, and moves on if a field is behind it. -/
theorem step_moves (hok : sh.Ok) (hin : Inside sh m s) (hstep : step sh m buflen s = .again s') :
    s.cur ≤ s'.cur ∧ (s'.label = .field → s'.i = 0 ∨ s.cur < s'.cur) := by
  unfold step at hstep
  split at hstep
  · split at hstep
    · cases hstep
    · cases hstep
      exact ⟨le_rfl, nofun⟩
  · cases hstep
    exact ⟨le_rfl, fun _ => .inl rfl⟩
  · split at hstep
    · dsimp only at hstep
      split at hstep
      · cases hstep
      · cases hstep
        refine ⟨le_rfl, fun hl => ?_⟩
        dsimp only at hl
        split at hl <;> cases hl
    · cases hstep
  · split at hstep
    · rename_i k hk
      have hk := lineEnd_le hk
      cases hstep
      exact ⟨by dsimp only; omega, nofun⟩
    · cases hstep
      exact ⟨le_rfl, nofun⟩
  · rename_i hlabel
    have hend := switchField_end buflen hok hlabel hin
    rw [hstep] at hend
    cases hend with
    | next _ hl hcur _ _ => exact ⟨by omega, fun _ => .inr (by omega)⟩
    | bad _ _ => exact ⟨le_rfl, nofun⟩

/-- The call has not gone back, and has moved on once a field is behind it. -/
structure Moved (cur : Nat) (s : St) : Prop where
  le : cur ≤ s.cur
  lt : s.label = .field → s.i = 0 ∨ cur < s.cur

theorem moved_step {cur : Nat} (hok : sh.Ok) (h : Inside sh m s ∧ Moved cur s)
    (hstep : step sh m buflen s = .again s') : Inside sh m s' ∧ Moved cur s' := by
  obtain ⟨hin, hle, -⟩ := h
  obtain ⟨hle', hlt'⟩ := step_moves hok hin hstep
  exact ⟨inside_step hok hin hstep, hle.trans hle', fun hl => (hlt' hl).imp_right hle.trans_lt⟩

/-- A call that succeeds has moved on. -/
theorem success_moves (hok : sh.Ok) {cur : Nat} {buf : Mem} {res : Nat → Nat}
    (h : Returns sh m cur buflen buf res r) (hr : r.ok = true) :
    cur < r.st.cur ∧ cur < m.bytes.length := by
  have hstart : Inside sh m (entryAt cur buf res) ∧ Moved cur (entryAt cur buf res) :=
    ⟨inside_entry cur buf res, le_rfl, nofun⟩
  refine ⟨?_, ?_⟩
  · obtain ⟨s, ⟨hin, hmoved⟩, hstep⟩ := h.last (fun _ _ => moved_step hok) hstart
    unfold step at hstep
    split at hstep
    · split at hstep
      · cases hstep
        cases hr
      · cases hstep
    · cases hstep
    · rename_i hlabel
      split at hstep
      · dsimp only at hstep
        split at hstep <;> cases hstep
      · rename_i hi
        cases hstep
        have hpos := hok.pos
        exact (hmoved.lt hlabel).resolve_left (by omega)
    · split at hstep <;> cases hstep
    · rename_i hlabel
      have hend := switchField_end buflen hok hlabel hin
      rw [hstep] at hend
      cases hend
      cases hr
  · by_contra hge
    have hstop : step sh m buflen (entryAt cur buf res) = .stop ⟨false, entryAt cur buf res⟩ :=
      if_pos (Nat.le_of_not_lt hge)
    rw [(stops_stop hstop).mp h] at hr
    cases hr

/-- No call meets a state that is stuck, at any position that calls reach and with any buffer. -/
def NeverStuck (sh : Shape) (m : Mapped) : Prop :=
  ∀ cur, Reached sh m cur → ∀ buflen buf res s,
    Meets (step sh m buflen) (entryAt cur buf res) s → ¬ Stuck sh m s

theorem ends_iff (hok : sh.Ok) : Ends sh m ↔ NeverStuck sh m := by
  constructor
  · intro h cur hcur buflen buf res
    obtain ⟨r, hr, -⟩ := h.1 cur hcur buflen buf res
    exact (returns_iff hok cur buf res).mp ⟨r, hr⟩
  · intro h
    refine ⟨fun cur hcur buflen buf res => ?_, ?_⟩
    · obtain ⟨r, hr⟩ := (returns_iff hok cur buf res).mpr (h cur hcur buflen buf res)
      exact ⟨r, hr, fun hs => (success_moves hok hr hs).1⟩
    · -- the positions would grow without end
      rintro ⟨c, -, hc⟩
      have hgrow (n : Nat) : n ≤ c n := by
        induction n with
        | zero => exact Nat.zero_le _
        | succ n ih =>
          obtain ⟨buflen, buf, res, r, hr, hs, hnext⟩ := hc n
          have := (success_moves hok hr hs).1
          omega
      obtain ⟨buflen, buf, res, r, hr, hs, -⟩ := hc m.bytes.length
      have := (success_moves hok hr hs).2
      have := hgrow m.bytes.length
      omega

/-- **The readers end** on a file exactly if they never are stuck there. -/
theorem readers_end_iff (m : Mapped) :
    (Ends getpwentR m ↔ NeverStuck getpwentR m) ∧ (Ends getgrentR m ↔ NeverStuck getgrentR m) ∧
      (Ends getspentR m ↔ NeverStuck getspentR m) :=
  ⟨ends_iff getpwentR_ok, ends_iff getgrentR_ok, ends_iff getspentR_ok⟩

/-- `a:b:x` with no final newline. -/
def unterminated : Mapped := ⟨[97, 58, 98, 58, 120], 4091⟩

/-- `getpwent_r` does not return: the uid is no number, and no newline is behind it. -/
theorem getpwentR_hangs :
    (¬ ∃ r, Returns getpwentR unterminated 0 100 (fun _ => 0) (fun _ => 0) r) ∧
      ¬ Ends getpwentR unterminated := by
  have hafter : (after (step getpwentR unterminated 100) 8
      (entryAt 0 (fun _ => 0) fun _ => 0)).map (fun s => (s.label, s.cur, s.i, s.j)) =
        some (.switch, 4, 2, 1) := by decide
  obtain ⟨s, hs, hst⟩ := Option.map_eq_some_iff.mp hafter
  obtain ⟨hlabel, hcur, hi, hj⟩ : s.label = .switch ∧ s.cur = 4 ∧ s.i = 2 ∧ s.j = 1 := by
    simpa using hst
  have hstuck : Stuck getpwentR unterminated s := by
    refine .inr ⟨hlabel, by rw [hi]; rfl, ?_, by rw [hcur, hj]; decide⟩
    rw [hcur, hj]
    exact nofun
  have hhang : ¬ ∃ r, Returns getpwentR unterminated 0 100 (fun _ => 0) (fun _ => 0) r :=
    fun hr => (returns_iff getpwentR_ok 0 _ _).mp hr s (meets_after hs) hstuck
  refine ⟨hhang, fun h => hhang ?_⟩
  obtain ⟨r, hr, -⟩ := h.1 0 .start 100 (fun _ => 0) (fun _ => 0)
  exact ⟨r, hr⟩

end Dietlibc.Accounts
