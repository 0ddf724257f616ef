import Dietlibc.Accounts.Lines

/-!
# Lines of the passwd file

What `getpwent_r` makes of a line, field by field: a line with seven fields or more and digits in
two of them gives an entry (`line_entry`), any other is passed over (`lacks_skips`).
-/

namespace Dietlibc.Accounts

open Machine

variable {m : Mapped} {buflen : Nat} {s : St} {f t : List UInt8} {fs : List (List UInt8)}

/-! ## Entries -/

/-- `struct passwd` -/
structure Passwd where
  name : List UInt8
  passwd : List UInt8
  uid : Nat
  gid : Nat
  gecos : List UInt8
  dir : List UInt8
  shell : List UInt8
  deriving DecidableEq

/-- What the caller reads in `*res`. -/
def readPasswd (buflen : Nat) (st : St) : Passwd where
  name := strAt st.buf buflen (st.res 0)
  passwd := strAt st.buf buflen (st.res 1)
  uid := st.res 2
  gid := st.res 3
  gecos := strAt st.buf buflen (st.res 4)
  dir := strAt st.buf buflen (st.res 5)
  shell := strAt st.buf buflen (st.res 6)

/-! ## Lines that are passed over -/

/-- The fields from number `i` on do not make an entry. -/
def Lacks (i : Nat) (fs : List (List UInt8)) : Prop :=
  fs.length + i < 7 ∨
    ∃ k f, (i + k = 2 ∨ i + k = 3) ∧ fs[k]? = some f ∧ f.all isDigit = false

theorem pw_kind_string {i : Nat} (h : ¬ (i = 2 ∨ i = 3)) : getpwentR.kind i = .string := if_neg h

theorem pw_kind_number {i : Nat} (h : i = 2 ∨ i = 3) : getpwentR.kind i = .number := if_pos h

/-- The pass leaves the line for the next one. -/
theorem lacks_skips (buflen : Nat) (hf : Fields fs) (hl : s.label = .field) (hi : s.i < 7)
    (htext : m.bytes.drop s.cur = joined fs ++ newline :: t) (hfit : s.n + (joined fs).length < buflen)
    (hlack : Lacks s.i fs) :
    ∃ s', Meets (step getpwentR m buflen) s s' ∧ s'.label = .again ∧
      s'.cur = s.cur + (joined fs).length + 1 := by
  induction fs generalizing s with
  | nil => exact absurd rfl hf.ne_nil
  | cons f fs ih =>
    by_cases hnil : fs = []
    · -- the newline ends the field
      subst hnil
      have hfield := hf.fieldAt_last htext
      have hi6 : s.i < 6 := by
        rcases hlack with hlt | ⟨k, g, hk, hg, -⟩
        · rw [List.length_singleton] at hlt
          omega
        · have hk0 : k < 1 := (List.getElem?_eq_some_iff.mp hg).1
          omega
      have hshort : ¬ Ended getpwentR s newline := by
        rintro (he | he)
        · cases he
        · simp [getpwentR] at he
          omega
      rw [joined_singleton]
      exact field_short hl hi hfield hshort
    · have hfield := hf.fieldAt hnil htext
      have hended : Ended getpwentR s colon := .inl rfl
      have hlen : (joined (f :: fs)).length = f.length + 1 + (joined fs).length := by
        rw [joined_cons f hnil, List.length_append, List.length_cons]
        omega
      have hnext (hk : ¬ ((s.i = 2 ∨ s.i = 3) ∧ f.all isDigit = false)) : Lacks (s.i + 1) fs := by
        rcases hlack with hlt | ⟨k, g, hki, hg, hd⟩
        · rw [List.length_cons] at hlt
          exact .inl (by omega)
        · cases k with
          | zero =>
            rw [List.getElem?_cons_zero] at hg
            cases hg
            exact absurd ⟨by simpa using hki, hd⟩ hk
          | succ k =>
            rw [List.getElem?_cons_succ] at hg
            exact .inr ⟨k, g, by omega, hg, hd⟩
      have hi7 (hlack' : Lacks (s.i + 1) fs) : s.i + 1 < 7 := by
        rcases hlack' with hlt | ⟨k, g, hki, -, -⟩
        · omega
        · omega
      by_cases hnum : s.i = 2 ∨ s.i = 3
      · by_cases hd : f.all isDigit = true
        · have hlack' := hnext fun hh => by rw [hd] at hh; cases hh.2
          have hmeets := field_number getpwentR buflen rfl hl hi
            (pw_kind_number hnum) hfield hended hd
          obtain ⟨s', hm', hl', hc'⟩ := ih (s := numberTaken getpwentR s f colon) (hf.tail hnil) rfl
            (hi7 hlack') hfield.next (by simp only [numberTaken]; omega) hlack'
          refine ⟨s', hmeets.trans hm', hl', ?_⟩
          rw [hc', hlen]
          simp only [numberTaken]
          omega
        · have hd' : f.all isDigit = false := by simpa using hd
          obtain ⟨s', hm', hl', hc'⟩ := field_bad getpwentR buflen (colon :: joined fs) t rfl hl hi
            (pw_kind_number hnum) hfield hended hd' rfl (by
              rw [List.mem_cons]
              rintro (he | he)
              · cases he
              · exact (hf.tail hnil).newline_not_mem he)
          refine ⟨s', hm', hl', ?_⟩
          rw [hc', hlen, List.length_cons]
          omega
      · have hlack' := hnext fun hh => hnum hh.1
        have hmeets := field_string getpwentR buflen hl hi (pw_kind_string hnum) hfield.scanned hended
          (by omega) (fun hh => by cases hh.1)
        obtain ⟨s', hm', hl', hc'⟩ := ih (s := stringTaken s f colon) (hf.tail hnil) rfl
          (hi7 hlack') hfield.next (by simp only [stringTaken]; omega) hlack'
        refine ⟨s', hmeets.trans hm', hl', ?_⟩
        rw [hc', hlen]
        simp only [stringTaken]
        omega

/-! ## Lines that give an entry -/

section

variable {f0 f1 f2 f3 f4 f5 f6 : List UInt8}

/-- What the caller reads behind the seven fields. -/
theorem taken_entry (hi : s.i = 0) (hn : s.n = 0) (c : UInt8)
    (hfit : (taken getpwentR s [f0, f1, f2, f3, f4, f5]).n + f6.length < buflen) :
    readPasswd buflen (stringTaken (taken getpwentR s [f0, f1, f2, f3, f4, f5]) f6 c) =
      ⟨cstring f0, cstring f1, number f2 % 2 ^ 32, number f3 % 2 ^ 32, cstring f4, cstring f5,
        cstring f6⟩ := by
  set p1 := f0.length + 1 with hp1
  set p4 := p1 + f1.length + 1 with hp4
  set p5 := p4 + f4.length + 1 with hp5
  set p6 := p5 + f5.length + 1 with hp6
  set b0 := s.buf.store 0 (f0 ++ [0]) with hb0
  set b1 := b0.store p1 (f1 ++ [0]) with hb1
  set b4 := b1.store p4 (f4 ++ [0]) with hb4
  set b5 := b4.store p5 (f5 ++ [0]) with hb5
  have hst : taken getpwentR s [f0, f1, f2, f3, f4, f5] = { taken getpwentR s
      [f0, f1, f2, f3, f4, f5] with
        n := p6
        i := 6
        buf := b5
        res := Function.update (Function.update (Function.update (Function.update
          (Function.update (Function.update s.res 0 0) 1 p1) 2 (number f2 % 2 ^ 32)) 3
            (number f3 % 2 ^ 32)) 4 p4) 5 p5 } := by
    simp [taken, fieldTaken, getpwentR, stringTaken, numberTaken, hi, hn, hb5, hb4, hb1, hb0, hp6,
      hp5, hp4, hp1]
  have hn6 : (taken getpwentR s [f0, f1, f2, f3, f4, f5]).n = p6 := by rw [hst]
  rw [hn6] at hfit
  have h0 := ((((holds_store s.buf 0 f0).store (a := p1) (by omega) (f1 ++ [0])).store
    (a := p4) (by omega) (f4 ++ [0])).store (a := p5) (by omega) (f5 ++ [0])).store
      (a := p6) (by omega) (f6 ++ [0])
  have h1 := (((holds_store b0 p1 f1).store (a := p4) (by omega) (f4 ++ [0])).store
    (a := p5) (by omega) (f5 ++ [0])).store (a := p6) (by omega) (f6 ++ [0])
  have h4 := ((holds_store b1 p4 f4).store (a := p5) (by omega) (f5 ++ [0])).store
    (a := p6) (by omega) (f6 ++ [0])
  have h5 := (holds_store b4 p5 f5).store (a := p6) (by omega) (f6 ++ [0])
  have h6 := holds_store b5 p6 f6
  rw [hst]
  unfold readPasswd stringTaken
  simp only [Function.update_apply]
  norm_num
  exact ⟨h0.strAt (by omega), h1.strAt (by omega), h4.strAt (by omega), h5.strAt (by omega),
    h6.strAt (by omega)⟩

theorem pw_seps : ∀ i < 6, getpwentR.sep i = colon ∧ getpwentR.kind i ≠ .member := by
  intro i _
  refine ⟨rfl, ?_⟩
  unfold getpwentR
  dsimp only
  split <;> exact nofun

theorem pw_numbered (h2 : f2.all isDigit = true) (h3 : f3.all isDigit = true) :
    Numbered getpwentR 0 [f0, f1, f2, f3, f4, f5] := by
  intro k f hf hk
  have hk' : k = 2 ∨ k = 3 := by
    by_contra hne
    rw [Nat.zero_add, pw_kind_string hne] at hk
    cases hk
  rcases hk' with rfl | rfl
  · cases hf
    exact h2
  · cases hf
    exact h3

theorem taken_n (f0 f1 f2 f3 f4 f5 : List UInt8) (hi : s.i = 0) :
    (taken getpwentR s [f0, f1, f2, f3, f4, f5]).n =
    s.n + (f0.length + 1) + (f1.length + 1) + (f4.length + 1) + (f5.length + 1) := by
  simp [taken, fieldTaken, getpwentR, stringTaken, numberTaken, hi]
  omega

theorem taken_cur : (taken getpwentR s [f0, f1, f2, f3, f4, f5]).cur + f6.length =
    s.cur + (joined [f0, f1, f2, f3, f4, f5, f6]).length := by
  have hstep (s : St) (f : List UInt8) : (fieldTaken getpwentR s f).cur = s.cur + f.length + 1 :=
    (fieldTaken_spec getpwentR s f).2.2.1
  simp only [taken, List.foldl_cons, List.foldl_nil, hstep, joined, List.intercalate_cons_cons,
    List.intercalate_singleton, List.length_append, List.length_singleton]
  omega

/-- The first six fields are taken. -/
theorem six_fields (buflen : Nat) {more : List (List UInt8)}
    (hf : Fields (f0 :: f1 :: f2 :: f3 :: f4 :: f5 :: f6 :: more))
    (htext : m.bytes.drop s.cur = joined (f0 :: f1 :: f2 :: f3 :: f4 :: f5 :: f6 :: more) ++ t)
    (hl : s.label = .field) (hi : s.i = 0) (hn : s.n = 0)
    (hfit : total [f0, f1, f4, f5] ≤ buflen)
    (hd2 : f2.all isDigit = true) (hd3 : f3.all isDigit = true) :
    Meets (step getpwentR m buflen) s (taken getpwentR s [f0, f1, f2, f3, f4, f5]) ∧
      m.bytes.drop (taken getpwentR s [f0, f1, f2, f3, f4, f5]).cur = joined (f6 :: more) ++ t ∧
      (taken getpwentR s [f0, f1, f2, f3, f4, f5]).i = 6 ∧
      (taken getpwentR s [f0, f1, f2, f3, f4, f5]).label = .field := by
  have hn6 := taken_n f0 f1 f2 f3 f4 f5 hi
  simp only [total_cons, total_nil] at hfit
  obtain ⟨hmeets, htext6, hi6, hl6⟩ := fields_taken getpwentR buflen 6
    [f0, f1, f2, f3, f4, f5] (f6 :: more) (by decide) pw_seps
    (List.cons_ne_nil _ _) hf htext hl (by rw [hi]; exact le_rfl)
    (by rw [hi]; exact pw_numbered hd2 hd3) (.inr (by omega))
  rw [hi] at hi6
  exact ⟨hmeets, htext6, hi6, hl6⟩

/-- The field at the end of the entry, which any byte may end. -/
theorem seventh_field (buflen : Nat) {c : UInt8} (hl : s.label = .field) (hi : s.i = 6)
    (h : Scanned m s.cur colon f c) (hfit : s.n + f.length < buflen) :
    Stops (step getpwentR m buflen) s ⟨true, stringTaken s f c⟩ := by
  have hended : Ended getpwentR s c := by
    refine .inr ?_
    rw [hi]
    rfl
  have hmeets := field_string getpwentR buflen hl (by rw [hi]; exact Nat.lt_succ_self 6)
    (by rw [hi]; rfl) h hended hfit (by rw [hi]; simp)
  have hstop := step_success getpwentR m buflen (stringTaken s f c) rfl
    (by simp only [stringTaken, hi]; exact le_rfl)
  exact hmeets.stops.mpr ((stops_stop hstop).mpr rfl)

/-- **A line with seven fields or more** and digits in the two numbers gives an entry, and the
call stops behind the seventh field. -/
theorem line_entry (buflen : Nat) {more : List (List UInt8)}
    (hf : Fields (f0 :: f1 :: f2 :: f3 :: f4 :: f5 :: f6 :: more))
    (htext : m.bytes.drop s.cur =
      joined (f0 :: f1 :: f2 :: f3 :: f4 :: f5 :: f6 :: more) ++ newline :: t)
    (hl : s.label = .field) (hi : s.i = 0) (hn : s.n = 0)
    (hfit : total [f0, f1, f4, f5, f6] ≤ buflen)
    (hd2 : f2.all isDigit = true) (hd3 : f3.all isDigit = true) :
    ∃ r, Stops (step getpwentR m buflen) s r ∧ r.ok = true ∧
      readPasswd buflen r.st = ⟨cstring f0, cstring f1, number f2 % 2 ^ 32, number f3 % 2 ^ 32,
        cstring f4, cstring f5, cstring f6⟩ ∧
      r.st.cur = s.cur + (joined [f0, f1, f2, f3, f4, f5, f6]).length + 1 ∧
      m.bytes.drop r.st.cur = if more = [] then t else joined more ++ newline :: t := by
  have hn6 := taken_n f0 f1 f2 f3 f4 f5 hi
  simp only [total_cons, total_nil] at hfit
  obtain ⟨hmeets, htext6, hi6, hl6⟩ := six_fields buflen hf htext hl hi hn
    (by simp only [total_cons, total_nil]; omega) hd2 hd3
  have hf6 : Fields (f6 :: more) :=
    ⟨List.cons_ne_nil _ _, fun g hg => hf.free g (List.mem_append_right [f0, f1, f2, f3, f4, f5] hg)⟩
  obtain ⟨c, t6, h6, ht6⟩ : ∃ c t6, FieldAt m
      (taken getpwentR s [f0, f1, f2, f3, f4, f5]).cur colon f6 c t6 ∧
        t6 = if more = [] then t else joined more ++ newline :: t := by
    by_cases hmore : more = []
    · subst hmore
      exact ⟨newline, t, hf6.fieldAt_last htext6, (if_pos rfl).symm⟩
    · exact ⟨colon, _, hf6.fieldAt hmore htext6, (if_neg hmore).symm⟩
  have hstop := seventh_field buflen hl6 hi6 h6.scanned (by omega)
  refine ⟨_, hmeets.stops.mpr hstop, rfl, taken_entry hi hn c (by omega), ?_, h6.next.trans ht6⟩
  show (taken getpwentR s [f0, f1, f2, f3, f4, f5]).cur + f6.length + 1 = _
  rw [taken_cur]

end

/-! ## Calls -/

/-- The entry that a call makes of the fields from the start of a line, or of the rest of one. -/
def entryOf (fs : List (List UInt8)) : Option Passwd :=
  match fs with
  | f0 :: f1 :: f2 :: f3 :: f4 :: f5 :: f6 :: _ =>
    if f2.all isDigit && f3.all isDigit then
      some ⟨cstring f0, cstring f1, number f2 % 2 ^ 32, number f3 % 2 ^ 32, cstring f4, cstring f5,
        cstring f6⟩
    else none
  | _ => none

/-- Fields that make no entry are those that are passed over. -/
theorem entryOf_none (h : entryOf fs = none) : Lacks 0 fs := by
  unfold entryOf at h
  split at h
  · rename_i f0 f1 f2 f3 f4 f5 f6 more
    split at h
    · cases h
    · rename_i hd
      rw [Bool.and_eq_true, not_and_or, Bool.not_eq_true, Bool.not_eq_true] at hd
      rcases hd with hd | hd
      · exact .inr ⟨2, f2, .inl rfl, rfl, hd⟩
      · exact .inr ⟨3, f3, .inr rfl, rfl, hd⟩
  · rename_i hshort
    refine .inl ?_
    by_contra hlen
    rcases fs with _ | ⟨f0, _ | ⟨f1, _ | ⟨f2, _ | ⟨f3, _ | ⟨f4, _ | ⟨f5, _ | ⟨f6, more⟩⟩⟩⟩⟩⟩⟩ <;>
      simp at hlen
    exact hshort f0 f1 f2 f3 f4 f5 f6 more rfl

end Dietlibc.Accounts
