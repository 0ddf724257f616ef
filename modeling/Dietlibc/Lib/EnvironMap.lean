import Mathlib.Data.List.TakeWhile
import Dietlibc.Lib.Environ

/-!
# The environment is a map

`Call.apply` is what a call means for the value of a name. `follows_map` says that the calls on
the arrays have this meaning, as long as a name that is removed occurs once and the counters keep
their types.
-/

namespace Dietlibc.Lib

variable {st st' : Environ} {n n' e v string : Str} {es : List Str} {call : Call} {len k : Nat}

/-! ## The meaning of the calls -/

/-- The value of `n` behind a call, from the one in front of it. -/
def Call.apply (n : Str) (old : Option Str) : Call → Option Str
  | .setenv name value overwrite =>
    if n = name then (if overwrite = false ∧ old.isSome then old else some value) else old
  | .putenvSet name value => if n = name then some value else old
  | .putenvName name => if n = name then none else old
  | .unsetenv name => if n = name then none else old

/-- The call that leads from `st` to `st'` means for every name what it should. -/
def Means (call : Call) (st st' : Environ) : Prop :=
  ∀ n, IsName n → n.length < 2 ^ 32 →
    ∃ old, getenv st n = some old ∧ getenv st' n = some (call.apply n old)

/-- Each call of the run returns, and means what it should. -/
def Follows : List Call → Environ → Prop
  | [], _ => True
  | call :: calls, st => ∃ st', call.exec st = some st' ∧ Means call st st' ∧ Follows calls st'

/-- The call removes its name. -/
def Call.removes : Call → Bool
  | .putenvName _ | .unsetenv _ => true
  | _ => false

/-- What a call must find. -/
structure Safe (call : Call) (st : Environ) : Prop where
  isName : IsName call.name
  name_lt : call.name.length < 2 ^ 32
  strings_lt : st.strings.length + 2 < 2 ^ 31
  once : call.removes → st.strings.countP (isEntry call.name call.name.length) ≤ 1

/-- All calls of a run are safe. -/
def AllSafe : List Call → Environ → Prop
  | [], _ => True
  | call :: calls, st => Safe call st ∧ ∀ st', call.exec st = some st' → AllSafe calls st'

/-! ## Entries -/

theorem isEntry_iff : isEntry n n.length e = true ↔ ∃ v, e = n ++ equals :: v := by
  unfold isEntry
  rw [Bool.and_eq_true, beq_iff_eq, beq_iff_eq, List.take_length]
  constructor
  · rintro ⟨hn, heq⟩
    obtain ⟨hlt, hget⟩ := List.getElem?_eq_some_iff.mp heq
    refine ⟨e.drop (n.length + 1), ?_⟩
    rw [← hget, ← List.drop_eq_getElem_cons hlt]
    exact (congrArg (· ++ e.drop n.length) hn ▸ List.take_append_drop n.length e).symm
  · rintro ⟨v, rfl⟩
    simp

theorem takeWhile_entry (hn : equals ∉ n) (v : Str) :
    (n ++ equals :: v).takeWhile (· != equals) = n := by
  rw [List.takeWhile_append_of_pos, List.takeWhile_cons_of_neg (by simp), List.append_nil]
  intro c hc
  rw [bne_iff_ne]
  rintro rfl
  exact hn hc

theorem takeWhile_name (hn : equals ∉ n) : n.takeWhile (· != equals) = n := by
  rw [List.takeWhile_eq_self_iff]
  intro c hc
  rw [bne_iff_ne]
  rintro rfl
  exact hn hc

/-- A string is the entry of one name only. -/
theorem isEntry_unique (hn : equals ∉ n) (hn' : equals ∉ n') (h : isEntry n n.length e)
    (h' : isEntry n' n'.length e) : n = n' := by
  obtain ⟨v, rfl⟩ := isEntry_iff.mp h
  obtain ⟨v', he⟩ := isEntry_iff.mp h'
  rw [← takeWhile_entry hn v, he, takeWhile_entry hn' v']

/-- The value of the first entry of a name. -/
def lookup (n : Str) (es : List Str) : Option Str :=
  (es.find? (isEntry n n.length)).map (List.drop (n.length + 1))

theorem lookup_append_of_none {pre post : List Str} (h : ∀ e ∈ pre, ¬ isEntry n n.length e) :
    lookup n (pre ++ post) = lookup n post := by
  unfold lookup
  rw [List.find?_append, List.find?_eq_none.mpr h, Option.none_or]

theorem lookup_skip {pre post : List Str} (h : ¬ isEntry n n.length e) :
    lookup n (pre ++ e :: post) = lookup n (pre ++ post) := by
  unfold lookup
  rw [List.find?_append, List.find?_append, List.find?_cons_of_neg h]

theorem lookup_entry {pre post : List Str} (h : ∀ e ∈ pre, ¬ isEntry n n.length e) (v : Str) :
    lookup n (pre ++ (n ++ equals :: v) :: post) = some v := by
  rw [lookup_append_of_none h, lookup, List.find?_cons_of_pos (isEntry_iff.mpr ⟨v, rfl⟩)]
  simp

theorem lookup_eq_none (h : ∀ e ∈ es, ¬ isEntry n n.length e) : lookup n es = none := by
  unfold lookup
  rw [List.find?_eq_none.mpr h]
  rfl

/-! ## The loops -/

theorem getenvLoop_eq (h : k + es.length < 2 ^ 31) :
    getenvLoop n n.length k es = some (lookup n es) := by
  induction es generalizing k with
  | nil => rfl
  | cons e es ih =>
    rw [List.length_cons] at h
    rw [getenvLoop, lookup]
    by_cases he : isEntry n n.length e = true
    · rw [if_pos he, List.find?_cons_of_pos he]
      rfl
    · rw [if_neg he, if_pos (by omega), List.find?_cons_of_neg he, ih (by omega)]
      rfl

theorem getenv_eq (hn : n.length < 2 ^ 32) (h : st.strings.length < 2 ^ 31) :
    getenv st n = some (lookup n st.strings) := by
  unfold getenv
  rw [Nat.mod_eq_of_lt hn]
  exact getenvLoop_eq (by omega)

/-- The string that a call hands to `putenv` begins with the name. -/
theorem isEntry_take (h : string.take n.length = n) :
    isEntry string n.length e = isEntry n n.length e := by
  unfold isEntry
  rw [h, List.take_length]

/-- The loop of `putenv` stops at the first entry of the name. -/
theorem putenvLoop_eq (hne : n ≠ []) (hs : string.take n.length = n)
    (h : k + es.length < 2 ^ 31) :
    (∃ pre e post, es = pre ++ e :: post ∧ (∀ x ∈ pre, ¬ isEntry n n.length x) ∧
      isEntry n n.length e ∧ putenvLoop string n.length k es = .found (k + pre.length)) ∨
    (∀ x ∈ es, ¬ isEntry n n.length x) ∧
      putenvLoop string n.length k es = .missing (k + es.length) := by
  have hhead (e : Str) : (string.head? = e.head? ∧ isEntry string n.length e = true) ↔
      isEntry n n.length e = true := by
    rw [isEntry_take hs]
    refine ⟨And.right, fun he => ⟨?_, he⟩⟩
    obtain ⟨v, rfl⟩ := isEntry_iff.mp he
    obtain ⟨c, cs, rfl⟩ := List.exists_cons_of_ne_nil hne
    rw [← List.take_append_drop (c :: cs).length string, hs]
    rfl
  induction es generalizing k with
  | nil => exact .inr ⟨by simp, rfl⟩
  | cons e es ih =>
    rw [List.length_cons] at h
    by_cases he : isEntry n n.length e = true
    · refine .inl ⟨[], e, es, rfl, by simp, he, ?_⟩
      rw [putenvLoop, if_pos ((hhead e).mpr he)]
      rfl
    · have hloop : putenvLoop string n.length k (e :: es) =
          putenvLoop string n.length (k + 1) es := by
        rw [putenvLoop, if_neg (mt (hhead e).mp he), if_pos (by omega)]
      rcases ih (k := k + 1) (by omega) with ⟨pre, x, post, rfl, hpre, hx, hf⟩ | ⟨hnone, hm⟩
      · refine .inl ⟨e :: pre, x, post, rfl, List.forall_mem_cons.mpr ⟨he, hpre⟩, hx, ?_⟩
        rw [hloop, hf, List.length_cons, Nat.add_right_comm, Nat.add_assoc]
      · refine .inr ⟨List.forall_mem_cons.mpr ⟨he, hnone⟩, ?_⟩
        rw [hloop, hm, List.length_cons, Nat.add_right_comm, Nat.add_assoc]

/-! ## The arrays -/

/-- No array in use is given out again. -/
structure Wf (st : Environ) : Prop where
  environ : st.environ < st.fresh
  origenv : st.origenv < st.fresh

theorem Wf.strings_grow (h : Wf st) (string : Str) :
    Wf (st.grow string st.strings.length) ∧
      (st.grow string st.strings.length).strings = st.strings ++ [string] := by
  have henv := h.environ
  have horig := h.origenv
  refine ⟨⟨Nat.lt_succ_self _, Nat.lt_succ_of_lt horig⟩, ?_⟩
  have hfresh : st.fresh ≠ 0 := by omega
  rw [Environ.strings]
  unfold Environ.grow
  dsimp only
  rw [if_neg hfresh]
  by_cases heq : st.environ = st.origenv
  · rw [if_pos heq, Function.update_self, ← heq]
    congr 1
    unfold Environ.strings
    by_cases h0 : st.environ = 0
    · rw [if_pos h0]
      rfl
    · rw [if_neg h0, List.take_length]
      split
      · exact (List.length_eq_zero_iff.mp ‹_›).symm
      · rfl
  · rw [if_neg heq, Function.update_self]
    congr 1
    unfold Environ.strings
    by_cases h0 : st.environ = 0
    · rw [if_pos h0]
      rfl
    · rw [if_neg h0, List.take_length]

theorem strings_update (h : st.strings ≠ []) (es : List Str) :
    ({ st with arrays := Function.update st.arrays st.environ es } : Environ).strings = es := by
  have h0 : st.environ ≠ 0 := by
    intro h0
    exact h (if_pos h0)
  rw [Environ.strings, if_neg h0]
  exact Function.update_self _ _ _

/-- The first line of `putenv`. -/
def Environ.opened (st : Environ) : Environ :=
  if st.origenv = 0 then { st with origenv := st.environ } else st

theorem Wf.opened (h : Wf st) : Wf st.opened ∧ st.opened.strings = st.strings := by
  unfold Environ.opened
  split
  · exact ⟨⟨h.environ, h.environ⟩, rfl⟩
  · exact ⟨h, rfl⟩

/-- `putenv` on the strings of the environment: an entry of the name is replaced or removed, a
new one is added. -/
theorem putenv_cases (h : Wf st) (hn : n ≠ []) (hs : string.take n.length = n)
    (hname : string.takeWhile (· != equals) = n) (hlt : st.strings.length + 2 < 2 ^ 31) :
    ∃ st', putenv string st = some st' ∧ Wf st' ∧
      ((∃ pre e post, st.strings = pre ++ e :: post ∧ (∀ x ∈ pre, ¬ isEntry n n.length x) ∧
          isEntry n n.length e ∧
          st'.strings = if string.contains equals then pre ++ string :: post else pre ++ post) ∨
        (∀ x ∈ st.strings, ¬ isEntry n n.length x) ∧
          st'.strings = if string.contains equals then st.strings ++ [string] else st.strings) := by
  obtain ⟨hwf, hstr⟩ := h.opened
  have hopen : 0 + st.strings.length < 2 ^ 31 := by omega
  rcases putenvLoop_eq hn hs hopen with
    ⟨pre, e, post, hes, hpre, he, hfound⟩ | ⟨hnone, hmissing⟩
  · rw [← hstr, Nat.zero_add] at hfound
    have hput : putenv string st = some { st.opened with
        arrays := Function.update st.opened.arrays st.opened.environ
          (if !string.contains equals then st.opened.strings.eraseIdx pre.length
            else st.opened.strings.set pre.length string) } := by
      unfold Environ.opened at hfound
      unfold putenv
      rw [hname]
      dsimp only
      rw [hfound]
      rfl
    rw [hput, hstr]
    refine ⟨_, rfl, ⟨hwf.environ, hwf.origenv⟩, .inl ⟨pre, e, post, hes, hpre, he, ?_⟩⟩
    have hne : st.opened.strings ≠ [] := by
      rw [hstr, hes]
      simp
    rw [strings_update hne, hes]
    cases string.contains equals with
    | true => simp [List.set_append_right]
    | false => simp [List.eraseIdx_append_of_length_le]
  · rw [← hstr, Nat.zero_add] at hmissing
    have hput : putenv string st =
        if !string.contains equals then some st.opened
        else if st.opened.strings.length + 2 < 2 ^ 31 then
          some (st.opened.grow string st.opened.strings.length)
        else none := by
      unfold Environ.opened at hmissing
      unfold putenv
      rw [hname]
      dsimp only
      rw [hmissing]
      rfl
    rw [hput, hstr]
    cases string.contains equals with
    | true =>
      rw [Bool.not_true, if_neg Bool.false_ne_true, if_pos hlt, ← hstr]
      obtain ⟨hwf', hgrow⟩ := hwf.strings_grow string
      exact ⟨_, rfl, hwf', .inr ⟨hstr ▸ hnone, hgrow⟩⟩
    | false => exact ⟨_, rfl, hwf, .inr ⟨hnone, hstr⟩⟩

/-- `putenv` of an entry gives its name the value, and changes no other name. -/
theorem putenv_set (h : Wf st) (hn : IsName n) (hlt : st.strings.length + 2 < 2 ^ 31) (v : Str) :
    ∃ st', putenv (n ++ equals :: v) st = some st' ∧ Wf st' ∧
      st'.strings.length ≤ st.strings.length + 1 ∧ lookup n st'.strings = some v ∧
      ∀ n', IsName n' → n' ≠ n → lookup n' st'.strings = lookup n' st.strings := by
  have hentry : isEntry n n.length (n ++ equals :: v) := isEntry_iff.mpr ⟨v, rfl⟩
  have hother {n' e : Str} (hn' : IsName n') (hne : n' ≠ n) (he : isEntry n n.length e) :
      ¬ isEntry n' n'.length e :=
    fun he' => hne (isEntry_unique hn'.2 hn.2 he' he)
  obtain ⟨st', hput, hwf, hstr⟩ := putenv_cases h hn.1 (List.take_left' rfl)
    (takeWhile_entry hn.2 v) hlt
  have hcontains : (n ++ equals :: v).contains equals = true := by simp
  simp only [hcontains, if_true] at hstr
  refine ⟨st', hput, hwf, ?_⟩
  rcases hstr with ⟨pre, e, post, hes, hpre, he, hes'⟩ | ⟨hnone, hes'⟩
  · rw [hes, hes']
    refine ⟨by simp, lookup_entry hpre v, fun n' hn' hne => ?_⟩
    rw [lookup_skip (hother hn' hne hentry), lookup_skip (hother hn' hne he)]
  · rw [hes']
    refine ⟨by simp, lookup_entry hnone v, fun n' hn' hne => ?_⟩
    rw [lookup_skip (hother hn' hne hentry), List.append_nil]

/-- `putenv` of a name changes no other name; it removes the name if that occurs once. -/
theorem putenv_remove (h : Wf st) (hn : IsName n) (hlt : st.strings.length + 2 < 2 ^ 31) :
    ∃ st', putenv n st = some st' ∧ Wf st' ∧ st'.strings.length ≤ st.strings.length ∧
      (st.strings.countP (isEntry n n.length) ≤ 1 → lookup n st'.strings = none) ∧
      ∀ n', IsName n' → n' ≠ n → lookup n' st'.strings = lookup n' st.strings := by
  obtain ⟨st', hput, hwf, hstr⟩ := putenv_cases h hn.1 (List.take_length) (takeWhile_name hn.2) hlt
  have hcontains : n.contains equals = false := by simpa using hn.2
  simp only [hcontains, Bool.false_eq_true, if_false] at hstr
  refine ⟨st', hput, hwf, ?_⟩
  rcases hstr with ⟨pre, e, post, hes, hpre, he, hes'⟩ | ⟨hnone, hes'⟩
  · rw [hes, hes']
    refine ⟨by simp, fun honce => lookup_eq_none fun x hx hxe => ?_, fun n' hn' hne => ?_⟩
    · -- a second entry
      have hpost : x ∈ post := (List.mem_append.mp hx).resolve_left fun hp => hpre x hp hxe
      have hpos := List.countP_pos_iff.mpr ⟨x, hpost, hxe⟩
      rw [List.countP_append, List.countP_cons_of_pos he] at honce
      omega
    · rw [lookup_skip fun he' => hne (isEntry_unique hn'.2 hn.2 he' he)]
  · rw [hes']
    exact ⟨le_rfl, fun _ => lookup_eq_none hnone, fun _ _ _ => rfl⟩

/-! ## Calls and runs -/

theorem setenv_cases (h : Wf st) (hn : IsName n) (hn' : n.length < 2 ^ 32)
    (hlt : st.strings.length + 2 < 2 ^ 31) (v : Str) (overwrite : Bool) :
    ∃ st', setenv n v overwrite st = some st' ∧ Wf st' ∧
      st'.strings.length ≤ st.strings.length + 1 ∧
      lookup n st'.strings = (if overwrite = false ∧ (lookup n st.strings).isSome
        then lookup n st.strings else some v) ∧
      ∀ n', IsName n' → n' ≠ n → lookup n' st'.strings = lookup n' st.strings := by
  unfold setenv
  rw [getenv_eq hn' (by omega)]
  cases hold : lookup n st.strings with
  | none =>
    obtain ⟨st', hput, hwf, hlen, hself, hother⟩ := putenv_set h hn hlt v
    exact ⟨st', hput, hwf, hlen, by simpa using hself, hother⟩
  | some old =>
    cases overwrite with
    | false => exact ⟨st, rfl, h, Nat.le_succ _, by simpa using hold, fun _ _ _ => rfl⟩
    | true =>
      obtain ⟨st1, hrem, hwf1, hlen1, -, hother1⟩ := putenv_remove h hn hlt
      obtain ⟨st', hput, hwf, hlen, hself, hother⟩ := putenv_set hwf1 hn (by omega) v
      refine ⟨st', ?_, hwf, by omega, by simpa using hself, fun n' hn' hne => ?_⟩
      · dsimp only
        rw [if_pos rfl, unsetenv, hrem]
        exact hput
      · rw [hother n' hn' hne, hother1 n' hn' hne]

/-- **A safe call** means what it should. -/
theorem exec_means (h : Wf st) (hs : Safe call st) :
    ∃ st', call.exec st = some st' ∧ Wf st' ∧ Means call st st' := by
  have hlt := hs.strings_lt
  have hmeans {st' : Environ} (hlen : st'.strings.length ≤ st.strings.length + 1)
      (hself : lookup call.name st'.strings = call.apply call.name (lookup call.name st.strings))
      (hother : ∀ n', IsName n' → n' ≠ call.name →
        lookup n' st'.strings = lookup n' st.strings) : Means call st st' := by
    intro n hn hn'
    refine ⟨_, getenv_eq hn' (by omega), ?_⟩
    rw [getenv_eq hn' (by omega)]
    by_cases heq : n = call.name
    · rw [heq, hself]
    · rw [hother n hn heq]
      cases call <;> simp only [Call.name] at heq <;> simp only [Call.apply, if_neg heq]
  cases call with
  | setenv name v overwrite =>
    obtain ⟨st', he, hwf, hlen, hself, hother⟩ :=
      setenv_cases h hs.isName hs.name_lt hlt v overwrite
    exact ⟨st', he, hwf, hmeans hlen (by simpa [Call.apply, Call.name] using hself) hother⟩
  | putenvSet name v =>
    obtain ⟨st', he, hwf, hlen, hself, hother⟩ := putenv_set h hs.isName hlt v
    exact ⟨st', he, hwf, hmeans hlen (by simpa [Call.apply, Call.name] using hself) hother⟩
  | putenvName name =>
    obtain ⟨st', he, hwf, hlen, hself, hother⟩ := putenv_remove h hs.isName hlt
    exact ⟨st', he, hwf, hmeans (by omega)
      (by simpa [Call.apply, Call.name] using hself (hs.once rfl)) hother⟩
  | unsetenv name =>
    obtain ⟨st', he, hwf, hlen, hself, hother⟩ := putenv_remove h hs.isName hlt
    exact ⟨st', he, hwf, hmeans (by omega)
      (by simpa [Call.apply, Call.name] using hself (hs.once rfl)) hother⟩

theorem Wf.follows {calls : List Call} (h : Wf st) (hs : AllSafe calls st) : Follows calls st := by
  induction calls generalizing st with
  | nil => trivial
  | cons call calls ih =>
    obtain ⟨st', he, hwf, hmeans⟩ := exec_means h hs.1
    exact ⟨st', he, hmeans, ih hwf (hs.2 st' he)⟩

/-- **The environment is a map.** In a run of safe calls each call returns, and for every name
`getenv` answers behind it what the call means. -/
theorem follows_map {calls : List Call} (h : st.Initial) (hs : AllSafe calls st) :
    Follows calls st :=
  Wf.follows ⟨h.fresh, by rw [h.origenv]; exact Nat.zero_lt_of_lt h.fresh⟩ hs

/-- An environment of the strings `es`, before the first call. -/
def environOf (es : List Str) : Environ where
  environ := 1
  origenv := 0
  arrays := Function.update (fun _ => []) 1 es
  fresh := 2

theorem environOf_initial (es : List Str) : (environOf es).Initial := ⟨rfl, Nat.one_lt_two⟩

/-- `A=1`, behind which `AB` is set and `A` replaced and removed. -/
theorem follows_map_environOf :
    Follows [.setenv [65, 66] [50] false, .putenvSet [65] [51], .unsetenv [65]]
      (environOf [[65, 61, 49]]) := by
  refine follows_map (environOf_initial _) ⟨⟨⟨by decide, by decide⟩, by decide, by decide, nofun⟩, ?_⟩
  rintro _ ⟨⟩
  refine ⟨⟨⟨by decide, by decide⟩, by decide, by decide, nofun⟩, ?_⟩
  rintro _ ⟨⟩
  exact ⟨⟨⟨by decide, by decide⟩, by decide, by decide, fun _ => by decide⟩, fun _ _ => trivial⟩

/-- `unsetenv` of a name that occurs twice leaves the second value. -/
theorem unsetenv_twice :
    (environOf [[65, 61, 49], [65, 61, 50]]).Initial ∧ IsName [65] ∧
      ∃ st', unsetenv [65] (environOf [[65, 61, 49], [65, 61, 50]]) = some st' ∧
        getenv st' [65] = some (some [50]) :=
  ⟨environOf_initial _, ⟨by decide, by decide⟩, _, rfl, by decide⟩

end Dietlibc.Lib
