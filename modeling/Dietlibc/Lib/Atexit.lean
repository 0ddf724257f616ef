import Mathlib.Tactic

/-!
# atexit

`atexit` and `exit`, with the registration of the handler of stdio in `__fflush4`. A function of
the program has a name in `F`. What a function does when it runs is arbitrary: it may register
functions and it may make the first buffered operation, and both may depend on all that has happened.
A run is the list of its events. No thread is running besides the one that exits.
-/

namespace Dietlibc.Lib.Exit

/-- `NUM_ATEXIT` -/
def numAtexit : Nat := 32

/-- What a function does: a call of `atexit`, or a buffered operation on a stream. -/
inductive Action (F : Type) where
  | atexit (t : F)
  | buffered

/-- What happens in a run. A registration that returns 0 has a number; `left` is the call of
`_exit`. -/
inductive Event (F : Type) where
  | registered (r : Nat) (t : F)
  | refused (t : F)
  | called (r : Nat) (t : F)
  | left
  deriving DecidableEq

/-- `__atexitlist`, `atexit_counter` and `__stdio_atexit`, and the events so far. -/
structure Process (F : Type) where
  atexitlist : Nat → Option F
  counter : Nat
  stdioAtexit : Bool
  events : List (Event F)

variable {F : Type}

def Process.start : Process F := ⟨fun _ => none, 0, false, []⟩

def Process.note (p : Process F) (e : Event F) : Process F := { p with events := p.events ++ [e] }

def atexit (t : F) (p : Process F) : Int × Process F :=
  if p.counter < numAtexit then
    (0, { p with
      atexitlist := Function.update p.atexitlist p.counter (some t)
      counter := p.counter + 1
      events := p.events ++ [.registered p.counter t] })
  else (-1, p.note (.refused t))

/-- The front of `__fflush4`. `flushall` is `__stdio_flushall`. -/
def fflush4 (flushall : F) (p : Process F) : Process F :=
  if !p.stdioAtexit then (atexit flushall { p with stdioAtexit := true }).2 else p

def act (flushall : F) (p : Process F) : Action F → Process F
  | .atexit t => (atexit t p).2
  | .buffered => fflush4 flushall p

def acts (flushall : F) (p : Process F) (as : List (Action F)) : Process F :=
  as.foldl (act flushall) p

/-- The loop of `__libc_exit`. The call of a null pointer has no result. -/
def exitLoop (flushall : F) (body : F → List (Event F) → List (Action F)) :
    Nat → Process F → Option (Process F)
  | 0, p => some p
  | i + 1, p =>
    match p.atexitlist i with
    | none => none
    | some t =>
      let p := p.note (.called i t)
      exitLoop flushall body i (acts flushall p (body t p.events))

def libcExit (flushall : F) (body : F → List (Event F) → List (Action F)) (p : Process F) :
    Option (Process F) :=
  (exitLoop flushall body p.counter p).map fun p => p.note .left

/-- A run of a program that does `main` and then exits: its events. -/
def run (flushall : F) (body : F → List (Event F) → List (Action F)) (main : List (Action F)) :
    Option (List (Event F)) :=
  (libcExit flushall body (acts flushall .start main)).map (·.events)

/-! ## The order of the calls -/

/-- A call of `atexit`. -/
def Event.isRegistration : Event F → Bool
  | registered .. => true
  | refused _ => true
  | _ => false

/-- **What exit handlers are for**: a function is called once for each registration that returned 0,
one that is registered while others wait is called before them, and the end is `_exit`. -/
structure Orderly (t : List (Event F)) : Prop where
  once : ∀ (i r : Nat) (f : F), t[i]? = some (.registered r f) →
    ∃! k : Nat, t[k]? = some (Event.called r f)
  reverse : ∀ (i j r s : Nat) (f g : F), t[i]? = some (.registered r f) →
    t[j]? = some (.registered s g) → i < j → (∀ m < j, t[m]? ≠ some (Event.called r f)) →
    ∃ k : Nat, t[k]? = some (Event.called s g) ∧ ∀ m ≤ k, t[m]? ≠ some (Event.called r f)
  leaves : t.getLast? = some .left

/-- The functions that actions register: the handler of stdio is one of them, the first time. -/
def asked (flushall : F) : Bool → List (Action F) → List F
  | _, [] => []
  | flag, .atexit t :: as => t :: asked flushall flag as
  | true, .buffered :: as => asked flushall true as
  | false, .buffered :: as => flushall :: asked flushall true as

/-- Whether a buffered operation has been made. -/
def opened : Bool → List (Action F) → Bool
  | flag, [] => flag
  | flag, .atexit _ :: as => opened flag as
  | _, .buffered :: as => opened true as

/-- The registrations of `fs`, the first with the number `n`. -/
def registrations (n : Nat) (fs : List F) : List (Event F) :=
  (fs.zipIdx n).map fun x => .registered x.2 x.1

/-- The calls of `fs`, the last of them first; the first of `fs` has the number `n`. -/
def calls (n : Nat) (fs : List F) : List (Event F) :=
  ((fs.zipIdx n).map fun x => .called x.2 x.1).reverse

/-- No function that `exit` calls registers one, where `main` has registered `fs`. -/
def Quiet (flushall : F) (body : F → List (Event F) → List (Action F)) (flag : Bool) (fs : List F) :
    Prop :=
  ∀ k f, fs[k]? = some f →
    asked flushall flag (body f (registrations 0 fs ++ calls k (fs.drop k))) = []

theorem getElem?_registrations (n : Nat) (fs : List F) (i : Nat) :
    (registrations n fs)[i]? = fs[i]?.map (Event.registered (n + i)) := by
  unfold registrations
  rw [List.getElem?_map, List.getElem?_zipIdx]
  cases fs[i]? <;> rfl

theorem length_calls (n : Nat) (fs : List F) : (calls n fs).length = fs.length := by
  simp [calls]

theorem calls_cons (n : Nat) (f : F) (fs : List F) :
    calls n (f :: fs) = calls (n + 1) fs ++ [.called n f] := by
  simp [calls, List.zipIdx_cons]

theorem getElem?_calls {fs : List F} {i : Nat} (h : i < fs.length) :
    (calls 0 fs)[i]? = fs[fs.length - 1 - i]?.map (Event.called (fs.length - 1 - i)) := by
  unfold calls
  rw [List.getElem?_reverse (by simpa using h), List.getElem?_map, List.getElem?_zipIdx]
  simp only [List.length_map, List.length_zipIdx, Nat.zero_add]
  cases fs[fs.length - 1 - i]? <;> rfl

/-- The events of a run in which only `main` registers functions. -/
def orderlyRun (fs : List F) : List (Event F) := registrations 0 fs ++ calls 0 fs ++ [.left]

theorem length_registrations (n : Nat) (fs : List F) : (registrations n fs).length = fs.length := by
  simp [registrations]

/-- The three parts of the run. -/
theorem getElem?_orderlyRun (fs : List F) (m : Nat) :
    (orderlyRun fs)[m]? =
      if m < fs.length then fs[m]?.map (Event.registered m)
      else if m < 2 * fs.length then
        fs[2 * fs.length - 1 - m]?.map (Event.called (2 * fs.length - 1 - m))
      else if m = 2 * fs.length then some .left else none := by
  unfold orderlyRun
  rw [List.append_assoc]
  split
  · rename_i h
    rw [List.getElem?_append_left (by rwa [length_registrations]), getElem?_registrations,
      Nat.zero_add]
  · rename_i h
    rw [List.getElem?_append_right (by rw [length_registrations]; omega), length_registrations]
    split
    · rename_i h'
      rw [List.getElem?_append_left (by rw [length_calls]; omega), getElem?_calls (by omega)]
      congr 2 <;> omega
    · rename_i h'
      rw [List.getElem?_append_right (by rw [length_calls]; omega), length_calls,
        List.getElem?_singleton]
      congr 1
      exact propext (by omega)

theorem registered_at {fs : List F} {i r : Nat} {f : F} :
    (orderlyRun fs)[i]? = some (.registered r f) ↔ i = r ∧ fs[r]? = some f := by
  rw [getElem?_orderlyRun]
  split
  · simp only [Option.map_eq_some_iff, Event.registered.injEq]
    constructor
    · rintro ⟨g, hg, rfl, rfl⟩
      exact ⟨rfl, hg⟩
    · rintro ⟨rfl, hf⟩
      exact ⟨f, hf, rfl, rfl⟩
  · rename_i h
    have hnone : i = r → ¬ fs[r]? = some f := by
      rintro rfl
      simp [List.getElem?_eq_none (by omega : fs.length ≤ i)]
    split
    · simp [Option.map_eq_some_iff]
      exact hnone
    · split <;> simpa using hnone

theorem called_at {fs : List F} {k r : Nat} {f : F} :
    (orderlyRun fs)[k]? = some (.called r f) ↔ k + r + 1 = 2 * fs.length ∧ fs[r]? = some f := by
  have hlt : fs[r]? = some f → r < fs.length := fun h => (List.getElem?_eq_some_iff.1 h).1
  rw [getElem?_orderlyRun]
  split
  · rename_i h
    simp only [Option.map_eq_some_iff, reduceCtorEq, and_false, exists_false, false_iff]
    rintro ⟨hk, hf⟩
    have := hlt hf
    omega
  · split
    · simp only [Option.map_eq_some_iff, Event.called.injEq]
      constructor
      · rintro ⟨g, hg, rfl, rfl⟩
        exact ⟨by omega, hg⟩
      · rintro ⟨hk, hf⟩
        obtain rfl : r = 2 * fs.length - 1 - k := by omega
        exact ⟨f, hf, rfl, rfl⟩
    · split <;> simp <;> omega

/-- **A run in which only `main` registers functions is orderly.** -/
theorem orderly_orderlyRun (fs : List F) : Orderly (orderlyRun fs) where
  once i r f h := by
    obtain ⟨-, hf⟩ := registered_at.1 h
    have hlt := (List.getElem?_eq_some_iff.1 hf).1
    refine ⟨2 * fs.length - 1 - r, called_at.2 ⟨by omega, hf⟩, fun k hk => ?_⟩
    have := (called_at.1 hk).1
    omega
  reverse i j r s f g hi hj hij _ := by
    obtain ⟨hir, hf⟩ := registered_at.1 hi
    obtain ⟨hjs, hg⟩ := registered_at.1 hj
    have hlt := (List.getElem?_eq_some_iff.1 hg).1
    refine ⟨2 * fs.length - 1 - s, called_at.2 ⟨by omega, hg⟩, fun m hm hcalled => ?_⟩
    have := (called_at.1 hcalled).1
    omega
  leaves := by
    unfold orderlyRun
    exact List.getLast?_concat

/-! ## Registrations -/

/-- The process that has registered `fs`. -/
def Process.of (fs : List F) (flag : Bool) (events : List (Event F)) : Process F :=
  ⟨fun j => fs[j]?, fs.length, flag, events⟩

theorem atexit_of {fs : List F} (h : fs.length < numAtexit) (t : F) (flag : Bool)
    (events : List (Event F)) :
    (atexit t (.of fs flag events)).2 =
      .of (fs ++ [t]) flag (events ++ [.registered fs.length t]) := by
  have hlist : Function.update (fun j => fs[j]?) fs.length (some t) = fun j => (fs ++ [t])[j]? := by
    funext j
    rcases lt_trichotomy j fs.length with hj | rfl | hj
    · rw [Function.update_of_ne hj.ne, List.getElem?_append_left hj]
    · rw [Function.update_self, List.getElem?_concat_length]
    · rw [Function.update_of_ne hj.ne', List.getElem?_eq_none hj.le,
        List.getElem?_eq_none (by simpa using hj)]
  unfold atexit Process.of
  rw [if_pos h]
  simp only [hlist, List.length_append, List.length_singleton]

theorem asked_nil {flushall : F} {flag : Bool} {as : List (Action F)}
    (h : asked flushall flag as = []) : opened flag as = flag := by
  induction as with
  | nil => rfl
  | cons a as ih =>
    cases a with
    | atexit t => exact absurd h (List.cons_ne_nil _ _)
    | buffered =>
      cases flag with
      | true => exact ih h
      | false => exact absurd h (List.cons_ne_nil _ _)

theorem registrations_cons (n : Nat) (f : F) (fs : List F) :
    registrations n (f :: fs) = .registered n f :: registrations (n + 1) fs := rfl

/-- **While there is room, the functions asked for are registered** in their order. -/
theorem acts_of {flushall : F} {as : List (Action F)} {fs : List F} {flag : Bool}
    (h : fs.length + (asked flushall flag as).length ≤ numAtexit) (events : List (Event F)) :
    acts flushall (.of fs flag events) as =
      .of (fs ++ asked flushall flag as) (opened flag as)
        (events ++ registrations fs.length (asked flushall flag as)) := by
  induction as generalizing fs flag events with
  | nil => simp [acts, asked, opened, registrations]
  | cons a as ih =>
    -- one function is registered, the rest follows it
    have hone : ∀ (t : F) (flag' : Bool),
        fs.length + (t :: asked flushall flag' as).length ≤ numAtexit →
        acts flushall (atexit t (.of fs flag' events)).2 as =
          .of (fs ++ t :: asked flushall flag' as) (opened flag' as)
            (events ++ registrations fs.length (t :: asked flushall flag' as)) := by
      intro t flag' hroom
      rw [List.length_cons] at hroom
      rw [atexit_of (by omega), ih (by rw [List.length_append, List.length_singleton]; omega),
        registrations_cons, List.length_append, List.length_singleton, List.append_assoc,
        List.append_assoc]
      rfl
    cases a with
    | atexit t => exact hone t flag h
    | buffered =>
      cases flag with
      | true => exact ih h events
      | false => exact hone flushall true h

/-! ## What a run adds -/

theorem atexit_events (t : F) (p : Process F) :
    ∃ e : Event F, (atexit t p).2.events = p.events ++ [e] ∧ e.isRegistration = true ∧
      (atexit t p).2.stdioAtexit = p.stdioAtexit := by
  unfold atexit
  split
  · exact ⟨_, rfl, rfl, rfl⟩
  · exact ⟨_, rfl, rfl, rfl⟩

/-- The events that actions add are registrations, one for each function that they ask for. -/
theorem acts_events (flushall : F) (p : Process F) (as : List (Action F)) :
    ∃ es : List (Event F), (acts flushall p as).events = p.events ++ es ∧
      (∀ e ∈ es, e.isRegistration = true) ∧
      es.length = (asked flushall p.stdioAtexit as).length := by
  induction as generalizing p with
  | nil => exact ⟨[], (List.append_nil _).symm, by simp, rfl⟩
  | cons a as ih =>
    have hone : ∀ (t : F) (p : Process F), ∃ es : List (Event F),
        (acts flushall (atexit t p).2 as).events = p.events ++ es ∧
          (∀ e ∈ es, e.isRegistration = true) ∧
          es.length = (t :: asked flushall p.stdioAtexit as).length := by
      intro t p
      obtain ⟨e, he, hreg, hflag⟩ := atexit_events t p
      obtain ⟨es, hes, hall, hlen⟩ := ih (atexit t p).2
      rw [he, List.append_assoc] at hes
      rw [hflag] at hlen
      exact ⟨e :: es, hes, List.forall_mem_cons.2 ⟨hreg, hall⟩, congrArg (· + 1) hlen⟩
    cases a with
    | atexit t => exact hone t p
    | buffered =>
      cases hflag : p.stdioAtexit with
      | true =>
        have hskip : act flushall p .buffered = p := by simp [act, fflush4, hflag]
        obtain ⟨es, hes, hall, hlen⟩ := ih p
        rw [hflag] at hlen
        exact ⟨es, (congrArg (fun p => (acts flushall p as).events) hskip).trans hes, hall, hlen⟩
      | false =>
        have hfirst : act flushall p .buffered =
            (atexit flushall { p with stdioAtexit := true }).2 := by simp [act, fflush4, hflag]
        obtain ⟨es, hes, hall, hlen⟩ := hone flushall { p with stdioAtexit := true }
        exact ⟨es, (congrArg (fun p => (acts flushall p as).events) hfirst).trans hes, hall, hlen⟩

/-- What the loop of `exit` adds: the functions that it calls have numbers below `i`. -/
theorem exitLoop_events {flushall : F} {body : F → List (Event F) → List (Action F)} {i : Nat}
    {p q : Process F} (h : exitLoop flushall body i p = some q) :
    ∃ es : List (Event F), q.events = p.events ++ es ∧ ∀ r f, Event.called r f ∈ es → r < i := by
  induction i generalizing p with
  | zero =>
    cases h
    exact ⟨[], (List.append_nil _).symm, by simp⟩
  | succ i ih =>
    rw [exitLoop] at h
    cases hlist : p.atexitlist i with
    | none => simp [hlist] at h
    | some t =>
      simp only [hlist] at h
      obtain ⟨es', hes', hbelow⟩ := ih h
      obtain ⟨es, hes, hall, -⟩ := acts_events flushall (p.note (.called i t))
        (body t (p.note (.called i t)).events)
      refine ⟨.called i t :: es ++ es', ?_, ?_⟩
      · rw [hes', hes]
        simp [Process.note]
      · intro r f hmem
        rcases List.mem_append.1 hmem with hmem | hmem
        · rcases List.mem_cons.1 hmem with heq | hmem
          · cases heq
            exact Nat.lt_succ_self _
          · exact absurd (hall _ hmem) (by simp [Event.isRegistration])
        · exact Nat.lt_succ_of_lt (hbelow r f hmem)

/-! ## Exit ends -/

/-- The entries below the counter are functions. -/
def Process.Filled (p : Process F) : Prop := ∀ j < p.counter, (p.atexitlist j).isSome = true

theorem filled_atexit {p : Process F} (h : p.Filled) (t : F) :
    (atexit t p).2.Filled ∧ p.counter ≤ (atexit t p).2.counter := by
  unfold atexit
  split
  · refine ⟨fun j hj => ?_, Nat.le_succ _⟩
    rcases Nat.lt_succ_iff_lt_or_eq.1 hj with hlt | rfl
    · show Option.isSome (Function.update p.atexitlist p.counter (some t) j) = true
      rw [Function.update_of_ne hlt.ne]
      exact h j hlt
    · show Option.isSome (Function.update p.atexitlist p.counter (some t) p.counter) = true
      rw [Function.update_self]
      rfl
  · exact ⟨h, le_rfl⟩

theorem filled_acts (flushall : F) {p : Process F} (h : p.Filled) (as : List (Action F)) :
    (acts flushall p as).Filled ∧ p.counter ≤ (acts flushall p as).counter := by
  induction as generalizing p with
  | nil => exact ⟨h, le_rfl⟩
  | cons a as ih =>
    have hact : (act flushall p a).Filled ∧ p.counter ≤ (act flushall p a).counter := by
      cases a with
      | atexit t => exact filled_atexit h t
      | buffered =>
        simp only [act, fflush4]
        split
        · exact filled_atexit (p := { p with stdioAtexit := true }) h flushall
        · exact ⟨h, le_rfl⟩
    obtain ⟨hfilled, hle⟩ := ih hact.1
    exact ⟨hfilled, hact.2.trans hle⟩

theorem exitLoop_isSome {flushall : F} {body : F → List (Event F) → List (Action F)} {i : Nat}
    {p : Process F} (h : p.Filled) (hi : i ≤ p.counter) :
    (exitLoop flushall body i p).isSome = true := by
  induction i generalizing p with
  | zero => rfl
  | succ i ih =>
    obtain ⟨t, ht⟩ := Option.isSome_iff_exists.1 (h i hi)
    simp only [exitLoop, ht]
    obtain ⟨hfilled, hle⟩ := filled_acts flushall (p := p.note (.called i t)) h
      (body t (p.note (.called i t)).events)
    exact ih hfilled (Nat.le_trans (Nat.le_of_succ_le hi) hle)

/-- **Every program that exits reaches `_exit`**, whatever its handlers do. -/
theorem run_isSome (flushall : F) (body : F → List (Event F) → List (Action F))
    (main : List (Action F)) : (run flushall body main).isSome = true := by
  have hfilled : (acts flushall .start main).Filled :=
    (filled_acts flushall (fun j hj => absurd hj (Nat.not_lt_zero j)) main).1
  unfold run libcExit
  rw [Option.isSome_map, Option.isSome_map]
  exact exitLoop_isSome hfilled le_rfl

/-! ## Handlers that register functions -/

section Loop

variable {flushall : F} {body : F → List (Event F) → List (Action F)} {flag : Bool} {fs : List F}
  {i : Nat} {q : Process F}

/-- The process when the functions from number `i` on have been called. -/
def waiting (fs : List F) (flag : Bool) (i : Nat) : Process F :=
  .of fs flag (registrations 0 fs ++ calls i (fs.drop i))

theorem waiting_note (h : i < fs.length) :
    (waiting fs flag (i + 1)).note (.called i fs[i]) = waiting fs flag i := by
  unfold waiting Process.note Process.of
  rw [List.drop_eq_getElem_cons h, calls_cons, List.append_assoc]

theorem exitLoop_waiting (h : i < fs.length) :
    exitLoop flushall body (i + 1) (waiting fs flag (i + 1)) =
      exitLoop flushall body i
        (acts flushall (waiting fs flag i) (body fs[i] (waiting fs flag i).events)) := by
  have hlist : (waiting fs flag (i + 1)).atexitlist i = some fs[i] := List.getElem?_eq_getElem h
  rw [exitLoop]
  simp only [hlist]
  rw [waiting_note h]

/-- A function that registers none leaves the process as it is. -/
theorem acts_waiting (h : i < fs.length) (hroom : fs.length ≤ numAtexit)
    (hquiet : asked flushall flag (body fs[i] (waiting fs flag i).events) = []) :
    acts flushall (waiting fs flag i) (body fs[i] (waiting fs flag i).events) =
      waiting fs flag i := by
  unfold waiting at hquiet ⊢
  rw [acts_of (by rw [hquiet]; exact hroom), hquiet, asked_nil hquiet]
  simp [registrations]

theorem exitLoop_quiet (hroom : fs.length ≤ numAtexit) (hquiet : Quiet flushall body flag fs)
    (hi : i ≤ fs.length) :
    exitLoop flushall body i (waiting fs flag i) = some (waiting fs flag 0) := by
  induction i with
  | zero => rfl
  | succ i ih =>
    rw [exitLoop_waiting hi, acts_waiting hi hroom (hquiet i _ (List.getElem?_eq_getElem hi)),
      ih (Nat.le_of_succ_le hi)]

theorem countP_waiting :
    (waiting fs flag i).events.countP Event.isRegistration = fs.length := by
  have hreg : (registrations 0 fs).countP Event.isRegistration = fs.length := by
    rw [List.countP_eq_length.2, length_registrations]
    intro e he
    obtain ⟨x, -, rfl⟩ := List.mem_map.1 he
    rfl
  have hcalls : (calls i (fs.drop i)).countP Event.isRegistration = 0 := by
    refine List.countP_eq_zero.2 fun e he => ?_
    obtain ⟨x, -, rfl⟩ := List.mem_map.1 (List.mem_reverse.1 he)
    simp [Event.isRegistration]
  show (registrations 0 fs ++ calls i (fs.drop i)).countP Event.isRegistration = _
  rw [List.countP_append, hreg, hcalls, Nat.add_zero]

/-- A handler has room for the functions that it registers. -/
theorem room_of_count (h : exitLoop flushall body i
      (acts flushall (waiting fs flag i) (body f (waiting fs flag i).events)) = some q)
    (hcount : q.events.countP Event.isRegistration ≤ numAtexit) :
    fs.length + (asked flushall flag (body f (waiting fs flag i).events)).length ≤ numAtexit := by
  obtain ⟨es', hes', -⟩ := exitLoop_events h
  obtain ⟨es, hes, hall, hlen⟩ := acts_events flushall (waiting fs flag i)
    (body f (waiting fs flag i).events)
  have hes_count : es.countP Event.isRegistration = es.length := List.countP_eq_length.2 hall
  rw [hes', List.countP_append, hes, List.countP_append, countP_waiting, hes_count, hlen] at hcount
  exact Nat.le_trans (Nat.le_add_right _ _) hcount

/-- **A function that a handler registers is on the list, behind those that are called.** -/
theorem exitLoop_registers (hi : i ≤ fs.length)
    (h : exitLoop flushall body i (waiting fs flag i) = some q)
    (hcount : q.events.countP Event.isRegistration ≤ numAtexit) {k : Nat} {f : F} (hk : k < i)
    (hf : fs[k]? = some f) (hloud : asked flushall flag (body f (waiting fs flag k).events) ≠ []) :
    ∃ g, Event.registered fs.length g ∈ q.events := by
  induction i with
  | zero => omega
  | succ i ih =>
    rw [exitLoop_waiting hi] at h
    have hroom := room_of_count h hcount
    by_cases hquiet : asked flushall flag (body fs[i] (waiting fs flag i).events) = []
    · rw [acts_waiting hi (Nat.le_trans (Nat.le_add_right _ _) hroom) hquiet] at h
      refine ih (Nat.le_of_succ_le hi) h (Nat.lt_of_le_of_ne (Nat.le_of_lt_succ hk) ?_)
      rintro rfl
      rw [List.getElem?_eq_getElem hi, Option.some.injEq] at hf
      exact hloud (hf ▸ hquiet)
    · obtain ⟨es', hes', -⟩ := exitLoop_events h
      obtain ⟨g, gs, hg⟩ := List.exists_cons_of_ne_nil hquiet
      have hacts := acts_of hroom (waiting fs flag i).events
      rw [hg, registrations_cons] at hacts
      have hreg : (acts flushall (waiting fs flag i)
          (body fs[i] (waiting fs flag i).events)).events = (waiting fs flag i).events ++
            .registered fs.length g :: registrations (fs.length + 1) gs :=
        congrArg Process.events hacts
      refine ⟨g, ?_⟩
      rw [hes', hreg]
      simp

end Loop

theorem waiting_length (fs : List F) (flag : Bool) :
    waiting fs flag fs.length = .of fs flag (registrations 0 fs) := by
  unfold waiting
  rw [List.drop_length]
  exact congrArg (Process.of fs flag) (List.append_nil _)

section Run

variable {flushall : F} {body : F → List (Event F) → List (Action F)} {main : List (Action F)}
  {t : List (Event F)}

/-- The parts of a run. -/
theorem run_parts (h : run flushall body main = some t) :
    ∃ q, exitLoop flushall body (acts flushall .start main).counter (acts flushall .start main) =
      some q ∧ t = q.events ++ [.left] := by
  obtain ⟨p, hp, rfl⟩ := Option.map_eq_some_iff.1 h
  obtain ⟨q, hq, rfl⟩ := Option.map_eq_some_iff.1 hp
  exact ⟨q, hq, rfl⟩

/-- What `main` leaves, when the list has room for all registrations of the run. -/
theorem acts_main (h : run flushall body main = some t)
    (hcount : t.countP Event.isRegistration ≤ numAtexit) :
    (asked flushall false main).length ≤ numAtexit ∧
      acts flushall .start main = waiting (asked flushall false main) (opened false main)
        (asked flushall false main).length := by
  obtain ⟨q, hq, rfl⟩ := run_parts h
  obtain ⟨es', hes', -⟩ := exitLoop_events hq
  obtain ⟨es, hes, hall, hlen⟩ := acts_events flushall .start main
  have hes_count : es.countP Event.isRegistration = es.length := List.countP_eq_length.2 hall
  have hroom : (asked flushall false main).length ≤ numAtexit := by
    rw [hes', hes, List.countP_append, List.countP_append, List.countP_append, hes_count] at hcount
    have hflag : (asked flushall (Process.start : Process F).stdioAtexit main).length =
      (asked flushall false main).length := rfl
    omega
  have hacts : acts flushall (.of [] false []) main =
      .of ([] ++ asked flushall false main) (opened false main)
        ([] ++ registrations 0 (asked flushall false main)) :=
    acts_of (by simpa using hroom) []
  refine ⟨hroom, ?_⟩
  rw [waiting_length]
  exact hacts

/-- A function that a handler registers is never called. -/
theorem not_called {fs : List F} {flag : Bool} {q : Process F}
    (h : exitLoop flushall body fs.length (waiting fs flag fs.length) = some q) (g : F) :
    Event.called fs.length g ∉ q.events := by
  obtain ⟨es, hes, hbelow⟩ := exitLoop_events h
  rw [hes, waiting_length]
  intro hmem
  rcases List.mem_append.1 hmem with hmem | hmem
  · obtain ⟨x, -, hx⟩ := List.mem_map.1 hmem
    cases hx
  · exact Nat.lt_irrefl _ (hbelow _ _ hmem)

/-- **Exit keeps its order exactly when no function that it calls registers one**, by `atexit` or
by the first buffered operation. -/
theorem run_orderly_iff
    (h : ∀ t ∈ run flushall body main, t.countP Event.isRegistration ≤ numAtexit) :
    (∃ t, run flushall body main = some t ∧ Orderly t) ↔
      Quiet flushall body (opened false main) (asked flushall false main) := by
  obtain ⟨t, ht⟩ := Option.isSome_iff_exists.1 (run_isSome flushall body main)
  have hcount := h t ht
  obtain ⟨hroom, hmain⟩ := acts_main ht hcount
  obtain ⟨q, hq, rfl⟩ := run_parts ht
  rw [hmain] at hq
  rw [List.countP_append] at hcount
  constructor
  · rintro ⟨t, ht', horderly⟩
    obtain rfl := Option.some.inj (ht.symm.trans ht')
    intro k f hf
    by_contra hloud
    have hk := (List.getElem?_eq_some_iff.1 hf).1
    obtain ⟨g, hg⟩ := exitLoop_registers le_rfl hq (Nat.le_trans (Nat.le_add_right _ _) hcount)
      hk hf hloud
    obtain ⟨i, hi⟩ := List.mem_iff_getElem?.1 (List.mem_append_left [.left] hg)
    obtain ⟨j, hj, -⟩ := horderly.once i _ g hi
    rcases List.mem_append.1 (List.mem_of_getElem? hj) with hmem | hmem
    · exact not_called hq g hmem
    · simp at hmem
  · intro hquiet
    have hall := exitLoop_quiet hroom hquiet le_rfl
    obtain rfl := Option.some.inj (hq.symm.trans hall)
    exact ⟨_, ht, orderly_orderlyRun _⟩

end Run

/-- `main` registers a function that does nothing. -/
theorem run_orderly_quiet : (∀ t ∈ run true (fun _ _ => []) [.atexit false],
      t.countP Event.isRegistration ≤ numAtexit) ∧
    ∃ t, run true (fun _ _ => []) [.atexit false] = some t ∧ Orderly t := by
  have hcount : ∀ t ∈ run true (fun _ _ => []) [.atexit false],
      t.countP Event.isRegistration ≤ numAtexit := by
    rintro t ⟨⟩
    decide
  exact ⟨hcount, (run_orderly_iff hcount).2 fun k f _ => rfl⟩

/-- The function that a handler registers while it runs is not called. -/
theorem run_forgets : ¬∀ (flushall : Bool) (body : Bool → List (Event Bool) → List (Action Bool))
    (main : List (Action Bool)),
    (∀ t ∈ run flushall body main, t.countP Event.isRegistration ≤ numAtexit) →
    ∃ t, run flushall body main = some t ∧ Orderly t := by
  intro h
  have hcount : ∀ t ∈ run true (fun f _ => if f then [] else [.atexit true]) [.atexit false],
      t.countP Event.isRegistration ≤ numAtexit := by
    rintro t ⟨⟩
    decide
  obtain ⟨t, ht, horderly⟩ := h _ _ _ hcount
  cases ht
  obtain ⟨k, hk, -⟩ := horderly.once 2 1 true rfl
  exact absurd (List.mem_of_getElem? hk) (by decide)

end Dietlibc.Lib.Exit
