import Mathlib.Algebra.BigOperators.Group.Finset.Basic
import Mathlib.Algebra.Order.BigOperators.Group.Finset
import Mathlib.Data.Fintype.Basic
import Mathlib.Tactic

/-!
# Interleavings

Threads with a state of their own over a state that they share. A thread takes one step at a time,
and between two of its steps any other thread may step: a schedule says which thread steps next. What
a program does not decide itself (what its client asks for, whether a clock has run out) is a choice
that the schedule makes with the step.

An object is atomic if each of its operations takes place at one moment between its call and its
return. `Linearizes` says that of a history, and gives the operations in the order of these moments;
`linearizes_run` proves it of a program whose steps are moves of an atomic object.
-/

namespace Interleaving

open Function

/-- The shared state, and each thread's own. -/
@[ext]
structure World (T S L : Type) where
  shared : S
  locals : T → L

/-- What a thread does in a step, and what is seen of it. A thread that waits stays as it is. -/
abbrev Prog (T C S L E : Type) := T → C → S → L → S × L × Option E

section

variable {T C S L E : Type} [DecidableEq T] (p : Prog T C S L E)

namespace World

def next (w : World T S L) (t : T) (c : C) : World T S L :=
  let r := p t c w.shared (w.locals t)
  ⟨r.1, update w.locals t r.2.1⟩

def seen (w : World T S L) (t : T) (c : C) : List (T × E) :=
  ((p t c w.shared (w.locals t)).2.2.map fun e => (t, e)).toList

theorem next_shared (w : World T S L) (t : T) (c : C) :
    (w.next p t c).shared = (p t c w.shared (w.locals t)).1 := rfl

theorem next_self (w : World T S L) (t : T) (c : C) :
    (w.next p t c).locals t = (p t c w.shared (w.locals t)).2.1 :=
  update_self ..

theorem next_other (w : World T S L) {t t' : T} (c : C) (h : t' ≠ t) :
    (w.next p t c).locals t' = w.locals t' :=
  update_of_ne h ..

end World

/-- The threads step as the schedule says. -/
def run (w : World T S L) : List (T × C) → World T S L
  | [] => w
  | (t, c) :: sched => run (w.next p t c) sched

/-- What is seen of a run. -/
def trace (w : World T S L) : List (T × C) → List (T × E)
  | [] => []
  | (t, c) :: sched => w.seen p t c ++ trace (w.next p t c) sched

variable {p}

/-- What every step keeps holds after every run. -/
theorem run_invariant {I : World T S L → Prop}
    (hI : ∀ w t c, I w → I (w.next p t c)) {w : World T S L} (h : I w) (sched : List (T × C)) :
    I (run p w sched) := by
  induction sched generalizing w with
  | nil => exact h
  | cons tc sched ih => exact ih (hI w tc.1 tc.2 h)

/-- A property of the shared state and one thread's own, if every step of the thread establishes
it and every step of another leaves it. -/
theorem locals_next {P : T → S → L → Prop} {w : World T S L} {t : T} {c : C}
    (h : ∀ t', P t' w.shared (w.locals t'))
    (hself : P t (p t c w.shared (w.locals t)).1 (p t c w.shared (w.locals t)).2.1)
    (hother : ∀ t' l, t' ≠ t → P t' w.shared l → P t' (p t c w.shared (w.locals t)).1 l) :
    ∀ t', P t' (w.next p t c).shared ((w.next p t c).locals t') := by
  intro t'
  by_cases ht : t' = t
  · subst ht
    rw [World.next_self, World.next_shared]
    exact hself
  · rw [World.next_other p w c ht, World.next_shared]
    exact hother _ _ ht (h t')

end

/-! ## Counting over the threads -/

section

variable {T C S L E : Type} [Fintype T]

/-- The sum of what the threads hold. -/
def total (f : L → Nat) (w : World T S L) : Nat := ∑ t, f (w.locals t)

theorem le_total (f : L → Nat) (w : World T S L) (t : T) : f (w.locals t) ≤ total f w :=
  Finset.single_le_sum (f := fun t => f (w.locals t)) (fun _ _ => Nat.zero_le _)
    (Finset.mem_univ t)

theorem total_eq_zero {f : L → Nat} {w : World T S L} (h : ∀ t, f (w.locals t) = 0) :
    total f w = 0 :=
  Finset.sum_eq_zero fun t _ => h t

variable [DecidableEq T]

theorem le_total_two (f : L → Nat) (w : World T S L) {t t' : T} (h : t ≠ t') :
    f (w.locals t) + f (w.locals t') ≤ total f w := by
  have hsub : ({t, t'} : Finset T) ⊆ Finset.univ := Finset.subset_univ _
  have hsum := Finset.sum_le_sum_of_subset (f := fun t => f (w.locals t)) hsub
  rwa [Finset.sum_pair h] at hsum

/-- A step changes the sum by what it changes for its thread. -/
theorem total_next (f : L → Nat) (p : Prog T C S L E) (w : World T S L) (t : T) (c : C) :
    total f (w.next p t c) + f (w.locals t) =
      total f w + f (p t c w.shared (w.locals t)).2.1 := by
  have hrest : ∑ t' ∈ Finset.univ.erase t, f ((w.next p t c).locals t') =
      ∑ t' ∈ Finset.univ.erase t, f (w.locals t') :=
    Finset.sum_congr rfl fun t' ht' => by rw [World.next_other p w c (Finset.ne_of_mem_erase ht')]
  have hnew := Finset.add_sum_erase Finset.univ (fun t' => f ((w.next p t c).locals t'))
    (Finset.mem_univ t)
  have hold := Finset.add_sum_erase Finset.univ (fun t' => f (w.locals t')) (Finset.mem_univ t)
  simp only [World.next_self, hrest] at hnew
  simp only [total]
  omega

end

/-! ## Atomic objects -/

/-- What is seen of an operation. -/
inductive Event (O R : Type) where
  | call (o : O)
  | ret (r : R)
  deriving DecidableEq

/-- How far a thread has come with an operation. -/
inductive Status (O R : Type) where
  | idle
  | pending (o : O)
  | done (o : O) (r : R)
  deriving DecidableEq

/-- `spec t a o r a'`: thread `t`'s operation `o` can turn `a` into `a'` and give `r`. -/
abbrev Spec (T A O R : Type) := T → A → O → R → A → Prop

section

variable {T A O R : Type} (spec : Spec T A O R)

/-- A step of one thread on an atomic object. -/
inductive Moves (t : T) : A → Status O R → Option (Event O R) → A → Status O R → Prop where
  | stay (a : A) (s : Status O R) : Moves t a s none a s
  | call (a : A) (o : O) : Moves t a .idle (some (.call o)) a (.pending o)
  | commit {a a' : A} {o : O} {r : R} (h : spec t a o r a') :
      Moves t a (.pending o) none a' (.done o r)
  | ret (a : A) (o : O) (r : R) : Moves t a (.done o r) (some (.ret r)) a .idle

variable [DecidableEq T]

/-- A history of calls and returns on an atomic object, from one state of the object and of its
threads to another, and the log of its operations in the order in which they take place. -/
inductive Linearizes : A → (T → Status O R) → List (T × Event O R) → List (T × O × R) → A →
    (T → Status O R) → Prop where
  | nil (a : A) (st : T → Status O R) : Linearizes a st [] [] a st
  | call {a a' : A} {st st' : T → Status O R} {hist : List (T × Event O R)}
      {log : List (T × O × R)} {t : T} {o : O} (ht : st t = .idle)
      (h : Linearizes a (update st t (.pending o)) hist log a' st') :
      Linearizes a st ((t, .call o) :: hist) log a' st'
  | commit {a a₁ a' : A} {st st' : T → Status O R} {hist : List (T × Event O R)}
      {log : List (T × O × R)} {t : T} {o : O} {r : R} (ht : st t = .pending o)
      (hspec : spec t a o r a₁) (h : Linearizes a₁ (update st t (.done o r)) hist log a' st') :
      Linearizes a st hist ((t, o, r) :: log) a' st'
  | ret {a a' : A} {st st' : T → Status O R} {hist : List (T × Event O R)}
      {log : List (T × O × R)} {t : T} {o : O} {r : R} (ht : st t = .done o r)
      (h : Linearizes a (update st t .idle) hist log a' st') :
      Linearizes a st ((t, .ret r) :: hist) log a' st'

variable {spec}

/-- The operations that a thread has called and that have returned. The first argument is the
operation that it is at. -/
def completed (t : T) : Option O → List (T × Event O R) → List (O × R)
  | _, [] => []
  | o, (t', e) :: hist =>
    if t' = t then
      match e, o with
      | .call o, _ => completed t (some o) hist
      | .ret r, some o => (o, r) :: completed t none hist
      | .ret _, none => completed t none hist
    else completed t o hist

/-- What a thread has in the log. -/
def logOf (t : T) (log : List (T × O × R)) : List (O × R) :=
  (log.filter fun x => x.1 = t).map Prod.snd

def Status.op : Status O R → Option O
  | .idle => none
  | .pending o => some o
  | .done o _ => some o

/-- An operation that has taken place and has not returned. -/
def Status.out : Status O R → List (O × R)
  | .done o r => [(o, r)]
  | _ => []

/-- Each thread finds the operations that have returned to it in the log, with their results and in
their order; at most one more of its operations has taken place. -/
theorem Linearizes.completed_eq {a a' : A} {st st' : T → Status O R}
    {hist : List (T × Event O R)} {log : List (T × O × R)}
    (h : Linearizes spec a st hist log a' st') (t : T) :
    (st t).out ++ logOf t log = completed t (st t).op hist ++ (st' t).out := by
  induction h with
  | nil a st => simp [completed, logOf]
  | @call a a' st st' hist log t' o ht _ ih =>
    by_cases he : t' = t
    · subst he
      simpa [ht, completed, Status.op, Status.out] using ih
    · simpa [completed, he, update_of_ne (Ne.symm he)] using ih
  | @commit a a₁ a' st st' hist log t' o r ht _ _ ih =>
    by_cases he : t' = t
    · subst he
      simpa [ht, logOf, Status.op, Status.out] using ih
    · simpa [logOf, he, update_of_ne (Ne.symm he)] using ih
  | @ret a a' st st' hist log t' o r ht _ ih =>
    by_cases he : t' = t
    · subst he
      simpa [ht, completed, Status.op, Status.out] using ih
    · simpa [completed, he, update_of_ne (Ne.symm he)] using ih

end

section

variable {T C S L A O R : Type} [DecidableEq T] {spec : Spec T A O R}
  {p : Prog T C S L (Event O R)}

/-- A program whose every step is a move of an atomic object has no other histories than the object.
`abs` and `stat` say which states of the object and of its threads the program's states stand for. -/
theorem linearizes_run (abs : World T S L → A) (stat : L → Status O R) {I : World T S L → Prop}
    (hI : ∀ w t c, I w → I (w.next p t c))
    (hmoves : ∀ w t c, I w → Moves spec t (abs w) (stat (w.locals t))
      (p t c w.shared (w.locals t)).2.2 (abs (w.next p t c))
      (stat (p t c w.shared (w.locals t)).2.1))
    {w : World T S L} (h : I w) (sched : List (T × C)) :
    ∃ log, Linearizes spec (abs w) (stat ∘ w.locals) (trace p w sched) log
      (abs (run p w sched)) (stat ∘ (run p w sched).locals) := by
  induction sched generalizing w with
  | nil => exact ⟨[], .nil _ _⟩
  | cons tc sched ih =>
    obtain ⟨t, c⟩ := tc
    obtain ⟨log, hlog⟩ := ih (hI w t c h)
    have hm := hmoves w t c h
    have hlocals : stat ∘ (w.next p t c).locals =
        update (stat ∘ w.locals) t (stat (p t c w.shared (w.locals t)).2.1) := by
      rw [World.next, comp_update]
    rw [hlocals] at hlog
    simp only [trace, run, World.seen]
    generalize (p t c w.shared (w.locals t)).2.2 = e at hm
    generalize stat (p t c w.shared (w.locals t)).2.1 = s' at hm hlog
    generalize hs : stat (w.locals t) = s at hm
    generalize abs w = a at hm
    generalize abs (w.next p t c) = a' at hm hlog
    cases hm with
    | stay =>
      refine ⟨log, ?_⟩
      rwa [update_eq_self_iff.mpr (show _ = (stat ∘ w.locals) t from hs.symm)] at hlog
    | call => exact ⟨log, .call hs hlog⟩
    | commit hspec => exact ⟨_, .commit hs hspec hlog⟩
    | ret => exact ⟨log, .ret hs hlog⟩

end

end Interleaving
