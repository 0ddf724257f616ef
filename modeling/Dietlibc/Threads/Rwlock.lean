import Dietlibc.Base.Interleaving
import Mathlib.Data.Nat.Bitwise

/-!
# Read-write locks

`pthread_rwlock_tryrdlock`, `pthread_rwlock_rdlock`, `pthread_rwlock_trywrlock`,
`pthread_rwlock_wrlock` and `pthread_rwlock_unlock` on one lock, by any number of threads. The lock is
one word: the number of readers, or its highest bit for a writer. A read of the word and a
compare-and-swap are one step each, and between them any other thread may step.
-/

namespace Dietlibc.Threads.Rwlock

open Interleaving Function

def EPERM : Int := 1
def EAGAIN : Int := 11
def EBUSY : Int := 16

inductive Op where
  | tryrdlock
  | rdlock
  | trywrlock
  | wrlock
  | unlock
  deriving DecidableEq

/-- What a call returns, and `errno` where it sets it. -/
structure Result where
  value : Int
  errno : Option Int
  deriving DecidableEq

def Result.code (e : Int) : Result := ⟨e, none⟩

/-- What a turn of a function's loop makes of the word that it has read: it returns, or it tries to
swap a word in. -/
abbrev Turn := Except Result UInt32

def tryrdlockTurn (cur : UInt32) : Turn :=
  if cur &&& 0x80000000 ≠ 0 then .error (.code EBUSY)
  else if cur ≥ 0x10000000 then .error (.code EAGAIN)
  else .ok (cur + 1)

def trywrlockTurn (cur : UInt32) : Turn :=
  if cur ≠ 0 then .error (.code EBUSY) else .ok 0x80000000

def unlockTurn (cur : UInt32) : Turn :=
  if cur = 0x80000000 then .ok 0
  else if cur > 0 then .ok (cur - 1)
  else .error ⟨-1, some EPERM⟩

/-- `pthread_rwlock_rdlock` and `pthread_rwlock_wrlock` call the functions that try. -/
def Op.turn : Op → UInt32 → Turn
  | .tryrdlock | .rdlock => tryrdlockTurn
  | .trywrlock | .wrlock => trywrlockTurn
  | .unlock => unlockTurn

/-- The operations that try until they have the lock. -/
def Op.waits : Op → Bool
  | .rdlock | .wrlock => true
  | _ => false

/-- Where a thread is. `n` counts the tries of an operation that waits. -/
inductive Pc where
  | idle
  | load (o : Op) (n : Nat)
  | swap (o : Op) (n : Nat) (cur next : UInt32)
  | yield (o : Op) (n : Nat)
  | ret (o : Op) (r : Result)
  deriving DecidableEq

/-- What a thread has of the lock. -/
structure Holds where
  readers : Nat
  writer : Bool
  deriving DecidableEq

def Holds.nothing : Holds := ⟨0, false⟩

/-- What a thread has behind the swap of an operation. -/
def Holds.swapped (h : Holds) : Op → Holds
  | .tryrdlock | .rdlock => { h with readers := h.readers + 1 }
  | .trywrlock | .wrlock => { h with writer := true }
  | .unlock => if h.writer then { h with writer := false } else { h with readers := h.readers - 1 }

structure Local where
  pc : Pc
  holds : Holds
  deriving DecidableEq

/-- The result of a try is an operation's own unless it waits and the try was in vain; from the
hundredth try in vain on it gives the processor away. -/
def afterTry (o : Op) (n : Nat) (r : Result) : Pc :=
  if o.waits = false ∨ r.value = 0 then .ret o r
  else if n < 100 then .load o (n + 1)
  else .yield o n

/-- A step of a thread. An idle one calls an operation if its client allows it that with what it
holds. -/
def step {T : Type} (allowed : Holds → Op → Bool) : Prog T Op UInt32 Local (Event Op Result)
  | _, o, n, ⟨.idle, h⟩ =>
    if allowed h o then (n, ⟨.load o 0, h⟩, some (.call o)) else (n, ⟨.idle, h⟩, none)
  | _, _, n, ⟨.load o i, h⟩ =>
    match o.turn n with
    | .error r => (n, ⟨afterTry o i r, h⟩, none)
    | .ok next => (n, ⟨.swap o i n next, h⟩, none)
  | _, _, n, ⟨.swap o i cur next, h⟩ =>
    if n = cur then (next, ⟨afterTry o i (.code 0), h.swapped o⟩, none)
    else (n, ⟨.load o i, h⟩, none)
  | _, _, n, ⟨.yield o i, h⟩ => (n, ⟨.load o i, h⟩, none)
  | _, _, n, ⟨.ret _ r, h⟩ => (n, ⟨.idle, h⟩, some (.ret r))

/-- `pthread_rwlock_init`, and threads that have called nothing. -/
def init {T : Type} : World T UInt32 Local := ⟨0, fun _ => ⟨.idle, .nothing⟩⟩

/-! ## The lock that the word stands for -/

/-- A lock with readers or with a writer. -/
inductive Lock where
  | readers (k : Nat)
  | writer
  deriving DecidableEq

/-- The most readers that a lock has. -/
def maxReaders : Nat := 0x10000000

/-- The operations of a lock. One that waits takes place when it has the lock. -/
inductive LockSpec {T : Type} : Spec T Lock Op Result where
  | read {t : T} {o : Op} {k : Nat} (ho : o = .tryrdlock ∨ o = .rdlock) (hk : k < maxReaders) :
      LockSpec t (.readers k) o (.code 0) (.readers (k + 1))
  | written {t : T} : LockSpec t .writer .tryrdlock (.code EBUSY) .writer
  | many {t : T} {k : Nat} (hk : maxReaders ≤ k) :
      LockSpec t (.readers k) .tryrdlock (.code EAGAIN) (.readers k)
  | write {t : T} {o : Op} (ho : o = .trywrlock ∨ o = .wrlock) :
      LockSpec t (.readers 0) o (.code 0) .writer
  | busy {t : T} {a : Lock} (ha : a ≠ .readers 0) : LockSpec t a .trywrlock (.code EBUSY) a
  | unwrite {t : T} : LockSpec t .writer .unlock (.code 0) (.readers 0)
  | unread {t : T} {k : Nat} : LockSpec t (.readers (k + 1)) .unlock (.code 0) (.readers k)
  | nobody {t : T} : LockSpec t (.readers 0) .unlock ⟨-1, some EPERM⟩ (.readers 0)

def abs (n : UInt32) : Lock := if n = 0x80000000 then .writer else .readers n.toNat

def Pc.status : Pc → Status Op Result
  | .idle => .idle
  | .load o _ | .swap o _ _ _ | .yield o _ => .pending o
  | .ret o r => .done o r

/-- The words that a lock can be. -/
def WordOk (n : UInt32) : Prop := n.toNat ≤ maxReaders ∨ n = 0x80000000

/-- A word waits to be swapped in for the one from which it was made. -/
def SwapOk : Pc → Prop
  | .swap o _ cur next => o.turn cur = .ok next
  | _ => True

theorem ne_writer {n : UInt32} (h : n.toNat ≤ maxReaders) : n ≠ 0x80000000 := by
  rintro rfl
  exact absurd h (by decide)

theorem abs_readers {n : UInt32} (h : n.toNat ≤ maxReaders) : abs n = .readers n.toNat :=
  if_neg (ne_writer h)

theorem and_writer {n : UInt32} (h : n.toNat ≤ maxReaders) : n &&& 0x80000000 = 0 := by
  apply UInt32.toNat.inj
  have hbit : n.toNat.testBit 31 = false := Nat.testBit_lt_two_pow (by unfold maxReaders at h; omega)
  have hand : n.toNat &&& 2 ^ 31 = 0 := by rw [Nat.and_two_pow, hbit]; rfl
  simpa using hand

theorem toNat_succ {n : UInt32} (h : n.toNat < maxReaders) : (n + 1).toNat = n.toNat + 1 := by
  have hmod : (n + 1).toNat = (n.toNat + 1) % 2 ^ 32 := UInt32.toNat_add n 1
  rw [hmod]
  unfold maxReaders at h
  omega

theorem toNat_pred {n : UInt32} (h : n > 0) : (n - 1).toNat = n.toNat - 1 :=
  UInt32.toNat_sub_of_le n 1 (by
    have : 0 < n.toNat := h
    show 1 ≤ n.toNat
    omega)

/-- A swap is an operation of the lock that succeeds. -/
theorem turn_ok {T : Type} {t : T} {o : Op} {n next : UInt32} (hn : WordOk n)
    (h : o.turn n = .ok next) :
    WordOk next ∧ LockSpec t (abs n) o (.code 0) (abs next) := by
  have hread : tryrdlockTurn n = .ok next → (o = .tryrdlock ∨ o = .rdlock) →
      WordOk next ∧ LockSpec t (abs n) o (.code 0) (abs next) := by
    intro h ho
    unfold tryrdlockTurn at h
    split_ifs at h with hw hm
    injection h with h
    subst h
    have hle : n.toNat ≤ maxReaders := hn.resolve_right fun e => hw (by rw [e]; decide)
    have hlt : n.toNat < maxReaders := Nat.lt_of_not_le hm
    have hsucc := toNat_succ hlt
    refine ⟨.inl (by omega), ?_⟩
    rw [abs_readers hle, abs_readers (by omega), hsucc]
    exact .read ho hlt
  have hwrite : trywrlockTurn n = .ok next → (o = .trywrlock ∨ o = .wrlock) →
      WordOk next ∧ LockSpec t (abs n) o (.code 0) (abs next) := by
    intro h ho
    unfold trywrlockTurn at h
    split_ifs at h with h0
    injection h with h
    subst h
    rw [not_not] at h0
    subst h0
    exact ⟨.inr rfl, .write ho⟩
  cases o with
  | tryrdlock => exact hread h (.inl rfl)
  | rdlock => exact hread h (.inr rfl)
  | trywrlock => exact hwrite h (.inl rfl)
  | wrlock => exact hwrite h (.inr rfl)
  | unlock =>
    change unlockTurn n = .ok next at h
    unfold unlockTurn at h
    split_ifs at h with hw hpos
    · injection h with h
      subst h hw
      exact ⟨.inl (Nat.zero_le _), .unwrite⟩
    · injection h with h
      subst h
      have hle := hn.resolve_right hw
      have hpred := toNat_pred hpos
      have hpos' : 0 < n.toNat := hpos
      refine ⟨.inl (by omega), ?_⟩
      rw [abs_readers hle, abs_readers (by omega), hpred]
      obtain ⟨k, hk⟩ := Nat.exists_eq_succ_of_ne_zero hpos'.ne'
      rw [hk]
      exact .unread

theorem error_value {o : Op} {n : UInt32} {r : Result} (h : o.turn n = .error r) :
    r.value ≠ 0 := by
  have hread : tryrdlockTurn n = .error r → r.value ≠ 0 := by
    intro h
    unfold tryrdlockTurn at h
    split_ifs at h <;> injection h with h <;> subst h <;> decide
  have hwrite : trywrlockTurn n = .error r → r.value ≠ 0 := by
    intro h
    unfold trywrlockTurn at h
    split_ifs at h
    injection h with h
    subst h
    decide
  cases o with
  | tryrdlock | rdlock => exact hread h
  | trywrlock | wrlock => exact hwrite h
  | unlock =>
    change unlockTurn n = .error r at h
    unfold unlockTurn at h
    split_ifs at h
    injection h with h
    subst h
    decide

/-- A try in vain is an operation of the lock that leaves it as it is. -/
theorem turn_error {T : Type} {t : T} {o : Op} {n : UInt32} {r : Result} (hn : WordOk n)
    (h : o.turn n = .error r) (ho : o.waits = false) : LockSpec t (abs n) o r (abs n) := by
  cases o with
  | rdlock | wrlock => cases ho
  | tryrdlock =>
    change tryrdlockTurn n = .error r at h
    unfold tryrdlockTurn at h
    split_ifs at h with hw hm
    · injection h with h
      subst h
      rw [hn.resolve_left fun hle => hw (and_writer hle)]
      exact .written
    · injection h with h
      subst h
      rw [abs_readers (hn.resolve_right fun e => hw (by rw [e]; decide))]
      exact .many hm
  | trywrlock =>
    change trywrlockTurn n = .error r at h
    unfold trywrlockTurn at h
    split_ifs at h with h0
    injection h with h
    subst h
    apply LockSpec.busy
    intro ha
    unfold abs at ha
    split_ifs at ha
    injection ha with ha
    exact h0 (UInt32.toNat.inj ha)
  | unlock =>
    change unlockTurn n = .error r at h
    unfold unlockTurn at h
    split_ifs at h with hw hpos
    injection h with h
    subst h
    have h0 : n = 0 := UInt32.toNat.inj (Nat.eq_zero_of_not_pos hpos)
    subst h0
    exact .nobody

/-! ## Runs -/

section

variable {T : Type} {allowed : Holds → Op → Bool}

theorem afterTry_error {o : Op} {i : Nat} {r : Result} (hr : r.value ≠ 0) :
    (o.waits = false ∧ afterTry o i r = .ret o r) ∨
      (o.waits = true ∧ (afterTry o i r = .load o (i + 1) ∨ afterTry o i r = .yield o i)) := by
  unfold afterTry
  cases ho : o.waits with
  | false => exact .inl ⟨rfl, if_pos (.inl rfl)⟩
  | true =>
    refine .inr ⟨rfl, ?_⟩
    rw [if_neg (by simp [hr])]
    split_ifs
    · exact .inl rfl
    · exact .inr rfl

theorem afterTry_zero (o : Op) (i : Nat) : afterTry o i (.code 0) = .ret o (.code 0) :=
  if_pos (.inr rfl)

/-- What a step of a thread can be. -/
inductive StepCase (allowed : Holds → Op → Bool) (n : UInt32) (l : Local) :
    UInt32 × Local × Option (Event Op Result) → Prop where
  | idle (hpc : l.pc = .idle) : StepCase allowed n l (n, l, none)
  | call (o : Op) (hpc : l.pc = .idle) (h : allowed l.holds o = true) :
      StepCase allowed n l (n, ⟨.load o 0, l.holds⟩, some (.call o))
  | failed (o : Op) (i : Nat) (r : Result) (hpc : l.pc = .load o i) (h : o.turn n = .error r)
      (hw : o.waits = false) : StepCase allowed n l (n, ⟨.ret o r, l.holds⟩, none)
  | inVain (o : Op) (i : Nat) (pc : Pc) (hpc : l.pc = .load o i)
      (h : pc = .load o (i + 1) ∨ pc = .yield o i) : StepCase allowed n l (n, ⟨pc, l.holds⟩, none)
  | loaded (o : Op) (i : Nat) (next : UInt32) (hpc : l.pc = .load o i) (h : o.turn n = .ok next) :
      StepCase allowed n l (n, ⟨.swap o i n next, l.holds⟩, none)
  | swapped (o : Op) (i : Nat) (next : UInt32) (hpc : l.pc = .swap o i n next) :
      StepCase allowed n l (next, ⟨.ret o (.code 0), l.holds.swapped o⟩, none)
  | lost (o : Op) (i : Nat) (hpc : l.pc.status = .pending o) :
      StepCase allowed n l (n, ⟨.load o i, l.holds⟩, none)
  | ret (o : Op) (r : Result) (hpc : l.pc = .ret o r) :
      StepCase allowed n l (n, ⟨.idle, l.holds⟩, some (.ret r))

theorem step_cases (allowed : Holds → Op → Bool) (t : T) (c : Op) (n : UInt32) (l : Local) :
    StepCase allowed n l (step allowed t c n l) := by
  obtain ⟨pc, h⟩ := l
  cases pc with
  | idle =>
    by_cases ha : allowed h c
    · simp only [step, ha, if_true]
      exact .call c rfl ha
    · simp only [step, ha]
      exact .idle rfl
  | load o i =>
    cases ht : o.turn n with
    | error r =>
      simp only [step, ht]
      rcases afterTry_error (o := o) (i := i) (error_value ht) with ⟨hw, hpc⟩ | ⟨_, hpc⟩
      · rw [hpc]
        exact .failed o i r rfl ht hw
      · exact .inVain o i _ rfl hpc
    | ok next =>
      simp only [step, ht]
      exact .loaded o i next rfl ht
  | swap o i cur next =>
    by_cases hcur : n = cur
    · subst hcur
      simp only [step, if_true, afterTry_zero]
      exact .swapped o i next rfl
    · simp only [step, if_neg hcur]
      exact .lost o i rfl
  | yield o i => exact .lost o i rfl
  | ret o r => exact .ret o r rfl

/-- The word is one of a lock, and so is what any thread would swap in. -/
def Inv (w : World T UInt32 Local) : Prop :=
  WordOk w.shared ∧ ∀ t, SwapOk (w.locals t).pc

theorem Inv.init : Inv (init : World T UInt32 Local) :=
  ⟨.inl (Nat.zero_le _), fun _ => trivial⟩

variable [DecidableEq T]

theorem Inv.next {w : World T UInt32 Local} (h : Inv w) (t : T) (c : Op) :
    Inv (w.next (step allowed) t c) := by
  obtain ⟨hn, hswap⟩ := h
  have hc := step_cases allowed t c w.shared (w.locals t)
  have hword : WordOk (step allowed t c w.shared (w.locals t)).1 := by
    generalize step allowed t c w.shared (w.locals t) = r at hc
    cases hc with
    | swapped o i next hpc =>
      have hturn : SwapOk (w.locals t).pc := hswap t
      rw [hpc] at hturn
      exact (turn_ok (t := t) hn hturn).1
    | _ => exact hn
  refine ⟨hword, locals_next (P := fun _ _ (l : Local) => SwapOk l.pc) hswap ?_ fun _ _ _ h => h⟩
  generalize step allowed t c w.shared (w.locals t) = r at hc
  cases hc with
  | idle => exact hswap t
  | inVain o i pc hpc h => rcases h with rfl | rfl <;> trivial
  | loaded o i next hpc h => exact h
  | _ => trivial

/-- What a thread has behind an operation. -/
def Holds.returned (h : Holds) (o : Op) (r : Result) : Holds :=
  if r.value = 0 then h.swapped o else h

/-- The operations of a lock together with what the threads have of it. -/
def OwnedSpec : Spec T (Lock × (T → Holds)) Op Result := fun t a o r a' =>
  LockSpec t a.1 o r a'.1 ∧ a'.2 = update a.2 t ((a.2 t).returned o r)

/-- The lock of a run, and what the threads have of it. -/
def absWorld (w : World T UInt32 Local) : Lock × (T → Holds) :=
  (abs w.shared, fun t => (w.locals t).holds)

theorem absWorld_next {w : World T UInt32 Local} {t : T} {c : Op} {n : UInt32} {l : Local}
    {e : Option (Event Op Result)} (h : step allowed t c w.shared (w.locals t) = (n, l, e)) :
    absWorld (w.next (step allowed) t c) = (abs n, update (absWorld w).2 t l.holds) := by
  rw [absWorld, World.next, h]
  refine Prod.ext rfl (funext fun t' => ?_)
  by_cases ht : t' = t
  · subst ht
    simp
  · simp [ht, absWorld]

/-- **The functions on a lock are atomic.** However the threads' reads and swaps interleave, the
history of calls and returns is one of a lock with a number of readers or one writer, on which each
operation takes place at one moment between its call and its return. In the log of these moments each
thread finds what has returned to it, and at most one operation more. -/
theorem rwlock_linearizes (sched : List (T × Op)) :
    ∃ log, Linearizes OwnedSpec (.readers 0, fun _ : T => .nothing) (fun _ => Status.idle)
        (trace (step allowed) init sched) log (absWorld (run (step allowed) init sched))
        (fun t => ((run (step allowed) init sched).locals t).pc.status) ∧
      ∀ t, logOf t log = completed t none (trace (step allowed) init sched) ++
        ((run (step allowed) init sched).locals t).pc.status.out := by
  suffices h : ∃ log, Linearizes OwnedSpec (.readers 0, fun _ : T => .nothing) (fun _ => Status.idle)
      (trace (step allowed) init sched) log (absWorld (run (step allowed) init sched))
      (fun t => ((run (step allowed) init sched).locals t).pc.status) by
    obtain ⟨log, hlog⟩ := h
    exact ⟨log, hlog, fun t => hlog.completed_eq t⟩
  refine linearizes_run absWorld (fun l : Local => l.pc.status) (I := Inv)
    (fun w t c h => h.next t c) ?_ Inv.init sched
  rintro w t c ⟨hn, hswap⟩
  have hc := step_cases allowed t c w.shared (w.locals t)
  generalize hr : step allowed t c w.shared (w.locals t) = r at hc
  obtain ⟨n, l, e⟩ := r
  rw [absWorld_next hr]
  have hsame : update (absWorld w).2 t (w.locals t).holds = (absWorld w).2 := update_eq_self ..
  cases hc with
  | idle =>
    rw [hsame]
    exact .stay ..
  | call o hpc h =>
    rw [hpc, hsame]
    exact .call ..
  | failed o i r hpc h hw =>
    rw [hpc]
    refine .commit ⟨turn_error hn h hw, ?_⟩
    rw [Holds.returned, if_neg (error_value h)]
    rfl
  | inVain o i pc hpc h =>
    rw [hpc, hsame]
    rcases h with rfl | rfl <;> exact .stay ..
  | loaded o i next hpc h =>
    rw [hpc, hsame]
    exact .stay ..
  | swapped o i next hpc =>
    have hturn : SwapOk (w.locals t).pc := hswap t
    rw [hpc] at hturn
    rw [hpc]
    exact .commit ⟨(turn_ok hn hturn).2, rfl⟩
  | lost o i hpc =>
    rw [hpc, hsame]
    exact .stay ..
  | ret o r hpc =>
    rw [hpc, hsame]
    exact .ret ..

end

/-! ## Who has the lock -/

section

def Local.readers (l : Local) : Nat := l.holds.readers

def Local.writers (l : Local) : Nat := if l.holds.writer then 1 else 0

/-- The lock of so many readers and writers. -/
def Lock.Of (a : Lock) (readers writers : Nat) : Prop :=
  match a with
  | .readers k => readers = k ∧ writers = 0
  | .writer => readers = 0 ∧ writers = 1

/-- The thread is about to give back what it has. -/
def Unlocking (l : Local) : Prop := l.pc.status = .pending .unlock → l.holds ≠ .nothing

theorem nothing_iff (l : Local) : l.holds = .nothing ↔ l.readers = 0 ∧ l.writers = 0 := by
  obtain ⟨pc, ⟨r, wr⟩⟩ := l
  cases wr <;> simp [Holds.nothing, Local.readers, Local.writers]

/-- The thread's swap changes what the threads have as it changes the lock. -/
theorem of_swapped {T : Type} {t : T} {o : Op} {a a' : Lock} {l : Local} {readers writers : Nat}
    (ho : LockSpec t a o (.code 0) a') (hof : a.Of readers writers)
    (hl : l.readers ≤ readers ∧ l.writers ≤ writers)
    (hunlock : o = .unlock → l.holds ≠ .nothing) (pc : Pc) :
    a'.Of (readers + (Local.mk pc (l.holds.swapped o)).readers - l.readers)
      (writers + (Local.mk pc (l.holds.swapped o)).writers - l.writers) := by
  obtain ⟨lpc, ⟨r, wr⟩⟩ := l
  generalize hr : Result.code 0 = res at ho
  cases ho with
  | read ho hk =>
    obtain ⟨rfl, rfl⟩ := hof
    cases wr with
    | true => exact absurd hl.2 (Nat.not_succ_le_zero 0)
    | false =>
      have hle : r ≤ readers := hl.1
      rcases ho with rfl | rfl <;>
        simp only [Lock.Of, Local.readers, Local.writers, Holds.swapped, Bool.false_eq_true,
          if_false, and_true] <;> omega
  | write ho =>
    obtain ⟨rfl, rfl⟩ := hof
    cases wr with
    | true => exact absurd hl.2 (Nat.not_succ_le_zero 0)
    | false =>
      rcases ho with rfl | rfl <;>
        simp [Lock.Of, Local.readers, Local.writers, Holds.swapped] at hl ⊢
  | unwrite =>
    obtain ⟨rfl, rfl⟩ := hof
    have hne := hunlock rfl
    cases wr with
    | true => simp [Lock.Of, Local.readers, Local.writers, Holds.swapped] at hl ⊢
    | false => exact absurd (by simp [Holds.nothing, Local.readers] at hl ⊢; omega) hne
  | unread =>
    obtain ⟨rfl, rfl⟩ := hof
    have hne := hunlock rfl
    cases wr with
    | true => exact absurd hl.2 (Nat.not_succ_le_zero 0)
    | false =>
      have hpos : r ≠ 0 := fun e => hne (by rw [e]; rfl)
      simp only [Lock.Of, Local.readers, Local.writers, Holds.swapped] at hl ⊢
      simp
      omega
  | _ => cases hr

variable {T : Type} [Fintype T]

/-- The word counts what the threads have. -/
structure Counted (w : World T UInt32 Local) : Prop where
  inv : Inv w
  lock : (abs w.shared).Of (total Local.readers w) (total Local.writers w)
  unlocking : ∀ t, Unlocking (w.locals t)
  unlocked : ∀ t r, (w.locals t).pc = .ret .unlock r → r = .code 0

/-- A thread whose unlock finds nothing has nothing. -/
theorem Counted.nothing {w : World T UInt32 Local} (h : Counted w) (hw : w.shared = 0) (t : T) :
    (w.locals t).holds = .nothing := by
  have hlock := h.lock
  rw [hw] at hlock
  have hnone : total Local.readers w = 0 ∧ total Local.writers w = 0 := hlock
  have hr := le_total Local.readers w t
  have hwr := le_total Local.writers w t
  rw [nothing_iff]
  omega

theorem Counted.init : Counted (init : World T UInt32 Local) where
  inv := .init
  lock := ⟨total_eq_zero fun _ => rfl, total_eq_zero fun _ => rfl⟩
  unlocking := fun _ h => nomatch h
  unlocked := fun _ _ h => nomatch h

variable [DecidableEq T] {allowed : Holds → Op → Bool}

/-- The clients unlock only what they have. -/
def Disciplined (allowed : Holds → Op → Bool) : Prop := allowed .nothing .unlock = false

theorem Counted.next (hclient : Disciplined allowed) {w : World T UInt32 Local} (h : Counted w)
    (t : T) (c : Op) : Counted (w.next (step allowed) t c) := by
  have hc := step_cases allowed t c w.shared (w.locals t)
  have hreaders := total_next Local.readers (step allowed) w t c
  have hwriters := total_next Local.writers (step allowed) w t c
  have hle := le_total Local.readers w t
  have hle' := le_total Local.writers w t
  have hun : Unlocking (w.locals t) := h.unlocking t
  refine ⟨h.inv.next t c, ?_, locals_next (P := fun _ _ l => Unlocking l) h.unlocking ?_
    fun _ _ _ h => h,
    locals_next (P := fun _ _ (l : Local) => ∀ r, l.pc = .ret .unlock r → r = .code 0)
    h.unlocked ?_ fun _ _ _ h => h⟩
  · rw [World.next_shared]
    generalize step allowed t c w.shared (w.locals t) = r at hc hreaders hwriters ⊢
    cases hc with
    | swapped o i next hpc =>
      have hturn : SwapOk (w.locals t).pc := h.inv.2 t
      rw [hpc] at hturn
      have hof := of_swapped (turn_ok (t := t) h.inv.1 hturn).2 h.lock ⟨hle, hle'⟩
        (fun ho => hun (by rw [hpc, ho]; rfl)) (.ret o (.code 0))
      rwa [← hreaders, ← hwriters, Nat.add_sub_cancel, Nat.add_sub_cancel] at hof
    | _ =>
      have hlock := h.lock
      rwa [Nat.add_right_cancel hreaders, Nat.add_right_cancel hwriters]
  · generalize step allowed t c w.shared (w.locals t) = r at hc ⊢
    cases hc with
    | idle => exact hun
    | call o hpc ha =>
      intro ho hnothing
      cases ho
      rw [hnothing, hclient] at ha
      cases ha
    | inVain o i pc hpc hnext =>
      intro ho
      exact hun (by rw [hpc]; rcases hnext with rfl | rfl <;> exact ho)
    | loaded o i next hpc _ => exact fun ho => hun (by rw [hpc]; exact ho)
    | lost o i hpc => exact fun ho => hun (by rw [hpc]; exact ho)
    | _ => exact fun ho => nomatch ho
  · generalize step allowed t c w.shared (w.locals t) = r at hc ⊢
    cases hc with
    | idle => exact h.unlocked t
    | failed o i res hpc hturn hw =>
      intro r hr
      injection hr with ho hr
      subst ho
      have h0 : w.shared = 0 := by
        change unlockTurn w.shared = .error res at hturn
        unfold unlockTurn at hturn
        split_ifs at hturn with _ hpos
        exact UInt32.toNat.inj (Nat.eq_zero_of_not_pos hpos)
      exact absurd (h.nothing h0 t) (hun (by rw [hpc]; rfl))
    | swapped o i next hpc =>
      intro r hr
      injection hr with _ hr
      exact hr.symm
    | inVain o i pc hpc hnext =>
      intro r hr
      rcases hnext with rfl | rfl <;> cases hr
    | _ => exact fun r hr => nomatch hr

/-- **A writer is alone.** If clients unlock only what they have, then in every run, however the
threads' reads and swaps interleave, a thread that has the lock for writing is the only one to have
it, there are never more readers than the lock admits, and no unlock fails. -/
theorem rwlock_exclusive (hclient : Disciplined allowed) (sched : List (T × Op)) :
    let w := run (step allowed) init sched
    (∀ t t', (w.locals t).holds.writer = true → t' ≠ t → (w.locals t').holds = .nothing) ∧
      (∀ t, (w.locals t).holds.writer = true → (w.locals t).holds.readers = 0) ∧
      total Local.readers w ≤ maxReaders ∧
      ∀ t r, (w.locals t).pc = .ret .unlock r → r = .code 0 := by
  intro w
  have h : Counted w := run_invariant (fun w t c h => h.next hclient t c) .init sched
  have hwriter : ∀ t, (w.locals t).holds.writer = true →
      total Local.readers w = 0 ∧ total Local.writers w = 1 := by
    intro t ht
    have hle := le_total Local.writers w t
    have hone : (w.locals t).writers = 1 := if_pos ht
    have hlock := h.lock
    cases ha : abs w.shared with
    | writer =>
      rw [ha] at hlock
      exact hlock
    | readers k =>
      rw [ha] at hlock
      have h0 : total Local.writers w = 0 := hlock.2
      omega
  refine ⟨fun t t' ht hne => ?_, fun t ht => ?_, ?_, h.unlocked⟩
  · have hone : (w.locals t).writers = 1 := if_pos ht
    have htwo := le_total_two Local.writers w hne
    have hr := le_total Local.readers w t'
    have hsum := hwriter t ht
    rw [nothing_iff]
    omega
  · have hr : (w.locals t).holds.readers ≤ total Local.readers w := le_total Local.readers w t
    have hsum := hwriter t ht
    omega
  · have hlock := h.lock
    rcases h.inv.1 with hle | hw
    · rw [abs_readers hle] at hlock
      rw [hlock.1]
      exact hle
    · rw [hw] at hlock
      rw [show total Local.readers w = 0 from hlock.1]
      exact Nat.zero_le _

/-- A client that unlocks only what it has. -/
def careful (h : Holds) (o : Op) : Bool := o != .unlock || h != .nothing

theorem rwlock_exclusive_two :
    let w := run (step careful) (init : World Bool UInt32 Local)
      [(true, .rdlock), (false, .wrlock), (true, .rdlock), (false, .wrlock)]
    (∀ t t', (w.locals t).holds.writer = true → t' ≠ t → (w.locals t').holds = .nothing) ∧
      (∀ t, (w.locals t).holds.writer = true → (w.locals t).holds.readers = 0) ∧
      total Local.readers w ≤ maxReaders ∧
      ∀ t r, (w.locals t).pc = .ret .unlock r → r = .code 0 :=
  rwlock_exclusive (show Disciplined careful from rfl) _

end

end Dietlibc.Threads.Rwlock
