import Dietlibc.Base.Interleaving

/-!
# Mutexes and condition variables

`mtx_trylock`, `mtx_timedlock`, `mtx_lock`, `mtx_unlock`, `cnd_timedwait`, `cnd_wait`, `cnd_signal` and
`cnd_broadcast` on one mutex and one condition variable, by any number of threads. Each access to the
words in memory and each call of `futex` is a step. The kernel keeps a queue of the threads that sleep
on a word: it looks at the word and puts a thread in the queue at once, and whom it wakes, and whether
a sleep ends early, is the schedule's choice.
-/

namespace Dietlibc.Threads.Mutex

open Interleaving Function

inductive Code where
  | success
  | timedout
  | busy
  | nomem
  | error
  deriving DecidableEq

/-- The calls. `timed` says whether a time is given: `mtx_lock` and `cnd_wait` give none. -/
inductive Op where
  | trylock
  | timedlock (timed : Bool)
  | unlock
  | wait (timed : Bool)
  | signal
  | broadcast
  deriving DecidableEq

def Op.timed : Op → Bool
  | .timedlock timed | .wait timed => timed
  | _ => false

/-- How a sleep that nobody ends can end. -/
inductive Early where
  | no
  | spurious
  | timedOut
  | interrupted
  deriving DecidableEq

/-- What the schedule chooses in a step: what an idle thread calls, how a sleep ends, whom `futex`
wakes, and whether it fails. -/
structure Choice where
  op : Op
  early : Early
  pick : Nat
  fails : Bool

/-- Where a thread is. The operation is the one that it has called, and `i` the word that
`__mtx_trylock` has found. -/
inductive Pc where
  | idle
  | cas (o : Op)
  | setOwner (o : Op)
  | ifOwner (o : Op) (i : Int)
  | add (o : Op)
  | sub (o : Op)
  | futex (o : Op) (i : Int)
  | asleep (o : Op) (i : Int)
  | condFutex (o : Op)
  | condAsleep (o : Op)
  | clearSem (o : Op)
  | unlock
  | unlockOwner
  | unlockSub
  | unlockClear
  | unlockCas
  | unlockWake
  | setSem (o : Op)
  | condWake (o : Op)
  | ret (o : Op) (r : Code)
  deriving DecidableEq

/-- The mutex, the condition variable and the kernel's queues. `holder` is no part of the program: it
is the thread that has changed `lock` from zero. -/
structure Shared (T : Type) where
  lock : Int
  owner : Option T
  sem : Int
  waiters : List T
  condWaiters : List T
  holder : Option T

/-- A thread, and how often its client has the mutex. -/
structure Local where
  pc : Pc
  held : Nat

section

variable {T : Type}

/-- `FUTEX_WAKE` of one thread. -/
def wake (queue : List T) (pick : Nat) : List T := queue.eraseIdx (pick % queue.length)

/-- Behind `__mtx_trylock`, which has found `i`. -/
def tried (o : Op) (i : Int) (r : Code) : Pc :=
  if o = .trylock ∨ r ≠ .busy then .ret o r else .futex o i

/-- The first step of a call. -/
def entry : Op → Pc
  | .trylock => .cas .trylock
  | .timedlock timed => .cas (.timedlock timed)
  | .unlock => .unlock
  | .wait timed => .condFutex (.wait timed)
  | .signal => .setSem .signal
  | .broadcast => .setSem .broadcast

/-- What a client has of the mutex from the call on: it does not rely on what it gives back. -/
def called (o : Op) (held : Nat) : Nat := if o = .unlock then held - 1 else held

/-- What a client has of the mutex behind an operation that has got it. The wait for a condition is
to give back what it has found. -/
def acquired (o : Op) (held : Nat) : Nat :=
  match o with
  | .wait _ => held
  | _ => held + 1

variable [DecidableEq T]

/-- A step of a thread on a mutex that is recursive or not. An idle one calls an operation if its
client allows it that with what it has. -/
def step (recursive : Bool) (allowed : Nat → Op → Bool) :
    Prog T Choice (Shared T) Local (Event Op Code)
  | _, c, s, ⟨.idle, held⟩ =>
    if allowed held c.op then
      (s, ⟨entry c.op, called c.op held⟩, some (.call c.op))
    else (s, ⟨.idle, held⟩, none)
  | t, _, s, ⟨.cas o, held⟩ =>
    if s.lock = 0 then ({ s with lock := 1, holder := some t }, ⟨.setOwner o, acquired o held⟩, none)
    else (s, ⟨.ifOwner o s.lock, held⟩, none)
  | t, _, s, ⟨.setOwner o, held⟩ => ({ s with owner := some t }, ⟨.ret o .success, held⟩, none)
  | t, _, s, ⟨.ifOwner o i, held⟩ =>
    if recursive ∧ s.owner = some t then (s, ⟨.add o, held⟩, none)
    else (s, ⟨tried o i .busy, held⟩, none)
  | _, _, s, ⟨.add o, held⟩ =>
    if s.lock + 1 > 1000 then ({ s with lock := s.lock + 1 }, ⟨.sub o, held⟩, none)
    else ({ s with lock := s.lock + 1 }, ⟨.ret o .success, acquired o held⟩, none)
  | _, _, s, ⟨.sub o, held⟩ => ({ s with lock := s.lock - 1 }, ⟨.ret o .error, held⟩, none)
  | t, c, s, ⟨.futex o i, held⟩ =>
    if c.fails then (s, ⟨.futex o i, held⟩, none)
    else if s.lock = i then ({ s with waiters := s.waiters ++ [t] }, ⟨.asleep o i, held⟩, none)
    else (s, ⟨.cas o, held⟩, none)
  | t, c, s, ⟨.asleep o i, held⟩ =>
    if t ∈ s.waiters then
      match c.early with
      | .no => (s, ⟨.asleep o i, held⟩, none)
      | .spurious => ({ s with waiters := s.waiters.erase t }, ⟨.cas o, held⟩, none)
      | .timedOut =>
        if o.timed then ({ s with waiters := s.waiters.erase t }, ⟨.ret o .timedout, held⟩, none)
        else (s, ⟨.asleep o i, held⟩, none)
      | .interrupted => ({ s with waiters := s.waiters.erase t }, ⟨.futex o i, held⟩, none)
    else (s, ⟨.cas o, held⟩, none)
  | t, c, s, ⟨.condFutex o, held⟩ =>
    if c.fails ∨ s.sem ≠ 0 then (s, ⟨.clearSem o, held⟩, none)
    else ({ s with condWaiters := s.condWaiters ++ [t] }, ⟨.condAsleep o, held⟩, none)
  | t, c, s, ⟨.condAsleep o, held⟩ =>
    if t ∈ s.condWaiters then
      if c.early = .no ∨ (c.early = .timedOut ∧ o.timed = false) then
        (s, ⟨.condAsleep o, held⟩, none)
      else ({ s with condWaiters := s.condWaiters.erase t }, ⟨.clearSem o, held⟩, none)
    else (s, ⟨.clearSem o, held⟩, none)
  | _, _, s, ⟨.clearSem o, held⟩ => ({ s with sem := 0 }, ⟨.cas o, held⟩, none)
  | _, _, s, ⟨.unlock, held⟩ =>
    if s.lock = 0 then (s, ⟨.ret .unlock .error, held⟩, none) else (s, ⟨.unlockOwner, held⟩, none)
  | t, _, s, ⟨.unlockOwner, held⟩ =>
    if recursive ∧ s.owner = some t then (s, ⟨.unlockSub, held⟩, none)
    else (s, ⟨.unlockCas, held⟩, none)
  | _, _, s, ⟨.unlockSub, held⟩ =>
    if s.lock - 1 = 0 then ({ s with lock := s.lock - 1, holder := none }, ⟨.unlockClear, held⟩, none)
    else ({ s with lock := s.lock - 1 }, ⟨.ret .unlock .success, held⟩, none)
  | _, _, s, ⟨.unlockClear, held⟩ => ({ s with owner := none }, ⟨.unlockWake, held⟩, none)
  | _, _, s, ⟨.unlockCas, held⟩ =>
    if s.lock = 1 then ({ s with lock := 0, holder := none }, ⟨.unlockWake, held⟩, none)
    else (s, ⟨.ret .unlock .success, held⟩, none)
  | _, c, s, ⟨.unlockWake, held⟩ =>
    ({ s with waiters := wake s.waiters c.pick }, ⟨.ret .unlock .success, held⟩, none)
  | _, _, s, ⟨.setSem o, held⟩ => ({ s with sem := 1 }, ⟨.condWake o, held⟩, none)
  | _, c, s, ⟨.condWake o, held⟩ =>
    let queue := if o = .broadcast then [] else wake s.condWaiters c.pick
    ({ s with condWaiters := queue }, ⟨.ret o .success, held⟩, none)
  | _, _, s, ⟨.ret _ r, held⟩ => (s, ⟨.idle, held⟩, some (.ret r))

/-- `mtx_init` and `cnd_init`, and threads that have called nothing. -/
def init : World T (Shared T) Local := ⟨⟨0, none, 0, [], [], none⟩, fun _ => ⟨.idle, 0⟩⟩

end

/-! ## What every run keeps -/

section

variable {T : Type}

/-- A place that says nothing of the shared state beyond what the thread has of `lock`. -/
def Pc.Plain : Pc → Prop
  | .setOwner _ | .ifOwner .. | .add _ | .sub _ | .futex .. | .asleep .. | .unlockClear
  | .unlockCas => False
  | _ => True

theorem plain_entry (o : Op) : (entry o).Plain := by
  cases o <;> trivial

/-- What a thread must have of `lock`: what its client has, and what it is about to give back. -/
def Local.need (l : Local) : Int :=
  l.held + match l.pc with
    | .sub _ | .unlock | .unlockOwner | .unlockSub | .unlockCas => 1
    | _ => 0

structure SharedOk (s : Shared T) : Prop where
  free : s.lock = 0 ↔ s.holder = none
  nonneg : 0 ≤ s.lock
  nodup : s.waiters.Nodup

/-- What holds of a thread and the shared state. A `mtx_unlock` that has let a recursive mutex go still
clears `owner`, even when another thread has the mutex by then. -/
structure Fits (recursive : Bool) (t : T) (s : Shared T) (l : Local) : Prop where
  need : 0 < l.need → s.holder = some t ∧ l.need ≤ s.lock
  owns : ∀ o, l.pc = .setOwner o ∨ l.pc = .add o → s.holder = some t
  excess : ∀ o, l.pc = .sub o → s.holder = some t ∧ 1 < s.lock
  found : ∀ o i, l.pc = .ifOwner o i ∨ l.pc = .futex o i ∨ l.pc = .asleep o i → i ≠ 0
  owner : recursive = true → s.owner = some t →
    l.pc ≠ .unlockCas ∧ (s.holder = some t ∨ l.pc = .unlockClear)
  queue : t ∈ s.waiters → ∃ o i, l.pc = .asleep o i

/-- What a step of `t` leaves to the other threads. -/
structure Leaves (t : T) (s s' : Shared T) : Prop where
  held : ∀ t', t' ≠ t → s.holder = some t' → s'.holder = some t' ∧ s'.lock = s.lock
  owner : ∀ t', t' ≠ t → s'.owner = some t' → s.owner = some t'
  queue : ∀ t', t' ≠ t → t' ∈ s'.waiters → t' ∈ s.waiters

theorem Leaves.fits {recursive : Bool} {t t' : T} {s s' : Shared T} {l : Local}
    (h : Leaves t s s') (ht : t' ≠ t) (hf : Fits recursive t' s l) : Fits recursive t' s' l where
  need := fun hn => by
    obtain ⟨hheld, hle⟩ := hf.need hn
    obtain ⟨hheld', hlock⟩ := h.held t' ht hheld
    exact ⟨hheld', hlock ▸ hle⟩
  owns := fun o ho => (h.held t' ht (hf.owns o ho)).1
  excess := fun o ho => by
    obtain ⟨hheld, hlt⟩ := hf.excess o ho
    obtain ⟨hheld', hlock⟩ := h.held t' ht hheld
    exact ⟨hheld', hlock ▸ hlt⟩
  found := hf.found
  owner := fun hr ho =>
    (hf.owner hr (h.owner t' ht ho)).imp_right fun h' => h'.imp_left fun hh => (h.held t' ht hh).1
  queue := fun hq => hf.queue (h.queue t' ht hq)

/-- A step of `t` keeps what holds of it and of the shared state. -/
structure Keeps (recursive : Bool) (t : T) (s s' : Shared T) (l' : Local) : Prop where
  shared : SharedOk s'
  fits : Fits recursive t s' l'
  leaves : Leaves t s s'

section

variable {recursive : Bool} {t : T} {s s' : Shared T} {l l' : Local}

theorem Fits.not_queued (hf : Fits recursive t s l) (h : ∀ o i, l.pc ≠ .asleep o i) :
    t ∉ s.waiters := by
  intro hq
  obtain ⟨o, i, hpc⟩ := hf.queue hq
  exact h o i hpc

theorem SharedOk.pos (hs : SharedOk s) (h : s.holder = some t) : 0 < s.lock := by
  have hne : s.lock ≠ 0 := fun h0 => by
    rw [hs.free.mp h0] at h
    cases h
  have := hs.nonneg
  omega

theorem Fits.need_le (hf : Fits recursive t s l) (hs : SharedOk s) : l.need ≤ s.lock := by
  by_cases hn : 0 < l.need
  · exact (hf.need hn).2
  · have := hs.nonneg
    omega

/-- A step that leaves the word and its owner as they are. -/
theorem Keeps.stays (hs : SharedOk s) (hf : Fits recursive t s l) (hlock : s'.lock = s.lock)
    (hholder : s'.holder = s.holder) (howner : s'.owner = s.owner) (hnodup : s'.waiters.Nodup)
    (hothers : ∀ t', t' ≠ t → t' ∈ s'.waiters → t' ∈ s.waiters) (hneed : l'.need ≤ l.need)
    (howns : ∀ o, l'.pc = .setOwner o ∨ l'.pc = .add o → s.holder = some t)
    (hover : ∀ o, l'.pc ≠ .sub o)
    (hfound : ∀ o i, l'.pc = .ifOwner o i ∨ l'.pc = .futex o i ∨ l'.pc = .asleep o i → i ≠ 0)
    (hcas : recursive = true → s.owner = some t → l'.pc ≠ .unlockCas)
    (hclear : l.pc = .unlockClear → l'.pc = .unlockClear)
    (hqueue : t ∈ s'.waiters → ∃ o i, l'.pc = .asleep o i) : Keeps recursive t s s' l' where
  shared := ⟨by rw [hlock, hholder]; exact hs.free, hlock ▸ hs.nonneg, hnodup⟩
  fits := {
    need := fun h => by
      rw [hlock, hholder]
      exact (hf.need (by omega)).imp_right (by omega)
    owns := by rwa [hholder]
    excess := fun o ho => absurd ho (hover o)
    found := hfound
    owner := fun hr ho => by
      rw [howner] at ho
      rw [hholder]
      exact ⟨hcas hr ho, (hf.owner hr ho).2.imp_right hclear⟩
    queue := hqueue }
  leaves := ⟨fun _ _ h => ⟨hholder ▸ h, hlock⟩, fun _ _ h => howner ▸ h, hothers⟩

/-- A step to a plain place that leaves the queue as it is as well. -/
theorem Keeps.goes (hs : SharedOk s) (hf : Fits recursive t s l) (hq : t ∉ s.waiters)
    (hlock : s'.lock = s.lock) (hholder : s'.holder = s.holder) (howner : s'.owner = s.owner)
    (hwaiters : s'.waiters = s.waiters) (hneed : l'.need ≤ l.need) (hpc : l.pc ≠ .unlockClear)
    (hplain : l'.pc.Plain) : Keeps recursive t s s' l' := by
  obtain ⟨pc, held⟩ := l'
  refine .stays hs hf hlock hholder howner (hwaiters ▸ hs.nodup) (fun _ _ h => hwaiters ▸ h) hneed
    ?_ ?_ ?_ ?_ (absurd · hpc) fun h => absurd (hwaiters ▸ h) hq
  all_goals cases pc <;> simp_all [Pc.Plain]

/-- A step of the thread that has the mutex, behind which it still has it. -/
theorem Keeps.holds (hs : SharedOk s) (hq : t ∉ s.waiters)
    (hbefore : s.holder = none ∨ s.holder = some t) (hholder : s'.holder = some t)
    (howner : s'.owner = s.owner ∨ s'.owner = some t) (hwaiters : s'.waiters = s.waiters)
    (hpos : 0 < s'.lock) (hneed : l'.need ≤ s'.lock) (hover : ∀ o, l'.pc = .sub o → 1 < s'.lock)
    (hfound : ∀ o i, l'.pc = .ifOwner o i ∨ l'.pc = .futex o i ∨ l'.pc = .asleep o i → i ≠ 0)
    (hcas : l'.pc ≠ .unlockCas) : Keeps recursive t s s' l' where
  shared := {
    free := by simp [hholder, hpos.ne']
    nonneg := hpos.le
    nodup := hwaiters ▸ hs.nodup }
  fits := {
    need := fun _ => ⟨hholder, hneed⟩
    owns := fun _ _ => hholder
    excess := fun o ho => ⟨hholder, hover o ho⟩
    found := hfound
    owner := fun _ _ => ⟨hcas, .inl hholder⟩
    queue := fun h => absurd (hwaiters ▸ h) hq }
  leaves := {
    held := fun t' ht h => by
      rcases hbefore with hb | hb <;> rw [hb] at h
      · cases h
      · exact absurd (Option.some.inj h).symm ht
    owner := fun t' ht h => by
      rcases howner with ho | ho <;> rw [ho] at h
      · exact h
      · exact absurd (Option.some.inj h).symm ht
    queue := fun _ _ h => hwaiters ▸ h }

/-- A step of the thread that has the mutex, behind which nobody has it. -/
theorem Keeps.releases (hs : SharedOk s) (hq : t ∉ s.waiters) (hbefore : s.holder = some t)
    (hholder : s'.holder = none) (hlock : s'.lock = 0) (howner : s'.owner = s.owner)
    (hwaiters : s'.waiters = s.waiters) (hneed : l'.need = 0)
    (howns : ∀ o, ¬ (l'.pc = .setOwner o ∨ l'.pc = .add o)) (hover : ∀ o, l'.pc ≠ .sub o)
    (hfound : ∀ o i, l'.pc = .ifOwner o i ∨ l'.pc = .futex o i ∨ l'.pc = .asleep o i → i ≠ 0)
    (hcas : l'.pc ≠ .unlockCas)
    (hclear : recursive = true → s.owner = some t → l'.pc = .unlockClear) :
    Keeps recursive t s s' l' where
  shared := ⟨by simp [hholder, hlock], hlock.ge, hwaiters ▸ hs.nodup⟩
  fits := {
    need := fun h => absurd hneed h.ne'
    owns := fun o ho => absurd ho (howns o)
    excess := fun o ho => absurd ho (hover o)
    found := hfound
    owner := fun hr ho => ⟨hcas, .inr (hclear hr (howner ▸ ho))⟩
    queue := fun h => absurd (hwaiters ▸ h) hq }
  leaves := {
    held := fun t' ht h => absurd (Option.some.inj (hbefore.symm.trans h)).symm ht
    owner := fun _ _ h => howner ▸ h
    queue := fun _ _ h => hwaiters ▸ h }

end

theorem mem_wake {queue : List T} {pick : Nat} {t : T} (h : t ∈ wake queue pick) : t ∈ queue :=
  List.mem_of_mem_eraseIdx h

/-- `FUTEX_WAKE` wakes a thread if there is one in the queue. -/
theorem wake_spec {queue : List T} (h : queue.Nodup) (hne : queue ≠ []) (pick : Nat) :
    ∃ t ∈ queue, t ∉ wake queue pick := by
  have hlt : pick % queue.length < queue.length := Nat.mod_lt _ (List.length_pos_of_ne_nil hne)
  refine ⟨_, List.getElem_mem hlt, fun hmem => ?_⟩
  obtain ⟨j, hj, hne', heq⟩ := List.mem_eraseIdx_iff_getElem.mp hmem
  exact hne' ((h.getElem_inj_iff).mp heq)

/-- A thread that is about to wake another, or is awake and about to try for the mutex. -/
def Rouses (t : T) (s : Shared T) (l : Local) : Prop :=
  match l.pc with
  | .unlockClear | .unlockWake | .cas _ | .futex _ _ => True
  | .ifOwner o _ => o ≠ .trylock
  | .asleep _ _ => t ∉ s.waiters
  | _ => False

theorem Rouses.leaves {t t' : T} {s s' : Shared T} {l : Local} (hr : Rouses t' s l)
    (h : Leaves t s s') (ht : t' ≠ t) : Rouses t' s' l := by
  obtain ⟨pc, held⟩ := l
  cases pc with
  | asleep o i => exact fun hq => hr (h.queue t' ht hq)
  | _ => exact hr

def Inv (recursive : Bool) (w : World T (Shared T) Local) : Prop :=
  SharedOk w.shared ∧ ∀ t, Fits recursive t w.shared (w.locals t)

theorem inv_init (recursive : Bool) : Inv recursive (init : World T (Shared T) Local) :=
  ⟨⟨by simp [init], le_rfl, List.nodup_nil⟩, fun _ =>
    ⟨fun h => absurd h (lt_irrefl _), by simp [init], by simp [init],
      by simp [init], by simp [init], by simp [init]⟩⟩

theorem need_called {allowed : Nat → Op → Bool} (hclient : allowed 0 .unlock = false) {o : Op}
    {held : Nat} (ha : allowed held o = true) :
    (Local.mk (entry o) (called o held)).need = held := by
  cases o with
  | unlock =>
    have hpos : held ≠ 0 := fun h => by rw [h, hclient] at ha; cases ha
    simp only [Local.need, entry, called]
    simp
    omega
  | _ => simp [Local.need, entry, called]

theorem acquired_le (o : Op) (held : Nat) : acquired o held ≤ held + 1 := by
  cases o <;> simp [acquired]

variable [DecidableEq T]

variable {recursive : Bool} {allowed : Nat → Op → Bool} {w : World T (Shared T) Local} {t : T}
  {s : Shared T} {l : Local}

theorem step_keeps (hclient : allowed 0 .unlock = false) (hs : SharedOk s)
    (hf : Fits recursive t s l) (c : Choice) :
    Keeps recursive t s (step recursive allowed t c s l).1 (step recursive allowed t c s l).2.1 := by
  obtain ⟨pc, held⟩ := l
  -- A step from one place in the program to another, with the shared state as it is.
  have hgo : ∀ l', l'.need ≤ (Local.mk pc held).need →
      (∀ o, l'.pc = .setOwner o ∨ l'.pc = .add o → s.holder = some t) → (∀ o, l'.pc ≠ .sub o) →
      (∀ o i, l'.pc = .ifOwner o i ∨ l'.pc = .futex o i ∨ l'.pc = .asleep o i → i ≠ 0) →
      (recursive = true → s.owner = some t → l'.pc ≠ .unlockCas) →
      (pc = .unlockClear → l'.pc = .unlockClear) → (t ∈ s.waiters → ∃ o i, l'.pc = .asleep o i) →
      Keeps recursive t s s l' :=
    fun l' => .stays hs hf rfl rfl rfl hs.nodup fun _ _ h => h
  cases pc with
  | idle =>
    have hq := hf.not_queued nofun
    simp only [step]
    split_ifs with ha
    · exact .goes hs hf hq rfl rfl rfl rfl (by rw [need_called hclient ha]; simp [Local.need]) nofun
        (plain_entry c.op)
    · exact .goes hs hf hq rfl rfl rfl rfl le_rfl nofun trivial
  | cas o =>
    have hq := hf.not_queued nofun
    simp only [step]
    split_ifs with h0
    · have hnone := hs.free.mp h0
      have hle : (held : Int) + 0 ≤ s.lock := hf.need_le hs
      have := acquired_le o held
      exact .holds hs hq (.inl hnone) rfl (.inl rfl) rfl one_pos
        (by simp only [Local.need]; omega) (by simp) (by simp) (by simp)
    · exact hgo _ le_rfl (by simp) (by simp) (by simp [h0]) (by simp) (by simp) (absurd · hq)
  | setOwner o =>
    have hq := hf.not_queued nofun
    have hh := hf.owns o (.inl rfl)
    exact .holds hs hq (.inr hh) hh (.inr rfl) rfl (hs.pos hh) (hf.need_le hs) (by simp [step])
      (by simp [step]) (by simp [step])
  | ifOwner o i =>
    have hq := hf.not_queued nofun
    have hi := hf.found o i (.inl rfl)
    simp only [step]
    split_ifs with hr
    · have hh := (hf.owner hr.1 hr.2).2.resolve_right fun h => nomatch h
      exact hgo _ le_rfl (fun _ _ => hh) (by simp) (by simp) (by simp) (by simp) (absurd · hq)
    · unfold tried
      split_ifs
      · exact .goes hs hf hq rfl rfl rfl rfl le_rfl nofun trivial
      · exact hgo _ le_rfl (by simp) (by simp) (by simp [hi]) (by simp) (by simp) (absurd · hq)
  | add o =>
    have hq := hf.not_queued nofun
    have hh := hf.owns o (.inr rfl)
    have hpos : 0 < s.lock := hs.pos hh
    have hle : (held : Int) + 0 ≤ s.lock := hf.need_le hs
    simp only [step]
    split_ifs with hmany
    · exact .holds hs hq (.inr hh) hh (.inl rfl) rfl (Int.add_pos hpos one_pos)
        (by simpa [Local.need] using hle) (by simp; omega) (by simp) (by simp)
    · have := acquired_le o held
      exact .holds hs hq (.inr hh) hh (.inl rfl) rfl (Int.add_pos hpos one_pos)
        (by simp only [Local.need]; omega) (by simp) (by simp) (by simp)
  | sub o =>
    have hq := hf.not_queued nofun
    obtain ⟨hh, hlt⟩ := hf.excess o rfl
    have hle : (held : Int) + 1 ≤ s.lock := hf.need_le hs
    exact .holds hs hq (.inr hh) hh (.inl rfl) rfl (by simp only [step]; omega)
      (by simp only [step, Local.need]; omega) (by simp [step]) (by simp [step]) (by simp [step])
  | futex o i =>
    have hq := hf.not_queued nofun
    have hi := hf.found o i (.inr (.inl rfl))
    simp only [step]
    split_ifs with hfail heq
    · exact hgo _ le_rfl (by simp) (by simp) (by simp [hi]) (by simp) (by simp) (absurd · hq)
    · refine .stays hs hf rfl rfl rfl (List.nodup_append.mpr ⟨hs.nodup, by simp, ?_⟩) ?_ le_rfl
        (by simp) (by simp) (by simp [hi]) (by simp) (by simp) (by simp)
      · intro a ha b hb hab
        rw [List.mem_singleton] at hb
        exact hq (hb ▸ hab ▸ ha)
      · intro t' ht h
        rw [List.mem_append, List.mem_singleton] at h
        exact h.resolve_right ht
    · exact .goes hs hf hq rfl rfl rfl rfl le_rfl nofun trivial
  | asleep o i =>
    have hi := hf.found o i (.inr (.inr rfl))
    -- A sleep that ends takes the thread out of the queue.
    have hleave : ∀ l', l'.need = (Local.mk (.asleep o i) held).need →
        (l'.pc = .cas o ∨ l'.pc = .ret o .timedout ∨ l'.pc = .futex o i) →
        Keeps recursive t s { s with waiters := s.waiters.erase t } l' := by
      intro l' hneed hpc
      refine .stays hs hf rfl rfl rfl (hs.nodup.erase t) (fun t' _ h => List.mem_of_mem_erase h)
        hneed.le ?_ ?_ ?_ ?_ (by simp) fun h => absurd h hs.nodup.not_mem_erase
      all_goals rcases hpc with h | h | h <;> simp [h, hi]
    by_cases hin : t ∈ s.waiters
    · have hstay : Keeps recursive t s s ⟨.asleep o i, held⟩ :=
        hgo _ le_rfl (by simp) (by simp) (by simp [hi]) (by simp) (by simp) (by simp)
      simp only [step, if_pos hin]
      cases c.early with
      | no => exact hstay
      | spurious => exact hleave _ rfl (.inl rfl)
      | timedOut =>
        cases o.timed with
        | true => exact hleave _ rfl (.inr (.inl rfl))
        | false => exact hstay
      | interrupted => exact hleave _ rfl (.inr (.inr rfl))
    · simp only [step, if_neg hin]
      exact .goes hs hf hin rfl rfl rfl rfl le_rfl nofun trivial
  | condFutex o =>
    have hq := hf.not_queued nofun
    simp only [step]
    split_ifs <;> exact .goes hs hf hq rfl rfl rfl rfl le_rfl nofun trivial
  | condAsleep o =>
    have hq := hf.not_queued nofun
    simp only [step]
    split_ifs <;> exact .goes hs hf hq rfl rfl rfl rfl le_rfl nofun trivial
  | clearSem o =>
    have hq := hf.not_queued nofun
    exact .goes hs hf hq rfl rfl rfl rfl le_rfl nofun trivial
  | unlock =>
    have hq := hf.not_queued nofun
    simp only [step]
    split_ifs
    · exact .goes hs hf hq rfl rfl rfl rfl (by simp [Local.need]) nofun trivial
    · exact .goes hs hf hq rfl rfl rfl rfl le_rfl nofun trivial
  | unlockOwner =>
    have hq := hf.not_queued nofun
    simp only [step]
    split_ifs with hr
    · exact .goes hs hf hq rfl rfl rfl rfl le_rfl nofun trivial
    · exact hgo _ le_rfl (by simp) (by simp) (by simp) (fun h h' => absurd ⟨h, h'⟩ hr) (by simp)
        (absurd · hq)
  | unlockSub =>
    have hq := hf.not_queued nofun
    obtain ⟨hh, hle⟩ := hf.need (Int.lt_add_one_of_le (Int.natCast_nonneg held))
    have hle : (held : Int) + 1 ≤ s.lock := hle
    have hpos := hs.pos hh
    simp only [step]
    split_ifs with h0
    · exact .releases hs hq hh rfl h0 rfl rfl (by simp only [Local.need]; omega) (by simp) (by simp)
        (by simp) (by simp) (by simp)
    · exact .holds hs hq (.inr hh) hh (.inl rfl) rfl (by simp only; omega)
        (by simp only [Local.need]; omega) (by simp) (by simp) (by simp)
  | unlockClear =>
    have hq := hf.not_queued nofun
    exact {
      shared := ⟨hs.free, hs.nonneg, hs.nodup⟩
      fits := {
        need := hf.need
        owns := fun _ ho => by simp [step] at ho
        excess := fun _ ho => by simp [step] at ho
        found := fun _ _ hi => by simp [step] at hi
        owner := fun _ ho => by cases ho
        queue := fun h => absurd h hq }
      leaves := ⟨fun _ _ h => ⟨h, rfl⟩, fun _ _ h => (by cases h), fun _ _ h => h⟩ }
  | unlockCas =>
    have hq := hf.not_queued nofun
    obtain ⟨hh, hle⟩ := hf.need (Int.lt_add_one_of_le (Int.natCast_nonneg held))
    have hle : (held : Int) + 1 ≤ s.lock := hle
    simp only [step]
    split_ifs with h1
    · exact .releases hs hq hh rfl rfl rfl rfl (by simp only [Local.need]; omega) (by simp) (by simp)
        (by simp) (by simp) fun hr ho => absurd rfl (hf.owner hr ho).1
    · exact .goes hs hf hq rfl rfl rfl rfl (by simp [Local.need]) nofun trivial
  | unlockWake =>
    have hq := hf.not_queued nofun
    exact .stays hs hf rfl rfl rfl (hs.nodup.sublist (List.eraseIdx_sublist ..))
      (fun _ _ h => mem_wake h) le_rfl (by simp [step]) (by simp [step]) (by simp [step])
      (by simp [step]) (by simp) fun h => absurd (mem_wake h) hq
  | setSem o =>
    have hq := hf.not_queued nofun
    exact .goes hs hf hq rfl rfl rfl rfl le_rfl nofun trivial
  | condWake o =>
    have hq := hf.not_queued nofun
    exact .goes hs hf hq rfl rfl rfl rfl le_rfl nofun trivial
  | ret o r =>
    have hq := hf.not_queued nofun
    exact .goes hs hf hq rfl rfl rfl rfl le_rfl nofun trivial

theorem inv_next (hclient : allowed 0 .unlock = false) (h : Inv recursive w) (t : T) (c : Choice) :
    Inv recursive (w.next (step recursive allowed) t c) := by
  have hk := step_keeps hclient h.1 (h.2 t) c
  exact ⟨hk.shared, locals_next h.2 hk.fits fun t' l ht hf => hk.leaves.fits ht hf⟩

theorem inv_run (hclient : allowed 0 .unlock = false) (sched : List (T × Choice)) :
    Inv recursive (run (step recursive allowed) init sched) :=
  run_invariant (I := Inv recursive) (fun _ t c h => inv_next hclient h t c) (inv_init recursive)
    sched

/-- The client unlocks only what it has. -/
def careful (held : Nat) (o : Op) : Bool := o != .unlock || held != 0

/-- Nobody sleeps on a mutex that is free unless somebody is on the way to it. -/
def Awake (w : World T (Shared T) Local) : Prop :=
  w.shared.lock = 0 → w.shared.waiters ≠ [] → ∃ t, Rouses t w.shared (w.locals t)

/-- A thread on the way to a mutex that is free is still on the way behind its step, unless it has
got the mutex or woken another. -/
theorem rouses_next (hs : SharedOk s) (hf : Fits recursive t s l) (c : Choice) (h0 : s.lock = 0)
    (hr : Rouses t s l) (hwake : l.pc ≠ .unlockWake) :
    (step recursive allowed t c s l).1.lock ≠ 0 ∨
      Rouses t (step recursive allowed t c s l).1 (step recursive allowed t c s l).2.1 := by
  obtain ⟨pc, held⟩ := l
  cases pc with
  | cas o =>
    left
    simp [step, h0]
  | ifOwner o i =>
    right
    have hho := hf.owner
    have hne : ¬ (recursive ∧ s.owner = some t) := fun h => by
      have hh := (hho h.1 h.2).2.resolve_right fun h => nomatch h
      exact absurd h0 (hs.pos hh).ne'
    have ho : o ≠ .trylock := hr
    simp [step, hne, tried, ho, Rouses]
  | futex o i =>
    right
    have hi := hf.found o i (.inr (.inl rfl))
    simp only [step]
    split_ifs with _ heq
    · trivial
    · exact absurd (heq.symm.trans h0) hi
    · trivial
  | asleep o i =>
    right
    have hq : t ∉ s.waiters := hr
    simp [step, hq, Rouses]
  | unlockClear => exact .inr trivial
  | unlockWake => exact absurd rfl hwake
  | _ => exact absurd hr id

/-- Only a thread that is going to wake another sets the mutex free. -/
theorem rouses_of_freed (hs : SharedOk s) (hf : Fits recursive t s l) (c : Choice)
    (hlock : s.lock ≠ 0) (h0 : (step recursive allowed t c s l).1.lock = 0) :
    Rouses t (step recursive allowed t c s l).1 (step recursive allowed t c s l).2.1 := by
  obtain ⟨pc, held⟩ := l
  have hnonneg := hs.nonneg
  cases pc with
  | add o =>
    simp only [step] at h0
    split_ifs at h0 <;> simp only at h0 <;> omega
  | sub o =>
    have hlt := (hf.excess o rfl).2
    simp only [step] at h0
    omega
  | unlockSub =>
    simp only [step] at h0 ⊢
    split_ifs at h0 ⊢ with h1
    · trivial
    · exact absurd h0 h1
  | unlockCas =>
    simp only [step] at h0 ⊢
    split_ifs at h0 ⊢
    · trivial
    · exact absurd h0 hlock
  | cas o =>
    simp only [step, if_neg hlock] at h0
    exact absurd h0 hlock
  | _ =>
    simp only [step] at h0
    (repeat' split at h0) <;> exact absurd h0 hlock

/-- No thread goes to sleep on a mutex that is free. -/
theorem waiters_of_free (hf : Fits recursive t s l) (c : Choice) (h0 : s.lock = 0)
    (h : s.waiters = []) : (step recursive allowed t c s l).1.waiters = [] := by
  obtain ⟨pc, held⟩ := l
  cases pc with
  | futex o i =>
    have hi : s.lock ≠ i := fun h => hf.found o i (.inr (.inl rfl)) (h.symm.trans h0)
    simp only [step, if_neg hi]
    split_ifs <;> exact h
  | unlockWake => simp [step, wake, h]
  | _ =>
    simp only [step]
    (repeat' split) <;> simp [h]

theorem awake_next (hclient : allowed 0 .unlock = false) (h : Inv recursive w) (ha : Awake w)
    (t : T) (c : Choice) : Awake (w.next (step recursive allowed) t c) := by
  intro h0 hne
  have hk := step_keeps hclient h.1 (h.2 t) c
  rw [World.next_shared] at h0 hne
  by_cases hlock : w.shared.lock = 0
  · have hwaiters : w.shared.waiters ≠ [] := fun he => hne (waiters_of_free (h.2 t) c hlock he)
    obtain ⟨u, hu⟩ := ha hlock hwaiters
    by_cases hut : u = t
    · subst hut
      by_cases hwake : (w.locals u).pc = .unlockWake
      · -- The thread that is woken is the next one on the way.
        obtain ⟨v, hv, hwoken⟩ := wake_spec h.1.nodup hwaiters c.pick
        obtain ⟨o, i, hpc⟩ := (h.2 v).queue hv
        have hvu : v ≠ u := fun e => by
          rw [e, hwake] at hpc
          cases hpc
        refine ⟨v, ?_⟩
        rw [World.next_other _ _ _ hvu, World.next_shared, Rouses, hpc]
        generalize hl : w.locals u = l at hwake ⊢
        obtain ⟨pc, held⟩ := l
        cases hwake
        exact hwoken
      · refine ⟨u, ?_⟩
        rw [World.next_self, World.next_shared]
        exact (rouses_next h.1 (h.2 u) c hlock hu hwake).resolve_left (absurd h0 ·)
    · refine ⟨u, ?_⟩
      rw [World.next_other _ _ _ hut, World.next_shared]
      exact hu.leaves hk.leaves hut
  · refine ⟨t, ?_⟩
    rw [World.next_self, World.next_shared]
    exact rouses_of_freed h.1 (h.2 t) c hlock h0

/-- In a step that is to lead on, nothing fails and no sleep ends early. -/
def quiet : Choice := ⟨.trylock, .no, 0, false⟩

/-- Some thread has the mutex after at most `n` steps, in which nobody calls or returns. -/
def Within (p : Prog T Choice (Shared T) Local (Event Op Code)) (n : Nat)
    (w : World T (Shared T) Local) : Prop :=
  ∃ sched : List (T × Choice), sched.length ≤ n ∧ trace p w sched = [] ∧
    (run p w sched).shared.lock ≠ 0

theorem Within.step {p : Prog T Choice (Shared T) Local (Event Op Code)} {n : Nat}
    (hseen : (p t quiet w.shared (w.locals t)).2.2 = none) (h : Within p n (w.next p t quiet)) :
    Within p (n + 1) w := by
  obtain ⟨sched, hlen, htrace, hlock⟩ := h
  refine ⟨(t, quiet) :: sched, by simp only [List.length_cons]; omega, ?_, hlock⟩
  simp [trace, World.seen, hseen, htrace]

theorem within_cas {o : Op} {n : Nat} (hl : w.locals t = ⟨.cas o, n⟩) (h0 : w.shared.lock = 0) :
    Within (step recursive allowed) 1 w := by
  refine .step (t := t) (by simp [Mutex.step, hl, h0]) ⟨[], le_rfl, rfl, ?_⟩
  simp [run, World.next, Mutex.step, hl, h0]

theorem within_futex {o : Op} {i : Int} {n : Nat} (hl : w.locals t = ⟨.futex o i, n⟩)
    (hi : i ≠ 0) (h0 : w.shared.lock = 0) : Within (step recursive allowed) 2 w := by
  refine .step (t := t) ?_ (within_cas (t := t) (o := o) (n := n) ?_ ?_) <;>
    simp [World.next_self, World.next_shared, Mutex.step, hl, h0, quiet, hi.symm]

theorem within_asleep {o : Op} {i : Int} {n : Nat} (hl : w.locals t = ⟨.asleep o i, n⟩)
    (hq : t ∉ w.shared.waiters) (h0 : w.shared.lock = 0) :
    Within (step recursive allowed) 2 w := by
  refine .step (t := t) ?_ (within_cas (t := t) (o := o) (n := n) ?_ ?_) <;>
    simp [World.next_self, World.next_shared, Mutex.step, hl, hq, h0]

theorem within_ifOwner {o : Op} {i : Int} {n : Nat} (hs : SharedOk w.shared)
    (hf : Fits recursive t w.shared ⟨.ifOwner o i, n⟩) (hl : w.locals t = ⟨.ifOwner o i, n⟩)
    (ho : o ≠ .trylock) (h0 : w.shared.lock = 0) : Within (step recursive allowed) 3 w := by
  have hi := hf.found o i (.inl rfl)
  have hne : ¬ (recursive ∧ w.shared.owner = some t) := fun h' => by
    have hh := (hf.owner h'.1 h'.2).2.resolve_right fun h => nomatch h
    exact absurd h0 (hs.pos hh).ne'
  refine .step (t := t) ?_ (within_futex (t := t) (o := o) (n := n) ?_ hi ?_) <;>
    simp [World.next_self, World.next_shared, Mutex.step, hl, hne, tried, ho, h0]

theorem within_wake {n : Nat} (h : Inv recursive w) (hl : w.locals t = ⟨.unlockWake, n⟩)
    (h0 : w.shared.lock = 0) (hne : w.shared.waiters ≠ []) :
    Within (step recursive allowed) 3 w := by
  obtain ⟨v, hv, hwoken⟩ := wake_spec h.1.nodup hne quiet.pick
  obtain ⟨o, i, hvpc⟩ := (h.2 v).queue hv
  have hvt : v ≠ t := fun e => by
    rw [e, hl] at hvpc
    cases hvpc
  refine .step (t := t) (by simp [Mutex.step, hl])
    (within_asleep (t := v) (o := o) (i := i) (n := (w.locals v).held) ?_ ?_ ?_)
  · rw [World.next_other _ _ _ hvt, ← hvpc]
  · simpa [World.next_shared, Mutex.step, hl] using hwoken
  · simp [World.next_shared, Mutex.step, hl, h0]

theorem within_clear {n : Nat} (h : Inv recursive w) (hclient : allowed 0 .unlock = false)
    (hl : w.locals t = ⟨.unlockClear, n⟩) (h0 : w.shared.lock = 0)
    (hne : w.shared.waiters ≠ []) : Within (step recursive allowed) 4 w := by
  have hnext := inv_next hclient h t quiet
  refine .step (t := t) ?_ (within_wake (t := t) (n := n) hnext ?_ ?_ ?_) <;>
    simp [World.next_self, World.next_shared, Mutex.step, hl, h0, hne]

theorem Within.mono {p : Prog T Choice (Shared T) Local (Event Op Code)} {n m : Nat} (hnm : n ≤ m)
    (h : Within p n w) : Within p m w := by
  obtain ⟨sched, hlen, hrest⟩ := h
  exact ⟨sched, hlen.trans hnm, hrest⟩

theorem within_of_rouses (hclient : allowed 0 .unlock = false) (h : Inv recursive w)
    (hr : Rouses t w.shared (w.locals t)) (h0 : w.shared.lock = 0) (hne : w.shared.waiters ≠ []) :
    Within (step recursive allowed) 4 w := by
  have hf := h.2 t
  generalize hl : w.locals t = l at hr hf
  obtain ⟨pc, held⟩ := l
  cases pc with
  | unlockClear => exact within_clear h hclient hl h0 hne
  | unlockWake => exact (within_wake h hl h0 hne).mono (by omega)
  | cas o => exact (within_cas hl h0).mono (by omega)
  | futex o i => exact (within_futex hl (hf.found o i (.inr (.inl rfl))) h0).mono (by omega)
  | ifOwner o i => exact (within_ifOwner h.1 hf hl hr h0).mono (by omega)
  | asleep o i => exact (within_asleep hl hr h0).mono (by omega)
  | _ => exact absurd hr id

end

/-! ## Mutexes that are not recursive -/

/-- The operations that take the mutex. -/
def Op.acquires : Op → Bool
  | .trylock | .timedlock _ | .wait _ => true
  | _ => false

section

variable {T : Type}

/-- The operations of a mutex that a thread has or nobody. A wait for a condition takes the mutex,
and never gives it away. -/
inductive MutexSpec : Spec T (Option T) Op Code where
  | acquire {t : T} {o : Op} (ho : o.acquires = true) : MutexSpec t none o .success (some t)
  | busy {t u : T} : MutexSpec t (some u) .trylock .busy (some u)
  | timedout {t : T} {a : Option T} {o : Op} (ho : o.timed = true) : MutexSpec t a o .timedout a
  | unlock {t : T} : MutexSpec t (some t) .unlock .success none
  | signal {t : T} {a : Option T} {o : Op} (ho : o = .signal ∨ o = .broadcast) :
      MutexSpec t a o .success a

def Pc.status : Pc → Status Op Code
  | .idle => .idle
  | .cas o | .add o | .sub o | .futex o _ | .asleep o _ | .condFutex o | .condAsleep o
  | .clearSem o | .setSem o => .pending o
  | .setOwner o | .condWake o => .done o .success
  | .ifOwner o _ => if o = .trylock then .done o .busy else .pending o
  | .unlock | .unlockOwner | .unlockSub | .unlockCas => .pending .unlock
  | .unlockClear | .unlockWake => .done .unlock .success
  | .ret o r => .done o r

/-- The places to which threads come on a mutex that is not recursive, with the operations that
bring them there. -/
def Pc.Ok : Pc → Prop
  | .cas o | .setOwner o | .ifOwner o _ => o.acquires = true
  | .futex o _ | .asleep o _ | .condFutex o | .condAsleep o | .clearSem o =>
    o.acquires = true ∧ o ≠ .trylock
  | .add _ | .sub _ | .unlockSub | .unlockClear => False
  | .setSem o | .condWake o => o = .signal ∨ o = .broadcast
  | _ => True

variable [DecidableEq T]

theorem ok_next (allowed : Nat → Op → Bool) {t : T} {s : Shared T} {l : Local} (hok : l.pc.Ok)
    (c : Choice) : (step false allowed t c s l).2.1.pc.Ok := by
  obtain ⟨pc, held⟩ := l
  cases pc with
  | idle =>
    simp only [step]
    split_ifs
    · cases hop : c.op <;> simp [entry, Pc.Ok, Op.acquires]
    · trivial
  | cas o =>
    simp only [step]
    split_ifs <;> exact hok
  | ifOwner o i =>
    have ho : o.acquires = true := hok
    simp only [step, Bool.false_eq_true, false_and, if_false, tried]
    split_ifs with ht
    · trivial
    · exact ⟨ho, fun h => ht (.inl h)⟩
  | add o => exact hok.elim
  | sub o => exact hok.elim
  | unlockSub => exact hok.elim
  | unlockClear => exact hok.elim
  | setOwner o => trivial
  | clearSem o => exact hok.1
  | setSem o => exact hok
  | condWake o => trivial
  | _ =>
    simp only [step]
    (repeat' split) <;> first | trivial | exact hok | exact hok.1 | simp_all

theorem lock_le_one (allowed : Nat → Op → Bool) {t : T} {s : Shared T} {l : Local} (hok : l.pc.Ok)
    (hle : s.lock ≤ 1) (c : Choice) : (step false allowed t c s l).1.lock ≤ 1 := by
  obtain ⟨pc, held⟩ := l
  cases pc with
  | add o => exact hok.elim
  | sub o => exact hok.elim
  | unlockSub => exact hok.elim
  | unlockClear => exact hok.elim
  | _ =>
    simp only [step]
    (repeat' split) <;> first | exact hle | exact le_rfl | exact zero_le_one

/-- Every step on a mutex that is not recursive is a move on the mutex that a thread has or nobody. -/
theorem step_moves (allowed : Nat → Op → Bool) {t : T} {s : Shared T} {l : Local} (hs : SharedOk s)
    (hf : Fits false t s l) (hle : s.lock ≤ 1) (hok : l.pc.Ok) (c : Choice) :
    Moves MutexSpec t s.holder l.pc.status (step false allowed t c s l).2.2
      (step false allowed t c s l).1.holder (step false allowed t c s l).2.1.pc.status := by
  obtain ⟨pc, held⟩ := l
  cases pc with
  | idle =>
    simp only [step]
    split_ifs
    · cases hop : c.op <;> exact .call ..
    · exact .stay ..
  | cas o =>
    have ho : o.acquires = true := hok
    simp only [step]
    split_ifs with h0
    · rw [hs.free.mp h0]
      exact .commit (.acquire ho)
    · obtain ⟨u, hu⟩ := Option.ne_none_iff_exists'.mp fun hn => h0 (hs.free.mpr hn)
      by_cases ht : o = .trylock
      · subst ht
        rw [hu]
        exact .commit .busy
      · rw [show (Pc.ifOwner o s.lock).status = .pending o from if_neg ht]
        exact .stay ..
  | setOwner o => exact .stay ..
  | ifOwner o i =>
    simp only [step, Bool.false_eq_true, false_and, if_false, tried, Pc.status]
    by_cases ht : o = .trylock
    · subst ht
      exact .stay ..
    · rw [if_neg ht, if_neg (by simp [ht])]
      exact .stay ..
  | add o => exact hok.elim
  | sub o => exact hok.elim
  | futex o i =>
    simp only [step]
    split_ifs <;> exact .stay ..
  | asleep o i =>
    by_cases hin : t ∈ s.waiters
    · simp only [step, if_pos hin]
      cases c.early with
      | timedOut =>
        cases ht : o.timed with
        | true => exact .commit (.timedout ht)
        | false => exact .stay ..
      | _ => exact .stay ..
    · simp only [step, if_neg hin]
      exact .stay ..
  | condFutex o =>
    simp only [step]
    split_ifs <;> exact .stay ..
  | condAsleep o =>
    simp only [step]
    split_ifs <;> exact .stay ..
  | clearSem o => exact .stay ..
  | unlock =>
    have hneed : (held : Int) + 1 ≤ s.lock := hf.need_le hs
    have h0 : s.lock ≠ 0 := by omega
    simp only [step, if_neg h0]
    exact .stay ..
  | unlockOwner =>
    simp only [step, Bool.false_eq_true, false_and, if_false]
    exact .stay ..
  | unlockSub => exact hok.elim
  | unlockClear => exact hok.elim
  | unlockCas =>
    obtain ⟨hh, hneed⟩ := hf.need (Int.lt_add_one_of_le (Int.natCast_nonneg held))
    have hneed : (held : Int) + 1 ≤ s.lock := hneed
    have h1 : s.lock = 1 := by omega
    simp only [step, if_pos h1]
    rw [hh]
    exact .commit .unlock
  | unlockWake => exact .stay ..
  | setSem o => exact .commit (.signal hok)
  | condWake o => exact .stay ..
  | ret o r => exact .ret ..

def PlainInv (w : World T (Shared T) Local) : Prop :=
  Inv false w ∧ w.shared.lock ≤ 1 ∧ ∀ t, (w.locals t).pc.Ok

variable {allowed : Nat → Op → Bool}

theorem plainInv_next (hclient : allowed 0 .unlock = false) {w : World T (Shared T) Local}
    (h : PlainInv w) (t : T) (c : Choice) : PlainInv (w.next (step false allowed) t c) :=
  ⟨inv_next hclient h.1 t c, lock_le_one allowed (h.2.2 t) h.2.1 c,
    locals_next (P := fun _ _ (l : Local) => l.pc.Ok) h.2.2 (ok_next allowed (h.2.2 t) c)
      fun _ _ _ h => h⟩

/-- **The functions on a plain mutex are atomic.** However the threads' accesses, sleeps and wake-ups
interleave, the history of calls and returns is one of a mutex that one thread has or nobody; a
`mtx_timedlock` may besides run out of time, and `mtx_trylock` says busy only of a mutex that is
taken. -/
theorem mutex_linearizes (allowed : Nat → Op → Bool) (hclient : allowed 0 .unlock = false)
    (sched : List (T × Choice)) :
    ∃ log, Linearizes MutexSpec none (fun _ : T => Status.idle)
      (trace (step false allowed) init sched) log
      (run (step false allowed) init sched).shared.holder
      (fun t => ((run (step false allowed) init sched).locals t).pc.status) :=
  linearizes_run (fun w : World T (Shared T) Local => w.shared.holder)
    (fun l : Local => l.pc.status) (I := PlainInv) (fun _ t c h => plainInv_next hclient h t c)
    (fun _ t c h => step_moves allowed h.1.1 (h.1.2 t) h.2.1 (h.2.2 t) c)
    ⟨inv_init false, zero_le_one, fun _ => trivial⟩ sched

theorem mutex_linearizes_two :
    let sched : List (Bool × Choice) := List.replicate 4 (true, ⟨.trylock, .no, 0, false⟩) ++
      List.replicate 4 (false, ⟨.trylock, .no, 0, false⟩)
    ∃ log, Linearizes MutexSpec none (fun _ : Bool => Status.idle)
      (trace (step false careful) init sched) log
      (run (step false careful) init sched).shared.holder
      (fun t => ((run (step false careful) init sched).locals t).pc.status) :=
  mutex_linearizes careful rfl _

end

end Dietlibc.Threads.Mutex
