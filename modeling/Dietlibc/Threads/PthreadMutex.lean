import Dietlibc.Base.Interleaving

/-!
# Mutexes of the thread library

`pthread_mutex_lock`, `pthread_mutex_trylock` and `pthread_mutex_unlock` on a mutex of each kind. The
mutex is a word that `__testandset` sets, with an owner and a count beside it, and each access to one
of them is a step.
-/

namespace Dietlibc.Threads.PthreadMutex

open Interleaving Function

def EPERM : Int := 1
def EBUSY : Int := 16
def EDEADLK : Int := 35

inductive Kind where
  | fast
  | recursive
  | errorcheck
  deriving DecidableEq

/-- A mutex. `held` is no part of the program: it is the thread that has set the word, and how often
it has the mutex. -/
structure Mutex (T : Type) where
  spinlock : Bool
  owner : Option T
  count : UInt32
  held : Option (T × UInt32)

/-- Where a thread is in a function on a mutex. `once` is `pthread_mutex_trylock`, and `nested`
says that the thread has had the mutex before. -/
inductive MPc where
  | ifOwner (once : Bool)
  | spin (once : Bool)
  | setOwner
  | setCount
  | incr (nested : Bool)
  | unlockOwner
  | decr
  | clearOwner
  | release
  deriving DecidableEq

/-- The count of a mutex that a thread has just got. -/
def first (kind : Kind) : UInt32 := if kind = .recursive then 1 else 0

section

variable {T : Type}

/-- A step in a function on a mutex, to another place or to its result. -/
def mutexStep [DecidableEq T] (kind : Kind) (t : T) (m : Mutex T) : MPc → Mutex T × (MPc ⊕ Int)
  | .ifOwner once =>
    if m.owner ≠ some t then (m, .inl (.spin once))
    else if kind = .errorcheck then (m, .inr EDEADLK)
    else (m, .inl (.incr true))
  | .spin once =>
    if m.spinlock then (m, if once then .inr EBUSY else .inl (.spin once))
    else ({ m with spinlock := true, held := some (t, first kind) }, .inl .setOwner)
  | .setOwner => ({ m with owner := some t }, .inl .setCount)
  | .setCount => ({ m with count := 0 }, .inl (.incr false))
  | .incr nested =>
    if kind = .recursive then
      ({ m with
          count := m.count + 1
          held := if nested then some (t, m.count + 1) else m.held }, .inr 0)
    else (m, .inr 0)
  | .unlockOwner =>
    if m.owner = some t then (m, .inl (if kind = .recursive then .decr else .clearOwner))
    else (m, .inr (if kind = .errorcheck then EPERM else 0))
  | .decr =>
    if m.count - 1 ≠ 0 then
      ({ m with count := m.count - 1, held := some (t, m.count - 1) }, .inr 0)
    else ({ m with count := m.count - 1 }, .inl .clearOwner)
  | .clearOwner => ({ m with owner := none }, .inl .release)
  | .release => ({ m with spinlock := false, held := none }, .inr 0)

/-- `pthread_mutex_init`. -/
def mutexInit : Mutex T := ⟨false, none, 0, none⟩

/-- What holds of a mutex and the thread that has it so often. -/
def Has (kind : Kind) (t : T) (m : Mutex T) (c : UInt32) : Option MPc → Prop
  | none | some (.ifOwner _) | some .unlockOwner => m.owner = some t ∧ m.count = c
  | some (.spin _) => False
  | some .setOwner => m.owner = none ∧ c = first kind
  | some .setCount => m.owner = some t ∧ c = first kind
  | some (.incr false) => m.owner = some t ∧ m.count = 0 ∧ c = first kind
  | some (.incr true) => m.owner = some t ∧ m.count = c ∧ kind ≠ .errorcheck
  | some .decr => m.owner = some t ∧ m.count = c ∧ kind = .recursive
  | some .clearOwner => m.owner = some t ∧ (kind = .recursive → c - 1 = 0)
  | some .release => m.owner = none ∧ (kind = .recursive → c - 1 = 0)

/-- Where a thread can be that does not have the mutex. -/
def Lacks : Option MPc → Prop
  | none | some (.ifOwner _) | some (.spin _) | some .unlockOwner => True
  | _ => False

structure Fits (kind : Kind) (t : T) (m : Mutex T) (pc : Option MPc) : Prop where
  has : ∀ c, m.held = some (t, c) → Has kind t m c pc
  lacks : (∀ c, m.held ≠ some (t, c)) → Lacks pc ∧ m.owner ≠ some t

def MutexOk (m : Mutex T) : Prop :=
  m.spinlock = m.held.isSome ∧ (m.held = none → m.owner = none)

/-- What a step of `t` leaves to the other threads. -/
structure Leaves (t : T) (m m' : Mutex T) : Prop where
  same : ∀ t' c, t' ≠ t → m.held = some (t', c) → m' = m
  held : ∀ t' c, t' ≠ t → m'.held = some (t', c) → m.held = some (t', c)
  owner : ∀ t', t' ≠ t → m'.owner = some t' → m.owner = some t'

variable {kind : Kind} {t : T} {m m' : Mutex T} {pc : Option MPc}

theorem Leaves.refl (t : T) (m : Mutex T) : Leaves t m m :=
  ⟨fun _ _ _ _ => rfl, fun _ _ _ h => h, fun _ _ h => h⟩

theorem Leaves.fits {t' : T} (h : Leaves t m m') (ht : t' ≠ t) (hf : Fits kind t' m pc) :
    Fits kind t' m' pc where
  has := fun c hc => by
    have hold := h.held t' c ht hc
    rw [h.same t' c ht hold]
    exact hf.has c hold
  lacks := fun hn => by
    by_cases hc : ∃ c, m.held = some (t', c)
    · obtain ⟨c, hc⟩ := hc
      rw [h.same t' c ht hc] at hn
      exact absurd hc (hn c)
    · exact (hf.lacks (not_exists.mp hc)).imp_right fun ho ho' => ho (h.owner t' ht ho')

theorem MutexOk.locked {x : T × UInt32} (hm : MutexOk m) (h : m.held = some x) :
    m.spinlock = true := by
  rw [hm.1, h]
  rfl

theorem MutexOk.of_some {x : T × UInt32} (h : m.held = some x) (hs : m.spinlock = true) :
    MutexOk m := by
  refine ⟨by rw [h, hs]; rfl, fun hn => ?_⟩
  rw [h] at hn
  cases hn

/-- A step of the thread that has the mutex, or that gets it. -/
theorem Leaves.holds (h : m.held = none ∨ ∃ c, m.held = some (t, c))
    (h' : m'.held = none ∨ ∃ c, m'.held = some (t, c))
    (ho : m'.owner = m.owner ∨ m'.owner = some t ∨ m'.owner = none) : Leaves t m m' where
  same := fun t' c ht hc => by
    rcases h with h | ⟨d, h⟩ <;> rw [h] at hc <;> cases hc
    exact absurd rfl ht
  held := fun t' c ht hc => by
    rcases h' with h' | ⟨d, h'⟩ <;> rw [h'] at hc <;> cases hc
    exact absurd rfl ht
  owner := fun t' ht ho' => by
    rcases ho with ho | ho | ho <;> rw [ho] at ho'
    · exact ho'
    · cases ho'
      exact absurd rfl ht
    · cases ho'

theorem Fits.of_has {c : UInt32} (hheld : m.held = some (t, c)) (h : Has kind t m c pc) :
    Fits kind t m pc where
  has := fun d hd => by
    rw [hheld] at hd
    cases hd
    exact h
  lacks := fun hn => absurd hheld (hn c)

theorem Fits.held (h : Fits kind t m pc) (hpc : ¬ Lacks pc) : ∃ c, m.held = some (t, c) :=
  not_forall_not.mp fun hn => hpc (h.lacks hn).1

theorem Fits.of_lacks (hheld : ∀ c, m.held ≠ some (t, c)) (hpc : Lacks pc) (ho : m.owner ≠ some t) :
    Fits kind t m pc :=
  ⟨fun c hc => absurd hc (hheld c), fun _ => ⟨hpc, ho⟩⟩

variable [DecidableEq T]

/-- A step keeps what holds of its thread, and leaves the others what holds of them. -/
theorem mutexStep_keeps {pc : MPc} (hm : MutexOk m) (hf : Fits kind t m (some pc)) :
    MutexOk (mutexStep kind t m pc).1 ∧ Leaves t m (mutexStep kind t m pc).1 ∧
      Fits kind t (mutexStep kind t m pc).1 (mutexStep kind t m pc).2.getLeft? := by
  by_cases hheld : ∃ c, m.held = some (t, c)
  · obtain ⟨c, hc⟩ := hheld
    have hhas := hf.has c hc
    have hheld : m.held = none ∨ ∃ c, m.held = some (t, c) := .inr ⟨c, hc⟩
    cases pc with
    | ifOwner once =>
      obtain ⟨ho, hcount⟩ := hhas
      simp only [mutexStep, ho, ne_eq, not_true_eq_false, if_false]
      split_ifs with hk
      · exact ⟨hm, .refl t m, .of_has hc ⟨ho, hcount⟩⟩
      · exact ⟨hm, .refl t m, .of_has hc ⟨ho, hcount, hk⟩⟩
    | spin once => exact hhas.elim
    | setOwner =>
      obtain ⟨_, hfirst⟩ := hhas
      exact ⟨.of_some hc (hm.locked hc), .holds hheld hheld (.inr (.inl rfl)),
        .of_has hc ⟨rfl, hfirst⟩⟩
    | setCount =>
      obtain ⟨ho, hfirst⟩ := hhas
      exact ⟨hm, .holds hheld hheld (.inl rfl), .of_has hc ⟨ho, rfl, hfirst⟩⟩
    | incr nested =>
      cases nested with
      | false =>
        obtain ⟨ho, hcount, hfirst⟩ := hhas
        simp only [mutexStep, Bool.false_eq_true, if_false]
        split_ifs with hk
        · refine ⟨hm, .holds hheld hheld (.inl rfl), .of_has hc ⟨ho, ?_⟩⟩
          rw [hcount, hfirst, first, if_pos hk]
          rfl
        · refine ⟨hm, .refl t m, .of_has hc ⟨ho, ?_⟩⟩
          rw [hcount, hfirst, first, if_neg hk]
      | true =>
        obtain ⟨ho, hcount, _⟩ := hhas
        simp only [mutexStep, if_true]
        split_ifs with hk
        · exact ⟨.of_some rfl (hm.locked hc), .holds hheld (.inr ⟨_, rfl⟩) (.inl rfl),
            .of_has rfl ⟨ho, rfl⟩⟩
        · exact ⟨hm, .refl t m, .of_has hc ⟨ho, hcount⟩⟩
    | unlockOwner =>
      obtain ⟨ho, hcount⟩ := hhas
      simp only [mutexStep, ho, if_true]
      split_ifs with hk
      · exact ⟨hm, .refl t m, .of_has hc ⟨ho, hcount, hk⟩⟩
      · exact ⟨hm, .refl t m, .of_has hc ⟨ho, fun h => absurd h hk⟩⟩
    | decr =>
      obtain ⟨ho, hcount, hk⟩ := hhas
      simp only [mutexStep]
      split_ifs with h0
      · exact ⟨.of_some rfl (hm.locked hc), .holds hheld (.inr ⟨_, rfl⟩) (.inl rfl),
          .of_has rfl ⟨ho, rfl⟩⟩
      · rw [not_not, hcount] at h0
        exact ⟨hm, .holds hheld hheld (.inl rfl), .of_has hc ⟨ho, fun _ => h0⟩⟩
    | clearOwner =>
      obtain ⟨_, hlast⟩ := hhas
      exact ⟨.of_some hc (hm.locked hc), .holds hheld hheld (.inr (.inr rfl)),
        .of_has hc ⟨rfl, hlast⟩⟩
    | release =>
      obtain ⟨ho, _⟩ := hhas
      refine ⟨⟨rfl, fun _ => ho⟩, .holds hheld (.inl rfl) (.inl rfl),
        .of_lacks (by simp [mutexStep]) trivial ?_⟩
      simp [mutexStep, ho]
  · have hheld := not_exists.mp hheld
    obtain ⟨hpc, ho⟩ := hf.lacks hheld
    cases pc with
    | ifOwner once =>
      simp only [mutexStep, if_pos ho]
      exact ⟨hm, .refl t m, .of_lacks hheld trivial ho⟩
    | spin once =>
      by_cases hs : m.spinlock = true
      · simp only [mutexStep, if_pos hs]
        refine ⟨hm, .refl t m, .of_lacks hheld ?_ ho⟩
        cases once <;> trivial
      · simp only [mutexStep, if_neg hs]
        have hnone : m.held = none := by
          rw [hm.1] at hs
          simpa using hs
        exact ⟨.of_some rfl rfl, .holds (.inl hnone) (.inr ⟨_, rfl⟩) (.inl rfl),
          .of_has rfl ⟨hm.2 hnone, rfl⟩⟩
    | unlockOwner =>
      simp only [mutexStep, if_neg ho]
      exact ⟨hm, .refl t m, .of_lacks hheld trivial ho⟩
    | _ => exact hpc.elim

end

inductive Request where
  | lock
  | trylock
  | unlock
  deriving DecidableEq

def Request.entry : Request → MPc
  | .lock => .ifOwner false
  | .trylock => .ifOwner true
  | .unlock => .unlockOwner

/-- Where a thread is that uses a mutex. -/
inductive Pc where
  | idle
  | inside (o : Request) (pc : MPc)
  | ret (o : Request) (r : Int)
  deriving DecidableEq

/-- A step of a thread whose client may call anything. -/
def mutexProg {T : Type} [DecidableEq T] (kind : Kind) :
    Prog T Request (Mutex T) Pc (Event Request Int)
  | _, o, m, .idle => (m, .inside o o.entry, some (.call o))
  | t, _, m, .inside o pc =>
    match mutexStep kind t m pc with
    | (m', .inl pc') => (m', .inside o pc', none)
    | (m', .inr r) => (m', .ret o r, none)
  | _, _, m, .ret _ r => (m, .idle, some (.ret r))

/-- The operations of a mutex that a thread has so often or nobody. -/
inductive LockSpec {T : Type} (kind : Kind) : Spec T (Option (T × UInt32)) Request Int where
  | take {t : T} {o : Request} (ho : o ≠ .unlock) :
      LockSpec kind t none o 0 (some (t, first kind))
  | nested {t : T} {o : Request} {c : UInt32} (ho : o ≠ .unlock) (hk : kind = .recursive) :
      LockSpec kind t (some (t, c)) o 0 (some (t, c + 1))
  | again {t : T} {o : Request} {c : UInt32} (ho : o ≠ .unlock) (hk : kind = .fast) :
      LockSpec kind t (some (t, c)) o 0 (some (t, c))
  | deadlock {t : T} {o : Request} {c : UInt32} (ho : o ≠ .unlock) (hk : kind = .errorcheck) :
      LockSpec kind t (some (t, c)) o EDEADLK (some (t, c))
  | busy {t u : T} {c : UInt32} (hu : u ≠ t) :
      LockSpec kind t (some (u, c)) .trylock EBUSY (some (u, c))
  | give {t : T} {c : UInt32} (hc : kind = .recursive → c - 1 = 0) :
      LockSpec kind t (some (t, c)) .unlock 0 none
  | less {t : T} {c : UInt32} (hk : kind = .recursive) (hc : c - 1 ≠ 0) :
      LockSpec kind t (some (t, c)) .unlock 0 (some (t, c - 1))
  | foreign {t : T} {a : Option (T × UInt32)} (ha : ∀ c, a ≠ some (t, c)) :
      LockSpec kind t a .unlock (if kind = .errorcheck then EPERM else 0) a

/-- The places in a function are those of its operation. -/
def MPc.Ok (o : Request) : MPc → Prop
  | .ifOwner once | .spin once => o = if once then .trylock else .lock
  | .setOwner | .setCount | .incr _ => o ≠ .unlock
  | .unlockOwner | .decr | .clearOwner | .release => o = .unlock

/-- A thread that has set the word is through with its operation. -/
def MPc.status (o : Request) : MPc → Status Request Int
  | .setOwner | .setCount | .incr false => .done o 0
  | _ => .pending o

def Pc.status : Pc → Status Request Int
  | .idle => .idle
  | .inside o pc => pc.status o
  | .ret o r => .done o r

def Pc.place : Pc → Option MPc
  | .inside _ pc => some pc
  | _ => none

def Pc.Ok : Pc → Prop
  | .inside o pc => pc.Ok o
  | _ => True

section

variable {T : Type} [DecidableEq T]

theorem MPc.Ok.lock {o : Request} {once : Bool} (h : o = if once then .trylock else .lock) :
    o ≠ .unlock := by
  rintro rfl
  cases once <;> cases h

/-- Behind a step of a function on a mutex, at another place or with the result. -/
def resume (o : Request) : MPc ⊕ Int → Pc
  | .inl pc => .inside o pc
  | .inr r => .ret o r

theorem mutexProg_inside (kind : Kind) (t : T) (c : Request) (m : Mutex T) (o : Request)
    (pc : MPc) : mutexProg kind t c m (.inside o pc) =
      ((mutexStep kind t m pc).1, resume o (mutexStep kind t m pc).2, none) := by
  rw [mutexProg]
  generalize mutexStep kind t m pc = r
  obtain ⟨m', pc' | r⟩ := r <;> rfl

/-- Every step in a function is a move on the mutex that a thread has so often or nobody. -/
theorem mutexStep_moves {kind : Kind} {t : T} {m : Mutex T} {o : Request} {pc : MPc}
    (hm : MutexOk m) (hf : Fits kind t m (some pc)) (hok : pc.Ok o) :
    (resume o (mutexStep kind t m pc).2).Ok ∧
      Moves (LockSpec kind) t m.held (pc.status o) none (mutexStep kind t m pc).1.held
        (resume o (mutexStep kind t m pc).2).status := by
  cases pc with
  | ifOwner once =>
    have ho := MPc.Ok.lock hok
    by_cases howner : m.owner = some t
    · obtain ⟨c, hc⟩ : ∃ c, m.held = some (t, c) := by
        by_contra hn
        exact (hf.lacks (not_exists.mp hn)).2 howner
      by_cases hk : kind = .errorcheck
      · simp only [mutexStep, howner, ne_eq, not_true_eq_false, if_false, if_pos hk]
        rw [hc]
        exact ⟨trivial, .commit (.deadlock ho hk)⟩
      · simp only [mutexStep, howner, ne_eq, not_true_eq_false, if_false, if_neg hk]
        exact ⟨ho, .stay ..⟩
    · simp only [mutexStep, ne_eq, howner, not_false_eq_true, if_true]
      exact ⟨hok, .stay ..⟩
  | spin once =>
    have hlacks : ∀ c, m.held ≠ some (t, c) := fun c hc => hf.has c hc
    by_cases hs : m.spinlock = true
    · obtain ⟨⟨u, c⟩, hu⟩ := Option.isSome_iff_exists.mp (hm.1.symm.trans hs)
      have hne : u ≠ t := fun e => hlacks c (e ▸ hu)
      simp only [mutexStep, if_pos hs]
      cases once with
      | true =>
        have ho : o = .trylock := hok
        subst ho
        rw [hu]
        exact ⟨trivial, .commit (.busy hne)⟩
      | false => exact ⟨hok, .stay ..⟩
    · have hnone : m.held = none := by
        rw [hm.1] at hs
        simpa using hs
      simp only [mutexStep, if_neg hs]
      rw [hnone]
      exact ⟨MPc.Ok.lock hok, .commit (.take (MPc.Ok.lock hok))⟩
  | setOwner => exact ⟨hok, .stay ..⟩
  | setCount => exact ⟨hok, .stay ..⟩
  | incr nested =>
    have ho : o ≠ .unlock := hok
    obtain ⟨c, hc⟩ := hf.held id
    have hhas := hf.has c hc
    cases nested with
    | false =>
      refine ⟨by simp only [mutexStep]; split_ifs <;> trivial, ?_⟩
      simp only [mutexStep, Bool.false_eq_true, if_false]
      split_ifs <;> exact .stay ..
    | true =>
      obtain ⟨_, hcount, hk⟩ := hhas
      by_cases hr : kind = .recursive
      · simp only [mutexStep, if_pos hr, if_true]
        rw [hc, hcount]
        exact ⟨trivial, .commit (.nested ho hr)⟩
      · simp only [mutexStep, if_neg hr]
        rw [hc]
        refine ⟨trivial, .commit (.again ho ?_)⟩
        cases kind with
        | fast => rfl
        | recursive => exact absurd rfl hr
        | errorcheck => exact absurd rfl hk
  | unlockOwner =>
    have ho : o = .unlock := hok
    subst ho
    by_cases howner : m.owner = some t
    · simp only [mutexStep, if_pos howner]
      split_ifs <;> exact ⟨rfl, .stay ..⟩
    · simp only [mutexStep, if_neg howner]
      refine ⟨trivial, .commit (.foreign fun c hc => ?_)⟩
      exact howner (hf.has c hc).1
  | decr =>
    have ho : o = .unlock := hok
    subst ho
    obtain ⟨c, hc⟩ := hf.held id
    obtain ⟨_, hcount, hk⟩ := hf.has c hc
    by_cases h0 : m.count - 1 = 0
    · simp only [mutexStep, h0, ne_eq, not_true_eq_false, if_false]
      exact ⟨rfl, .stay ..⟩
    · simp only [mutexStep, ne_eq, h0, not_false_eq_true, if_true]
      rw [hc]
      rw [hcount] at h0 ⊢
      exact ⟨trivial, .commit (.less hk h0)⟩
  | clearOwner => exact ⟨hok, .stay ..⟩
  | release =>
    have ho : o = .unlock := hok
    subst ho
    obtain ⟨c, hc⟩ := hf.held id
    obtain ⟨_, hlast⟩ := hf.has c hc
    rw [hc]
    exact ⟨trivial, .commit (.give hlast)⟩

/-- A thread that enters a function or comes out of one. -/
theorem Fits.outside {T : Type} {kind : Kind} {t : T} {m : Mutex T} {pc pc' : Option MPc}
    (h : Fits kind t m pc) (hpc : pc = none ∨ ∃ o : Request, pc = some o.entry)
    (hpc' : pc' = none ∨ ∃ o : Request, pc' = some o.entry) : Fits kind t m pc' := by
  refine ⟨fun c hc => ?_, fun hn => ⟨?_, (h.lacks hn).2⟩⟩
  · have hhas := h.has c hc
    have hplain : m.owner = some t ∧ m.count = c := by
      rcases hpc with rfl | ⟨o, rfl⟩
      · exact hhas
      · cases o <;> exact hhas
    rcases hpc' with rfl | ⟨o, rfl⟩
    · exact hplain
    · cases o <;> exact hplain
  · rcases hpc' with rfl | ⟨o, rfl⟩
    · trivial
    · cases o <;> trivial

def MutexInv (kind : Kind) (w : World T (Mutex T) Pc) : Prop :=
  MutexOk w.shared ∧ ∀ t, Fits kind t w.shared (w.locals t).place ∧ (w.locals t).Ok

theorem entry_ok (o : Request) : o.entry.Ok o := by
  cases o <;> rfl

theorem mutexInv_next {kind : Kind} {w : World T (Mutex T) Pc} (h : MutexInv kind w) (t : T)
    (c : Request) : MutexInv kind (w.next (mutexProg kind) t c) := by
  obtain ⟨hm, hall⟩ := h
  obtain ⟨hf, hok⟩ := hall t
  suffices hstep : MutexOk (mutexProg kind t c w.shared (w.locals t)).1 ∧
      Leaves t w.shared (mutexProg kind t c w.shared (w.locals t)).1 ∧
      Fits kind t (mutexProg kind t c w.shared (w.locals t)).1
        (mutexProg kind t c w.shared (w.locals t)).2.1.place ∧
      (mutexProg kind t c w.shared (w.locals t)).2.1.Ok by
    refine ⟨hstep.1, locals_next (P := fun t m (pc : Pc) => Fits kind t m pc.place ∧ pc.Ok) hall
      hstep.2.2 fun t' pc ht hp => ⟨hstep.2.1.fits ht hp.1, hp.2⟩⟩
  generalize w.locals t = pc at hf hok
  cases pc with
  | idle => exact ⟨hm, .refl t _, hf.outside (.inl rfl) (.inr ⟨c, rfl⟩), entry_ok c⟩
  | inside o pc =>
    rw [mutexProg_inside]
    obtain ⟨hm', hleaves, hfits⟩ := mutexStep_keeps hm hf
    refine ⟨hm', hleaves, ?_, (mutexStep_moves hm hf hok).1⟩
    generalize (mutexStep kind t w.shared pc).2 = r at hfits
    cases r <;> exact hfits
  | ret o r => exact ⟨hm, .refl t _, hf, trivial⟩

/-- **The functions on a mutex of the thread library are atomic**, for each kind of mutex and whatever
its clients call: the history of calls and returns is one of a mutex that one thread has, so often,
or nobody. The thread that has a mutex of the fast kind locks it again at once, and gives it back
with one unlock. -/
theorem pthread_mutex_linearizes (kind : Kind) (sched : List (T × Request)) :
    ∃ log, Linearizes (LockSpec kind) none (fun _ : T => Status.idle)
      (trace (mutexProg kind) ⟨mutexInit, fun _ => .idle⟩ sched) log
      (run (mutexProg kind) ⟨mutexInit, fun _ => .idle⟩ sched).shared.held
      (fun t => ((run (mutexProg kind) ⟨mutexInit, fun _ => .idle⟩ sched).locals t).status) := by
  refine linearizes_run (fun w : World T (Mutex T) Pc => w.shared.held) Pc.status
    (I := MutexInv kind) (fun _ t c h => mutexInv_next h t c) ?_
    (w := ⟨mutexInit, fun _ => .idle⟩) ⟨⟨rfl, fun _ => rfl⟩, fun t => ⟨?_, trivial⟩⟩ sched
  · rintro w t c ⟨hm, hall⟩
    obtain ⟨hf, hok⟩ := hall t
    rw [World.next_shared]
    generalize w.locals t = pc at hf hok
    cases pc with
    | idle => cases c <;> exact .call ..
    | inside o pc =>
      rw [mutexProg_inside]
      exact (mutexStep_moves hm hf hok).2
    | ret o r => exact .ret ..
  · exact .of_lacks (fun c h => by cases h) trivial fun h => by cases h

end

end Dietlibc.Threads.PthreadMutex
