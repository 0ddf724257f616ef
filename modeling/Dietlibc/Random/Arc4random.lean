import Mathlib.Tactic

/-!
# arc4random

`arc4random`, `arc4random_uniform` and `arc4random_stir`. `fresh` is what `arc4random_buf` returns:
`fresh f` is the content of fill `f`, and the first fill has the number 1. A word has a name, the
number of its fill and its index. The access to a word behind the pool is undefined, and the call
has no result.
-/

namespace Dietlibc.Random.Arc4

/-- `buf` and `n`, the number of the fills, and the words that have been read, the last one first. -/
structure Pool where
  buf : Fin 256 → UInt32
  n : Nat
  fills : Nat
  taken : List (Nat × Nat)

def Pool.start : Pool := ⟨fun _ => 0, 0, 0, []⟩

section Calls

variable (fresh : Nat → Fin 256 → UInt32)

def arc4randomStir (s : Pool) : Pool :=
  { s with n := 0, buf := fresh (s.fills + 1), fills := s.fills + 1 }

/-- The end of `arc4random`, with the test `++n > 256`. -/
def readWord (s : Pool) : Option (UInt32 × Pool) :=
  if h : s.n < 256 then
    some (s.buf ⟨s.n, h⟩,
      { s with
        n := if s.n + 1 > 256 then 0 else s.n + 1
        taken := (s.fills, s.n) :: s.taken })
  else none

def arc4random (s : Pool) : Option (UInt32 × Pool) :=
  readWord (if s.n = 0 then arc4randomStir fresh s else s)

theorem readWord_n {s s' : Pool} {r : UInt32} (h : readWord s = some (r, s')) :
    s.n < 256 ∧ s'.n = s.n + 1 := by
  unfold readWord at h
  by_cases hn : s.n < 256
  · rw [dif_pos hn] at h
    cases h
    exact ⟨hn, if_neg (by omega)⟩
  · rw [dif_neg hn] at h
    cases h

theorem arc4random_n {s s' : Pool} {r : UInt32} (h : arc4random fresh s = some (r, s')) :
    s.n < 256 ∧ s'.n = s.n + 1 := by
  unfold arc4random at h
  split at h
  · rename_i hn
    have hread := readWord_n h
    rw [hn]
    exact hread
  · exact readWord_n h

/-- The loop of `arc4random_uniform`. -/
def uniformLoop (min : UInt32) (s : Pool) : Option (UInt32 × Pool) :=
  match _h : arc4random fresh s with
  | none => none
  | some (r, s') => if r ≥ min then some (r, s') else uniformLoop min s'
termination_by 256 - s.n
decreasing_by
  have hn := arc4random_n fresh _h
  omega

def arc4randomUniform (upperBound : UInt32) (s : Pool) : Option (UInt32 × Pool) :=
  if upperBound < 2 then some (0, s)
  else (uniformLoop fresh (-upperBound % upperBound) s).map fun r => (r.1 % upperBound, r.2)

inductive Call where
  | arc4random
  | uniform (upperBound : UInt32)
  | stir

def call (s : Pool) : Call → Option Pool
  | .arc4random => (arc4random fresh s).map (·.2)
  | .uniform upperBound => (arc4randomUniform fresh upperBound s).map (·.2)
  | .stir => some (arc4randomStir fresh s)

/-- The pool after a sequence of calls. -/
def calls (s : Pool) (cs : List Call) : Option Pool := cs.foldlM (call fresh) s

/-! ## The words of a fill -/

/-- Word `j` is the first from `i` on that is not below `min`. -/
def Accepted (min : UInt32) (f i : Nat) (j : Fin 256) : Prop :=
  i ≤ j ∧ (∀ k : Fin 256, i ≤ k → k < j → fresh f k < min) ∧ min ≤ fresh f j

/-- The fill that the next word comes from, when `f` fills have been made and `i` words of the last
one have been read. -/
def source (f i : Nat) : Nat := if i = 0 then f + 1 else f

/-- **The words between two stirs are those of one fill**: the calls up to the next stir find their
words among the 256 of a fill. -/
def Served : Nat → Nat → List Call → Prop
  | _, _, [] => True
  | f, i, .arc4random :: cs => i < 256 ∧ Served (source f i) (i + 1) cs
  | f, i, .uniform upperBound :: cs =>
    if upperBound < 2 then Served f i cs
    else ∃ j, Accepted fresh (-upperBound % upperBound) (source f i) i j ∧
      Served (source f i) (j + 1) cs
  | f, _, .stir :: cs => Served (f + 1) 0 cs

end Calls

variable {fresh : Nat → Fin 256 → UInt32}

/-- The words that have been read are different ones, and of the last fill they are the first `n`. -/
structure Pool.Fresh (fresh : Nat → Fin 256 → UInt32) (s : Pool) : Prop where
  buf : s.n ≠ 0 → s.buf = fresh s.fills
  nodup : s.taken.Nodup
  range : ∀ a ∈ s.taken, a.2 < 256
  behind : ∀ a ∈ s.taken, a.1 ≤ s.fills ∧ (a.1 = s.fills → a.2 < s.n)

theorem fresh_start (fresh : Nat → Fin 256 → UInt32) : Pool.start.Fresh fresh :=
  ⟨fun h => absurd rfl h, List.nodup_nil, by simp [Pool.start], by simp [Pool.start]⟩

theorem fresh_stir {s : Pool} (h : s.Fresh fresh) : (arc4randomStir fresh s).Fresh fresh where
  buf hn := absurd rfl hn
  nodup := h.nodup
  range := h.range
  behind a ha := by
    have hle := (h.behind a ha).1
    exact ⟨Nat.le_succ_of_le hle, fun heq => absurd heq (Nat.ne_of_lt (Nat.lt_succ_of_le hle))⟩

/-- The pool with a fill in use. -/
theorem fresh_ready {s : Pool} (h : s.Fresh fresh) :
    ∃ t : Pool, (if s.n = 0 then arc4randomStir fresh s else s) = t ∧ t.Fresh fresh ∧
      t.n = s.n ∧ t.fills = source s.fills s.n ∧ t.buf = fresh t.fills := by
  unfold source
  split
  · rename_i hn
    exact ⟨_, rfl, fresh_stir h, hn.symm, rfl, rfl⟩
  · rename_i hn
    exact ⟨_, rfl, h, rfl, rfl, h.buf hn⟩

/-- What a call of `arc4random` reads: the next word, of a new fill when none is in use. -/
theorem arc4random_eq {s : Pool} (h : s.Fresh fresh) (hn : s.n < 256) :
    ∃ s', arc4random fresh s = some (fresh (source s.fills s.n) ⟨s.n, hn⟩, s') ∧ s'.Fresh fresh ∧
      s'.n = s.n + 1 ∧ s'.fills = source s.fills s.n := by
  obtain ⟨t, ht, hfresh, htn, htf, hbuf⟩ := fresh_ready h
  have hlt : t.n < 256 := htn ▸ hn
  have hnext : (if t.n + 1 > 256 then 0 else t.n + 1) = t.n + 1 := if_neg (by omega)
  unfold arc4random readWord
  rw [ht, dif_pos hlt, hnext]
  refine ⟨{ t with n := t.n + 1, taken := (t.fills, t.n) :: t.taken }, ?_,
    ⟨fun _ => hbuf, ?_, ?_, ?_⟩, congrArg (· + 1) htn, htf⟩
  · simp only [hbuf, htf, htn]
  · exact List.nodup_cons.2 ⟨fun hmem => Nat.lt_irrefl _ ((hfresh.behind _ hmem).2 rfl), hfresh.nodup⟩
  · exact List.forall_mem_cons.2 ⟨hlt, hfresh.range⟩
  · refine List.forall_mem_cons.2 ⟨⟨le_rfl, fun _ => Nat.lt_succ_self _⟩, fun a ha => ?_⟩
    exact ⟨(hfresh.behind a ha).1, fun heq => Nat.lt_succ_of_lt ((hfresh.behind a ha).2 heq)⟩

theorem arc4random_none {s : Pool} (hn : ¬s.n < 256) : arc4random fresh s = none := by
  unfold arc4random
  rw [if_neg (by omega)]
  exact dif_neg hn

/-- The fill in use stays the source of the next words. -/
theorem source_succ (f n : Nat) : source f (n + 1) = f := if_neg (Nat.succ_ne_zero n)

/-- A word that is rejected is not the one accepted. -/
theorem accepted_succ {min : UInt32} {f i : Nat} (hi : i < 256) (hlow : fresh f ⟨i, hi⟩ < min)
    {j : Fin 256} : Accepted fresh min f i j ↔ Accepted fresh min f (i + 1) j := by
  constructor
  · rintro ⟨hle, hlows, hacc⟩
    have hne : i ≠ j := by
      rintro rfl
      exact UInt32.not_le.2 hlow hacc
    exact ⟨Nat.lt_of_le_of_ne hle hne, fun k hk => hlows k (Nat.le_of_succ_le hk), hacc⟩
  · rintro ⟨hle, hlows, hacc⟩
    refine ⟨Nat.le_of_succ_le hle, fun k hk hlt => ?_, hacc⟩
    rcases Nat.eq_or_lt_of_le hk with heq | hgt
    · rwa [show k = ⟨i, hi⟩ from Fin.ext heq.symm]
    · exact hlows k hgt hlt

theorem accepted_unique {min : UInt32} {f i : Nat} {j j' : Fin 256} (h : Accepted fresh min f i j)
    (h' : Accepted fresh min f i j') : j' = j := by
  rcases lt_trichotomy j j' with hlt | heq | hgt
  · exact absurd h.2.2 (UInt32.not_le.2 (h'.2.1 j h.1 hlt))
  · exact heq.symm
  · exact absurd h'.2.2 (UInt32.not_le.2 (h.2.1 j' h'.1 hgt))

/-- **The loop of `arc4random_uniform` ends at the first word that is accepted**, and it has no
result when the rest of the fill has none. -/
theorem uniformLoop_spec (min : UInt32) {s : Pool} (h : s.Fresh fresh) :
    (∀ j, Accepted fresh min (source s.fills s.n) s.n j →
      ∃ r s', uniformLoop fresh min s = some (r, s') ∧ s'.Fresh fresh ∧ s'.n = j + 1 ∧
        s'.fills = source s.fills s.n) ∧
    ((∀ j, ¬Accepted fresh min (source s.fills s.n) s.n j) → uniformLoop fresh min s = none) := by
  induction hk : 256 - s.n generalizing s with
  | zero =>
    have hn : ¬s.n < 256 := by omega
    rw [uniformLoop, arc4random_none hn]
    exact ⟨fun j hj => absurd (Nat.lt_of_le_of_lt hj.1 j.isLt) hn, fun _ => rfl⟩
  | succ k ih =>
    have hn : s.n < 256 := by omega
    obtain ⟨s', hs', hfresh, hn', hf'⟩ := arc4random_eq h hn
    have hrec := ih hfresh (by omega)
    rw [hf', hn', source_succ] at hrec
    rw [uniformLoop, hs']
    dsimp only
    by_cases hmin : min ≤ fresh (source s.fills s.n) ⟨s.n, hn⟩
    · rw [if_pos hmin]
      refine ⟨fun j hj => ⟨_, s', rfl, hfresh, ?_, hf'⟩, fun hnone => absurd ⟨le_rfl, ?_, hmin⟩
        (hnone ⟨s.n, hn⟩)⟩
      · have hle : (j : Nat) ≤ s.n := by
          by_contra hlt
          exact absurd hmin (UInt32.not_le.2 (hj.2.1 ⟨s.n, hn⟩ le_rfl (Nat.lt_of_not_le hlt)))
        rw [hn', Nat.le_antisymm hle hj.1]
      · exact fun k hk hlt => absurd hlt (Nat.not_lt_of_le hk)
    · rw [if_neg hmin]
      simp only [accepted_succ hn (UInt32.not_le.1 hmin)]
      exact hrec

/-! ## Runs -/

theorem call_uniform {upperBound : UInt32} (hub : ¬upperBound < 2) (s : Pool) :
    call fresh s (.uniform upperBound) =
      (uniformLoop fresh (-upperBound % upperBound) s).map (·.2) := by
  simp only [call, arc4randomUniform]
  rw [if_neg hub, Option.map_map]
  rfl

theorem calls_cons (s : Pool) (c : Call) (cs : List Call) :
    calls fresh s (c :: cs) = (call fresh s c).bind fun s => calls fresh s cs := rfl

/-- **A run of calls has a result exactly when it is served**, and then no word is read twice. -/
theorem calls_spec {s : Pool} (h : s.Fresh fresh) (cs : List Call) :
    (Served fresh s.fills s.n cs → ∃ s', calls fresh s cs = some s' ∧ s'.Fresh fresh) ∧
      (¬Served fresh s.fills s.n cs → calls fresh s cs = none) := by
  induction cs generalizing s with
  | nil => exact ⟨fun _ => ⟨s, rfl, h⟩, fun hn => absurd trivial hn⟩
  | cons c cs ih =>
    rw [calls_cons]
    cases c with
    | stir => exact ih (fresh_stir h)
    | arc4random =>
      by_cases hn : s.n < 256
      · obtain ⟨s', hs', hfresh, hn', hf'⟩ := arc4random_eq h hn
        have hrec := ih hfresh
        rw [hn', hf'] at hrec
        simp only [call, hs', Served, hn, true_and]
        exact hrec
      · simp only [call, arc4random_none hn, Served, hn, false_and]
        exact ⟨fun hf => hf.elim, fun _ => rfl⟩
    | uniform upperBound =>
      by_cases hub : upperBound < 2
      · simp only [call, arc4randomUniform, Served, hub, if_true]
        exact ih h
      · have hloop := uniformLoop_spec (-upperBound % upperBound) h
        rw [call_uniform hub]
        simp only [Served, hub, if_false]
        by_cases hacc : ∃ j, Accepted fresh (-upperBound % upperBound) (source s.fills s.n) s.n j
        · obtain ⟨j, hj⟩ := hacc
          obtain ⟨r, s', hs', hfresh, hn', hf'⟩ := hloop.1 j hj
          have hrec := ih hfresh
          rw [hn', hf'] at hrec
          have hserved : (∃ j, Accepted fresh (-upperBound % upperBound) (source s.fills s.n) s.n j ∧
              Served fresh (source s.fills s.n) (j + 1) cs) ↔
              Served fresh (source s.fills s.n) (j + 1) cs :=
            ⟨fun ⟨_, hj', hs⟩ => accepted_unique hj hj' ▸ hs, fun hs => ⟨j, hj, hs⟩⟩
          rw [hs', hserved]
          exact hrec
        · have hnone : ∀ j, ¬Accepted fresh (-upperBound % upperBound) (source s.fills s.n) s.n j :=
            fun j hj => hacc ⟨j, hj⟩
          rw [hloop.2 hnone]
          exact ⟨fun ⟨j, hj, _⟩ => absurd hj (hnone j), fun _ => rfl⟩

/-- **Every access of a run is in the pool and no word of a fill is read twice exactly when the
calls between two stirs take at most the words of one fill.** -/
theorem words_once_iff (fresh : Nat → Fin 256 → UInt32) (cs : List Call) :
    (∃ s, calls fresh .start cs = some s ∧ (∀ a ∈ s.taken, a.2 < 256) ∧ s.taken.Nodup) ↔
      Served fresh 0 0 cs := by
  have hspec := calls_spec (fresh_start fresh) cs
  constructor
  · rintro ⟨s, hs, -⟩
    by_contra hserved
    cases hs.symm.trans (hspec.2 hserved)
  · intro hserved
    obtain ⟨s, hs, hfresh⟩ := hspec.1 hserved
    exact ⟨s, hs, hfresh.range, hfresh.nodup⟩

/-- Calls of `arc4random` alone are served as long as the fill lasts. -/
theorem served_replicate (k f i : Nat) (h : 0 < k) :
    Served fresh f i (List.replicate k .arc4random) ↔ i + k ≤ 256 := by
  induction k generalizing f i with
  | zero => omega
  | succ k ih =>
    rw [List.replicate_succ, Served]
    rcases Nat.eq_zero_or_pos k with rfl | hk
    · exact ⟨fun hs => hs.1, fun hle => ⟨hle, trivial⟩⟩
    · rw [ih _ _ hk]
      omega

/-- Call 257 of `arc4random` reads the word behind the pool. -/
theorem reads_behind : ¬∀ (fresh : Nat → Fin 256 → UInt32) (cs : List Call),
    ∃ s, calls fresh .start cs = some s ∧ (∀ a ∈ s.taken, a.2 < 256) ∧ s.taken.Nodup := by
  intro h
  obtain ⟨s, hs, -⟩ := h (fun _ _ => 0) (List.replicate 257 .arc4random)
  have hserved : ¬Served (fun _ _ => 0) 0 0 (List.replicate 257 .arc4random) := by
    rw [served_replicate 257 0 0 (by decide)]
    decide
  cases hs.symm.trans ((calls_spec (fresh_start _) _).2 hserved)

end Dietlibc.Random.Arc4
