import Dietlibc.Lib.GetoptProgress

/-!
# Clusters of short options

The loop over `getopt` gives one report for each call (`Reports`), with the place of the character
that the call has read. `Complete` says what the reports of a scan are to be: those of each cluster
that the scan comes to, character by character, up to an option that takes an argument.

`getopt_at` says what a call does at a character of a cluster. A character that is not in
`optstring` ends its cluster, whatever stands behind it.
-/

namespace Dietlibc.Lib

/-! ## Reports -/

/-- What a call reports: the place of the character in `argv`, what it returns, and `optarg`. -/
structure Report where
  place : Nat × Nat
  value : Int
  optarg : Option (List UInt8)

/-- The report of a call. Only an option without an argument leaves `optind` at its element, and
`lastofs` is increased for it already. -/
def report (p : Int × Getopt) : Report where
  place := (p.2.lastidx, if p.2.optind = p.2.lastidx then p.2.lastofs else p.2.lastofs + 1)
  value := p.1
  optarg := p.2.optarg

/-- The reports of the loop over `getopt` until it returns `-1`. -/
inductive Reports (a : Args) : Getopt → List Report → Prop where
  | stop {g : Getopt} (h : (getopt a g).1 = -1) : Reports a g []
  | call {g : Getopt} {rs : List Report} (h : (getopt a g).1 ≠ -1)
      (ht : Reports a (getopt a g).2 rs) : Reports a g (report (getopt a g) :: rs)

/-- The scan has not come to a cluster yet. -/
def Fresh (g : Getopt) : Prop := g.optind = 0 ∨ g.optind = 1 ∧ g.lastidx ≠ 1

/-! ## What is to be reported -/

/-- What `optstring` says about a character. -/
inductive OptKind where
  | unknown
  | flag
  | optional
  | required
  deriving DecidableEq

/-- `c:` requires an argument, and `c::` may have one, which is in the same element of `argv`. -/
def optKind (optstring : List UInt8) (c : UInt8) : OptKind :=
  if c ∉ optstring then .unknown
  else if charAt optstring (optstring.idxOf c + 1) ≠ colon then .flag
  else if charAt optstring (optstring.idxOf c + 2) = colon then .optional
  else .required

/-- The element is a cluster of options. -/
def IsCluster (arg : List UInt8) : Prop := noOption arg = false ∧ isEnd arg = false

/-- The reports are those of the characters `cs` of element `i` that start at place `j`, and the
scan goes on at element `next`. -/
inductive ClusterReported (a : Args) (i : Nat) :
    Nat → List UInt8 → List Report → Nat → Prop where
  | done {j : Nat} : ClusterReported a i j [] [] (i + 1)
  | unknown {j next : Nat} {c : UInt8} {cs : List UInt8} {r : Report} {rs : List Report}
      (hk : optKind a.optstring c = .unknown) (hp : r.place = (i, j))
      (hv : r.value = charInt question) (ht : ClusterReported a i (j + 1) cs rs next) :
      ClusterReported a i j (c :: cs) (r :: rs) next
  | flag {j next : Nat} {c : UInt8} {cs : List UInt8} {r : Report} {rs : List Report}
      (hk : optKind a.optstring c = .flag) (hp : r.place = (i, j)) (hv : r.value = charInt c)
      (ht : ClusterReported a i (j + 1) cs rs next) :
      ClusterReported a i j (c :: cs) (r :: rs) next
  | attached {j : Nat} {c : UInt8} {cs : List UInt8} {r : Report}
      (hk : optKind a.optstring c = .optional ∨ optKind a.optstring c = .required)
      (hp : r.place = (i, j)) (hv : r.value = charInt c) (hcs : cs ≠ [])
      (ho : r.optarg = some cs) : ClusterReported a i j (c :: cs) [r] (i + 1)
  | without {j : Nat} {c : UInt8} {r : Report} (hk : optKind a.optstring c = .optional)
      (hp : r.place = (i, j)) (hv : r.value = charInt c) (ho : r.optarg = none) :
      ClusterReported a i j [c] [r] (i + 1)
  | separate {j : Nat} {c : UInt8} {r : Report} {arg : List UInt8}
      (hk : optKind a.optstring c = .required) (hp : r.place = (i, j))
      (hv : r.value = charInt c) (hn : a.argv[i + 1]? = some arg) (ho : r.optarg = some arg) :
      ClusterReported a i j [c] [r] (i + 2)

/-- The reports are those of the clusters from element `i` on. -/
inductive Complete (a : Args) : Nat → List Report → Prop where
  | stop {i : Nat} (h : ∀ arg, a.argv[i]? = some arg → ¬ IsCluster arg) : Complete a i []
  | cluster {i next : Nat} {arg : List UInt8} {rs rs' : List Report}
      (harg : a.argv[i]? = some arg) (hc : IsCluster arg)
      (hr : ClusterReported a i 1 (arg.drop 1) rs next) (ht : Complete a next rs') :
      Complete a i (rs ++ rs')

/-- Running `getopt` until `-1` reports the clusters completely. -/
def ClustersReported (a : Args) (g : Getopt) : Prop := ∃ rs, Reports a g rs ∧ Complete a 1 rs

/-! ## Where this is met -/

/-- The element that follows a cluster with the characters `cs` in element `i`, and the argument
of its last option. -/
def clusterNext (a : Args) (i : Nat) : List UInt8 → Nat
  | [] => i + 1
  | c :: cs =>
    match optKind a.optstring c with
    | .unknown | .flag => clusterNext a i cs
    | .optional => i + 1
    | .required => if cs = [] then i + 2 else i + 1

/-- The elements that the scan comes to from element `i`. -/
inductive Comes (a : Args) : Nat → Nat → Prop where
  | here {i : Nat} : Comes a i i
  | next {i k : Nat} {arg : List UInt8} (harg : a.argv[i]? = some arg) (hc : IsCluster arg)
      (ht : Comes a (clusterNext a i (arg.drop 1)) k) : Comes a i k

/-- Up to an option that takes an argument, only the last character may be unknown, and none that
is an option is `'\377'`, which as an `int` is `-1`. The argument that the option requires is
there. -/
def ClusterMet (a : Args) (i : Nat) : List UInt8 → Prop
  | [] => True
  | c :: cs =>
    match optKind a.optstring c with
    | .unknown => cs = []
    | .flag => c ≠ 255 ∧ ClusterMet a i cs
    | .optional => c ≠ 255
    | .required => c ≠ 255 ∧ (cs = [] → i + 1 < a.argv.length)

/-! ## A call at a character -/

variable {a : Args} {g g' : Getopt} {arg cs : List UInt8} {c : UInt8} {i j k n next : Nat}
  {r : Report} {rs rs' : List Report}

/-- The scan is at place `j` of the cluster in element `i`. -/
structure At (a : Args) (i j : Nat) (arg : List UInt8) (g : Getopt) : Prop where
  optind : g.optind = i
  pos : 0 < i
  element : a.argv[i]? = some arg
  cluster : IsCluster arg
  place : offset g + 1 = j

/-- The scan comes to element `n`. -/
structure Starts (n : Nat) (g : Getopt) : Prop where
  optind : g.optind = n
  fresh : g.lastidx ≠ n
  pos : 0 < n

/-- A call at place `j` of element `i` that returns `v` and leaves the cluster for element `n`. -/
structure Leaves (i j n : Nat) (v : Int) (p : Int × Getopt) : Prop where
  value : p.1 = v
  starts : Starts n p.2
  place : (report p).place = (i, j)

/-- The end of a call at the character `c` in place `j` of element `i`, in front of `cs`. -/
def CharEnd (a : Args) (i j : Nat) (c : UInt8) (cs : List UInt8) (p : Int × Getopt) : Prop :=
  match optKind a.optstring c with
  | .unknown => Leaves i j (i + 1) (charInt question) p
  | .flag => p.1 = charInt c ∧ p.2.optind = i ∧ p.2.lastidx = i ∧ p.2.lastofs = j
  | .optional =>
    Leaves i j (i + 1) (charInt c) p ∧ p.2.optarg = if cs = [] then none else some cs
  | .required =>
    if cs = [] then
      match a.argv[i + 1]? with
      | none => Leaves i j (i + 1) (charInt colon) p
      | some next => Leaves i j (i + 2) (charInt c) p ∧ p.2.optarg = some next
    else Leaves i j (i + 1) (charInt c) p ∧ p.2.optarg = some cs

@[simp] theorem getopterror_lastofs (which : Bool) (g : Getopt) :
    (getopterror a which g).lastofs = g.lastofs := by
  unfold getopterror
  split <;> rfl

theorem charAt_of_drop (h : arg.drop j = c :: cs) : charAt arg j = c := by
  have hj : arg[j]? = some c := by
    rw [← List.head?_drop, h]
    rfl
  rw [charAt, List.getD_eq_getElem?_getD, hj]
  rfl

theorem charAt_of_drop_nil (h : arg.drop j = []) : charAt arg j = 0 := by
  rw [charAt, List.getD_eq_getElem?_getD, List.getElem?_eq_none (List.drop_eq_nil_iff.mp h)]
  rfl

theorem drop_succ (h : arg.drop j = c :: cs) : arg.drop (j + 1) = cs := by
  rw [← List.tail_drop, h]
  rfl

/-- There is a character behind `c` exactly if the next one is not the NUL. -/
theorem charAt_succ_ne (h0 : 0 ∉ arg) (h : arg.drop j = c :: cs) :
    charAt arg (j + 1) ≠ 0 ↔ cs ≠ [] := by
  have hdrop := drop_succ h
  cases cs with
  | nil => simp [charAt_of_drop_nil hdrop]
  | cons d ds =>
    have hd : d ∈ arg := List.mem_of_mem_drop (hdrop ▸ List.mem_cons_self)
    rw [charAt_of_drop hdrop]
    exact ⟨fun _ => List.cons_ne_nil d ds, fun _ hz => h0 (hz ▸ hd)⟩

theorem leaves_of {v : Int} (hn : g.optind = n) (hl : g.lastidx = i) (hj : g.lastofs + 1 = j)
    (hlt : i < n) : Leaves i j n v (v, g) := by
  refine ⟨rfl, ⟨hn, hl.trans_ne hlt.ne, by omega⟩, ?_⟩
  rw [report]
  dsimp only
  rw [hl, hn, if_neg (by omega), hj]

/-- An option that expects an argument. -/
theorem shortArg_end (h0 : 0 ∉ arg) (hdrop : arg.drop j = c :: cs) (hi : g.optind = i)
    (hl : g.lastidx = i) (hj : g.lastofs + 1 = j) (hc : g.optopt = charInt c)
    (hmem : c ∈ a.optstring)
    (hcolon : charAt a.optstring (a.optstring.idxOf c + 1) = colon) :
    CharEnd a i j c cs (shortArg a arg (a.optstring.idxOf c) g) := by
  have hrest : arg.drop (g.lastofs + 2) = cs := by
    rw [← drop_succ hdrop, ← hj]
  have hchar : charAt arg (g.lastofs + 2) ≠ 0 ↔ cs ≠ [] := by
    rw [← charAt_succ_ne h0 hdrop, ← hj]
  have hi1 : g.optind + 1 = i + 1 := congrArg (· + 1) hi
  unfold shortArg
  by_cases hopt : charAt a.optstring (a.optstring.idxOf c + 2) = colon
  · have hk : optKind a.optstring c = .optional := by
      rw [optKind, if_neg (not_not.mpr hmem), if_neg (not_not.mpr hcolon), if_pos hopt]
    rw [CharEnd, hk, if_pos (.inl hopt)]
    dsimp only
    rw [hrest, hc]
    exact ⟨leaves_of hi1 hl hj (Nat.lt_succ_self i), rfl⟩
  · have hk : optKind a.optstring c = .required := by
      rw [optKind, if_neg (not_not.mpr hmem), if_neg (not_not.mpr hcolon), if_neg hopt]
    rw [CharEnd, hk]
    by_cases hcs : cs = []
    · rw [if_neg (not_or.mpr ⟨hopt, fun h => hchar.mp h hcs⟩), hi]
      dsimp only
      rw [if_pos hcs]
      cases hn : a.argv[i + 1]? with
      | none =>
        dsimp only
        refine leaves_of ?_ ?_ ?_ (Nat.lt_succ_self i)
        · split <;> simp
        · split <;> simpa using hl
        · split <;> simpa using hj
      | some next =>
        dsimp only
        rw [hc]
        exact ⟨leaves_of rfl hl hj (by omega), rfl⟩
    · rw [if_pos (.inr (hchar.mpr hcs))]
      dsimp only
      rw [hrest, hc, if_neg hcs]
      exact ⟨leaves_of hi1 hl hj (Nat.lt_succ_self i), if_neg hcs⟩

theorem getoptPass_at (h : At a i j arg g) : getoptPass a g = shortopt a arg g := by
  unfold getoptPass
  rw [h.optind, h.element]
  dsimp only
  rw [h.cluster.1, h.cluster.2, if_neg Bool.false_ne_true, if_neg Bool.false_ne_true]

/-- **What a call does at a character** of a cluster. -/
theorem getopt_at (h : At a i j arg g) (h0 : 0 ∉ arg) (hdrop : arg.drop j = c :: cs) :
    CharEnd a i j c cs (getopt a g) := by
  have hpass := getoptPass_at h
  have hl : g.enter.lastidx = i := (enter_lastidx g).trans h.optind
  have hj : g.enter.lastofs + 1 = j := by rw [enter_lastofs, h.place]
  have hne : c ≠ 0 := fun hc => h0 (hc ▸ List.mem_of_mem_drop (hdrop ▸ List.mem_cons_self))
  have hpos : g.optind ≠ 0 := by have := h.pos; have := h.optind; omega
  unfold shortopt at hpass
  dsimp only at hpass
  rw [hj, charAt_of_drop hdrop, if_neg hne] at hpass
  by_cases hmem : c ∈ a.optstring
  · rw [if_pos hmem] at hpass
    by_cases hcolon : charAt a.optstring (a.optstring.idxOf c + 1) = colon
    · rw [if_pos hcolon] at hpass
      rw [getopt, call_of_pass hpos hpass]
      refine shortArg_end h0 hdrop ?_ hl hj rfl hmem hcolon
      exact (enter_optind g).trans h.optind
    · rw [if_neg hcolon] at hpass
      rw [getopt, call_of_pass hpos hpass]
      have hk : optKind a.optstring c = .flag := by
        rw [optKind, if_neg (not_not.mpr hmem), if_pos hcolon]
      rw [CharEnd, hk]
      exact ⟨rfl, (enter_optind g).trans h.optind, hl, rfl⟩
  · rw [if_neg hmem] at hpass
    rw [getopt, call_of_pass hpos hpass]
    have hk : optKind a.optstring c = .unknown := if_pos hmem
    rw [CharEnd, hk]
    refine leaves_of ?_ ?_ ?_ (Nat.lt_succ_self i)
    · simp [h.optind]
    · simpa using hl
    · simpa using hj

/-! ## From one element to the next -/

theorem Starts.at (h : Starts n g) (harg : a.argv[n]? = some arg) (hc : IsCluster arg) :
    At a n 1 arg g := by
  refine ⟨h.optind, h.pos, harg, hc, ?_⟩
  rw [offset, h.optind, if_neg h.fresh]

/-- More passes than there are elements make no difference. -/
theorem passes_succ (h : a.argv.length < n + g.optind) :
    passes (getoptPass a) (n + 1) g = passes (getoptPass a) n g := by
  induction n generalizing g with
  | zero =>
    have hp : getoptPass a g = (some (-1), g) := by
      unfold getoptPass
      rw [List.getElem?_eq_none (by omega)]
    rw [passes, passes, hp]
  | succ n ih =>
    have hp := getoptPass_end (a := a) g
    rw [passes, passes]
    generalize getoptPass a g = p at hp
    cases hp with
    | stop g' => rfl
    | moved r g' hlt hle hlast => rfl
    | inside r g' arg harg hidx hofs hlen hlast => rfl
    | stuck g' hs => exact hs.elim
    | again g' hlt hnext hlast => exact ih (by omega)

/-- `goto again` is a call from the next element. -/
theorem getopt_again (hpos : g.optind ≠ 0) (h : getoptPass a g = (none, g'))
    (hnext : g'.optind = g.optind + 1) : getopt a g = getopt a g' := by
  rw [getopt, getopt, call, call, if_neg hpos, if_neg (by omega), passes, h]
  exact (passes_succ (by omega)).symm

/-- At its end a cluster is left for the next element within the same call. -/
theorem getopt_end (h : At a i j arg g) (hdrop : arg.drop j = []) :
    ∃ g', getopt a g = getopt a g' ∧ Starts (i + 1) g' := by
  have hpass := getoptPass_at h
  have hj : g.enter.lastofs + 1 = j := by rw [enter_lastofs, h.place]
  have hl : g.enter.lastidx = i := (enter_lastidx g).trans h.optind
  have hpos : g.optind ≠ 0 := by have := h.pos; have := h.optind; omega
  unfold shortopt at hpass
  dsimp only at hpass
  rw [hj, charAt_of_drop_nil hdrop, if_pos rfl] at hpass
  exact ⟨_, getopt_again hpos hpass (by rw [enter_optind]), by simp [h.optind], by simp [hl],
    Nat.succ_pos i⟩

/-- An element that is no cluster ends the scan. -/
theorem getopt_stop (h : Starts n g) (harg : ∀ arg, a.argv[n]? = some arg → ¬ IsCluster arg) :
    (getopt a g).1 = -1 := by
  have hpos : g.optind ≠ 0 := by have := h.pos; have := h.optind; omega
  have hpass : ∃ g', getoptPass a g = (some (-1), g') := by
    unfold getoptPass
    rw [h.optind]
    cases hn : a.argv[n]? with
    | none => exact ⟨_, rfl⟩
    | some arg =>
      have hc := harg arg hn
      by_cases hno : noOption arg = true
      · exact ⟨_, if_pos hno⟩
      · by_cases hend : isEnd arg = true
        · exact ⟨_, (if_neg hno).trans (if_pos hend)⟩
        · exact absurd ⟨by simpa using hno, by simpa using hend⟩ hc
  obtain ⟨g', hpass⟩ := hpass
  rw [getopt, call_of_pass hpos hpass]

theorem shortopt_lastidx : (shortopt a arg g).2.lastidx = g.optind := by
  unfold shortopt
  dsimp only
  split
  · exact enter_lastidx g
  · split
    · split
      · exact shortArg_lastidx.trans (enter_lastidx g)
      · exact enter_lastidx g
    · rw [getopterror_lastidx]
      exact enter_lastidx g

theorem getoptPass_lastidx {v : Int} (h : getoptPass a g = (some v, g')) (hv : v ≠ -1) :
    g'.lastidx = g.optind := by
  unfold getoptPass at h
  split at h
  · exact absurd (Option.some.inj (congrArg Prod.fst h)).symm hv
  · split at h
    · exact absurd (Option.some.inj (congrArg Prod.fst h)).symm hv
    · split at h
      · exact absurd (Option.some.inj (congrArg Prod.fst h)).symm hv
      · rw [← shortopt_lastidx (a := a), h]

/-- What a call reports is in the elements from `optind` on. -/
theorem lastidx_ge (h : (passes (getoptPass a) n g).1 ≠ -1) :
    g.optind ≤ (passes (getoptPass a) n g).2.lastidx := by
  induction n generalizing g with
  | zero => exact absurd rfl h
  | succ n ih =>
    have hp := getoptPass_end (a := a) g
    rw [passes] at h ⊢
    cases hpass : getoptPass a g with
    | mk v g' =>
      rw [hpass] at h hp
      cases v with
      | some v => exact (getoptPass_lastidx hpass h).ge
      | none =>
        cases hp with
        | again _ hlt hnext hlast =>
          dsimp only at h ⊢
          have hge := ih h
          omega

theorem place_ge (h : Starts n g) (hr : (getopt a g).1 ≠ -1) : n ≤ (report (getopt a g)).place.1 := by
  have hpos := h.pos
  have hi := h.optind
  have hge := lastidx_ge (a := a) (n := a.argv.length + 1) (g := g)
  rw [getopt, call, if_neg (by omega)] at hr ⊢
  exact hi ▸ hge hr

/-! ## Runs -/

/-- The loop over `getopt` comes to its end. -/
theorem reports_exist (a : Args) (g : Getopt) : ∃ rs, Reports a g rs := by
  obtain ⟨n, hn⟩ := (getopt_progress a g).2
  induction n generalizing g with
  | zero => exact absurd hn (Option.some_ne_none g)
  | succ n ih =>
    rw [loopState_succ] at hn
    by_cases hstop : (getopt a g).1 = -1
    · exact ⟨[], .stop hstop⟩
    · rw [if_neg hstop] at hn
      obtain ⟨rs, hrs⟩ := ih _ hn
      exact ⟨_, .call hstop hrs⟩

theorem reports_congr (h : getopt a g = getopt a g') : Reports a g rs ↔ Reports a g' rs := by
  constructor
  · rintro (hs | ⟨hs, ht⟩)
    · exact .stop (h ▸ hs)
    · rw [h] at hs ht ⊢
      exact .call hs ht
  · rintro (hs | ⟨hs, ht⟩)
    · exact .stop (h ▸ hs)
    · rw [← h] at hs ht ⊢
      exact .call hs ht

theorem charInt_ne (c : UInt8) : charInt c ≠ -1 ↔ c ≠ 255 := by
  rw [charInt, ← UInt8.toNat_inj.ne]
  have := c.toNat_lt
  split <;> simp <;> omega

theorem Reports.uncons (h : Reports a g (r :: rs)) :
    (getopt a g).1 ≠ -1 ∧ r = report (getopt a g) ∧ Reports a (getopt a g).2 rs := by
  cases h with
  | call h ht => exact ⟨h, rfl, ht⟩

/-- The scan goes on in the cluster behind an option without an argument. -/
theorem At.succ (h : At a i j arg g) (hi : g'.optind = i) (hl : g'.lastidx = i)
    (hj : g'.lastofs = j) : At a i (j + 1) arg g' := by
  refine ⟨hi, h.pos, h.element, h.cluster, ?_⟩
  rw [offset, if_pos (hl.trans hi.symm), hj]

theorem clusterReported_next (h : ClusterReported a i j cs rs next) :
    next = clusterNext a i cs := by
  induction h with
  | done => rfl
  | unknown hk _ _ _ ih => rw [clusterNext, hk, ih]
  | flag hk _ _ _ ih => rw [clusterNext, hk, ih]
  | attached hk _ _ hcs =>
    rcases hk with hk | hk
    · rw [clusterNext, hk]
    · rw [clusterNext, hk]
      exact (if_neg hcs).symm
  | without hk => rw [clusterNext, hk]
  | separate hk => rw [clusterNext, hk]; rfl

theorem clusterReported_head (h : ClusterReported a i j cs rs next) (hcs : cs ≠ []) :
    ∃ r rs', rs = r :: rs' ∧ r.place = (i, j) := by
  cases h with
  | done => exact absurd rfl hcs
  | unknown _ hp => exact ⟨_, _, rfl, hp⟩
  | flag _ hp => exact ⟨_, _, rfl, hp⟩
  | attached _ hp => exact ⟨_, _, rfl, hp⟩
  | without _ hp => exact ⟨_, _, rfl, hp⟩
  | separate _ hp => exact ⟨_, _, rfl, hp⟩

/-- A cluster whose reports are not cut off is one that meets the condition. -/
theorem met_of_reported (h0 : 0 ∉ arg) (hr : ClusterReported a i j cs rs next) :
    ∀ g, At a i j arg g → arg.drop j = cs → Reports a g (rs ++ rs') →
      ClusterMet a i cs ∧ ∃ g', Starts next g' ∧ Reports a g' rs' := by
  induction hr with
  | done =>
    intro g hat hdrop hrs
    obtain ⟨g', hg', hstarts⟩ := getopt_end hat hdrop
    exact ⟨trivial, g', hstarts, (reports_congr hg').mp hrs⟩
  | @unknown j next c cs r rs hk hp hv ht ih =>
    intro g hat hdrop hrs
    obtain ⟨hne, hr, hrest⟩ := hrs.uncons
    have hend := getopt_at hat h0 hdrop
    rw [CharEnd, hk] at hend
    -- the rest of the cluster is skipped, so that the next report is from behind it
    have hcs : cs = [] := by
      by_contra hcs
      obtain ⟨r', rs'', hrs', hplace⟩ := clusterReported_head ht hcs
      rw [hrs'] at hrest
      obtain ⟨hne', hr', -⟩ := hrest.uncons
      have hge := place_ge hend.starts hne'
      rw [← hr', hplace] at hge
      omega
    subst hcs
    cases ht
    rw [ClusterMet, hk]
    exact ⟨rfl, _, hend.starts, hrest⟩
  | @flag j next c cs r rs hk hp hv ht ih =>
    intro g hat hdrop hrs
    obtain ⟨hne, hr, hrest⟩ := hrs.uncons
    have hend := getopt_at hat h0 hdrop
    rw [CharEnd, hk] at hend
    obtain ⟨hval, hi, hl, hj⟩ := hend
    obtain ⟨hmet, hg'⟩ := ih _ (hat.succ hi hl hj) (drop_succ hdrop) hrest
    rw [hval, charInt_ne] at hne
    rw [ClusterMet, hk]
    exact ⟨⟨hne, hmet⟩, hg'⟩
  | @attached j c cs r hk hp hv hcs ho =>
    intro g hat hdrop hrs
    obtain ⟨hne, hr, hrest⟩ := hrs.uncons
    have hend := getopt_at hat h0 hdrop
    rcases hk with hk | hk
    · rw [CharEnd, hk] at hend
      rw [hend.1.value, charInt_ne] at hne
      rw [ClusterMet, hk]
      exact ⟨hne, _, hend.1.starts, hrest⟩
    · rw [CharEnd, hk] at hend
      dsimp only at hend
      rw [if_neg hcs] at hend
      rw [hend.1.value, charInt_ne] at hne
      rw [ClusterMet, hk]
      exact ⟨⟨hne, fun h => absurd h hcs⟩, _, hend.1.starts, hrest⟩
  | @without j c r hk hp hv ho =>
    intro g hat hdrop hrs
    obtain ⟨hne, hr, hrest⟩ := hrs.uncons
    have hend := getopt_at hat h0 hdrop
    rw [CharEnd, hk] at hend
    rw [hend.1.value, charInt_ne] at hne
    rw [ClusterMet, hk]
    exact ⟨hne, _, hend.1.starts, hrest⟩
  | @separate j c r next hk hp hv hn ho =>
    intro g hat hdrop hrs
    obtain ⟨hne, hr, hrest⟩ := hrs.uncons
    have hend := getopt_at hat h0 hdrop
    rw [CharEnd, hk] at hend
    dsimp only at hend
    rw [if_pos rfl, hn] at hend
    rw [hend.1.value, charInt_ne] at hne
    rw [ClusterMet, hk]
    exact ⟨⟨hne, fun _ => lt_of_getElem? hn⟩, _, hend.1.starts, hrest⟩

theorem Reports.cons_of (h : Reports a g rs) (hne : (getopt a g).1 ≠ -1) :
    ∃ rs', rs = report (getopt a g) :: rs' ∧ Reports a (getopt a g).2 rs' := by
  cases h with
  | stop h => exact absurd h hne
  | call _ ht => exact ⟨_, rfl, ht⟩

/-- **A cluster that meets the condition** is reported completely. -/
theorem reported_of_met (h0 : 0 ∉ arg) (hat : At a i j arg g) (hdrop : arg.drop j = cs)
    (hmet : ClusterMet a i cs) (hrs : Reports a g rs) :
    ∃ rs₁ rs₂ g', rs = rs₁ ++ rs₂ ∧ ClusterReported a i j cs rs₁ (clusterNext a i cs) ∧
      Starts (clusterNext a i cs) g' ∧ Reports a g' rs₂ := by
  induction cs generalizing j g rs with
  | nil =>
    obtain ⟨g', hg', hstarts⟩ := getopt_end hat hdrop
    exact ⟨[], rs, g', rfl, .done, hstarts, (reports_congr hg').mp hrs⟩
  | cons c cs ih =>
    have hend := getopt_at hat h0 hdrop
    cases hk : optKind a.optstring c with
    | unknown =>
      rw [CharEnd, hk] at hend
      rw [ClusterMet, hk] at hmet
      rw [clusterNext, hk]
      subst hmet
      obtain ⟨rs', rfl, hrs'⟩ := hrs.cons_of (by rw [hend.value]; decide)
      exact ⟨[_], rs', _, rfl, .unknown hk hend.place hend.value .done, hend.starts, hrs'⟩
    | flag =>
      rw [CharEnd, hk] at hend
      rw [ClusterMet, hk] at hmet
      rw [clusterNext, hk]
      obtain ⟨hval, hi, hl, hj⟩ := hend
      obtain ⟨rs', rfl, hrs'⟩ := hrs.cons_of (by rw [hval]; exact (charInt_ne c).mpr hmet.1)
      have hplace : (report (getopt a g)).place = (i, j) := by
        rw [report]
        dsimp only
        rw [if_pos (hi.trans hl.symm), hl, hj]
      obtain ⟨rs₁, rs₂, g', rfl, hr, hg', hrs₂⟩ :=
        ih (hat.succ hi hl hj) (drop_succ hdrop) hmet.2 hrs'
      exact ⟨_ :: rs₁, rs₂, g', rfl, .flag hk hplace hval hr, hg', hrs₂⟩
    | optional =>
      rw [CharEnd, hk] at hend
      rw [ClusterMet, hk] at hmet
      rw [clusterNext, hk]
      obtain ⟨hend, ho⟩ := hend
      obtain ⟨rs', rfl, hrs'⟩ := hrs.cons_of (by rw [hend.value]; exact (charInt_ne c).mpr hmet)
      refine ⟨[_], rs', _, rfl, ?_, hend.starts, hrs'⟩
      by_cases hcs : cs = []
      · subst hcs
        exact .without hk hend.place hend.value ho
      · rw [if_neg hcs] at ho
        exact .attached (.inl hk) hend.place hend.value hcs ho
    | required =>
      rw [CharEnd, hk] at hend
      rw [ClusterMet, hk] at hmet
      rw [clusterNext, hk]
      dsimp only at hend ⊢
      by_cases hcs : cs = []
      · subst hcs
        have hn := List.getElem?_eq_getElem (hmet.2 rfl)
        rw [if_pos rfl, hn] at hend
        obtain ⟨hend, ho⟩ := hend
        obtain ⟨rs', rfl, hrs'⟩ :=
          hrs.cons_of (by rw [hend.value]; exact (charInt_ne c).mpr hmet.1)
        exact ⟨[_], rs', _, rfl, .separate hk hend.place hend.value hn ho, hend.starts, hrs'⟩
      · rw [if_neg hcs] at hend
        obtain ⟨hend, ho⟩ := hend
        obtain ⟨rs', rfl, hrs'⟩ :=
          hrs.cons_of (by rw [hend.value]; exact (charInt_ne c).mpr hmet.1)
        rw [if_neg hcs]
        exact ⟨[_], rs', _, rfl, .attached (.inr hk) hend.place hend.value hcs ho, hend.starts,
          hrs'⟩

theorem clusterNext_gt (a : Args) (i : Nat) (cs : List UInt8) : i < clusterNext a i cs := by
  fun_induction clusterNext a i cs <;> omega

/-- **The reports of a scan are complete** exactly if each cluster that it comes to meets the
condition. -/
theorem complete_iff (h0 : ∀ arg ∈ a.argv, 0 ∉ arg) (hstarts : Starts i g)
    (hrs : Reports a g rs) :
    Complete a i rs ↔ ∀ k arg, Comes a i k → a.argv[k]? = some arg → IsCluster arg →
      ClusterMet a k (arg.drop 1) := by
  constructor
  · intro hc
    induction hc generalizing g with
    | stop hno =>
      intro k arg hk harg hc
      cases hk with
      | here => exact absurd hc (hno arg harg)
      | next harg' hc' => exact absurd hc' (hno _ harg')
    | cluster harg hc hr ht ih =>
      obtain ⟨hmet, g', hg', hrs'⟩ := met_of_reported (h0 _ (List.mem_of_getElem? harg)) hr g
        (hstarts.at harg hc) rfl hrs
      intro k arg' hk harg' hc'
      cases hk with
      | here =>
        cases harg.symm.trans harg'
        exact hmet
      | next harg₁ _ hk =>
        cases harg.symm.trans harg₁
        rw [← clusterReported_next hr] at hk
        exact ih hg' hrs' k arg' hk harg' hc'
  · intro h
    induction hm : a.argv.length + 1 - i using Nat.strong_induction_on generalizing i g rs with
    | _ m ih =>
      by_cases hstop : ∀ arg, a.argv[i]? = some arg → ¬ IsCluster arg
      · have hend := getopt_stop hstarts hstop
        cases hrs with
        | stop => exact .stop hstop
        | call hne => exact absurd hend hne
      · push Not at hstop
        obtain ⟨arg, harg, hc⟩ := hstop
        have hlt := lt_of_getElem? harg
        have hgt := clusterNext_gt a i (arg.drop 1)
        obtain ⟨rs₁, rs₂, g', rfl, hr, hg', hrs₂⟩ := reported_of_met
          (h0 _ (List.mem_of_getElem? harg)) (hstarts.at harg hc) rfl (h i arg .here harg hc) hrs
        exact .cluster harg hc hr (ih _ (by omega) hg' hrs₂
          (fun k arg' hk => h k arg' (.next harg hc hk)) rfl)

/-! ## Whole runs -/

theorem reports_started (h : Fresh g) :
    ∃ g', Starts 1 g' ∧ ∀ rs, Reports a g rs ↔ Reports a g' rs := by
  rcases h with h | ⟨h, hl⟩
  · refine ⟨{ g with optind := 1, lastidx := 0 }, ⟨rfl, by simp, Nat.one_pos⟩, fun rs => ?_⟩
    refine reports_congr ?_
    rw [getopt, getopt, call, call, if_pos h, if_neg (by simp)]
  · exact ⟨g, ⟨h, hl, Nat.one_pos⟩, fun rs => Iff.rfl⟩

/-- **Clusters are reported completely** by a run until `-1` exactly if each cluster that it comes
to has nothing behind an unknown character, no option that lacks its argument and none that is
`'\377'`. -/
theorem clusters_reported_iff (a : Args) (g : Getopt) (h0 : ∀ arg ∈ a.argv, 0 ∉ arg)
    (hg : Fresh g) :
    ClustersReported a g ↔ ∀ i arg, Comes a 1 i → a.argv[i]? = some arg → IsCluster arg →
      ClusterMet a i (arg.drop 1) := by
  obtain ⟨g', hstarts, hreports⟩ := reports_started (a := a) hg
  constructor
  · rintro ⟨rs, hrs, hc⟩
    exact (complete_iff h0 hstarts ((hreports rs).mp hrs)).mp hc
  · intro h
    obtain ⟨rs, hrs⟩ := reports_exist a g'
    exact ⟨rs, (hreports rs).mpr hrs, (complete_iff h0 hstarts hrs).mpr h⟩

/-- `tar -xvf a -- -b` -/
def tarArgs : Args where
  argv := [text "tar", text "-xvf", text "a", text "--", text "-b"]
  optstring := text "xvf:"
  longopts := []
  opterr := true

theorem clusters_reported_tar : ClustersReported tarArgs initialGetopt := by
  refine (clusters_reported_iff tarArgs initialGetopt (by decide) (.inr (by decide))).mpr ?_
  intro i arg hi harg hc
  cases hi with
  | here =>
    cases harg
    exact ⟨by decide, by decide, by decide, by decide⟩
  | next harg' hc' hi =>
    cases harg'
    cases hi with
    | here =>
      cases harg
      exact absurd hc.2 (by decide)
    | next harg' hc' =>
      cases harg'
      exact absurd hc'.2 (by decide)

/-- `p -xa` with the option `a` -/
def skipArgs : Args where
  argv := [text "p", text "-xa"]
  optstring := text "a"
  longopts := []
  opterr := false

/-- Behind the unknown `x` the option `a` is skipped: the next call returns `-1`. -/
theorem clusters_skip :
    (getopt skipArgs initialGetopt).1 = charInt question ∧
      (getopt skipArgs (getopt skipArgs initialGetopt).2).1 = -1 ∧
      ¬ ClustersReported skipArgs initialGetopt := by
  refine ⟨by decide, by decide, ?_⟩
  rintro ⟨rs, hrs, hc⟩
  have hmet := (complete_iff (by decide) ⟨rfl, by decide, Nat.one_pos⟩ hrs).mp hc 1 _ .here rfl
    ⟨by decide, by decide⟩
  have hcs : text "a" = [] := hmet
  exact absurd hcs (by decide)

end Dietlibc.Lib
