import Dietlibc.Base.Exchange
import Dietlibc.Sort.Qsort

/-!
# The partition of `quicksort`

What one pass does: no access is outside the array, the elements are rearranged, and on either side of
the elements found equal to the pivot are those found not to be on the other side. `Below` and `Above`
are what an answer of the comparator tells; only `Compatible` is asked of it.
-/

namespace Dietlibc.Sort

open Exchange

variable {σ : Type} {o : Oracle σ} {n size : Nat} {m m' : Mem} {s : σ} {l r i j a b e f q : Nat}
  {A B : Nat → List UInt8}

/-! ## `exch` -/

theorem exchLoop_apply {x y : Nat} (h : x = y ∨ x + e ≤ y ∨ y + e ≤ x) (m : Mem) (t : Nat) :
    exchLoop e x y m t =
      if x ≤ t ∧ t < x + e then m (y + (t - x))
      else if y ≤ t ∧ t < y + e then m (x + (t - y)) else m t := by
  induction e generalizing x y m with
  | zero =>
    rw [exchLoop, if_neg (by omega), if_neg (by omega)]
  | succ e ih =>
    rw [exchLoop, ih (by omega)]
    simp only [Function.update_apply]
    split_ifs
    all_goals first | rfl | (congr 1; omega)

theorem block_apart (size : Nat) (h : a ≠ b) :
    a * size + size ≤ b * size ∨ b * size + size ≤ a * size := by
  rcases Nat.lt_or_gt_of_ne h with hlt | hlt
  · refine .inl ?_
    rw [← Nat.succ_mul]
    exact Nat.mul_le_mul_right size hlt
  · refine .inr ?_
    rw [← Nat.succ_mul]
    exact Nat.mul_le_mul_right size hlt

/-- The bytes of two elements are exchanged, and so are the elements. -/
theorem elem_exchLoop (a b : Nat) (m : Mem) :
    elem size (exchLoop size (a * size) (b * size) m) = elem size m ∘ Equiv.swap a b := by
  have hab : a * size = b * size ∨ a * size + size ≤ b * size ∨ b * size + size ≤ a * size := by
    rcases eq_or_ne a b with rfl | hne
    · exact .inl rfl
    · exact .inr (block_apart size hne)
  funext k
  unfold elem Mem.load
  refine List.map_congr_left fun t ht => ?_
  have ht := List.mem_range.mp ht
  rw [exchLoop_apply hab]
  rcases eq_or_ne k a with rfl | hka
  · rw [if_pos (by omega), Equiv.swap_apply_left]
    congr 1
    omega
  · have hapart := block_apart size hka
    rw [if_neg (by omega)]
    rcases eq_or_ne k b with rfl | hkb
    · rw [if_pos (by omega), Equiv.swap_apply_right]
      congr 1
      omega
    · have hapart := block_apart size hkb
      rw [if_neg (by omega), Equiv.swap_apply_of_ne_of_ne hka hkb]

theorem exch_spec (size : Nat) (ha : a < n) (hb : b < n) (m : Mem) :
    ∃ m', exch n size a b m = .ok m' ∧ elem size m' = elem size m ∘ Equiv.swap a b ∧
      ∀ t, n * size ≤ t → m' t = m t := by
  refine ⟨_, if_pos ⟨⟨Int.natCast_nonneg a, by omega⟩, ⟨Int.natCast_nonneg b, by omega⟩⟩,
    elem_exchLoop a b m, fun t ht => ?_⟩
  have hab : a * size = b * size ∨ a * size + size ≤ b * size ∨ b * size + size ≤ a * size := by
    rcases eq_or_ne a b with rfl | hne
    · exact .inl rfl
    · exact .inr (block_apart size hne)
  have ha' : (a + 1) * size ≤ n * size := Nat.mul_le_mul_right size ha
  have hb' : (b + 1) * size ≤ n * size := Nat.mul_le_mul_right size hb
  rw [Nat.succ_mul] at ha' hb'
  rw [Int.toNat_natCast, Int.toNat_natCast, exchLoop_apply hab, if_neg (by omega), if_neg (by omega)]

theorem compare_spec (ha : a < n) (hb : b < n) (m : Mem) (s : σ) :
    compare o n size m a b s = .ok (o.compar s (elem size m a) (elem size m b)) :=
  if_pos ⟨⟨Int.natCast_nonneg a, by omega⟩, ⟨Int.natCast_nonneg b, by omega⟩⟩

/-! ## What the comparator said -/

/-- No element is found equal by one call and less by another. -/
def Compatible (o : Oracle σ) : Prop :=
  ∀ s s' v x, (o.compar s v x).1 = 0 → 0 ≤ (o.compar s' x v).1

/-- `x` was found not to be above the pivot `v`. -/
def Below (o : Oracle σ) (v x : List UInt8) : Prop :=
  (∃ s, (o.compar s x v).1 < 0) ∨ ∃ s, 0 ≤ (o.compar s v x).1

/-- `x` was found not to be below `v`. -/
def Above (o : Oracle σ) (v x : List UInt8) : Prop :=
  (∃ s, (o.compar s v x).1 < 0) ∨ ∃ s, 0 ≤ (o.compar s x v).1

/-- `x` was found equal, at the lower end. -/
def EqLow (o : Oracle σ) (v x : List UInt8) : Prop := ∃ s, (o.compar s x v).1 = 0

/-- `x` was found equal, at the upper end. -/
def EqHigh (o : Oracle σ) (v x : List UInt8) : Prop := ∃ s, (o.compar s v x).1 = 0

/-! ## The scans -/

/-- The first scan stops at an element that is not below the pivot, `q` for one. -/
theorem scanUp_spec {i : Int} (hr : r < n) (hi : -1 ≤ i) (hiq : i < q) (hq : q ≤ r)
    (hstop : q < r → ∀ s, 0 ≤ (o.compar s (elem size m q) (elem size m r)).1)
    (hf : (r : Int) - i ≤ f) (s : σ) :
    ∃ (i' : Nat) (s' : σ), scanUp o n size m r f i s = .ok (i', s') ∧ i < i' ∧ i' ≤ q ∧
      (∀ k : Nat, i < k → k < i' → Below o (elem size m r) (elem size m k)) ∧
      (i' < r → Above o (elem size m r) (elem size m i')) := by
  induction f generalizing i s with
  | zero => omega
  | succ f ih =>
    obtain ⟨i', hi'⟩ : ∃ i' : Nat, i + 1 = i' := ⟨(i + 1).toNat, by omega⟩
    unfold scanUp
    rw [hi']
    split
    · rename_i hir
      refine ⟨i', s, rfl, by omega, by omega, fun k hk hk' => by omega, fun hlt => by omega⟩
    · rename_i hir
      rw [compare_spec (by omega) hr]
      simp only [bind, Except.bind]
      split
      · rename_i hneg
        have hne : i' ≠ q := by
          rintro rfl
          exact absurd hneg (not_lt.mpr (hstop (by omega) s))
        obtain ⟨i₁, s₁, hrun, hlt, hle, hbelow, habove⟩ :=
          ih (i := i') (by omega) (by omega) (by omega) (o.compar s (elem size m i') (elem size m r)).2
        refine ⟨i₁, s₁, hrun, by omega, hle, fun k hk hk' => ?_, habove⟩
        rcases eq_or_ne k i' with rfl | hne'
        · exact .inl ⟨s, hneg⟩
        · exact hbelow k (by omega) hk'
      · rename_i hneg
        exact ⟨i', _, rfl, by omega, by omega, fun k hk hk' => by omega,
          fun _ => .inr ⟨s, not_lt.mp hneg⟩⟩

/-- The second scan stops at `l` at the latest. -/
theorem scanDown_spec (size : Nat) (hr : r < n) (hl : l < j) (hj : j ≤ r) (hf : j - l ≤ f) (s : σ) :
    ∃ (j' : Nat) (s' : σ), scanDown o n size m l r f j s = .ok (j', s') ∧ l ≤ j' ∧ j' < j ∧
      (∀ k, j' < k → k < j → Above o (elem size m r) (elem size m k)) ∧
      (Below o (elem size m r) (elem size m j') ∨ j' = l) := by
  induction f generalizing j s with
  | zero => omega
  | succ f ih =>
    obtain ⟨j', rfl⟩ : ∃ j', j = j' + 1 := ⟨j - 1, by omega⟩
    unfold scanDown
    rw [Nat.cast_succ, add_sub_cancel_right, compare_spec hr (by omega)]
    simp only [bind, Except.bind]
    split
    · rename_i hneg
      split
      · rename_i hjl
        exact ⟨j', _, rfl, by omega, by omega, fun k hk hk' => by omega, .inr (by omega)⟩
      · rename_i hjl
        obtain ⟨j₁, s₁, hrun, hge, hlt, habove, hbelow⟩ := ih (j := j') (by omega) (by omega) (by omega)
          (o.compar s (elem size m r) (elem size m j')).2
        refine ⟨j₁, s₁, hrun, hge, by omega, fun k hk hk' => ?_, hbelow⟩
        rcases eq_or_ne k j' with rfl | hne
        · exact .inl ⟨s, hneg⟩
        · exact habove k hk (by omega)
    · rename_i hneg
      exact ⟨j', _, rfl, by omega, by omega, fun k hk hk' => by omega, .inl (.inr ⟨s, not_lt.mp hneg⟩)⟩

/-! ## The loop -/

/-- The elements that were looked at, with the pivot at `r`: from `l` on those below, the first of them
equal, and up to `r` those above, the last of them equal. -/
structure Parted (o : Oracle σ) (l r a b j q : Nat) (A : Nat → List UInt8) : Prop where
  low : ∀ k, l ≤ k → k < b → Below o (A r) (A k)
  lowEq : ∀ k, l ≤ k → k < a → EqLow o (A r) (A k)
  high : ∀ k, j ≤ k → k < r → Above o (A r) (A k)
  highEq : ∀ k, q ≤ k → k < r → EqHigh o (A r) (A k)

/-- The two elements where the scans stopped are exchanged. -/
theorem Parted.exch (h : Parted o l r a b j q A) (hb : b ≤ i) (hij : i < e) (hj : e < j) (ha : a ≤ b)
    (hq : j ≤ q) (hr : q ≤ r) (hbelow : ∀ k, b ≤ k → k < i → Below o (A r) (A k))
    (habove : ∀ k, e < k → k < j → Above o (A r) (A k)) (hi : Above o (A r) (A i))
    (he : Below o (A r) (A e)) : Parted o l r a (i + 1) e q (A ∘ Equiv.swap i e) := by
  have hother : ∀ k, k ≠ i → k ≠ e → (A ∘ Equiv.swap i e) k = A k := fun k hk hk' =>
    congrArg A (Equiv.swap_apply_of_ne_of_ne hk hk')
  have hleft : (A ∘ Equiv.swap i e) i = A e := congrArg A (Equiv.swap_apply_left i e)
  have hright : (A ∘ Equiv.swap i e) e = A i := congrArg A (Equiv.swap_apply_right i e)
  have hpivot := hother r (by omega) (by omega)
  refine ⟨?_, ?_, ?_, ?_⟩
  · intro k hk hk'
    rw [hpivot]
    rcases eq_or_ne k i with rfl | hne
    · rwa [hleft]
    · rw [hother k hne (by omega)]
      rcases Nat.lt_or_ge k b with hlt | hge
      · exact h.low k hk hlt
      · exact hbelow k hge (by omega)
  · intro k hk hk'
    rw [hpivot, hother k (by omega) (by omega)]
    exact h.lowEq k hk hk'
  · intro k hk hk'
    rw [hpivot]
    rcases eq_or_ne k e with rfl | hne
    · rwa [hright]
    · rw [hother k (by omega) hne]
      rcases Nat.lt_or_ge k j with hlt | hge
      · exact habove k (by omega) hlt
      · exact h.high k hge hk'
  · intro k hk hk'
    rw [hpivot, hother k (by omega) (by omega)]
    exact h.highEq k hk hk'

/-- An element found equal goes to the lower end. -/
theorem Parted.parkLow (h : Parted o l r a (i + 1) j q A) (ha : l ≤ a) (hi : a ≤ i) (hj : i < j)
    (hq : j ≤ q) (hr : q ≤ r) (heq : EqLow o (A r) (A i)) :
    Parted o l r (a + 1) (i + 1) j q (A ∘ Equiv.swap a i) := by
  have hother : ∀ k, k ≠ a → k ≠ i → (A ∘ Equiv.swap a i) k = A k := fun k hk hk' =>
    congrArg A (Equiv.swap_apply_of_ne_of_ne hk hk')
  have hleft : (A ∘ Equiv.swap a i) a = A i := congrArg A (Equiv.swap_apply_left a i)
  have hright : (A ∘ Equiv.swap a i) i = A a := congrArg A (Equiv.swap_apply_right a i)
  have hpivot := hother r (by omega) (by omega)
  refine ⟨?_, ?_, ?_, ?_⟩
  · intro k hk hk'
    rw [hpivot]
    rcases eq_or_ne k a with rfl | hne
    · rw [hleft]
      exact h.low i (by omega) (Nat.lt_succ_self i)
    · rcases eq_or_ne k i with rfl | hne'
      · rw [hright]
        exact h.low a ha (by omega)
      · rw [hother k hne hne']
        exact h.low k hk hk'
  · intro k hk hk'
    rw [hpivot]
    rcases eq_or_ne k a with rfl | hne
    · rwa [hleft]
    · rw [hother k hne (by omega)]
      exact h.lowEq k hk (by omega)
  · intro k hk hk'
    rw [hpivot, hother k (by omega) (by omega)]
    exact h.high k hk hk'
  · intro k hk hk'
    rw [hpivot, hother k (by omega) (by omega)]
    exact h.highEq k hk hk'

/-- An element found equal goes to the upper end. -/
theorem Parted.parkHigh (h : Parted o l r a b j (q + 1) A) (ha : a ≤ b) (hb : b ≤ j) (hj : j ≤ q)
    (hr : q < r) (heq : EqHigh o (A r) (A j)) :
    Parted o l r a b j q (A ∘ Equiv.swap j q) := by
  have hother : ∀ k, k ≠ j → k ≠ q → (A ∘ Equiv.swap j q) k = A k := fun k hk hk' =>
    congrArg A (Equiv.swap_apply_of_ne_of_ne hk hk')
  have hleft : (A ∘ Equiv.swap j q) j = A q := congrArg A (Equiv.swap_apply_left j q)
  have hright : (A ∘ Equiv.swap j q) q = A j := congrArg A (Equiv.swap_apply_right j q)
  have hpivot := hother r (by omega) (by omega)
  refine ⟨?_, ?_, ?_, ?_⟩
  · intro k hk hk'
    rw [hpivot, hother k (by omega) (by omega)]
    exact h.low k hk hk'
  · intro k hk hk'
    rw [hpivot, hother k (by omega) (by omega)]
    exact h.lowEq k hk hk'
  · intro k hk hk'
    rw [hpivot]
    rcases eq_or_ne k j with rfl | hne
    · rw [hleft]
      exact h.high q hj hr
    · rcases eq_or_ne k q with rfl | hne'
      · rw [hright]
        exact h.high j (le_refl j) (by omega)
      · rw [hother k hne hne']
        exact h.high k hk hk'
  · intro k hk hk'
    rw [hpivot]
    rcases eq_or_ne k q with rfl | hne
    · rwa [hright]
    · rw [hother k (by omega) hne]
      exact h.highEq k (by omega) hk'

/-- The elements from `l` up to `r` were rearranged, and nothing behind the array was written. -/
structure Moved (n size l r : Nat) (m m' : Mem) : Prop where
  rearranged : Rearranged (Set.Ico l r) (elem size m) (elem size m')
  frame : ∀ t, n * size ≤ t → m' t = m t

theorem Moved.refl (n size l r : Nat) (m : Mem) : Moved n size l r m m := ⟨.refl _ _, fun _ _ => rfl⟩

theorem Moved.trans {m₁ : Mem} (h : Moved n size l r m m₁) (h' : Moved n size l r m₁ m') :
    Moved n size l r m m' :=
  ⟨h.rearranged.trans h'.rearranged, fun t ht => (h'.frame t ht).trans (h.frame t ht)⟩

theorem Moved.mono (h : Moved n size l r m m') (hl : a ≤ l) (hr : r ≤ b) : Moved n size a b m m' :=
  ⟨h.rearranged.mono (Set.Ico_subset_Ico hl hr), h.frame⟩

theorem exch_moved (size : Nat) (hi : i ∈ Set.Ico l r) (hj : j ∈ Set.Ico l r) (hr : r ≤ n) (m : Mem) :
    ∃ m', exch n size i j m = .ok m' ∧ elem size m' = elem size m ∘ Equiv.swap i j ∧
      Moved n size l r m m' := by
  obtain ⟨m', hrun, helem, hframe⟩ := exch_spec size (Nat.lt_of_lt_of_le hi.2 hr)
    (Nat.lt_of_lt_of_le hj.2 hr) m
  refine ⟨m', hrun, helem, ?_, hframe⟩
  rw [helem]
  exact rearranged_swap hi hj _

theorem parkLow_spec (h : Parted o l r a (i + 1) j q (elem size m)) (ha : l ≤ a) (hi : a ≤ i)
    (hj : i < j) (hq : j ≤ q) (hr : q ≤ r) (hn : r < n) (s : σ) :
    ∃ (a' : Nat) (m' : Mem) (s' : σ), parkLow o n size r i (a - 1 : Int) m s = .ok (a' - 1, m', s') ∧
      a ≤ a' ∧ a' ≤ i + 1 ∧ Parted o l r a' (i + 1) j q (elem size m') ∧ Moved n size l r m m' := by
  unfold Sort.parkLow
  rw [compare_spec (by omega) hn]
  simp only [bind, Except.bind]
  split
  · rename_i hzero
    obtain ⟨m', hrun, helem, hmoved⟩ := exch_moved size (i := a) (j := i)
      (show a ∈ Set.Ico l r from ⟨ha, by omega⟩) ⟨by omega, by omega⟩ (le_of_lt hn) m
    rw [sub_add_cancel, hrun]
    refine ⟨a + 1, m', (o.compar s (elem size m i) (elem size m r)).2, ?_, by omega, by omega, ?_, hmoved⟩
    · rw [Nat.cast_succ, add_sub_cancel_right]
      rfl
    · rw [helem]
      exact h.parkLow ha hi hj hq hr ⟨s, hzero⟩
  · exact ⟨a, m, _, rfl, le_refl a, by omega, h, .refl _ _ _ _ m⟩

theorem parkHigh_spec (h : Parted o l r a b j q (elem size m)) (ha : a ≤ b) (hb : b ≤ j) (hj : j < q)
    (hl : l ≤ j) (hr : q ≤ r) (hn : r < n) (s : σ) :
    ∃ (q' : Nat) (m' : Mem) (s' : σ), parkHigh o n size r j q m s = .ok ((q' : Int), m', s') ∧
      j ≤ q' ∧ q' ≤ q ∧ Parted o l r a b j q' (elem size m') ∧ Moved n size l r m m' := by
  unfold Sort.parkHigh
  rw [compare_spec hn (by omega)]
  simp only [bind, Except.bind]
  split
  · rename_i hzero
    obtain ⟨q', rfl⟩ : ∃ q', q = q' + 1 := ⟨q - 1, by omega⟩
    obtain ⟨m', hrun, helem, hmoved⟩ := exch_moved size (i := j) (j := q')
      (show j ∈ Set.Ico l r from ⟨hl, by omega⟩) ⟨by omega, by omega⟩ (le_of_lt hn) m
    rw [Nat.cast_succ, add_sub_cancel_right, hrun]
    refine ⟨q', m', _, rfl, by omega, by omega, ?_, hmoved⟩
    rw [helem]
    exact h.parkHigh ha hb (by omega) (by omega) ⟨s, hzero⟩
  · exact ⟨q, m, _, rfl, by omega, le_refl q, h, .refl _ _ _ _ m⟩

/-- Where the loop ends, the scans have met, and every element but the pivot was looked at. -/
structure Split (o : Oracle σ) (n size l r : Nat) (m : Mem) (x : Ends σ) (i a q : Nat) : Prop where
  hi : x.i = i
  hp : x.p = a - 1
  hq : x.q = q
  la : l ≤ a
  ai : a ≤ i
  iq : i ≤ q
  qr : q ≤ r
  parted : Parted o l r a i i q (elem size x.m)
  moved : Moved n size l r m x.m

theorem partLoop_spec (hc : Compatible o) (hn : r < n) :
    ∀ {f a b j q : Nat} {m : Mem} {s : σ}, Parted o l r a b j q (elem size m) → l ≤ a → a ≤ b →
      b ≤ j → j ≤ q → q ≤ r → l < j → j - b < f →
      ∃ (x : Ends σ) (i a' q' : Nat), partLoop o n size l r f (b - 1 : Int) j (a - 1 : Int) q m s = .ok x ∧
        Split o n size l r m x i a' q' := by
  intro f
  induction f with
  | zero => omega
  | succ f ih =>
    intro a b j q m s h ha hb hj hq hr hl hf
    have hstop : q < r → ∀ s, 0 ≤ (o.compar s (elem size m q) (elem size m r)).1 := by
      intro hlt s
      obtain ⟨s', heq⟩ := h.highEq q (le_refl q) hlt
      exact hc s' s _ _ heq
    obtain ⟨i, s₁, hup, hbi, hiq, hbelow, habove⟩ :=
      scanUp_spec (i := (b - 1 : Int)) (f := n + 1) hn (by omega) (by omega) hr hstop (by omega) s
    obtain ⟨j', s₂, hdown, hlj, hjj, habove', hbelow'⟩ :=
      scanDown_spec (o := o) (m := m) (f := n + 1) size hn hl (by omega) (by omega) s₁
    unfold partLoop
    simp only [hup, hdown, bind, Except.bind]
    split
    · rename_i hji
      refine ⟨_, i, a, q, rfl, rfl, rfl, rfl, ha, by omega, hiq, hr, ⟨?_, h.lowEq, ?_, h.highEq⟩,
        .refl _ _ _ _ m⟩
      · intro k hk hk'
        rcases Nat.lt_or_ge k b with hlt | hge
        · exact h.low k hk hlt
        · exact hbelow k (by omega) hk'
      · intro k hk hk'
        rcases eq_or_ne k i with rfl | hne
        · exact habove hk'
        · rcases Nat.lt_or_ge k j with hlt | hge
          · exact habove' k (by omega) hlt
          · exact h.high k hge hk'
    · rename_i hji
      have hij : i < j' := by omega
      obtain ⟨m₁, hexch, helem, hmoved₁⟩ := exch_moved size (i := i) (j := j')
        (show i ∈ Set.Ico l r from ⟨by omega, by omega⟩) ⟨hlj, by omega⟩ (le_of_lt hn) m
      have h₁ : Parted o l r a (i + 1) j' q (elem size m₁) := by
        rw [helem]
        exact h.exch (by omega) hij hjj hb hq hr (fun k hk hk' => hbelow k (by omega) hk')
          habove' (habove (by omega)) (hbelow'.resolve_right (by omega))
      obtain ⟨a', m₂, s₃, hlow, haa, hai, h₂, hmoved₂⟩ :=
        parkLow_spec h₁ ha (by omega) hij (by omega) hr hn s₂
      obtain ⟨q', m₃, s₄, hhigh, hjq, hqq, h₃, hmoved₃⟩ :=
        parkHigh_spec h₂ hai hij (by omega) hlj hr hn s₃
      obtain ⟨x, i', a'', q'', hrun, hx⟩ := ih (s := s₄) h₃ (by omega) hai hij hjq (by omega)
        (by omega) (by omega)
      rw [Nat.cast_succ, add_sub_cancel_right] at hrun
      simp only [hexch, hlow, hhigh]
      exact ⟨x, i', a'', q'', hrun, hx.hi, hx.hp, hx.hq, hx.la, hx.ai, hx.iq, hx.qr, hx.parted,
        hmoved₁.trans (hmoved₂.trans (hmoved₃.trans hx.moved))⟩

end Dietlibc.Sort
