import Dietlibc.Sort.Partition

/-!
# `qsort` sorts

Behind the loop the elements found equal come to the middle, and the two sides are sorted by the
recursion. `quicksort_spec` is about any comparator that is `Compatible`; what is sorted at the end is
said for one that orders the elements.
-/

namespace Dietlibc.Sort

open Exchange

variable {σ : Type} {o : Oracle σ} {n size : Nat} {m m' : Mem} {s : σ} {l r i j a b e f q : Nat}
  {A B : Nat → List UInt8} {v x y : List UInt8} {c : List UInt8 → List UInt8 → Int}

/-! ## The elements found equal -/

theorem unparkLow_spec (size : Nat) {k : Nat} (hk : l ≤ k) (he : k + e ≤ b) (hi : i ≤ b) (hl : l + e ≤ i)
    (hb : b ≤ n) (m : Mem) :
    ∃ m', unparkLow n size (k + e : Nat) k (i - 1 : Int) m = .ok ((i - e : Nat) - 1, m') ∧
      elem size m' = swapPairs k (i - 1) e (elem size m) ∧ Moved n size l b m m' := by
  induction e generalizing k i m with
  | zero =>
    refine ⟨m, ?_, rfl, .refl _ _ _ _ m⟩
    unfold unparkLow
    rw [if_neg (by omega), Nat.sub_zero]
  | succ e ih =>
    obtain ⟨i', rfl⟩ : ∃ i', i = i' + 1 := ⟨i - 1, by omega⟩
    obtain ⟨m₁, hexch, helem, hmoved⟩ := exch_moved size (i := k) (j := i')
      (show k ∈ Set.Ico l b from ⟨hk, by omega⟩) ⟨by omega, by omega⟩ hb m
    obtain ⟨m₂, hrun, helem₂, hmoved₂⟩ := ih (k := k + 1) (i := i') (by omega) (by omega) (by omega)
      (by omega) m₁
    unfold unparkLow
    rw [if_pos (by omega), Nat.cast_succ i', add_sub_cancel_right, hexch]
    refine ⟨m₂, ?_, ?_, hmoved.trans hmoved₂⟩
    · rw [Nat.add_sub_add_right, ← hrun, show k + (e + 1) = k + 1 + e by omega]
      rfl
    · rw [helem₂, helem, Nat.add_sub_cancel]
      rfl

theorem unparkHigh_spec (size : Nat) (hi : l ≤ i) (he : i + e ≤ b) (hr : r ≤ b) (hl : l + e ≤ r)
    (hb : b ≤ n) (m : Mem) :
    ∃ m', unparkHigh n size (r - e - 1 : Int) (r - 1 : Int) i m = .ok ((i + e : Nat), m') ∧
      elem size m' = swapPairs i (r - 1) e (elem size m) ∧ Moved n size l b m m' := by
  induction e generalizing i r m with
  | zero =>
    refine ⟨m, ?_, rfl, .refl _ _ _ _ m⟩
    unfold unparkHigh
    rw [if_neg (by omega), Nat.add_zero]
  | succ e ih =>
    obtain ⟨r', rfl⟩ : ∃ r', r = r' + 1 := ⟨r - 1, by omega⟩
    obtain ⟨m₁, hexch, helem, hmoved⟩ := exch_moved size (i := i) (j := r')
      (show i ∈ Set.Ico l b from ⟨hi, by omega⟩) ⟨by omega, by omega⟩ hb m
    obtain ⟨m₂, hrun, helem₂, hmoved₂⟩ := ih (i := i + 1) (r := r') (by omega) (by omega) (by omega)
      (by omega) m₁
    unfold unparkHigh
    rw [if_pos (by omega), Nat.cast_succ r', add_sub_cancel_right, hexch]
    refine ⟨m₂, ?_, ?_, hmoved.trans hmoved₂⟩
    · rw [show i + (e + 1) = i + 1 + e by omega, ← hrun,
        show (r' + 1 - (e + 1 : Nat) - 1 : Int) = r' - e - 1 by omega]
      rfl
    · rw [helem₂, helem, Nat.add_sub_cancel]
      rfl

theorem EqLow.above (h : EqLow o v x) : Above o v x := by
  obtain ⟨s, hs⟩ := h
  exact .inr ⟨s, le_of_eq hs.symm⟩

theorem EqHigh.below (h : EqHigh o v x) : Below o v x := by
  obtain ⟨s, hs⟩ := h
  exact .inr ⟨s, le_of_eq hs.symm⟩

/-- The two sides: up to `f` there is the pivot or what was found below it, and from `e` on the pivot or
what was found above it. -/
structure Sides (o : Oracle σ) (l b e f : Nat) (v : List UInt8) (A : Nat → List UInt8) : Prop where
  le : l ≤ e
  lt : e < f
  fb : f ≤ b
  low : ∀ k ∈ Set.Ico l f, A k = v ∨ Below o v (A k)
  high : ∀ k ∈ Set.Ico e b, A k = v ∨ Above o v (A k)

/-- The pivot comes between the two parts. -/
theorem Parted.pivot (h : Parted o l r a i i q A) (hi : i ≤ q) (ha : a ≤ i) (hq : q ≤ r) :
    (A ∘ Equiv.swap i r) i = A r ∧
      (∀ k, l ≤ k → k < i → Below o (A r) ((A ∘ Equiv.swap i r) k)) ∧
      (∀ k, l ≤ k → k < a → EqLow o (A r) ((A ∘ Equiv.swap i r) k)) ∧
      (∀ k, i < k → k ≤ r → Above o (A r) ((A ∘ Equiv.swap i r) k)) ∧
      ∀ k, i < k → q ≤ k → k < r → EqHigh o (A r) ((A ∘ Equiv.swap i r) k) := by
  have hother : ∀ k, k ≠ i → k ≠ r → (A ∘ Equiv.swap i r) k = A k := fun k hk hk' =>
    congrArg A (Equiv.swap_apply_of_ne_of_ne hk hk')
  refine ⟨congrArg A (Equiv.swap_apply_left i r), ?_, ?_, ?_, ?_⟩
  · intro k hk hk'
    rw [hother k (by omega) (by omega)]
    exact h.low k hk hk'
  · intro k hk hk'
    rw [hother k (by omega) (by omega)]
    exact h.lowEq k hk hk'
  · intro k hk hk'
    rcases eq_or_ne k r with rfl | hne
    · rw [show (A ∘ Equiv.swap i k) k = A i from congrArg A (Equiv.swap_apply_right i k)]
      exact h.high i (le_refl i) hk
    · rw [hother k (by omega) hne]
      exact h.high k (by omega) (by omega)
  · intro k hk hk' hkr
    rw [hother k (by omega) (by omega)]
    exact h.highEq k hk' hkr

/-- What is between the loop and the recursion. -/
theorem Split.unpark {x : Ends σ} (h : Split o n size l r m x i a q) (hl : l < r) (hn : r < n) :
    ∃ (m₁ m₂ m₃ : Mem) (e f : Nat), exch n size x.i r x.m = .ok m₁ ∧
      unparkLow n size x.p l (x.i - 1) m₁ = .ok ((e - 1 : Int), m₂) ∧
      unparkHigh n size x.q (r - 1) (x.i + 1) m₂ = .ok ((f : Int), m₃) ∧
      Sides o l (r + 1) e f (elem size x.m r) (elem size m₃) ∧ Moved n size l (r + 1) m m₃ := by
  obtain ⟨hi, hp, hq, hla, hai, hiq, hqr, hparted, hmoved⟩ := h
  rw [hi, hp, hq]
  obtain ⟨m₁, hexch, helem₁, hmoved₁⟩ := exch_moved size (i := i) (j := r)
    (show i ∈ Set.Ico l (r + 1) from ⟨by omega, by omega⟩) ⟨by omega, by omega⟩ hn x.m
  obtain ⟨hpiv, hlow, hlowEq, hhigh, hhighEq⟩ := hparted.pivot hiq hai hqr
  rw [← helem₁] at hpiv hlow hlowEq hhigh hhighEq
  generalize elem size x.m r = v at hpiv hlow hlowEq hhigh hhighEq ⊢
  obtain ⟨e, he⟩ : ∃ e, e = a - 1 - l := ⟨_, rfl⟩
  obtain ⟨f, hf⟩ : ∃ f, f = r - 1 - q := ⟨_, rfl⟩
  obtain ⟨m₂, hrun₂, helem₂, hmoved₂⟩ : ∃ m₂, unparkLow n size (a - 1 : Int) l (i - 1 : Int) m₁ =
      .ok ((i - e : Nat) - 1, m₂) ∧ elem size m₂ = swapPairs l (i - 1) e (elem size m₁) ∧
      Moved n size l i m₁ m₂ := by
    rcases Nat.eq_or_lt_of_le hla with rfl | hlt
    · have he0 : e = 0 := by omega
      subst he0
      refine ⟨m₁, ?_, rfl, .refl _ _ _ _ m₁⟩
      unfold unparkLow
      rw [if_neg (by omega), Nat.sub_zero]
    · obtain ⟨m₂, hrun, hspec⟩ := unparkLow_spec size (le_refl l) (e := e) (i := i) (b := i) (n := n)
        (by omega) (le_refl i) (by omega) (by omega) m₁
      rw [show ((l + e : Nat) : Int) = a - 1 by omega] at hrun
      exact ⟨m₂, hrun, hspec⟩
  obtain ⟨m₃, hrun₃, helem₃, hmoved₃⟩ : ∃ m₃, unparkHigh n size q (r - 1 : Int) (i + 1 : Int) m₂ =
      .ok ((i + 1 + f : Nat), m₃) ∧ elem size m₃ = swapPairs (i + 1) (r - 1) f (elem size m₂) ∧
      Moved n size (i + 1) (r + 1) m₂ m₃ := by
    rcases Nat.eq_or_lt_of_le hqr with rfl | hlt
    · have hf0 : f = 0 := by omega
      subst hf0
      refine ⟨m₂, ?_, rfl, .refl _ _ _ _ m₂⟩
      unfold unparkHigh
      rw [if_neg (by omega), Nat.add_zero]
      rfl
    · obtain ⟨m₃, hrun, hspec⟩ := unparkHigh_spec size (le_refl (i + 1)) (e := f) (r := r) (b := r + 1)
        (n := n) (by omega) (by omega) (by omega) hn m₂
      rw [show (r - f - 1 : Int) = q by omega, Nat.cast_succ] at hrun
      exact ⟨m₃, hrun, hspec⟩
  have hstay : ∀ k, i ≤ k → elem size m₂ k = elem size m₁ k := fun k hk =>
    hmoved₂.rearranged.apply_eq fun hmem => absurd hmem.2 (not_lt.mpr hk)
  have hstay' : ∀ k, k ≤ i → elem size m₃ k = elem size m₂ k := fun k hk =>
    hmoved₃.rearranged.apply_eq fun hmem => absurd (Nat.lt_of_succ_le hmem.1) (not_lt.mpr hk)
  have hbelow := hmoved₂.rearranged.forall_mem (P := Below o v) fun k hk => hlow k hk.1 hk.2
  have habove := hmoved₃.rearranged.forall_mem (P := Above o v) fun k hk => by
    rw [hstay k (Nat.le_of_succ_le hk.1)]
    exact hhigh k hk.1 (Nat.le_of_lt_succ hk.2)
  have heqLow : ∀ k, i - e ≤ k → k < i → EqLow o v (elem size m₂ k) := by
    intro k hk hk'
    rw [helem₂]
    exact swapPairs_low (P := EqLow o v) (by omega) (fun x hx hx' => hlowEq x hx (by omega))
      (by omega) (by omega)
  have heqHigh : ∀ k, i < k → k < i + 1 + f → EqHigh o v (elem size m₃ k) := by
    intro k hk hk'
    rw [helem₃]
    refine swapPairs_high (P := EqHigh o v) (by omega) (fun x hx hx' => ?_) hk hk'
    rw [hstay x (by omega)]
    exact hhighEq x (by omega) (by omega) (by omega)
  refine ⟨m₁, m₂, m₃, i - e, i + 1 + f, hexch, hrun₂, hrun₃, ⟨by omega, by omega, by omega, ?_, ?_⟩, ?_⟩
  · intro k hk
    rcases Nat.lt_trichotomy k i with hlt | rfl | hgt
    · rw [hstay' k (le_of_lt hlt)]
      exact .inr (hbelow k ⟨hk.1, hlt⟩)
    · rw [hstay' k (le_refl k), hstay k (le_refl k)]
      exact .inl hpiv
    · exact .inr (heqHigh k hgt hk.2).below
  · intro k hk
    rcases Nat.lt_trichotomy k i with hlt | rfl | hgt
    · rw [hstay' k (le_of_lt hlt)]
      exact .inr (heqLow k hk.1 hlt).above
    · rw [hstay' k (le_refl k), hstay k (le_refl k)]
      exact .inl hpiv
    · exact .inr (habove k ⟨hgt, hk.2⟩)
  · exact (hmoved.mono (le_refl l) (Nat.le_succ r)).trans (hmoved₁.trans
      ((hmoved₂.mono (le_refl l) (by omega)).trans (hmoved₃.mono (by omega) (le_refl _))))

/-! ## The recursion -/

/-- A comparator that orders the elements: a total preorder, by the sign of what it returns. -/
structure Preorders (o : Oracle σ) (c : List UInt8 → List UInt8 → Int) : Prop where
  answer : ∀ s x y, (o.compar s x y).1 = c x y
  flip : ∀ x y, c x y < 0 ↔ 0 < c y x
  trans : ∀ x y z, c x y ≤ 0 → c y z ≤ 0 → c x z ≤ 0

/-- In order from `l` up to `b`. -/
def SortedOn (c : List UInt8 → List UInt8 → Int) (l b : Nat) (A : Nat → List UInt8) : Prop :=
  ∀ x y, l ≤ x → x ≤ y → y < b → c (A x) (A y) ≤ 0

theorem Preorders.refl (h : Preorders o c) (x : List UInt8) : c x x ≤ 0 := by
  by_contra hpos
  have hneg := (h.flip x x).mpr (not_le.mp hpos)
  omega

theorem Preorders.compatible (h : Preorders o c) : Compatible o := by
  intro s s' v x hzero
  rw [h.answer] at hzero ⊢
  by_contra hneg
  have := (h.flip x v).mp (not_le.mp hneg)
  omega

theorem Preorders.below (h : Preorders o c) (hb : x = v ∨ Below o v x) : c x v ≤ 0 := by
  rcases hb with rfl | ⟨s, hs⟩ | ⟨s, hs⟩
  · exact h.refl x
  · rw [h.answer] at hs
    exact le_of_lt hs
  · rw [h.answer] at hs
    by_contra hpos
    have := (h.flip v x).mpr (not_le.mp hpos)
    omega

theorem Preorders.above (h : Preorders o c) (hb : x = v ∨ Above o v x) : c v x ≤ 0 := by
  rcases hb with rfl | ⟨s, hs⟩ | ⟨s, hs⟩
  · exact h.refl x
  · rw [h.answer] at hs
    exact le_of_lt hs
  · rw [h.answer] at hs
    by_contra hpos
    have := (h.flip x v).mpr (not_le.mp hpos)
    omega

/-- Two sorted parts, with what is between them equal to the pivot. -/
theorem SortedOn.join (h : Preorders o c) (hlow : SortedOn c l e A) (hhigh : SortedOn c f b A)
    (hle : ∀ k ∈ Set.Ico l f, c (A k) v ≤ 0) (hge : ∀ k ∈ Set.Ico e b, c v (A k) ≤ 0) :
    SortedOn c l b A := by
  intro x y hx hxy hy
  by_cases hye : y < e
  · exact hlow x y hx hxy hye
  · by_cases hxf : f ≤ x
    · exact hhigh x y hxf hxy hy
    · exact h.trans _ v _ (hle x ⟨hx, not_le.mp hxf⟩) (hge y ⟨not_lt.mp hye, hy⟩)

theorem quicksort_spec (hc : Compatible o) :
    ∀ {f l b : Nat} {m : Mem} {s : σ}, l ≤ b → b ≤ n → b - l < f →
      ∃ m' s', quicksort o n size f l (b - 1 : Int) m s = .ok (m', s') ∧ Moved n size l b m m' ∧
        ∀ c, Preorders o c → SortedOn c l b (elem size m') := by
  intro f
  induction f with
  | zero => omega
  | succ f ih =>
    intro l b m s hl hb hf
    unfold quicksort
    split
    · rename_i hsmall
      refine ⟨m, s, rfl, .refl _ _ _ _ m, fun c hpre x y hx hxy hy => ?_⟩
      rw [show y = x by omega]
      exact hpre.refl _
    · rename_i hlarge
      obtain ⟨r, rfl⟩ : ∃ r, b = r + 1 := ⟨b - 1, by omega⟩
      rw [Nat.cast_succ, add_sub_cancel_right]
      have hlr : l < r := by omega
      obtain ⟨x, hx⟩ : ∃ x : Nat, (l : Int) + (o.rand s).1 % (r - l) = x ∧ l ≤ x ∧ x < r := by
        have hnonneg := Int.emod_nonneg ((o.rand s).1 : Int) (show (r : Int) - l ≠ 0 by omega)
        have hlt := Int.emod_lt_of_pos ((o.rand s).1 : Int) (show 0 < (r : Int) - l by omega)
        exact ⟨(l + (o.rand s).1 % (r - l) : Int).toNat, by omega, by omega, by omega⟩
      obtain ⟨m₁, hexch, -, hmoved₁⟩ := exch_moved size (i := x) (j := r)
        (show x ∈ Set.Ico l (r + 1) from ⟨hx.2.1, by omega⟩) ⟨by omega, by omega⟩ hb m
      have hparted : Parted o l r l l r r (elem size m₁) :=
        ⟨fun k hk hk' => by omega, fun k hk hk' => by omega, fun k hk hk' => by omega,
          fun k hk hk' => by omega⟩
      obtain ⟨p, i, a, q, hloop, hsplit⟩ := partLoop_spec hc hb (f := n + 1) (s := (o.rand s).2) hparted
        (le_refl l) (le_refl l) (le_of_lt hlr) (le_refl r) (le_refl r) hlr (by omega)
      obtain ⟨m₂, m₃, m₄, e, f', hpivot, hlow, hhigh, hsides, hmoved₄⟩ := hsplit.unpark hlr hb
      have hle := hsides.le
      have hlt := hsides.lt
      have hfb := hsides.fb
      obtain ⟨m₅, s₅, hrun₅, hmoved₅, hsorted₅⟩ := ih (s := p.s) (m := m₄) hle (by omega) (by omega)
      obtain ⟨m₆, s₆, hrun₆, hmoved₆, hsorted₆⟩ := ih (s := s₅) (m := m₅) hfb hb (by omega)
      rw [Nat.cast_succ, add_sub_cancel_right] at hrun₆
      simp only [hx.1, hexch, hloop, hpivot, hlow, hhigh, hrun₅, hrun₆, bind, Except.bind]
      refine ⟨m₆, s₆, rfl, hmoved₁.trans (hmoved₄.trans ((hmoved₅.mono (le_refl l) (by omega)).trans
        (hmoved₆.mono (by omega) (le_refl _)))), fun c hpre => ?_⟩
      have hstay₅ : ∀ k, e ≤ k → elem size m₅ k = elem size m₄ k := fun k hk =>
        hmoved₅.rearranged.apply_eq fun hmem => absurd hmem.2 (not_lt.mpr hk)
      have hstay₆ : ∀ k, k < f' → elem size m₆ k = elem size m₅ k := fun k hk =>
        hmoved₆.rearranged.apply_eq fun hmem => absurd hk (not_lt.mpr hmem.1)
      have hlow₅ := hmoved₅.rearranged.forall_mem
        (P := fun y => y = elem size p.m r ∨ Below o (elem size p.m r) y)
        fun k hk => hsides.low k ⟨hk.1, lt_trans hk.2 hlt⟩
      have hhigh₆ := hmoved₆.rearranged.forall_mem
        (P := fun y => y = elem size p.m r ∨ Above o (elem size p.m r) y) fun k hk => by
          rw [hstay₅ k (le_trans (le_of_lt hlt) hk.1)]
          exact hsides.high k ⟨le_trans (le_of_lt hlt) hk.1, hk.2⟩
      refine SortedOn.join hpre (v := elem size p.m r) (e := e) (f := f') ?_ (hsorted₆ c hpre) ?_ ?_
      · intro x y hx hxy hy
        rw [hstay₆ x (by omega), hstay₆ y (by omega)]
        exact hsorted₅ c hpre x y hx hxy hy
      · intro k hk
        rw [hstay₆ k hk.2]
        refine hpre.below ?_
        by_cases hke : k < e
        · exact hlow₅ k ⟨hk.1, hke⟩
        · rw [hstay₅ k (not_lt.mp hke)]
          exact hsides.low k hk
      · intro k hk
        refine hpre.above ?_
        by_cases hkf : k < f'
        · rw [hstay₆ k hkf, hstay₅ k hk.1]
          exact hsides.high k hk
        · exact hhigh₆ k ⟨not_lt.mp hkf, hk.2⟩

/-! ## `qsort` -/

/-- The elements of the array. -/
def elems (n size : Nat) (m : Mem) : List (List UInt8) := (List.range n).map (elem size m)

/-- The array is in memory: it has no more than `PTRDIFF_MAX` bytes. -/
def Fits (n size : Nat) : Prop := 0 < size ∧ n * size < 2 ^ 63 - 1

/-- The call sorts, unless the number of elements or their size is so large that it returns at once. -/
theorem qsort_run (hc : Compatible o) (hn : n < 2 ^ 63 - 1) (hsize : size < 2 ^ 63 - 1) (m : Mem) (s : σ) :
    ∃ m' s', qsort o n size m s = .ok (m', s') ∧ Moved n size 0 n m m' ∧
      ∀ c, Preorders o c → SortedOn c 0 n (elem size m') := by
  unfold qsort
  rw [if_neg (by omega)]
  split
  · have hspec : ∃ m' s', quicksort o n size (n + 1) (0 : Nat) (n - 1 : Int) m s = .ok (m', s') ∧
        Moved n size 0 n m m' ∧ ∀ c, Preorders o c → SortedOn c 0 n (elem size m') :=
      quicksort_spec hc (Nat.zero_le n) (le_refl n) (by omega)
    exact hspec
  · refine ⟨m, s, rfl, .refl _ _ _ _ m, fun c hpre x y _ hxy hy => ?_⟩
    rw [show y = x by omega]
    exact hpre.refl _

theorem qsort_spec (hc : Compatible o) (hfit : Fits n size) (m : Mem) (s : σ) :
    ∃ m' s', qsort o n size m s = .ok (m', s') ∧ Moved n size 0 n m m' ∧
      ∀ c, Preorders o c → SortedOn c 0 n (elem size m') := by
  obtain ⟨hsize, hlt⟩ := hfit
  have hn : n ≤ n * size := Nat.le_mul_of_pos_right n hsize
  by_cases hhuge : 2 ^ 63 - 1 ≤ size
  · have hzero : n = 0 := by
      by_contra hpos
      have := Nat.le_mul_of_pos_left size (Nat.pos_of_ne_zero hpos)
      omega
    exact ⟨m, s, if_pos (.inr hhuge), .refl _ _ _ _ m, fun c _ x y _ _ hy => by omega⟩
  · exact qsort_run hc (by omega) (by omega) m s

theorem Moved.perm (h : Moved n size 0 n m m') : (elems n size m').Perm (elems n size m) :=
  h.rearranged.perm fun _ hk => hk.2

/-- **`qsort` sorts**, whatever `rand` returns: no access is outside the array, the elements are the same
ones, and they are in order. -/
theorem qsort_sorts (hpre : Preorders o c) (hfit : Fits n size) (m : Mem) (s : σ) :
    ∃ m' s', qsort o n size m s = .ok (m', s') ∧ (elems n size m').Perm (elems n size m) ∧
      (∀ i j, i ≤ j → j < n → c (elem size m' i) (elem size m' j) ≤ 0) ∧
      ∀ t, n * size ≤ t → m' t = m t := by
  obtain ⟨m', s', hrun, hmoved, hsorted⟩ := qsort_spec hpre.compatible hfit m s
  exact ⟨m', s', hrun, hmoved.perm, fun i j hij hj => hsorted c hpre i j (Nat.zero_le i) hij hj,
    hmoved.frame⟩

/-- The order of the first bytes. -/
def byteOrder : Oracle Unit where
  compar _ x y := ((x.headD 0).toNat - (y.headD 0).toNat, ())
  rand _ := (1, ())

theorem byteOrder_preorders : Preorders byteOrder fun x y =>
    ((x.headD 0).toNat - (y.headD 0).toNat : Int) :=
  ⟨fun _ _ _ => rfl, fun _ _ => by omega, fun _ _ _ _ _ => by omega⟩

theorem qsort_sorts_bytes : ∃ m' s', qsort byteOrder 3 1 (fun _ => 0) () = .ok (m', s') ∧
    (elems 3 1 m').Perm (elems 3 1 fun _ => 0) ∧
    (∀ i j, i ≤ j → j < 3 → (((elem 1 m' i).headD 0).toNat - ((elem 1 m' j).headD 0).toNat : Int) ≤ 0) ∧
    ∀ t, 3 * 1 ≤ t → m' t = 0 :=
  qsort_sorts byteOrder_preorders (n := 3) (show Fits 3 1 from ⟨by decide, by decide⟩) (fun _ => 0) ()

/-- **`qsort` survives a comparator that does not order anything**, as long as it does not call two
elements equal one way round and less the other way round. -/
theorem qsort_survives (hc : Compatible o) (hfit : Fits n size) (m : Mem) (s : σ) :
    ∃ m' s', qsort o n size m s = .ok (m', s') ∧ (elems n size m').Perm (elems n size m) ∧
      ∀ t, n * size ≤ t → m' t = m t := by
  obtain ⟨m', s', hrun, hmoved, -⟩ := qsort_spec hc hfit m s
  exact ⟨m', s', hrun, hmoved.perm, hmoved.frame⟩

/-- Every element is less than every other. -/
def contrary : Oracle Unit where
  compar _ _ _ := (-1, ())
  rand _ := (1, ())

theorem qsort_survives_contrary : ∃ m' s', qsort contrary 3 1 (fun _ => 0) () = .ok (m', s') ∧
    (elems 3 1 m').Perm (elems 3 1 fun _ => 0) ∧ ∀ t, 3 * 1 ≤ t → m' t = 0 :=
  qsort_survives (o := contrary) nofun (show Fits 3 1 from ⟨by decide, by decide⟩) (fun _ => 0) ()

/-- A comparator that reads its answers from a list. -/
def scripted : Oracle (List Int) where
  compar s _ _ := (s.headD 0, s.tail)
  rand s := (0, s)

/-- Two elements are parked at the upper end, and then all are called less. -/
theorem qsort_overruns : ¬ ∀ {σ : Type} (o : Oracle σ) (n size : Nat) (m : Mem) (s : σ), Fits n size →
    ∃ m' s', qsort o n size m s = .ok (m', s') ∧ (elems n size m').Perm (elems n size m) := by
  intro h
  obtain ⟨m', s', hrun, -⟩ := h scripted 5 1 (fun _ => 0) [0, 0, 1, 0, 0, 0, 1, 0, -1, -1, 0]
    ⟨by decide, by decide⟩
  have hfault : (qsort scripted 5 1 (fun _ => 0) [0, 0, 1, 0, 0, 0, 1, 0, -1, -1, 0]).toOption.isNone := by
    decide +kernel
  rw [hrun] at hfault
  cases hfault

end Dietlibc.Sort
