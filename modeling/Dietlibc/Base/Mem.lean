import Mathlib.Tactic

/-!
# Byte memories

A memory is a function from addresses to bytes. `load m a n` reads `n` bytes from `a`,
`store m a d` writes the bytes `d` there, `fill` and `copy` are `memset` and `memcpy`.
`word m a` is the little-endian 64-bit word at `a` and `setWord` writes one. A write is
invisible outside the bytes it covers.

An `Extent` is a start and a length. Extents are compared by `Disj` and `Within`.
-/

/-- A byte-addressed memory. -/
abbrev Mem := Nat → UInt8

namespace Mem

/-- The `n` bytes from `a` on. -/
def load (m : Mem) (a n : Nat) : List UInt8 := (List.range n).map fun i => m (a + i)

/-- The bytes `d` written from `a` on. -/
def store (m : Mem) (a : Nat) (d : List UInt8) : Mem := fun i =>
  if a ≤ i ∧ i < a + d.length then d.getD (i - a) 0 else m i

variable {m : Mem} {a b n k : Nat} {d : List UInt8}

@[simp] theorem length_load : (load m a n).length = n := by simp [load]

@[simp] theorem load_zero : load m a 0 = [] := rfl

theorem load_succ : load m a (n + 1) = load m a n ++ [m (a + n)] := by
  simp [load, List.range_succ]

theorem load_add : load m a (n + k) = load m a n ++ load m (a + n) k := by
  induction k with
  | zero => simp
  | succ k ih => rw [← Nat.add_assoc, load_succ, ih, load_succ, List.append_assoc, Nat.add_assoc]

theorem load_cons : load m a (n + 1) = m a :: load m (a + 1) n := by
  rw [Nat.add_comm, load_add]; simp [load]

theorem load_congr {m' : Mem} (h : ∀ i < n, m' (a + i) = m (a + i)) : load m' a n = load m a n := by
  unfold load
  exact List.map_congr_left fun i hi => h i (List.mem_range.mp hi)

theorem getElem?_load {i : Nat} (h : i < n) : (load m a n)[i]? = some (m (a + i)) := by
  simp [load, h]

theorem store_out {i : Nat} (h : i < a ∨ a + d.length ≤ i) : store m a d i = m i :=
  if_neg (by omega)

theorem store_in {i : Nat} (h : i < d.length) : store m a d (a + i) = d.getD i 0 := by
  unfold store
  rw [if_pos (by omega), Nat.add_sub_cancel_left]

@[simp] theorem store_nil : store m a [] = m := by
  funext i; exact store_out (by simp; omega)

theorem load_store_self (h : d.length = n) : load (store m a d) a n = d := by
  apply List.ext_getElem?
  intro i
  by_cases hi : i < n
  · rw [getElem?_load hi, store_in (by omega), List.getD_eq_getElem?_getD,
      List.getElem?_eq_getElem (by omega), Option.getD_some]
  · rw [List.getElem?_eq_none (by simp; omega), List.getElem?_eq_none (by omega)]

theorem load_store_out (h : b + n ≤ a ∨ a + d.length ≤ b) : load (store m a d) b n = load m b n :=
  load_congr fun i hi => store_out (by omega)

/-- A string in front of the end of the bytes read. -/
theorem takeWhile_load {w : List UInt8} (hw : 0 ∉ w) (hlen : w.length < n)
    (h : load m a (w.length + 1) = w ++ [0]) :
    0 ∈ load m a n ∧ (load m a n).takeWhile (· ≠ 0) = w := by
  obtain ⟨k, rfl⟩ : ∃ k, n = w.length + 1 + k := ⟨n - (w.length + 1), by omega⟩
  have hload : load m a (w.length + 1 + k) = w ++ 0 :: load m (a + (w.length + 1)) k := by
    rw [load_add, h, List.append_assoc, List.singleton_append]
  have hpos : ∀ c ∈ w, decide (c ≠ 0) = true := fun c hc =>
    decide_eq_true fun hzero => hw (hzero ▸ hc)
  rw [hload, List.takeWhile_append_of_pos hpos, List.takeWhile_cons_of_neg (by simp), List.append_nil]
  exact ⟨List.mem_append_right _ List.mem_cons_self, rfl⟩

/-- A write at the end of the bytes read extends them. -/
theorem load_store_append (h : d.length = k) :
    load (store m (a + n) d) a (n + k) = load m a n ++ d := by
  rw [load_add, load_store_out (.inl (le_refl _)), load_store_self h]

/-- Two writes end to end are one. -/
theorem store_append (x y : List UInt8) :
    store (store m a x) (a + x.length) y = store m a (x ++ y) := by
  funext i
  by_cases hx : a ≤ i ∧ i < a + x.length
  · obtain ⟨k, rfl⟩ := Nat.exists_eq_add_of_le hx.1
    rw [store_out (by omega), store_in (by omega), store_in (by rw [List.length_append]; omega)]
    simp only [List.getD_eq_getElem?_getD]
    rw [List.getElem?_append_left (by omega)]
  · by_cases hy : a + x.length ≤ i ∧ i < a + x.length + y.length
    · obtain ⟨k, rfl⟩ := Nat.exists_eq_add_of_le hy.1
      rw [store_in (by omega), Nat.add_assoc, store_in (by rw [List.length_append]; omega)]
      simp only [List.getD_eq_getElem?_getD]
      rw [List.getElem?_append_right (by omega), Nat.add_sub_cancel_left]
    · rw [store_out (by omega), store_out (by omega), store_out (by rw [List.length_append]; omega)]

/-- A write inside the bytes just written. -/
theorem store_store_within {x y y' z : List UInt8} (h : y'.length = y.length) :
    store (store m a (x ++ (y ++ z))) (a + x.length) y' = store m a (x ++ (y' ++ z)) := by
  funext i
  by_cases hin : a ≤ i ∧ i < a + (x ++ (y ++ z)).length
  · obtain ⟨j, rfl⟩ : ∃ j, i = a + j := ⟨i - a, by omega⟩
    have hj : j < (x ++ (y ++ z)).length := by omega
    have hj' : j < (x ++ (y' ++ z)).length := by
      simpa only [List.length_append, h] using hj
    rw [store_in hj', List.getD_eq_getElem?_getD]
    by_cases hmid : x.length ≤ j ∧ j < x.length + y.length
    · rw [show a + j = a + x.length + (j - x.length) by omega, store_in (by omega),
        List.getD_eq_getElem?_getD, List.getElem?_append_right hmid.1,
        List.getElem?_append_left (by omega)]
    · rw [store_out (by omega), store_in hj, List.getD_eq_getElem?_getD]
      by_cases hx : j < x.length
      · rw [List.getElem?_append_left hx, List.getElem?_append_left hx]
      · rw [List.getElem?_append_right (by omega), List.getElem?_append_right (by omega),
          List.getElem?_append_right (by omega), List.getElem?_append_right (by omega), h]
  · have hlen : (x ++ (y' ++ z)).length = (x ++ (y ++ z)).length := by
      simp only [List.length_append, h]
    have hlen' : (x ++ (y ++ z)).length = x.length + (y.length + z.length) := by
      simp only [List.length_append]
    rw [store_out (by omega), store_out (by omega), store_out (by omega)]

/-! ## Blocks of bytes -/

/-- `memset(a, v, n)`. -/
def fill (m : Mem) (a n : Nat) (v : UInt8) : Mem := fun i => if a ≤ i ∧ i < a + n then v else m i

/-- `memcpy(a, b, n)`. -/
def copy (m : Mem) (a b n : Nat) : Mem := fun i =>
  if a ≤ i ∧ i < a + n then m (b + (i - a)) else m i

variable {v : UInt8} {i : Nat}

theorem fill_in (h : a ≤ i ∧ i < a + n) : fill m a n v i = v := if_pos h

theorem fill_out (h : ¬(a ≤ i ∧ i < a + n)) : fill m a n v i = m i := if_neg h

theorem copy_in (h : i < n) : copy m a b n (a + i) = m (b + i) := by
  unfold copy
  rw [if_pos (by omega), Nat.add_sub_cancel_left]

theorem copy_out (h : ¬(a ≤ i ∧ i < a + n)) : copy m a b n i = m i := if_neg h

@[simp] theorem copy_zero : copy m a b 0 = m := by
  funext i
  exact copy_out (by omega)

/-- A write behind the bytes copied goes on with them. -/
theorem store_copy (h : ∀ i < d.length, d.getD i 0 = m (b + (n + i))) :
    store (copy m a b n) (a + n) d = copy m a b (n + d.length) := by
  funext i
  by_cases hin : a + n ≤ i ∧ i < a + n + d.length
  · obtain ⟨j, rfl⟩ := Nat.exists_eq_add_of_le hin.1
    rw [store_in (by omega), h j (by omega), Nat.add_assoc, copy_in (by omega)]
  · rw [store_out (by omega)]
    by_cases hlow : a ≤ i ∧ i < a + n
    · obtain ⟨j, rfl⟩ := Nat.exists_eq_add_of_le hlow.1
      rw [copy_in (by omega), copy_in (by omega)]
    · rw [copy_out hlow, copy_out (by omega)]

/-- A byte written in front of the bytes copied goes on with them. -/
theorem store_copy_front : store (copy m (a + 1) (b + 1) n) a [m b] = copy m a b (n + 1) := by
  funext i
  by_cases ha : i = a
  · have hnew : store (copy m (a + 1) (b + 1) n) a [m b] (a + 0) = m b := store_in Nat.one_pos
    have hcopy : copy m a b (n + 1) (a + 0) = m (b + 0) := copy_in (Nat.succ_pos n)
    rw [ha]
    exact hnew.trans hcopy.symm
  · rw [store_out (by rw [List.length_singleton]; omega)]
    by_cases hin : a + 1 ≤ i ∧ i < a + 1 + n
    · obtain ⟨j, rfl⟩ := Nat.exists_eq_add_of_le hin.1
      rw [copy_in (by omega), Nat.add_assoc, Nat.add_assoc, copy_in (by omega)]
    · rw [copy_out hin, copy_out (by omega)]

/-! ## Words -/

/-- The little-endian word at `a`. -/
def word (m : Mem) (a : Nat) : Nat :=
  (load m a 8).foldr (fun b r => b.toNat + 256 * r) 0

/-- The eight bytes of `w`. -/
def wordBytes (w : Nat) : List UInt8 := (List.range 8).map fun i => UInt8.ofNat (w / 256 ^ i)

/-- The word `w` written at `a`. -/
def setWord (m : Mem) (a w : Nat) : Mem := store m a (wordBytes w)

theorem word_congr {m' : Mem} (h : ∀ i < 8, m' (a + i) = m (a + i)) : word m' a = word m a := by
  unfold word
  rw [load_congr h]

@[simp] theorem word_setWord {w : Nat} (h : w < 2 ^ 64) : word (setWord m a w) a = w := by
  unfold word setWord
  rw [load_store_self (by simp [wordBytes])]
  simp only [wordBytes, List.range_succ, List.range_zero, List.nil_append, List.cons_append,
    List.map_cons, List.map_nil, List.foldr_cons, List.foldr_nil, UInt8.toNat_ofNat']
  omega

theorem setWord_out {w : Nat} (h : i < a ∨ a + 8 ≤ i) : setWord m a w i = m i :=
  store_out (by simpa [wordBytes] using h)

attribute [irreducible] word setWord

end Mem

/-! ## Extents -/

/-- The bytes from `start` on, `len` of them. -/
structure Extent where
  start : Nat
  len : Nat
  deriving DecidableEq

namespace Extent

/-- No byte in common. -/
def Disj (x y : Extent) : Prop := x.start + x.len ≤ y.start ∨ y.start + y.len ≤ x.start

/-- Every byte of `x` is one of `y`. -/
def Within (x y : Extent) : Prop := y.start ≤ x.start ∧ x.start + x.len ≤ y.start + y.len

/-- The byte at `a` is one of `x`. -/
def Has (x : Extent) (a : Nat) : Prop := x.start ≤ a ∧ a < x.start + x.len

instance (x y : Extent) : Decidable (Disj x y) := inferInstanceAs (Decidable (_ ∨ _))
instance (x y : Extent) : Decidable (Within x y) := inferInstanceAs (Decidable (_ ∧ _))
instance (x : Extent) (a : Nat) : Decidable (Has x a) := inferInstanceAs (Decidable (_ ∧ _))

variable {x y z : Extent} {a : Nat}

theorem Disj.symm (h : Disj x y) : Disj y x := Or.symm h

theorem Within.refl (x : Extent) : Within x x := ⟨le_refl _, le_refl _⟩

theorem Disj.within (h : Disj x y) (hz : Within z x) : Disj z y := by
  unfold Disj Within at *
  omega

theorem Disj.not_has (h : Disj x y) (ha : x.Has a) : ¬ y.Has a := by
  unfold Disj Has at *
  omega

theorem Disj.not_self (hx : 0 < x.len) : ¬ Disj x x := by
  unfold Disj
  omega

end Extent
