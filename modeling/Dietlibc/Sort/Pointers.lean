import Dietlibc.Sort.Sorted

/-!
# `qsort` on pointers

An array of pointers is a function from indices to addresses. In memory it is the eight bytes of each
of them, which is what `qsort` moves; the comparator gets pointers to two of them.
-/

namespace Dietlibc.Sort

variable {σ : Type} {c : Nat → Nat → Int} {rand : σ → Nat × σ} {f : Nat → Nat} {n k : Nat} {s : σ}

/-- The bytes of the pointers. -/
def pointerMem (f : Nat → Nat) : Mem := fun a => (Mem.wordBytes (f (a / 8))).getD (a % 8) 0

/-- The pointer in eight bytes. -/
def pointer (x : List UInt8) : Nat := Mem.word (fun i => x.getD i 0) 0

/-- A comparator of pointers. -/
def pointers (c : Nat → Nat → Int) (rand : σ → Nat × σ) : Oracle σ where
  compar s x y := (c (pointer x) (pointer y), s)
  rand := rand

/-- `qsort(base,n,sizeof(void*),c)` -/
def qsortPointers (c : Nat → Nat → Int) (rand : σ → Nat × σ) (n : Nat) (f : Nat → Nat) (s : σ) :
    Except Stop ((Nat → Nat) × σ) :=
  (qsort (pointers c rand) n 8 (pointerMem f) s).map fun r => (fun k => pointer (elem 8 r.1 k), r.2)

theorem length_wordBytes (w : Nat) : (Mem.wordBytes w).length = 8 := by
  rw [Mem.wordBytes, List.length_map, List.length_range]

theorem pointer_wordBytes {w : Nat} (h : w < 2 ^ 64) : pointer (Mem.wordBytes w) = w := by
  refine Eq.trans ?_ (Mem.word_setWord (m := fun _ => 0) (a := 0) h)
  refine Mem.word_congr fun i hi => ?_
  unfold Mem.setWord
  have hin := Mem.store_in (m := fun _ => 0) (a := 0) (d := Mem.wordBytes w) (i := i)
    (by rwa [length_wordBytes])
  simpa only [Nat.zero_add] using hin.symm

theorem elem_pointerMem (f : Nat → Nat) (k : Nat) : elem 8 (pointerMem f) k = Mem.wordBytes (f k) := by
  refine List.ext_getElem (by rw [elem, Mem.length_load, length_wordBytes]) fun i hi hi' => ?_
  rw [elem, Mem.length_load] at hi
  have hdiv : (k * 8 + i) / 8 = k := by omega
  have hmod : (k * 8 + i) % 8 = i := by omega
  refine Option.some.inj ?_
  rw [← List.getElem?_eq_getElem, ← List.getElem?_eq_getElem, elem, Mem.getElem?_load hi, pointerMem,
    hdiv, hmod, List.getD_eq_getElem?_getD, List.getElem?_eq_getElem hi', Option.getD_some]

/-- The pointers are the same ones, and in order if the comparator orders them. -/
theorem qsortPointers_spec (hflip : ∀ x y, c x y < 0 ↔ 0 < c y x)
    (htrans : ∀ x y z, c x y ≤ 0 → c y z ≤ 0 → c x z ≤ 0) (hn : n < 2 ^ 63 - 1)
    (hf : ∀ k < n, f k < 2 ^ 64) (s : σ) :
    ∃ f' s', qsortPointers c rand n f s = .ok (f', s') ∧
      ((List.range n).map f').Perm ((List.range n).map f) ∧
      ∀ i j, i ≤ j → j < n → c (f' i) (f' j) ≤ 0 := by
  have hpre : Preorders (pointers c rand) fun x y => c (pointer x) (pointer y) :=
    ⟨fun _ _ _ => rfl, fun x y => hflip _ _, fun x y z => htrans _ _ _⟩
  obtain ⟨m', s', hrun, hmoved, hsorted⟩ := qsort_run hpre.compatible hn
    (show 8 < 2 ^ 63 - 1 by decide) (pointerMem f) s
  refine ⟨fun k => pointer (elem 8 m' k), s', by rw [qsortPointers, hrun]; rfl, ?_, ?_⟩
  · have hperm := hmoved.perm.map pointer
    have hmap : (elems n 8 (pointerMem f)).map pointer = (List.range n).map f := by
      rw [elems, List.map_map]
      refine List.map_congr_left fun k hk => ?_
      rw [Function.comp_apply, elem_pointerMem, pointer_wordBytes (hf k (List.mem_range.mp hk))]
    rwa [hmap, elems, List.map_map] at hperm
  · exact fun i j hij hj => hsorted _ hpre i j (Nat.zero_le i) hij hj

end Dietlibc.Sort
