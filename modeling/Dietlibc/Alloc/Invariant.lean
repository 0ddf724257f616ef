import Dietlibc.Alloc.Malloc
import Dietlibc.Base.Links

/-!
# The heap invariant

A *slot* is a block somebody owns: the program (`used p`, its header at `p - 16`) or the free
list of a class (`free idx b`). `Inv h live frees` says that the lists `frees idx` hang off
`__small_mem[idx]`, that every slot lies in a mapped region, that slots share no byte, and that
each slot is well formed in its own right: a used one has room for what was requested, a free
one is zero behind its `next` word.

Everything the allocator does replaces slots by others over the same bytes, or over a region
just mapped, or gives a region back. `Inv.change` is the one argument about all of these.
-/

namespace Dietlibc.Alloc

open Extent

/-! ## Size classes -/

theorem le_indexLoop (n i : Nat) : i ≤ indexLoop n i := by
  induction n using Nat.strong_induction_on generalizing i with
  | _ n ih =>
    unfold indexLoop
    split
    · exact le_refl i
    · exact le_trans (Nat.le_succ i) (ih (n / 2) (by omega) (i + 1))

theorem indexLoop_le_iff (n i k : Nat) : indexLoop n i ≤ i + k ↔ n < 2 ^ k := by
  induction k generalizing n i with
  | zero =>
    unfold indexLoop
    split
    · simp_all
    · have := le_indexLoop (n / 2) (i + 1)
      simp only [Nat.pow_zero]
      omega
  | succ k ih =>
    unfold indexLoop
    split
    · have := Nat.two_pow_pos (k + 1)
      omega
    · have := ih (n / 2) (i + 1)
      rw [Nat.pow_succ]
      omega

/-- The class of a request is the first one it fits. -/
theorem getIndex_le_iff {s : Nat} (h1 : 1 ≤ s) (h2 : s ≤ 4096) (k : Nat) :
    getIndex s ≤ k ↔ s ≤ classSize k := by
  have hu : CInt.usub 64 s 1 = s - 1 := CInt.usub_of_le h1 (by omega)
  unfold getIndex classSize
  rw [hu, Nat.mod_eq_of_lt (by omega)]
  have := indexLoop_le_iff ((s - 1) / 16) 0 k
  rw [Nat.zero_add] at this
  rw [this]
  omega

theorem classSize_mono {i j : Nat} (h : i ≤ j) : classSize i ≤ classSize j :=
  Nat.mul_le_mul_left 16 (Nat.pow_le_pow_right (by decide) h)

theorem classSize_ge (i : Nat) : 16 ≤ classSize i := classSize_mono (Nat.zero_le i)

theorem classSize_le {i : Nat} (h : i < 8) : classSize i ≤ 2048 := classSize_mono (Nat.le_pred_of_lt h)

theorem classSize_lt {i j : Nat} (h : i < j) : classSize i < classSize j := by
  have := classSize_mono (Nat.succ_le_of_lt h)
  have := classSize_ge i
  simp only [classSize, Nat.pow_succ] at *
  omega

/-- A page is cut into blocks of a class without rest. -/
theorem classSize_dvd {i : Nat} (h : i < 8) : 4096 / classSize i * classSize i = 4096 := by
  interval_cases i <;> rfl

theorem getIndex_lt {s : Nat} (h1 : 1 ≤ s) (h2 : s ≤ 2048) : getIndex s < 8 :=
  Nat.lt_succ_of_le ((getIndex_le_iff h1 (by omega) 7).mpr h2)

theorem le_getSize {s : Nat} (h1 : 1 ≤ s) (h2 : s ≤ 2048) : s ≤ getSize s :=
  (getIndex_le_iff h1 (by omega) _).mp (le_refl _)

theorem getIndex_classSize {i : Nat} (h : i < 8) : getIndex (classSize i) = i := by
  have h1 := classSize_ge i
  have h2 := classSize_le h
  have hle := (getIndex_le_iff (s := classSize i) (by omega) (by omega) i).mpr (le_refl _)
  have hge := (getIndex_le_iff (s := classSize i) (by omega) (by omega) _).mp (le_refl _)
  by_contra hne
  have := classSize_lt (lt_of_le_of_ne hle hne)
  omega

/-- `PAGE_ALIGN` rounds up, or wraps to zero. -/
theorem pageAlign_cases {s : Nat} (h : s < 2 ^ 64) :
    pageAlign s = 0 ∨ (s ≤ pageAlign s ∧ 4096 ∣ pageAlign s ∧ pageAlign s < 2 ^ 64) := by
  unfold pageAlign
  by_cases hw : s + 4095 < 2 ^ 64
  · rw [Nat.mod_eq_of_lt hw]
    exact .inr ⟨by omega, Nat.dvd_mul_left _ _, by omega⟩
  · left
    omega

/-! ## Slots -/

inductive Slot where
  | used (p : Nat)
  | free (idx b : Nat)

/-- The bytes of a slot, header included. -/
def Slot.extent (m : Mem) : Slot → Extent
  | .used p => ⟨p - 16, m.word (p - 16 + 8)⟩
  | .free idx b => ⟨b, classSize idx⟩

/-- The slots there are. -/
def Holds (live : Nat → Nat) (frees : Nat → List Nat) : Slot → Prop
  | .used p => live p ≠ 0
  | .free idx b => b ∈ frees idx

variable {κ : Type} {h h' : Heap κ} {live live' : Nat → Nat} {frees frees' : Nat → List Nat}

/-- The size in the header: that of a class, or that of a mapping. -/
def SizeOk (h : Heap κ) (x : Extent) : Prop :=
  (∃ i < 8, x.len = classSize i) ∨ (2048 < x.len ∧ 4096 ∣ x.len ∧ x ∈ h.maps)

/-- A slot is well formed. -/
def SlotOk (h : Heap κ) (live : Nat → Nat) : Slot → Prop
  | .used p => 16 ≤ p ∧ live p + 16 ≤ h.mem.word (p - 16 + 8) ∧
    SizeOk h ((Slot.used p).extent h.mem)
  | .free idx b => idx < 8 ∧ ∀ k, 8 ≤ k → k < classSize idx → h.mem (b + k) = 0

structure Inv (h : Heap κ) (live : Nat → Nat) (frees : Nat → List Nat) : Prop where
  maps_ok : ∀ r ∈ h.maps, 0 < r.start ∧ r.start + r.len ≤ 2 ^ 64 ∧ 0 < r.len
  maps_disj : h.maps.Pairwise Disj
  links : ∀ i, Links h.mem.word 0 (h.smallMem i) (frees i)
  slot : ∀ x, Holds live frees x → SlotOk h live x
  within : ∀ x, Holds live frees x → ∃ r ∈ h.maps, (x.extent h.mem).Within r
  disj : ∀ x y, Holds live frees x → Holds live frees y → x ≠ y →
    Disj (x.extent h.mem) (y.extent h.mem)

/-- What a step that does not concern the slot `x` leaves of it. -/
structure Same (h h' : Heap κ) (live live' : Nat → Nat) (x : Slot) : Prop where
  bytes : ∀ a, (x.extent h.mem).Has a → h'.mem a = h.mem a
  maps : x.extent h.mem ∈ h.maps → x.extent h.mem ∈ h'.maps
  live : ∀ p, x = .used p → live' p = live p

theorem SlotOk.len_ge {x : Slot} (hx : SlotOk h live x) : 16 ≤ (x.extent h.mem).len := by
  cases x with
  | used p => exact le_trans (Nat.le_add_left _ _) hx.2.1
  | free idx b => exact classSize_ge idx

theorem Same.extent {x : Slot} (hs : Same h h' live live' x) (hx : SlotOk h live x) :
    x.extent h'.mem = x.extent h.mem := by
  have hlen := hx.len_ge
  cases x with
  | used p =>
    have hw : h'.mem.word (p - 16 + 8) = h.mem.word (p - 16 + 8) := by
      refine Mem.word_congr fun i hi => hs.bytes _ ?_
      simp only [Slot.extent, Has] at hlen ⊢
      omega
    simp only [Slot.extent, hw]
  | free idx b => rfl

theorem Same.slot {x : Slot} (hs : Same h h' live live' x) (hx : SlotOk h live x) :
    SlotOk h' live' x := by
  have he := hs.extent hx
  cases x with
  | used p =>
    obtain ⟨h16, hroom, hsize⟩ := hx
    have hw : h'.mem.word (p - 16 + 8) = h.mem.word (p - 16 + 8) := congrArg Extent.len he
    have hl := hs.live p rfl
    refine ⟨h16, by omega, ?_⟩
    rw [he]
    exact hsize.imp id fun ⟨h1, h2, h3⟩ => ⟨h1, h2, hs.maps h3⟩
  | free idx b =>
    obtain ⟨hidx, hz⟩ := hx
    refine ⟨hidx, fun k h8 hk => ?_⟩
    rw [hs.bytes (b + k) ⟨Nat.le_add_right b k, Nat.add_lt_add_left hk b⟩]
    exact hz k h8 hk

/-- **The step rule.** The slots after a step are the slots `new`, and old ones that the step
leaves alone and that share no byte with a new one. -/
theorem Inv.change (hi : Inv h live frees) (new : Slot → Prop)
    (hmo : ∀ r ∈ h'.maps, 0 < r.start ∧ r.start + r.len ≤ 2 ^ 64 ∧ 0 < r.len)
    (hmd : h'.maps.Pairwise Disj)
    (hl : ∀ i, Links h'.mem.word 0 (h'.smallMem i) (frees' i))
    (hnew : ∀ x, new x → SlotOk h' live' x ∧ ∃ r ∈ h'.maps, (x.extent h'.mem).Within r)
    (hnd : ∀ x y, new x → new y → x ≠ y → Disj (x.extent h'.mem) (y.extent h'.mem))
    (hold : ∀ x, Holds live' frees' x → ¬ new x → Holds live frees x ∧ Same h h' live live' x ∧
      (∃ r ∈ h'.maps, (x.extent h.mem).Within r) ∧
      ∀ y, new y → Disj (y.extent h'.mem) (x.extent h.mem)) :
    Inv h' live' frees' := by
  refine ⟨hmo, hmd, hl, fun x hx => ?_, fun x hx => ?_, fun x y hx hy hne => ?_⟩
  · by_cases hn : new x
    · exact (hnew x hn).1
    · obtain ⟨ho, hs, -⟩ := hold x hx hn
      exact hs.slot (hi.slot x ho)
  · by_cases hn : new x
    · exact (hnew x hn).2
    · obtain ⟨ho, hs, hr, -⟩ := hold x hx hn
      rw [hs.extent (hi.slot x ho)]
      exact hr
  · by_cases hnx : new x <;> by_cases hny : new y
    · exact hnd x y hnx hny hne
    · obtain ⟨ho, hs, -, hd⟩ := hold y hy hny
      rw [hs.extent (hi.slot y ho)]
      exact hd x hnx
    · obtain ⟨ho, hs, -, hd⟩ := hold x hx hnx
      rw [hs.extent (hi.slot x ho)]
      exact (hd y hny).symm
    · obtain ⟨hox, hsx, -⟩ := hold x hx hnx
      obtain ⟨hoy, hsy, -⟩ := hold y hy hny
      rw [hsx.extent (hi.slot x hox), hsy.extent (hi.slot y hoy)]
      exact hi.disj x y hox hoy hne

end Dietlibc.Alloc
