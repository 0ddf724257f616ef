import Dietlibc.Alloc.Steps

/-!
# The calls of the allocator

What `malloc`, `free` and `realloc` do to a heap that satisfies the invariant, and from that
the three guarantees over every run: blocks never overlap, `calloc` hands out zeros although it
clears nothing, and `realloc` keeps contents and fails without effect.
-/

namespace Dietlibc.Alloc

open Extent

variable {κ : Type} {K : Kernel κ} {h h' h'' : Heap κ} {live : Nat → Nat}
  {frees : Nat → List Nat} {p q size : Nat}

/-- The block at `q` has its bytes, header included. -/
def KeptAt (h h' : Heap κ) (q : Nat) : Prop :=
  ∀ a, ((Slot.used q).extent h.mem).Has a → h'.mem a = h.mem a

/-- Every live block has its bytes. -/
def Kept (h h' : Heap κ) (live : Nat → Nat) : Prop := ∀ q, live q ≠ 0 → KeptAt h h' q

/-- A call that failed: only `errno` and the kernel's own state may differ. -/
structure Untouched (h h' : Heap κ) : Prop where
  mem : h'.mem = h.mem
  smallMem : h'.smallMem = h.smallMem
  maps : h'.maps = h.maps

theorem Inv.untouched (hi : Inv h live frees) (hu : Untouched h h') : Inv h' live frees := by
  obtain ⟨mem', sm', maps', e', k'⟩ := h'
  obtain ⟨hm, hs, hp⟩ := hu
  simp only at hm hs hp
  subst hm hs hp
  exact ⟨hi.maps_ok, hi.maps_disj, hi.links, hi.slot, hi.within, hi.disj⟩

theorem Inv.room (hi : Inv h live frees) (hq : live q ≠ 0) :
    16 ≤ q ∧ live q + 16 ≤ h.mem.word (q - 16 + 8) :=
  ⟨(hi.slot (.used q) hq).1, (hi.slot (.used q) hq).2.1⟩

theorem KeptAt.trans (hlen : 16 ≤ h.mem.word (q - 16 + 8)) (hk : KeptAt h h' q)
    (hk' : KeptAt h' h'' q) : KeptAt h h'' q := by
  have hw : h'.mem.word (q - 16 + 8) = h.mem.word (q - 16 + 8) := by
    refine Mem.word_congr fun i hi => hk _ ?_
    simp only [Slot.extent, Has]
    omega
  intro a ha
  rw [← hk a ha]
  refine hk' a ?_
  simpa only [Slot.extent, hw] using ha

theorem Kept.trans (hi : Inv h live frees) (hk : Kept h h' live) (hk' : Kept h' h'' live) :
    Kept h h'' live :=
  fun q hq => (hk q hq).trans (by have := hi.room hq; omega) (hk' q hq)

/-- A step that writes only to `e` keeps the blocks that share no byte with `e`. -/
theorem kept_of_disj {e : Extent} (hout : ∀ a, ¬ e.Has a → h'.mem a = h.mem a)
    (hd : ∀ q, live q ≠ 0 → Disj ((Slot.used q).extent h.mem) e) : Kept h h' live :=
  fun q hq a ha => hout a ((hd q hq).not_has ha)

/-- The bytes requested for a live block lie in it. -/
theorem Inv.has_byte (hi : Inv h live frees) (hq : live q ≠ 0) {k : Nat} (hk : k < live q) :
    ((Slot.used q).extent h.mem).Has (q + k) := by
  have := hi.room hq
  simp only [Slot.extent, Has]
  omega

/-- An allocation of `size` bytes that answered `p`. -/
structure Got (h h' : Heap κ) (live : Nat → Nat) (size p : Nat) : Prop where
  ne : p ≠ 0
  fresh : live p = 0
  inv : ∃ frees', Inv h' (Function.update live p size) frees'
  kept : Kept h h' live
  zero : ∀ k < size, h'.mem (p + k) = 0

/-! ## `malloc` -/

theorem takeBlock_got (hi : Inv h live frees) {i b : Nat} {t : List Nat} (hf : frees i = b :: t)
    (hroom : size + 16 ≤ classSize i) :
    Got h { (takeBlock i h).2 with
      mem := (takeBlock i h).2.mem.setWord ((takeBlock i h).1 + 8) (classSize i) }
      live size ((takeBlock i h).1 + 16) := by
  have hl := hi.links i
  rw [hf] at hl
  have hb : Holds live frees (.free i b) := by
    show b ∈ frees i
    rw [hf]
    exact List.mem_cons_self
  obtain ⟨-, hz⟩ := hi.slot _ hb
  simp only [takeBlock, hl.uncons.1]
  refine ⟨by omega, ?_, ⟨_, hi.pop hf hroom⟩, ?_, fun k hk => ?_⟩
  · by_contra hne
    have hu : Holds live frees (.used (b + 16)) := hne
    have hd := hi.disj _ _ hu hb (by rintro ⟨⟩)
    have hlen := (hi.slot _ hu).len_ge
    simp only [Slot.extent, Disj, Nat.add_sub_cancel] at hd hlen
    omega
  · refine kept_of_disj (e := ⟨b, classSize i⟩) (fun a ha => ?_)
      fun q hq => hi.disj (.used q) _ hq hb (by rintro ⟨⟩)
    simp only [Extent.Has] at ha
    show (h.mem.setWord b 0).setWord (b + 8) (classSize i) a = h.mem a
    rw [Mem.setWord_out (by omega), Mem.setWord_out (by omega)]
  · show (h.mem.setWord b 0).setWord (b + 8) (classSize i) (b + 16 + k) = 0
    rw [Mem.setWord_out (by omega), Mem.setWord_out (by omega), Nat.add_assoc]
    exact hz (16 + k) (by omega) (by omega)

theorem doMmap_cases (size : Nat) (h : Heap κ) :
    (∃ h', doMmap K size h = (none, h') ∧ Untouched h h') ∨
      ∃ a k, doMmap K size h = (some a, { h with
        mem := h.mem.fill a size 0, maps := ⟨a, size⟩ :: h.maps, kern := k }) ∧
        Free h.maps a size := by
  unfold doMmap
  rcases hm : K.mmap h.kern h.maps size with ⟨_ | a, k⟩
  · exact .inl ⟨_, rfl, rfl, rfl, rfl⟩
  · exact .inr ⟨a, k, rfl, K.mmap_free _ _ _ _ _ hm⟩

theorem smallMalloc_cases (hi : Inv h live frees) {i : Nat} (hi8 : i < 8)
    (hroom : size + 16 ≤ classSize i) :
    (∃ h', smallMalloc K (classSize i) h = (none, h') ∧ Untouched h h') ∨
      ∃ ptr h', smallMalloc K (classSize i) h = (some ptr, h') ∧
        Got h { h' with mem := h'.mem.setWord (ptr + 8) (classSize i) } live size (ptr + 16) := by
  unfold smallMalloc
  simp only [getIndex_classSize hi8]
  split
  · rename_i hhead
    have hnil : frees i = [] := by
      have hl := hi.links i
      rw [hhead] at hl
      exact hl.head_nil
    rcases doMmap_cases (K := K) 4096 h with ⟨h1, he, hu⟩ | ⟨pg, k, he, hfree⟩
    · exact .inl ⟨h1, by rw [he], hu⟩
    · right
      rw [he]
      let h1 : Heap κ := { h with
        mem := cutPage i pg h.mem
        maps := ⟨pg, 4096⟩ :: h.maps
        smallMem := Function.update h.smallMem i pg
        kern := k }
      have hc : Inv h1 live _ := hi.cut hi8 hnil hfree rfl rfl rfl
      have hk : Kept h h1 live := kept_of_disj
        (fun a ha => cutPage_out hi8 hfree.addr_pos hfree.fits h.mem ha)
        fun q hq => hi.off_region hfree (x := .used q) hq
      have hhead1 : h1.smallMem i ≠ 0 := by
        simp only [h1, Function.update_self]
        exact Nat.pos_iff_ne_zero.mp hfree.addr_pos
      obtain ⟨t, hf, -⟩ := (hc.links i).head_ne hhead1
      have hg := takeBlock_got hc hf hroom
      exact ⟨_, _, rfl, hg.ne, hg.fresh, hg.inv, hk.trans hi hg.kept, hg.zero⟩
  · rename_i hhead
    obtain ⟨t, hf, -⟩ := (hi.links i).head_ne hhead
    exact .inr ⟨_, _, rfl, takeBlock_got hi hf hroom⟩

theorem wrap_add {n : Nat} (hs : n < 2 ^ 64) (hw : ¬ (n + 16) % 2 ^ 64 < 16) :
    (n + 16) % 2 ^ 64 = n + 16 ∧ n + 16 < 2 ^ 64 := by
  omega

/-- No live block starts in a region the kernel may hand out. -/
theorem Inv.not_live (hi : Inv h live frees) {a len : Nat} (hfree : Free h.maps a len) :
    live (a + 16) = 0 := by
  by_contra hne
  have hd := hi.off_region hfree (x := .used (a + 16)) hne
  have hlen := (hi.slot (.used (a + 16)) hne).len_ge
  have hpos := hfree.len_pos
  simp only [Slot.extent, Disj, Nat.add_sub_cancel] at hd hlen
  omega

theorem getBlock_cases (hi : Inv h live frees) (hlt : size + 16 < 2 ^ 64) :
    (∃ need h', getBlock K (size + 16) h = (need, none, h') ∧ Untouched h h') ∨
      ∃ need ptr h', getBlock K (size + 16) h = (need, some ptr, h') ∧
        Got h { h' with mem := h'.mem.setWord (ptr + 8) need } live size (ptr + 16) := by
  unfold getBlock
  split
  · rename_i hsm
    have hcl := le_getSize (s := size + 16) (by omega) hsm
    have hidx := getIndex_lt (s := size + 16) (by omega) hsm
    unfold getSize at hcl ⊢
    rcases smallMalloc_cases (K := K) hi hidx hcl with ⟨h1, he1, hu⟩ | ⟨ptr, h1, he1, hg⟩
    · exact .inl ⟨_, h1, by rw [he1], hu⟩
    · exact .inr ⟨_, ptr, h1, by rw [he1], hg⟩
  · rename_i hbig
    split
    · exact .inl ⟨_, h, rfl, rfl, rfl, rfl⟩
    · rename_i hnz
      obtain ⟨hge, hdvd, hlt'⟩ := (pageAlign_cases hlt).resolve_left hnz
      generalize pageAlign (size + 16) = need at *
      rcases doMmap_cases (K := K) need h with ⟨h1, he1, hu⟩ | ⟨a, k, he1, hfree⟩
      · exact .inl ⟨_, h1, by rw [he1], hu⟩
      · have hout : ∀ x, ¬ Extent.Has ⟨a, need⟩ x →
            (h.mem.fill a need 0).setWord (a + 8) need x = h.mem x := by
          intro x hx
          rw [Mem.setWord_out (by simp only [Extent.Has] at hx; omega), Mem.fill_out hx]
        refine .inr ⟨_, a, _, by rw [he1], by omega, hi.not_live hfree, ⟨frees, ?_⟩, ?_,
          fun j hj => ?_⟩
        · exact hi.claim hfree (by omega) hdvd hge rfl rfl hout (Mem.word_setWord hlt')
        · exact kept_of_disj hout fun q hq => hi.off_region hfree (x := .used q) hq
        · show (h.mem.fill a need 0).setWord (a + 8) need (a + 16 + j) = 0
          rw [Mem.setWord_out (by omega), Mem.fill_in (by omega)]

theorem malloc_cases (hi : Inv h live frees) (hs : size < 2 ^ 64) :
    (∃ h', allocLibcMalloc K size h = (0, h') ∧ Untouched h h') ∨
      ∃ p h', allocLibcMalloc K size h = (p, h') ∧ size ≠ 0 ∧ Got h h' live size p := by
  unfold allocLibcMalloc
  split
  · exact .inl ⟨_, rfl, rfl, rfl, rfl⟩
  · rename_i h0
    split
    · exact .inl ⟨_, rfl, rfl, rfl, rfl⟩
    · rename_i hw
      obtain ⟨he, hlt⟩ := wrap_add hs hw
      rw [he]
      rcases getBlock_cases (K := K) hi hlt with ⟨need, h1, he1, hu⟩ | ⟨need, ptr, h1, he1, hg⟩
      · rw [he1]
        exact .inl ⟨{ h1 with errno := enomem }, rfl, hu.mem, hu.smallMem, hu.maps⟩
      · exact .inr ⟨_, _, by rw [he1], h0, hg⟩

/-! ## `free` and `realloc` -/

theorem free_spec (hi : Inv h live frees) (hp : live p ≠ 0) :
    (∃ frees', Inv (allocLibcFree p h) (release live p) frees') ∧
      Kept h (allocLibcFree p h) (release live p) := by
  have hx : Holds live frees (.used p) := hp
  obtain ⟨h16, hroom, hsize⟩ := hi.slot _ hx
  have hd : ∀ q, release live p q ≠ 0 →
      Disj ((Slot.used q).extent h.mem) ((Slot.used p).extent h.mem) := by
    intro q hq
    obtain ⟨hq', hne⟩ := holds_release (show Holds (release live p) frees (.used q) from hq)
    exact hi.disj _ _ hq' hx hne
  unfold allocLibcFree
  simp only
  rw [if_neg (by omega), if_neg (by omega)]
  split
  · rename_i hsm
    obtain ⟨i, hi8, he⟩ : ∃ i < 8, h.mem.word (p - 16 + 8) = classSize i := by
      rcases hsize with hc | ⟨hbig, -⟩
      · exact hc
      · simp only [Slot.extent] at hbig
        omega
    have hge := classSize_ge i
    unfold smallFree
    simp only [he, getIndex_classSize hi8]
    refine ⟨⟨_, hi.push hp hi8 he⟩, kept_of_disj (fun a ha => ?_) hd⟩
    simp only [Slot.extent, Extent.Has, he] at ha
    show (h.mem.fill (p - 16) (classSize i) 0).setWord (p - 16) (h.smallMem i) a = h.mem a
    rw [Mem.setWord_out (by omega), Mem.fill_out ha]
  · exact ⟨⟨frees, hi.unmap hp⟩, fun q hq a ha => rfl⟩

/-- A `realloc` of `p` to `size` bytes that answered `q`. -/
structure Moved (h h' : Heap κ) (live : Nat → Nat) (p size q : Nat) : Prop where
  ne : q ≠ 0
  fresh : q = p ∨ live q = 0
  inv : ∃ frees', Inv h' (Function.update (release live p) q size) frees'
  bytes : ∀ k < min (live p) size, h'.mem (q + k) = h.mem (p + k)
  kept : Kept h h' (release live p)

theorem reallocSmall_cases (hi : Inv h live frees) (hp : live p ≠ 0) (hs : size < 2 ^ 64) :
    (∃ h', reallocSmall K p size h = (0, h') ∧ Untouched h h') ∨
      ∃ q h', reallocSmall K p size h = (q, h') ∧ Moved h h' live p size q := by
  unfold reallocSmall
  rcases malloc_cases (K := K) hi hs with ⟨h1, he1, hu⟩ | ⟨q, h1, he1, h0, hg⟩
  · exact .inl ⟨h1, by rw [he1]; rfl, hu⟩
  · obtain ⟨frees1, hi1⟩ := hg.inv
    have hpq : p ≠ q := fun e => hp (e ▸ hg.fresh)
    have hlq : Function.update live q size q = size := Function.update_self ..
    have hlp : Function.update live q size p = live p := Function.update_of_ne hpq ..
    have hq0 : Function.update live q size q ≠ 0 := by rw [hlq]; exact h0
    have hp0 : Function.update live q size p ≠ 0 := by rw [hlp]; exact hp
    have hrq := hi1.room hq0
    have hrp := hi1.room hp0
    simp only [he1]
    rw [if_neg hg.ne, if_pos (by omega)]
    generalize hn : min (h1.mem.word (q - 16 + 8)) (h1.mem.word (p - 16 + 8)) - 16 = n
    -- the copy stays behind the header of the new block
    have hcopy : ∀ a, ¬ (q ≤ a ∧ a < q - 16 + h1.mem.word (q - 16 + 8)) →
        h1.mem.copy q p n a = h1.mem a := fun a ha => Mem.copy_out (by omega)
    have hi2 : Inv { h1 with mem := h1.mem.copy q p n } (Function.update live q size) frees1 := by
      rw [← Function.update_eq_self q (Function.update live q size)]
      exact hi1.rewrite hq0 hrq.2 rfl rfl hcopy
    obtain ⟨⟨frees3, hi3⟩, hk3⟩ := free_spec hi2 hp0
    have hrel : release (Function.update live q size) p = Function.update (release live p) q size :=
      Function.update_comm hpq.symm ..
    rw [hrel] at hi3 hk3
    refine .inr ⟨q, _, rfl, hg.ne, .inr hg.fresh, ⟨frees3, hi3⟩, fun k hk => ?_, fun r hr => ?_⟩
    · rw [hk3 q (by rw [Function.update_self]; exact h0) (q + k)
        (hi2.has_byte hq0 (by rw [hlq]; omega))]
      show h1.mem.copy q p n (q + k) = h.mem (p + k)
      rw [Mem.copy_in (by omega)]
      exact hg.kept p hp (p + k) (hi.has_byte hp (by omega))
    · obtain ⟨hlr, hrp'⟩ := holds_release (show Holds (release live p) frees (.used r) from hr)
      have hrq' : r ≠ q := fun e => hlr (e ▸ hg.fresh)
      have hr1 : Function.update live q size r ≠ 0 := by
        rw [Function.update_of_ne hrq']
        exact hlr
      have hd := hi1.disj (.used r) (.used q) hr1 hq0 fun e => hrq' (Slot.used.inj e)
      have hlen := hi.room hlr
      refine (hg.kept r hlr).trans (by omega) (KeptAt.trans ?_ (fun a ha => hcopy a ?_)
        (hk3 r (by rw [Function.update_of_ne hrq']; exact hr)))
      · have := hi1.room hr1
        omega
      · have := hd.not_has ha
        simp only [Slot.extent, Has] at this
        omega

theorem pageAlign_dvd (s : Nat) : 4096 ∣ pageAlign s := Nat.dvd_mul_left _ _

/-- The size a block of `n` bytes gets, header included: `0` where the rounding wraps. -/
def needFor (n : Nat) : Nat := if n ≤ 2048 then getSize n else pageAlign n

theorem needFor_cases {n : Nat} (h1 : 1 ≤ n) (hn : n < 2 ^ 64) :
    needFor n < 2 ^ 64 ∧ (needFor n = 0 ∨ n ≤ needFor n) := by
  unfold needFor
  split
  · rename_i hsm
    have := classSize_le (getIndex_lt h1 hsm)
    exact ⟨by unfold getSize; omega, .inr (le_getSize h1 hsm)⟩
  · rcases pageAlign_cases hn with h0 | ⟨hge, -, hlt⟩
    · exact ⟨by omega, .inl h0⟩
    · exact ⟨hlt, .inr hge⟩

/-- Rounding once more changes nothing of that. -/
theorem pageAlign_needFor {n : Nat} (h1 : 1 ≤ n) (hn : n < 2 ^ 64) :
    pageAlign (needFor n) = 0 ∨ n ≤ pageAlign (needFor n) := by
  obtain ⟨hlt, h0 | hge⟩ := needFor_cases h1 hn
  · left
    rw [h0]
    rfl
  · rcases pageAlign_cases hlt with h0 | ⟨hge', -⟩
    · exact .inl h0
    · exact .inr (by omega)

theorem reallocLarge_cases (hi : Inv h live frees) (hp : live p ≠ 0) {need : Nat}
    (hn : pageAlign need = 0 ∨ size + 16 ≤ pageAlign need) :
    (∃ h', reallocLarge K p need h = (0, h') ∧ Untouched h h') ∨
      ∃ q h', reallocLarge K p need h = (q, h') ∧ Moved h h' live p size q := by
  unfold reallocLarge mremap
  have hdvd := pageAlign_dvd need
  have hlt : pageAlign need < 2 ^ 64 := by unfold pageAlign; omega
  generalize pageAlign need = len at *
  obtain ⟨h16, hroom⟩ := hi.room hp
  rcases hm : K.mremap h.kern h.maps ⟨p - 16, h.mem.word (p - 16 + 8)⟩ len with ⟨_ | a, k⟩
  · exact .inl ⟨{ h with errno := enomem, kern := k }, rfl, rfl, rfl, rfl⟩
  · have hfree := K.mremap_free _ _ _ _ _ _ hm
    have hpos := hfree.len_pos
    have hi1 := hi.unmap hp
    have hout : ∀ x, ¬ Extent.Has ⟨a, len⟩ x → Mem.setWord (fun i =>
        if a ≤ i ∧ i < a + len then
          if i - a < h.mem.word (p - 16 + 8) then h.mem (p - 16 + (i - a)) else 0
        else h.mem i) (a + 8) len x = h.mem x := by
      intro x hx
      simp only [Extent.Has] at hx
      rw [Mem.setWord_out (by omega), if_neg hx]
    refine .inr ⟨a + 16, _, rfl, by omega, ?_, ⟨frees, ?_⟩, fun j hj => ?_, ?_⟩
    · by_cases he : a + 16 = p
      · exact .inl he
      · right
        have := hi1.not_live hfree
        rwa [release, Function.update_of_ne he] at this
    · exact hi1.claim hfree (by omega) hdvd (by omega) rfl rfl hout (Mem.word_setWord hlt)
    · show Mem.setWord _ (a + 8) len (a + 16 + j) = h.mem (p + j)
      rw [Mem.setWord_out (by omega)]
      dsimp only
      rw [if_pos (by omega), if_pos (by omega)]
      congr 1
      omega
    · exact kept_of_disj hout fun q hq => hi1.off_region hfree (x := .used q) hq

theorem realloc_cases (hi : Inv h live frees) (hp : live p ≠ 0) (h0 : size ≠ 0)
    (hs : size < 2 ^ 64) :
    (∃ h', libcRealloc K p size h = (0, h') ∧ Untouched h h') ∨
      ∃ q h', libcRealloc K p size h = (q, h') ∧ Moved h h' live p size q := by
  obtain ⟨h16, hroom⟩ := hi.room hp
  unfold libcRealloc
  rw [if_neg (by omega), if_neg h0]
  dsimp only
  split
  · exact .inl ⟨_, rfl, rfl, rfl, rfl⟩
  · rename_i hw
    obtain ⟨he, hlt⟩ := wrap_add hs hw
    rw [he]
    have hneed := needFor_cases (n := size + 16) (by omega) hlt
    have hpage := pageAlign_needFor (n := size + 16) (by omega) hlt
    rw [show (if size + 16 ≤ 2048 then getSize (size + 16) else pageAlign (size + 16)) =
      needFor (size + 16) from rfl]
    generalize needFor (size + 16) = need at *
    split
    · rename_i hsame
      -- the block is big enough as it is
      have hinv : Inv h (Function.update live p size) frees :=
        hi.rewrite hp (by omega) rfl rfl fun _ _ => rfl
      have hrel : Function.update (release live p) p size = Function.update live p size :=
        Function.update_idem ..
      exact .inr ⟨p, h, rfl, by omega, .inl rfl, ⟨frees, by rw [hrel]; exact hinv⟩,
        fun _ _ => rfl, fun _ _ _ _ => rfl⟩
    · split
      · exact reallocSmall_cases hi hp hs
      · exact reallocLarge_cases hi hp hpage

/-! ## Runs -/

theorem Inv.store (hi : Inv h live frees) {off : Nat} {data : List UInt8}
    (hv : off + data.length ≤ live p) :
    Inv { h with mem := h.mem.store (p + off) data } live frees := by
  by_cases hp : live p = 0
  · have hnil : data = [] := List.length_eq_zero_iff.mp (by omega)
    rw [hnil, Mem.store_nil]
    exact hi
  · obtain ⟨h16, hroom⟩ := hi.room hp
    rw [← Function.update_eq_self p live]
    exact hi.rewrite hp hroom rfl rfl fun a ha => Mem.store_out (by omega)

theorem release_zero (hi : Inv h live frees) : release live 0 = live := by
  have he := Function.update_eq_self 0 live
  rwa [hi.live_zero] at he

theorem malloc_inv (hi : Inv h live frees) (hs : size < 2 ^ 64) :
    ∃ frees', Inv (allocLibcMalloc K size h).2
      (grant live (allocLibcMalloc K size h).1 size) frees' := by
  rcases malloc_cases (K := K) hi hs with ⟨h', he, hu⟩ | ⟨q, h', he, -, hg⟩
  · rw [he]
    exact ⟨frees, hi.untouched hu⟩
  · rw [he, grant, if_neg hg.ne]
    exact hg.inv

theorem free_inv (hi : Inv h live frees) (hp : p = 0 ∨ live p ≠ 0) :
    ∃ frees', Inv (allocLibcFree p h) (release live p) frees' := by
  rcases hp with rfl | hp
  · rw [release_zero hi]
    exact ⟨frees, hi⟩
  · exact (free_spec hi hp).1

theorem realloc_inv (hi : Inv h live frees) (hp : p = 0 ∨ live p ≠ 0) (hs : size < 2 ^ 64) :
    ∃ frees', Inv (libcRealloc K p size h).2
      (if (libcRealloc K p size h).1 = 0 ∧ size ≠ 0 then live
        else grant (release live p) (libcRealloc K p size h).1 size) frees' := by
  by_cases h0 : size = 0
  · have he : libcRealloc K p size h = (0, allocLibcFree p h) := by
      unfold libcRealloc allocLibcFree
      split <;> simp_all
    rw [he, if_neg (by simp [h0]), grant, if_pos rfl]
    exact free_inv hi hp
  · rcases hp with rfl | hp
    · have he : libcRealloc K 0 size h = allocLibcMalloc K size h := by
        unfold libcRealloc
        rw [if_pos rfl, if_neg h0]
      rw [he, release_zero hi]
      obtain ⟨frees', hi'⟩ := malloc_inv (K := K) hi hs
      refine ⟨frees', ?_⟩
      split
      · rename_i hz
        rwa [grant, if_pos hz.1] at hi'
      · exact hi'
    · rcases realloc_cases (K := K) hi hp h0 hs with ⟨h', he, hu⟩ | ⟨q, h', he, hm⟩
      · rw [he, if_pos ⟨rfl, h0⟩]
        exact ⟨frees, hi.untouched hu⟩
      · rw [he, if_neg (fun hc => hm.ne hc.1), grant, if_neg hm.ne]
        exact hm.inv

theorem step_inv {st : State κ} {op : Op} (hi : Inv st.heap st.live frees)
    (hv : op.Valid st.live) : ∃ frees', Inv (step K op st).heap (step K op st).live frees' := by
  cases op with
  | malloc size => exact malloc_inv hi hv
  | calloc nmemb size =>
    simp only [step, libcCalloc]
    split
    · refine ⟨frees, ?_⟩
      simp only [errOut, grant, if_true]
      exact hi.untouched ⟨rfl, rfl, rfl⟩
    · exact malloc_inv hi (by omega)
  | realloc ptr size => exact realloc_inv hi hv.1 hv.2
  | free ptr => exact free_inv hi hv
  | store ptr off data => exact ⟨frees, hi.store hv⟩

theorem reachable_inv {st : State κ} (hr : Reachable K st) : ∃ frees, Inv st.heap st.live frees := by
  induction hr with
  | start mem errno kern =>
    refine ⟨fun _ => [], by simp, List.Pairwise.nil, fun _ => .nil, ?_, ?_, ?_⟩
    all_goals
      intro x
      cases x <;> simp [Holds]
  | call op _ hv ih =>
    obtain ⟨frees, hi⟩ := ih
    exact step_inv hi hv

/-! ## The guarantees -/

/-- The first page above every region. -/
def topOf (maps : List Extent) : Nat :=
  (maps.foldr (fun r t => max (r.start + r.len) t) 4096 + 4095) / 4096 * 4096

theorem le_topOf {maps : List Extent} :
    4096 ≤ topOf maps ∧ ∀ r ∈ maps, r.start + r.len ≤ topOf maps := by
  have hb : 4096 ≤ maps.foldr (fun r t => max (r.start + r.len) t) 4096 ∧
      ∀ r ∈ maps, r.start + r.len ≤ maps.foldr (fun r t => max (r.start + r.len) t) 4096 := by
    induction maps with
    | nil => simp
    | cons x maps ih =>
      refine ⟨le_max_of_le_right ih.1, fun r hr => ?_⟩
      rcases List.mem_cons.mp hr with rfl | hr
      · exact le_max_left _ _
      · exact le_max_of_le_right (ih.2 r hr)
  unfold topOf
  exact ⟨by omega, fun r hr => by have := hb.2 r hr; omega⟩

/-- A kernel that maps every region above all others. -/
def bump : Kernel Unit where
  mmap := fun _ maps len =>
    (if 0 < len ∧ topOf maps + len ≤ 2 ^ 64 then some (topOf maps) else none, ())
  mremap := fun _ maps _ len =>
    (if 0 < len ∧ topOf maps + len ≤ 2 ^ 64 then some (topOf maps) else none, ())
  mmap_free := by
    intro _ maps len a _ he
    split at he
    · rename_i hc
      cases he
      exact ⟨lt_of_lt_of_le (by decide) le_topOf.1, Nat.dvd_mul_left _ _, hc.1, hc.2,
        fun r hr => .inr (le_topOf.2 r hr)⟩
    · cases he
  mremap_free := by
    intro _ maps r len a _ he
    split at he
    · rename_i hc
      cases he
      exact ⟨lt_of_lt_of_le (by decide) le_topOf.1, Nat.dvd_mul_left _ _, hc.1, hc.2,
        fun r hr => .inr (le_topOf.2 r (List.mem_of_mem_erase hr))⟩
    · cases he

/-- A program's first allocation, of 5000 bytes. -/
def firstBlock : State Unit :=
  step bump (.malloc 5000) ⟨⟨fun _ => 0, fun _ => 0, [], 0, ()⟩, fun _ => 0⟩

theorem firstBlock_reachable : Reachable bump firstBlock :=
  .call _ (.start _ _ _) (show 5000 < 2 ^ 64 by decide)

/-- The block of a live pointer: its header and the `size` bytes that the header gives. -/
def blockOf (h : Heap κ) (p : Nat) : Extent := ⟨p - 16, h.mem.word (p - 16 + 8)⟩

/-- The heap is sound when `frees idx` are the blocks reachable from `__small_mem[idx]`. -/
structure Sound (st : State κ) (frees : Nat → List Nat) : Prop where
  lists : ∀ i, Links st.heap.mem.word 0 (st.heap.smallMem i) (frees i)
  inside : ∀ p, st.live p ≠ 0 → 16 ≤ p ∧ (∃ r ∈ st.heap.maps, (blockOf st.heap p).Within r) ∧
    st.live p + 16 ≤ (blockOf st.heap p).len
  live_live : ∀ p q, st.live p ≠ 0 → st.live q ≠ 0 → p ≠ q →
    Disj (blockOf st.heap p) (blockOf st.heap q)
  free_live : ∀ i, ∀ b ∈ frees i, ∀ p, st.live p ≠ 0 →
    Disj ⟨b, classSize i⟩ (blockOf st.heap p)
  free_free : ∀ i, ∀ b ∈ frees i, ∀ j, ∀ c ∈ frees j, (i, b) ≠ (j, c) →
    Disj ⟨b, classSize i⟩ ⟨c, classSize j⟩
  once : ∀ i, (frees i).Nodup
  classes : ∀ i, frees i ≠ [] → i < 8
  headers : ∀ p, st.live p ≠ 0 → (∃ i < 8, (blockOf st.heap p).len = classSize i) ∨
    (4096 ∣ (blockOf st.heap p).len ∧ 2048 < (blockOf st.heap p).len)

/-- **Blocks never overlap.** In every reachable state live blocks lie in mapped regions with
room for what was requested, free lists are acyclic, and no two blocks, live or free, share a
byte. -/
theorem reachable_sound {st : State κ} (hr : Reachable K st) : ∃ frees, Sound st frees := by
  obtain ⟨frees, hi⟩ := reachable_inv hr
  refine ⟨frees, hi.links, fun p hp => ?_, fun p q hp hq hne => ?_, fun i b hb p hp => ?_,
    fun i b hb j c hc hne => ?_, fun i => (hi.links i).nodup, fun i hne => ?_, fun p hp => ?_⟩
  · exact ⟨(hi.room hp).1, hi.within (.used p) hp, (hi.room hp).2⟩
  · exact hi.disj (.used p) (.used q) hp hq fun e => hne (Slot.used.inj e)
  · exact hi.disj (.free i b) (.used p) hb hp (by rintro ⟨⟩)
  · exact hi.disj (.free i b) (.free j c) hb hc fun e =>
      hne (by rw [(Slot.free.inj e).1, (Slot.free.inj e).2])
  · obtain ⟨b, hb⟩ := List.exists_mem_of_ne_nil _ hne
    exact (hi.slot (.free i b) hb).1
  · exact (hi.slot (.used p) hp).2.2.imp id fun ⟨h1, h2, _⟩ => ⟨h2, h1⟩

theorem firstBlock_sound : ∃ frees, Sound firstBlock frees := reachable_sound firstBlock_reachable

/-- **`calloc` hands out zeros.** Free blocks are zero behind their `next` word, so a block
from `calloc` is zero although nothing is cleared there; a product that overflows is refused
with the heap as it was. -/
theorem calloc_zero {st : State κ} (hr : Reachable K st) {nmemb size : Nat} :
    (∀ i, ∃ l, Links st.heap.mem.word 0 (st.heap.smallMem i) l ∧
      ∀ b ∈ l, ∀ k, 8 ≤ k → k < classSize i → st.heap.mem (b + k) = 0) ∧
    (nmemb * size < 2 ^ 64 → nmemb * size ≠ 0 →
      (libcCalloc K nmemb size st.heap).1 = 0 ∨
        ∀ k < nmemb * size, (libcCalloc K nmemb size st.heap).2.mem
          ((libcCalloc K nmemb size st.heap).1 + k) = 0) ∧
    (2 ^ 64 ≤ nmemb * size →
      libcCalloc K nmemb size st.heap = (0, { st.heap with errno := enomem })) := by
  obtain ⟨frees, hi⟩ := reachable_inv hr
  unfold libcCalloc
  rw [Nat.mul_comm size nmemb]
  refine ⟨fun i => ⟨frees i, hi.links i, fun b hb => (hi.slot (.free i b) hb).2⟩,
    fun hlt h0 => ?_, fun hge => ?_⟩
  · rw [if_neg (by omega)]
    rcases malloc_cases (K := K) hi hlt with ⟨h', he, -⟩ | ⟨q, h', he, -, hg⟩
    · exact .inl (by rw [he])
    · rw [he]
      exact .inr hg.zero
  · rw [if_pos hge]
    rfl

theorem firstBlock_calloc :
    (libcCalloc bump 3 5 firstBlock.heap).1 = 0 ∨
      ∀ k < 3 * 5, (libcCalloc bump 3 5 firstBlock.heap).2.mem
        ((libcCalloc bump 3 5 firstBlock.heap).1 + k) = 0 :=
  (calloc_zero firstBlock_reachable).2.1 (by decide) (by decide)

/-- **`realloc` keeps contents and fails without effect.** -/
theorem realloc_atomic {st : State κ} (hr : Reachable K st) {p b : Nat} (hp : st.live p ≠ 0)
    (hb : b ≠ 0) (hlt : b < 2 ^ 64) {q : Nat} {h' : Heap κ}
    (he : libcRealloc K p b st.heap = (q, h')) :
    (q ≠ 0 → (∀ k < min (st.live p) b, h'.mem (q + k) = st.heap.mem (p + k)) ∧
      b + 16 ≤ (blockOf h' q).len ∧ (∃ r ∈ h'.maps, (blockOf h' q).Within r) ∧
      (step K (.realloc p b) st).live q = b ∧
      (q ≠ p → st.live q = 0 ∧ (step K (.realloc p b) st).live p = 0)) ∧
    (q = 0 → h'.mem = st.heap.mem ∧ h'.smallMem = st.heap.smallMem ∧ h'.maps = st.heap.maps ∧
      (step K (.realloc p b) st).live = st.live) ∧
    ∀ r, st.live r ≠ 0 → r ≠ p → ∀ a, (blockOf st.heap r).Has a → h'.mem a = st.heap.mem a := by
  obtain ⟨frees, hi⟩ := reachable_inv hr
  have hstep : (step K (.realloc p b) st).live =
      if q = 0 ∧ b ≠ 0 then st.live else grant (release st.live p) q b := by
    simp only [step, he]
  rw [hstep]
  rcases realloc_cases (K := K) hi hp hb hlt with ⟨h1, he1, hu⟩ | ⟨q1, h1, he1, hm⟩
  · rw [he1] at he
    obtain ⟨rfl, rfl⟩ := Prod.mk.inj he
    refine ⟨fun hc => absurd rfl hc, fun _ => ⟨hu.mem, hu.smallMem, hu.maps, if_pos ⟨rfl, hb⟩⟩,
      fun r _ _ a _ => by rw [hu.mem]⟩
  · rw [he1] at he
    obtain ⟨rfl, rfl⟩ := Prod.mk.inj he
    obtain ⟨frees', hi'⟩ := hm.inv
    have hlive : Function.update (release st.live p) q1 b q1 = b := Function.update_self ..
    have hq0 : Function.update (release st.live p) q1 b q1 ≠ 0 := by rw [hlive]; exact hb
    have hroom := hi'.room hq0
    rw [if_neg (fun hc => hm.ne hc.1), grant, if_neg hm.ne]
    refine ⟨fun _ => ⟨hm.bytes, ?_, hi'.within (.used q1) hq0, hlive, fun hne => ?_⟩,
      fun hc => absurd hc hm.ne, fun r hr' hne a ha => hm.kept r ?_ a ha⟩
    · simp only [blockOf]
      omega
    · refine ⟨hm.fresh.resolve_left hne, ?_⟩
      rw [Function.update_of_ne (Ne.symm hne)]
      exact Function.update_self ..
    · rw [release, Function.update_of_ne hne]
      exact hr'

theorem firstBlock_realloc :
    firstBlock.live 4112 = 5000 ∧ ∀ q h', libcRealloc bump 4112 9000 firstBlock.heap = (q, h') →
      q ≠ 0 → ∀ k < 5000, h'.mem (q + k) = firstBlock.heap.mem (4112 + k) :=
  ⟨by decide, fun _ _ he hq => ((realloc_atomic firstBlock_reachable (by decide) (by decide)
    (by decide) he).1 hq).1⟩

end Dietlibc.Alloc
