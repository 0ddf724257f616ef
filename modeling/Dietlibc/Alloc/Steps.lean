import Dietlibc.Alloc.Invariant

/-!
# What the allocator does to its slots

One lemma for each elementary step: a block leaves its free list, a block is put on one, a page
is cut into blocks, a region becomes a used slot, a used slot's region is given back, the
program stores into a used slot. Each is an instance of `Inv.change`.
-/

namespace Dietlibc.Alloc

open Extent

variable {κ : Type} {h h' : Heap κ} {live live' : Nat → Nat} {frees frees' : Nat → List Nat}

theorem Inv.bounds (hi : Inv h live frees) {x : Slot} (hx : Holds live frees x) :
    0 < (x.extent h.mem).start ∧ (x.extent h.mem).start + (x.extent h.mem).len ≤ 2 ^ 64 := by
  obtain ⟨r, hr, hw⟩ := hi.within x hx
  have := hi.maps_ok r hr
  unfold Within at hw
  omega

theorem Inv.live_zero (hi : Inv h live frees) : live 0 = 0 := by
  by_contra hne
  have := (hi.slot (.used 0) hne).1
  omega

theorem links_frame {m m' : Mem} {a : Nat} {l : List Nat} (hl : Links m.word 0 a l)
    (hb : ∀ c ∈ l, ∀ k < 8, m' (c + k) = m (c + k)) : Links m'.word 0 a l :=
  hl.frame fun c hc => Mem.word_congr (hb c hc)

/-- A slot that shares no byte with the extent `e` written to keeps its bytes. -/
theorem same_of_disj {e : Extent} {x : Slot} (hm : h'.maps = h.maps)
    (hb : ∀ a, ¬ e.Has a → h'.mem a = h.mem a) (hd : Disj (x.extent h.mem) e)
    (hlive : ∀ p, x = .used p → live' p = live p) : Same h h' live live' x :=
  ⟨fun a ha => hb a (hd.not_has ha), fun hr => hm ▸ hr, hlive⟩

theorem holds_release {p : Nat} {x : Slot} (hx : Holds (release live p) frees x) :
    Holds live frees x ∧ x ≠ .used p := by
  cases x with
  | used q =>
    by_cases hq : q = p
    · subst hq
      simp [Holds, release] at hx
    · simp only [Holds, release, Function.update_of_ne hq] at hx
      exact ⟨hx, fun e => hq (Slot.used.inj e)⟩
  | free j c => exact ⟨hx, by rintro ⟨⟩⟩

theorem holds_update {p size : Nat} {x : Slot} (hne : x ≠ .used p)
    (hx : Holds (Function.update live p size) frees x) : Holds live frees x := by
  cases x with
  | used q =>
    have hq : q ≠ p := fun e => hne (by rw [e])
    simpa only [Holds, Function.update_of_ne hq] using hx
  | free j c => exact hx

theorem update_used {p size : Nat} {x : Slot} (hne : x ≠ .used p) :
    ∀ q, x = .used q → Function.update live p size q = live q := by
  rintro q rfl
  exact Function.update_of_ne (fun e => hne (by rw [e])) _ _

/-- The block at the head of a list is handed out. -/
theorem Inv.pop (hi : Inv h live frees) {i b size : Nat} {t : List Nat} (hf : frees i = b :: t)
    (hroom : size + 16 ≤ classSize i) :
    Inv { h with
        smallMem := Function.update h.smallMem i (h.mem.word b)
        mem := (h.mem.setWord b 0).setWord (b + 8) (classSize i) }
      (Function.update live (b + 16) size) (Function.update frees i t) := by
  have hb : Holds live frees (.free i b) := by
    show b ∈ frees i
    rw [hf]
    exact List.mem_cons_self
  obtain ⟨hi8, hz⟩ := hi.slot _ hb
  have hcl := classSize_le hi8
  have hnd : (b :: t).Nodup := hf ▸ (hi.links i).nodup
  obtain ⟨hpos, htop⟩ := hi.bounds hb
  simp only [Slot.extent] at hpos htop
  have hout : ∀ a, ¬ Extent.Has ⟨b, classSize i⟩ a →
      (h.mem.setWord b 0).setWord (b + 8) (classSize i) a = h.mem a := by
    intro a ha
    simp only [Extent.Has] at ha
    rw [Mem.setWord_out (by omega), Mem.setWord_out (by omega)]
  have hext : (Slot.used (b + 16)).extent ((h.mem.setWord b 0).setWord (b + 8) (classSize i)) =
      ⟨b, classSize i⟩ := by
    simp only [Slot.extent, Nat.add_sub_cancel]
    rw [Mem.word_setWord (by omega)]
  -- what is left on the lists was there before, and is not `b`
  have hfree : ∀ j c, c ∈ Function.update frees i t j → c ∈ frees j ∧ Slot.free j c ≠ .free i b := by
    intro j c hc
    by_cases hj : j = i
    · subst hj
      rw [Function.update_self] at hc
      refine ⟨hf ▸ List.mem_cons_of_mem b hc, fun e => ?_⟩
      rw [(Slot.free.inj e).2] at hc
      exact (List.nodup_cons.mp hnd).1 hc
    · rw [Function.update_of_ne hj] at hc
      exact ⟨hc, fun e => hj (Slot.free.inj e).1⟩
  have hkeep : ∀ x, Holds live frees x → x ≠ .free i b →
      Disj (x.extent h.mem) ⟨b, classSize i⟩ :=
    fun x hx hne => hi.disj x _ hx hb hne
  refine hi.change (fun x => x = .used (b + 16)) hi.maps_ok hi.maps_disj (fun j => ?_) ?_ ?_ ?_
  · have hfr : ∀ c ∈ Function.update frees i t j, ∀ k < 8,
        (h.mem.setWord b 0).setWord (b + 8) (classSize i) (c + k) = h.mem (c + k) := by
      intro c hc k hk
      obtain ⟨hm, hne⟩ := hfree j c hc
      refine hout _ ((hkeep (.free j c) hm hne).not_has ?_)
      have := classSize_ge j
      simp only [Slot.extent, Has]
      omega
    refine links_frame ?_ hfr
    by_cases hj : j = i
    · subst hj
      have hl := hi.links j
      rw [hf] at hl
      simp only [Function.update_self]
      exact hl.uncons.2
    · simp only [Function.update_of_ne hj]
      exact hi.links j
  · rintro x rfl
    refine ⟨⟨Nat.le_add_left _ _, ?_, ?_⟩, ?_⟩
    · rw [Function.update_self]
      have := congrArg Extent.len hext
      simp only [Slot.extent] at this
      rw [this]
      exact hroom
    · rw [hext]
      exact .inl ⟨i, hi8, rfl⟩
    · rw [hext]
      exact hi.within _ hb
  · rintro x y rfl rfl hne
    exact absurd rfl hne
  · intro x hx hnew
    have hold : Holds live frees x ∧ x ≠ .free i b := by
      have hx := holds_update hnew hx
      cases x with
      | used q => exact ⟨hx, by rintro ⟨⟩⟩
      | free j c => exact hfree j c hx
    have hd := hkeep x hold.1 hold.2
    refine ⟨hold.1, same_of_disj rfl hout hd (update_used hnew), hi.within x hold.1, ?_⟩
    rintro y rfl
    rw [hext]
    exact hd.symm

theorem Inv.head_lt (hi : Inv h live frees) (i : Nat) : h.smallMem i < 2 ^ 64 := by
  rcases hf : frees i with _ | ⟨b, t⟩
  · have hl := hi.links i
    rw [hf] at hl
    rw [hl.head_of_nil]
    decide
  · have hl := hi.links i
    rw [hf] at hl
    have hb : Holds live frees (.free i b) := by
      show b ∈ frees i
      rw [hf]
      exact List.mem_cons_self
    have hlt := (hi.bounds hb).2
    have hge := classSize_ge i
    simp only [Slot.extent] at hlt
    rw [hl.uncons.1]
    omega

/-- A small block goes back to its list, cleared. -/
theorem Inv.push (hi : Inv h live frees) {p i : Nat} (hp : live p ≠ 0) (hi8 : i < 8)
    (hsz : h.mem.word (p - 16 + 8) = classSize i) :
    Inv { h with
        mem := (h.mem.fill (p - 16) (classSize i) 0).setWord (p - 16) (h.smallMem i)
        smallMem := Function.update h.smallMem i (p - 16) }
      (release live p) (Function.update frees i ((p - 16) :: frees i)) := by
  have hx : Holds live frees (.used p) := hp
  have hext : (Slot.used p).extent h.mem = ⟨p - 16, classSize i⟩ := by
    simp only [Slot.extent, hsz]
  have hbd := hi.bounds hx
  rw [hext] at hbd
  simp only at hbd
  have hge := classSize_ge i
  have hout : ∀ a, ¬ Extent.Has ⟨p - 16, classSize i⟩ a →
      (h.mem.fill (p - 16) (classSize i) 0).setWord (p - 16) (h.smallMem i) a = h.mem a := by
    intro a ha
    rw [Mem.setWord_out (by simp only [Extent.Has] at ha; omega), Mem.fill_out ha]
  have hkeep : ∀ x, Holds live frees x → x ≠ .used p →
      Disj (x.extent h.mem) ⟨p - 16, classSize i⟩ := by
    intro x hx' hne
    rw [← hext]
    exact hi.disj x _ hx' hx hne
  refine hi.change (fun x => x = .free i (p - 16)) hi.maps_ok hi.maps_disj (fun j => ?_) ?_ ?_ ?_
  · have hfr : ∀ c ∈ frees j, ∀ k < 8,
        (h.mem.fill (p - 16) (classSize i) 0).setWord (p - 16) (h.smallMem i) (c + k) =
          h.mem (c + k) := by
      intro c hc k hk
      refine hout _ ((hkeep (.free j c) hc (by rintro ⟨⟩)).not_has ?_)
      have := classSize_ge j
      simp only [Slot.extent, Has]
      omega
    have hl := links_frame (hi.links j) hfr
    by_cases hj : j = i
    · subst hj
      simp only [Function.update_self]
      refine .cons (by omega) ?_
      rw [Mem.word_setWord (hi.head_lt j)]
      exact hl
    · simp only [Function.update_of_ne hj]
      exact hl
  · rintro x rfl
    refine ⟨⟨hi8, fun k h8 hk => ?_⟩, ?_⟩
    · show (h.mem.fill (p - 16) (classSize i) 0).setWord (p - 16) (h.smallMem i) _ = 0
      rw [Mem.setWord_out (by omega), Mem.fill_in (by omega)]
    · have := hi.within _ hx
      rw [hext] at this
      exact this
  · rintro x y rfl rfl hne
    exact absurd rfl hne
  · intro x hx' hnew
    have hold : Holds live frees x ∧ x ≠ .used p := by
      obtain ⟨hx', hne⟩ := holds_release hx'
      refine ⟨?_, hne⟩
      cases x with
      | used q => exact hx'
      | free j c =>
        by_cases hj : j = i
        · subst hj
          simp only [Holds, Function.update_self] at hx'
          rcases List.mem_cons.mp hx' with rfl | hm
          · exact absurd rfl hnew
          · exact hm
        · simpa only [Holds, Function.update_of_ne hj] using hx'
    have hd := hkeep x hold.1 hold.2
    refine ⟨hold.1, same_of_disj rfl hout hd (update_used hold.2), hi.within x hold.1, ?_⟩
    rintro y rfl
    exact hd.symm

/-! ## Regions -/

/-- A region just mapped holds no slot. -/
theorem Inv.off_region (hi : Inv h live frees) {a len : Nat} (hfree : Free h.maps a len) {x : Slot}
    (hx : Holds live frees x) : Disj (x.extent h.mem) ⟨a, len⟩ := by
  obtain ⟨r, hr, hw⟩ := hi.within x hx
  exact (hfree.disj r hr).symm.within hw

theorem Inv.cons_maps_ok (hi : Inv h live frees) {a len : Nat} (hfree : Free h.maps a len) :
    ∀ r ∈ (⟨a, len⟩ :: h.maps : List Extent),
      0 < r.start ∧ r.start + r.len ≤ 2 ^ 64 ∧ 0 < r.len := by
  intro r hr
  rcases List.mem_cons.mp hr with rfl | hr
  · exact ⟨hfree.addr_pos, hfree.fits, hfree.len_pos⟩
  · exact hi.maps_ok r hr

theorem Inv.cons_maps_disj (hi : Inv h live frees) {a len : Nat} (hfree : Free h.maps a len) :
    (⟨a, len⟩ :: h.maps : List Extent).Pairwise Disj :=
  List.pairwise_cons.mpr ⟨hfree.disj, hi.maps_disj⟩

/-- A region just mapped becomes a used slot. -/
theorem Inv.claim (hi : Inv h live frees) {a len size : Nat} (hfree : Free h.maps a len)
    (hbig : 2048 < len) (hdvd : 4096 ∣ len) (hroom : size + 16 ≤ len)
    (hmaps : h'.maps = ⟨a, len⟩ :: h.maps) (hsm : h'.smallMem = h.smallMem)
    (hout : ∀ x, ¬ Extent.Has ⟨a, len⟩ x → h'.mem x = h.mem x)
    (hsz : h'.mem.word (a + 8) = len) :
    Inv h' (Function.update live (a + 16) size) frees := by
  have hext : (Slot.used (a + 16)).extent h'.mem = ⟨a, len⟩ := by
    simp only [Slot.extent, Nat.add_sub_cancel, hsz]
  have hmem : (⟨a, len⟩ : Extent) ∈ h'.maps := by rw [hmaps]; exact List.mem_cons_self
  refine hi.change (fun x => x = .used (a + 16)) ?_ ?_ (fun j => ?_) ?_ ?_ ?_
  · rw [hmaps]
    exact hi.cons_maps_ok hfree
  · rw [hmaps]
    exact hi.cons_maps_disj hfree
  · rw [hsm]
    refine links_frame (hi.links j) fun c hc k hk => hout _ ?_
    have := classSize_ge j
    refine (hi.off_region hfree (x := .free j c) hc).not_has ?_
    simp only [Slot.extent, Has]
    omega
  · rintro x rfl
    refine ⟨⟨Nat.le_add_left _ _, ?_, ?_⟩, ?_⟩
    · rw [Function.update_self, Nat.add_sub_cancel, hsz]
      exact hroom
    · rw [hext]
      exact .inr ⟨hbig, hdvd, hmem⟩
    · rw [hext]
      exact ⟨_, hmem, Within.refl _⟩
  · rintro x y rfl rfl hne
    exact absurd rfl hne
  · intro x hx hnew
    have hold := holds_update hnew hx
    have hd := hi.off_region hfree hold
    obtain ⟨r, hr, hw⟩ := hi.within x hold
    refine ⟨hold, ⟨fun y hy => hout y (hd.not_has hy), fun hm => ?_, update_used hnew⟩,
      ⟨r, ?_, hw⟩, ?_⟩
    · rw [hmaps]
      exact List.mem_cons_of_mem _ hm
    · rw [hmaps]
      exact List.mem_cons_of_mem _ hr
    · rintro y rfl
      rw [hext]
      exact hd.symm

/-- A used slot with a mapping of its own is given back. -/
theorem Inv.unmap (hi : Inv h live frees) {p : Nat} (hp : live p ≠ 0) :
    Inv (munmap ⟨p - 16, h.mem.word (p - 16 + 8)⟩ h) (release live p) frees := by
  have hx : Holds live frees (.used p) := hp
  refine hi.change (fun _ => False) (fun r hr => hi.maps_ok r (List.mem_of_mem_erase hr))
    (hi.maps_disj.sublist List.erase_sublist) hi.links (fun x hf => hf.elim)
    (fun x y hf => hf.elim) ?_
  intro x hx' _
  have hold := holds_release hx'
  have hd := hi.disj x _ hold.1 hx hold.2
  have hxl := (hi.slot x hold.1).len_ge
  -- no other slot lies in the region that goes
  have herase : ∀ r ∈ h.maps, (x.extent h.mem).Within r →
      r ∈ h.maps.erase ((Slot.used p).extent h.mem) := by
    intro r hr hw
    refine (List.mem_erase_of_ne fun e => ?_).mpr hr
    subst e
    exact Disj.not_self (by omega) ((hd.symm.within hw))
  obtain ⟨r, hr, hw⟩ := hi.within x hold.1
  exact ⟨hold.1, ⟨fun _ _ => rfl, fun hm => herase _ hm (Within.refl _), update_used hold.2⟩,
    ⟨r, herase r hr hw, hw⟩, fun y hf => hf.elim⟩

/-- A used slot is written to behind its header, and its requested size may change. -/
theorem Inv.rewrite (hi : Inv h live frees) {p size : Nat} (hp : live p ≠ 0)
    (hroom : size + 16 ≤ h.mem.word (p - 16 + 8)) (hmaps : h'.maps = h.maps)
    (hsm : h'.smallMem = h.smallMem)
    (hout : ∀ a, ¬ (p ≤ a ∧ a < p - 16 + h.mem.word (p - 16 + 8)) → h'.mem a = h.mem a) :
    Inv h' (Function.update live p size) frees := by
  have hx : Holds live frees (.used p) := hp
  obtain ⟨h16, -, hsize⟩ := hi.slot _ hx
  have hw : h'.mem.word (p - 16 + 8) = h.mem.word (p - 16 + 8) :=
    Mem.word_congr fun i hi => hout _ (by omega)
  have hext : (Slot.used p).extent h'.mem = (Slot.used p).extent h.mem := by
    simp only [Slot.extent, hw]
  have hout' : ∀ a, ¬ ((Slot.used p).extent h.mem).Has a → h'.mem a = h.mem a := by
    intro a ha
    refine hout a fun hc => ha ?_
    simp only [Slot.extent, Has]
    omega
  refine hi.change (fun x => x = .used p) (hmaps ▸ hi.maps_ok) (hmaps ▸ hi.maps_disj)
    (fun j => ?_) ?_ ?_ ?_
  · rw [hsm]
    refine links_frame (hi.links j) fun c hc k hk => hout' _ ?_
    have := classSize_ge j
    refine (hi.disj (.free j c) _ hc hx (by rintro ⟨⟩)).not_has ?_
    simp only [Slot.extent, Has]
    omega
  · rintro x rfl
    refine ⟨⟨h16, ?_, ?_⟩, ?_⟩
    · rw [Function.update_self, hw]
      exact hroom
    · rw [hext]
      exact hsize.imp id fun h => ⟨h.1, h.2.1, hmaps ▸ h.2.2⟩
    · rw [hext, hmaps]
      exact hi.within _ hx
  · rintro x y rfl rfl hne
    exact absurd rfl hne
  · intro x hx' hnew
    have hold := holds_update hnew hx'
    have hd := hi.disj x _ hold hx hnew
    refine ⟨hold, same_of_disj hmaps hout' hd (update_used hnew), hmaps ▸ hi.within x hold, ?_⟩
    rintro y rfl
    rw [hext]
    exact hd.symm

/-! ## Cutting a page -/

/-- Places on a grid of blocks do not overlap. -/
theorem grid_disj (a size : Nat) {j k : Nat} (hne : j ≠ k) :
    Disj ⟨a + size * j, size⟩ ⟨a + size * k, size⟩ := by
  unfold Disj
  rcases Nat.lt_or_gt_of_ne hne with hlt | hlt
  · have := Nat.mul_le_mul_left size (Nat.succ_le_of_lt hlt)
    rw [Nat.mul_succ] at this
    left; simp only; omega
  · have := Nat.mul_le_mul_left size (Nat.succ_le_of_lt hlt)
    rw [Nat.mul_succ] at this
    right; simp only; omega

/-- The blocks of a page are chained in order, and only their `next` words are written. -/
theorem carve_spec {size : Nat} (h8 : 8 ≤ size) (nr ptr : Nat) (m : Mem) (hp : 0 < ptr)
    (htop : ptr + size * (nr + 1) ≤ 2 ^ 64) :
    Links (carve size nr ptr m).word 0 ptr (List.range' ptr (nr + 1) size) ∧
      ∀ x, (∀ k ≤ nr, ¬ (ptr + size * k ≤ x ∧ x < ptr + size * k + 8)) →
        carve size nr ptr m x = m x := by
  induction nr generalizing ptr m with
  | zero =>
    simp only [carve]
    refine ⟨.cons (by omega) ?_, fun x hx => Mem.setWord_out ?_⟩
    · rw [Mem.word_setWord (by decide)]
      exact .nil
    · have := hx 0 (le_refl 0)
      omega
  | succ nr ih =>
    have hsucc : size * (nr + 1 + 1) = size * (nr + 1) + size := Nat.mul_succ _ _
    have hnext : (m.setWord ptr (ptr + size)).word ptr = ptr + size :=
      Mem.word_setWord (by have := Nat.le_mul_of_pos_right size (show 0 < nr + 1 by omega); omega)
    simp only [carve, hnext]
    obtain ⟨hl, hout⟩ := ih (ptr + size) (m.setWord ptr (ptr + size)) (by omega) (by omega)
    refine ⟨?_, fun x hx => ?_⟩
    · rw [List.range'_succ]
      refine .cons (by omega) ?_
      have hw : (carve size nr (ptr + size) (m.setWord ptr (ptr + size))).word ptr = ptr + size :=
        (Mem.word_congr fun i hi => hout _ fun k _ => by omega).trans hnext
      rw [hw]
      exact hl
    · rw [hout x fun k hk => ?_, Mem.setWord_out]
      · have := hx 0 (Nat.zero_le _)
        omega
      · have := hx (k + 1) (by omega)
        rw [Nat.mul_succ] at this
        omega

/-- The bytes of a page after it was cut into blocks of class `i`. -/
def cutPage (i pg : Nat) (m : Mem) : Mem :=
  carve (classSize i) (4096 / classSize i - 1) pg (m.fill pg 4096 0)

/-- The blocks of a page. -/
def pageBlocks (i pg : Nat) : List Nat := List.range' pg (4096 / classSize i) (classSize i)

theorem mem_pageBlocks {i pg b : Nat} (hi8 : i < 8) (hb : b ∈ pageBlocks i pg) :
    ∃ k, b = pg + classSize i * k ∧ classSize i * k + classSize i ≤ 4096 := by
  obtain ⟨k, hk, rfl⟩ := List.mem_range'.mp hb
  refine ⟨k, rfl, ?_⟩
  have hdvd := classSize_dvd hi8
  have := Nat.mul_le_mul_left (classSize i) (Nat.succ_le_of_lt hk)
  rw [Nat.mul_succ, Nat.mul_comm _ (4096 / classSize i), hdvd] at this
  exact this

theorem cutPage_spec {i pg : Nat} (hi8 : i < 8) (hpos : 0 < pg) (hfits : pg + 4096 ≤ 2 ^ 64)
    (m : Mem) :
    Links (cutPage i pg m).word 0 pg (pageBlocks i pg) ∧
      ∀ x, (∀ b ∈ pageBlocks i pg, ¬ (b ≤ x ∧ x < b + 8)) →
        cutPage i pg m x = m.fill pg 4096 0 x := by
  have hge := classSize_ge i
  have hdvd := classSize_dvd hi8
  obtain ⟨n, hn⟩ : ∃ n, 4096 / classSize i = n + 1 := by
    refine Nat.exists_eq_succ_of_ne_zero fun e => ?_
    rw [e] at hdvd
    omega
  rw [hn, Nat.mul_comm] at hdvd
  obtain ⟨hl, hkeep⟩ := carve_spec (show 8 ≤ classSize i by omega) n pg (m.fill pg 4096 0) hpos
    (by omega)
  unfold cutPage pageBlocks
  rw [hn, Nat.add_sub_cancel]
  refine ⟨hl, fun x hx => hkeep x fun k hk => hx _ ?_⟩
  exact List.mem_range'.mpr ⟨k, by omega, rfl⟩

theorem cutPage_out {i pg a : Nat} (hi8 : i < 8) (hpos : 0 < pg) (hfits : pg + 4096 ≤ 2 ^ 64)
    (m : Mem) (ha : ¬ Extent.Has ⟨pg, 4096⟩ a) : cutPage i pg m a = m a := by
  rw [(cutPage_spec hi8 hpos hfits m).2 a fun b hb => ?_, Mem.fill_out ha]
  obtain ⟨k, rfl, hk⟩ := mem_pageBlocks hi8 hb
  have := classSize_ge i
  simp only [Extent.Has] at ha
  omega

theorem pageBlocks_disj {i pg b c : Nat} (hi8 : i < 8) (hb : b ∈ pageBlocks i pg)
    (hc : c ∈ pageBlocks i pg) (hne : b ≠ c) : Disj ⟨b, classSize i⟩ ⟨c, classSize i⟩ := by
  obtain ⟨j, rfl, -⟩ := mem_pageBlocks hi8 hb
  obtain ⟨k, rfl, -⟩ := mem_pageBlocks hi8 hc
  exact grid_disj pg (classSize i) fun e => hne (by rw [e])

theorem cutPage_zero {i pg b o : Nat} (hi8 : i < 8) (hpos : 0 < pg) (hfits : pg + 4096 ≤ 2 ^ 64)
    (m : Mem) (hb : b ∈ pageBlocks i pg) (h8 : 8 ≤ o) (ho : o < classSize i) :
    cutPage i pg m (b + o) = 0 := by
  rw [(cutPage_spec hi8 hpos hfits m).2 _ fun c hc => ?_]
  · obtain ⟨k, rfl, hk⟩ := mem_pageBlocks hi8 hb
    exact Mem.fill_in (by omega)
  · by_cases hbc : b = c
    · omega
    · have hd := pageBlocks_disj hi8 hb hc hbc
      simp only [Disj] at hd
      omega

/-- A page just mapped becomes the blocks of an empty list. -/
theorem Inv.cut (hi : Inv h live frees) {i pg : Nat} (hi8 : i < 8) (hnil : frees i = [])
    (hfree : Free h.maps pg 4096) (hmaps : h'.maps = ⟨pg, 4096⟩ :: h.maps)
    (hsm : h'.smallMem = Function.update h.smallMem i pg) (hmem : h'.mem = cutPage i pg h.mem) :
    Inv h' live (Function.update frees i (pageBlocks i pg)) := by
  have hpos := hfree.addr_pos
  have hfits := hfree.fits
  have hout : ∀ a, ¬ Extent.Has ⟨pg, 4096⟩ a → h'.mem a = h.mem a := fun a ha => by
    rw [hmem, cutPage_out hi8 hpos hfits h.mem ha]
  have hpage : ∀ b ∈ pageBlocks i pg, Within ⟨b, classSize i⟩ ⟨pg, 4096⟩ := by
    intro b hb
    obtain ⟨k, rfl, hk⟩ := mem_pageBlocks hi8 hb
    simp only [Within]
    omega
  refine hi.change (fun x => ∃ b ∈ pageBlocks i pg, x = .free i b) ?_ ?_ (fun j => ?_) ?_ ?_ ?_
  · rw [hmaps]
    exact hi.cons_maps_ok hfree
  · rw [hmaps]
    exact hi.cons_maps_disj hfree
  · rw [hsm]
    by_cases hj : j = i
    · subst hj
      simp only [Function.update_self, hmem]
      exact (cutPage_spec hi8 hpos hfits h.mem).1
    · simp only [Function.update_of_ne hj]
      refine links_frame (hi.links j) fun c hc k hk => hout _ ?_
      have := classSize_ge j
      refine (hi.off_region hfree (x := .free j c) hc).not_has ?_
      simp only [Slot.extent, Has]
      omega
  · rintro x ⟨b, hb, rfl⟩
    refine ⟨⟨hi8, fun o ho hlt => ?_⟩, ⟨pg, 4096⟩, ?_, hpage b hb⟩
    · rw [hmem]
      exact cutPage_zero hi8 hpos hfits h.mem hb ho hlt
    · rw [hmaps]
      exact List.mem_cons_self
  · rintro x y ⟨b, hb, rfl⟩ ⟨c, hc, rfl⟩ hne
    exact pageBlocks_disj hi8 hb hc fun e => hne (by rw [e])
  · intro x hx hnew
    have hold : Holds live frees x := by
      cases x with
      | used q => exact hx
      | free j c =>
        by_cases hj : j = i
        · subst hj
          simp only [Holds, Function.update_self] at hx
          exact absurd ⟨c, hx, rfl⟩ hnew
        · simpa only [Holds, Function.update_of_ne hj] using hx
    have hd := hi.off_region hfree hold
    obtain ⟨r, hr, hw⟩ := hi.within x hold
    refine ⟨hold, ⟨fun y hy => hout y (hd.not_has hy), fun hm => ?_, fun _ _ => rfl⟩,
      ⟨r, ?_, hw⟩, ?_⟩
    · rw [hmaps]
      exact List.mem_cons_of_mem _ hm
    · rw [hmaps]
      exact List.mem_cons_of_mem _ hr
    · rintro y ⟨b, hb, rfl⟩
      exact hd.symm.within (hpage b hb)

end Dietlibc.Alloc
