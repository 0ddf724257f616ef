import Dietlibc.Base.CInt
import Dietlibc.Base.Machine
import Dietlibc.Words.Dietstring

/-!
# `memcpy`, `strcpy` and `memmove`

`memcpy` and `strcpy` copy words where the addresses agree modulo eight, behind the bytes up to the
first word and in front of the bytes of the last one. `memmove` copies byte by byte, from the end
that the other block does not overwrite. All of them leave what one copy of the block leaves.
-/

namespace Dietlibc.Words

open CInt Machine

/-- `*(unsigned long *) t = l` -/
def storeWord (o : Order) (m : Mem) (t : Nat) (l : WordT .eight) : Mem :=
  m.store t ((List.range 8).map (charAt o l))

/-- The value returned, and the memory. -/
abbrev Copied := Nat × Mem

/-! ## `memcpy` -/

namespace Memcpy

/-- At the entry, in the loop up to a word, in the loop over the words, and in the loop over the bytes
that are left. -/
inductive St where
  | entry (m : Mem)
  | align (tmp n c1 c2 : Nat) (m : Mem)
  | words (n lx1 lx2 dst src : Nat) (m : Mem)
  | bytes (n c1 c2 : Nat) (m : Mem)

abbrev StNext := Next St Copied Unit

/-- `memcpy(dst, src, n)` -/
def step (o : Order) (dst src n : Nat) : St → StNext
  | .entry m =>
    if unaligned .eight dst src = 0 ∧ 8 < n then
      if stralign .eight dst ≠ 0 then .again (.align (stralign .eight dst) n dst src m)
      else .again (.words n dst src dst src m)
    else .again (.bytes n dst src m)
  | .align tmp n c1 c2 m =>
    if tmp ≠ 0 ∧ n ≠ 0 then .again (.align (tmp - 1) (n - 1) (c1 + 1) (c2 + 1) (m.store c1 [m c2]))
    else
      -- `n--` behind `tmp--`, if that was not zero
      let n := if tmp ≠ 0 then usub 64 n 1 else n
      if n = usub 64 0 1 then .stop (dst, m) else .again (.words n c1 c2 c1 c2 m)
  | .words n lx1 lx2 dst src m =>
    if 8 ≤ n then
      .again (.words (n - 8) (lx1 + 8) (lx2 + 8) dst src (storeWord o m lx1 (wordAt o .eight m lx2)))
    else .again (.bytes n (if lx1 ≠ 0 then lx1 else dst) (if lx1 ≠ 0 then lx2 else src) m)
  | .bytes n c1 c2 m =>
    if n = 0 then .stop (dst, m)
    else .again (.bytes (n - 1) (c1 + 1) (c2 + 1) (m.store c1 [m c2]))

end Memcpy

/-! ## `strcpy` -/

namespace Strcpy

/-- At the entry, in the loop for addresses that differ, in the loop up to a word, in the loop over the
words, and in the loop over the bytes of the last word. -/
inductive St where
  | entry (m : Mem)
  | plain (s1 s2 : Nat) (m : Mem)
  | align (tmp : Int) (s1 s2 : Nat) (m : Mem)
  | words (s1 s2 : Nat) (m : Mem)
  | extract (l : WordT .eight) (s1 : Nat) (m : Mem)

abbrev StNext := Next St Copied Unit

/-- `if (tmp != -1) return (res);` -/
def leave (res : Nat) (tmp : Int) (s1 s2 : Nat) (m : Mem) : StNext :=
  if tmp ≠ -1 then .stop (res, m) else .again (.words s1 s2 m)

/-- `strcpy(s1, s2)` -/
def step (o : Order) (s1 s2 : Nat) : St → StNext
  | .entry m =>
    if unaligned .eight s1 s2 ≠ 0 then .again (.plain s1 s2 m)
    else if stralign .eight s1 ≠ 0 then .again (.align (stralign .eight s1) s1 s2 m)
    else .again (.words s1 s2 m)
  | .plain p q m =>
    if m q = 0 then .stop (s1, m.store p [m q])
    else .again (.plain (p + 1) (q + 1) (m.store p [m q]))
  | .align tmp p q m =>
    if tmp = 0 then leave s1 (tmp - 1) p q m
    else if m q = 0 then leave s1 (tmp - 1) (p + 1) (q + 1) (m.store p [m q])
    else .again (.align (tmp - 1) (p + 1) (q + 1) (m.store p [m q]))
  | .words p q m =>
    let l := wordAt o .eight m q
    if nulTest l ≠ 0 then .again (.extract l p m)
    else .again (.words (p + 8) (q + 8) (storeWord o m p l))
  | .extract l p m =>
    if gfc o l = 0 then .stop (s1, m.store p [gfc o l])
    else .again (.extract (incstr o l) (p + 1) (m.store p [gfc o l]))

end Strcpy

/-! ## `memmove` -/

namespace Memmove

inductive St where
  | entry (m : Mem)
  | up (a b count : Nat) (m : Mem)
  | down (a b count : Nat) (m : Mem)

abbrev StNext := Next St Copied Unit

/-- `memmove(dst, src, count)` -/
def step (dst src count : Nat) : St → StNext
  | .entry m =>
    if src ≠ dst then
      if dst < src then .again (.up dst src count m)
      else
        .again (.down ((dst + usub 64 count 1) % 2 ^ 64) ((src + usub 64 count 1) % 2 ^ 64) count m)
    else .stop (dst, m)
  | .up a b count m =>
    if count = 0 then .stop (dst, m)
    else .again (.up (a + 1) (b + 1) (count - 1) (m.store a [m b]))
  | .down a b count m =>
    if count = 0 then .stop (dst, m)
    else .again (.down (usub 64 a 1) (usub 64 b 1) (count - 1) (m.store a [m b]))

end Memmove

/-! ## Words -/

section

variable {o : Order} {m : Mem} {a b k : Nat}

/-- A word that is copied as its bytes are. -/
theorem storeWord_copy (h : ∀ i < 8, m.copy a b k (b + k + i) = m (b + (k + i))) :
    storeWord o (m.copy a b k) (a + k) (wordAt o .eight (m.copy a b k) (b + k)) =
      m.copy a b (k + 8) := by
  have hlen : ((List.range 8).map
      (charAt o (wordAt o .eight (m.copy a b k) (b + k)))).length = 8 := by
    rw [List.length_map, List.length_range]
  unfold storeWord
  rw [Mem.store_copy, hlen]
  intro i hi
  rw [hlen] at hi
  rw [List.getD_eq_getElem?_getD, List.getElem?_map, List.getElem?_range hi, Option.map_some,
    Option.getD_some, charAt_wordAt hi, h i hi]

theorem store_copy_one (h : m.copy a b k (b + k) = m (b + k)) :
    (m.copy a b k).store (a + k) [m.copy a b k (b + k)] = m.copy a b (k + 1) := by
  refine Mem.store_copy fun i hi => ?_
  obtain rfl : i = 0 := Nat.lt_one_iff.1 hi
  exact h

end

namespace Memcpy

variable {o : Order} {m : Mem} {dst src n k : Nat} {r : Copied}

/-- The source is not written to. -/
theorem copy_source (hd : Extent.Disj ⟨dst, n⟩ ⟨src, n⟩) (hk : k ≤ n) {i : Nat} (hi : i < n) :
    m.copy dst src k (src + i) = m (src + i) := by
  unfold Extent.Disj at hd
  exact Mem.copy_out (by dsimp only at hd; omega)

theorem stops_bytes (hd : Extent.Disj ⟨dst, n⟩ ⟨src, n⟩) (hk : k ≤ n) :
    Stops (step o dst src n) (.bytes (n - k) (dst + k) (src + k) (m.copy dst src k)) r ↔
      r = (dst, m.copy dst src n) := by
  induction hn : n - k generalizing k with
  | zero =>
    obtain rfl : k = n := by omega
    exact stops_stop rfl
  | succ j ih =>
    have hstep : step o dst src n (.bytes (j + 1) (dst + k) (src + k) (m.copy dst src k)) =
        .again (.bytes j (dst + (k + 1)) (src + (k + 1)) (m.copy dst src (k + 1))) := by
      rw [← store_copy_one (copy_source hd hk (by omega))]
      rfl
    rw [stops_again hstep]
    exact ih (by omega) (by omega)

theorem stops_words (hd : Extent.Disj ⟨dst, n⟩ ⟨src, n⟩) (hk : k ≤ n) {k0 : Nat} (h0 : k0 ≤ k) :
    Stops (step o dst src n)
        (.words (n - k) (dst + k) (src + k) (dst + k0) (src + k0) (m.copy dst src k)) r ↔
      r = (dst, m.copy dst src n) := by
  induction hn : n - k using Nat.strong_induction_on generalizing k with
  | _ j ih =>
    by_cases hj : 8 ≤ j
    · have hstep : step o dst src n
          (.words j (dst + k) (src + k) (dst + k0) (src + k0) (m.copy dst src k)) =
          .again (.words (j - 8) (dst + (k + 8)) (src + (k + 8)) (dst + k0) (src + k0)
            (m.copy dst src (k + 8))) := by
        rw [← storeWord_copy (o := o) fun i hi => by
          rw [Nat.add_assoc]
          exact copy_source hd hk (by omega)]
        exact if_pos hj
      rw [stops_again hstep]
      exact ih (j - 8) (by omega) (by omega) (by omega) (by omega)
    · have hnull : (if dst + k ≠ 0 then dst + k else dst + k0) = dst + k ∧
          (if dst + k ≠ 0 then src + k else src + k0) = src + k := by
        split
        · exact ⟨rfl, rfl⟩
        · exact ⟨by omega, by omega⟩
      have hstep : step o dst src n
          (.words j (dst + k) (src + k) (dst + k0) (src + k0) (m.copy dst src k)) =
          .again (.bytes j (dst + k) (src + k) (m.copy dst src k)) := by
        unfold step
        dsimp only
        rw [if_neg hj, hnull.1, hnull.2]
      rw [stops_again hstep, ← hn]
      exact stops_bytes hd hk

/-- The counter of bytes does not get to the value that is tested for behind the loop. -/
theorem stops_align (tmp : Nat) (hd : Extent.Disj ⟨dst, n⟩ ⟨src, n⟩) (hk : k + tmp ≤ n)
    (hpos : 0 < k + tmp) (hn : n < 2 ^ 64) :
    Stops (step o dst src n) (.align tmp (n - k) (dst + k) (src + k) (m.copy dst src k)) r ↔
      r = (dst, m.copy dst src n) := by
  have hmax : usub 64 0 1 = 2 ^ 64 - 1 := by decide
  induction tmp generalizing k with
  | zero =>
    have hcount : (if (0 : Nat) ≠ 0 then usub 64 (n - k) 1 else n - k) = n - k :=
      if_neg fun h => h rfl
    have hstep : step o dst src n (.align 0 (n - k) (dst + k) (src + k) (m.copy dst src k)) =
        .again (.words (n - k) (dst + k) (src + k) (dst + k) (src + k) (m.copy dst src k)) := by
      unfold step
      dsimp only
      rw [if_neg (fun h => h.1 rfl), hcount, hmax, if_neg (by omega)]
    rw [stops_again hstep]
    exact stops_words hd hk le_rfl
  | succ tmp ih =>
    have hstep : step o dst src n
        (.align (tmp + 1) (n - k) (dst + k) (src + k) (m.copy dst src k)) =
        .again (.align tmp (n - (k + 1)) (dst + (k + 1)) (src + (k + 1))
          (m.copy dst src (k + 1))) := by
      rw [← store_copy_one (copy_source hd (by omega) (by omega)), Nat.sub_add_eq]
      exact if_pos ⟨Nat.succ_ne_zero tmp, by omega⟩
    rw [stops_again hstep]
    exact ih (by omega) (by omega)

/-- **`memcpy` leaves what the loop over the bytes leaves.** -/
theorem stops_entry (m : Mem) (hn : n < 2 ^ 64) (hd : Extent.Disj ⟨dst, n⟩ ⟨src, n⟩) :
    Stops (step o dst src n) (.entry m) r ↔ r = (dst, m.copy dst src n) := by
  by_cases hu : unaligned .eight dst src = 0 ∧ 8 < n
  · by_cases ha : stralign .eight dst ≠ 0
    · have hstep : step o dst src n (.entry m) =
          .again (.align (stralign .eight dst) n dst src m) := (if_pos hu).trans (if_pos ha)
      have hlt : stralign .eight dst < 8 := by
        rw [stralign_eq]
        exact Nat.mod_lt _ (by decide)
      have halign := stops_align (o := o) (m := m) (r := r) (k := 0) (stralign .eight dst) hd
        (by omega) (by omega) hn
      rw [Mem.copy_zero] at halign
      rw [stops_again hstep]
      exact halign
    · have hstep : step o dst src n (.entry m) = .again (.words n dst src dst src m) :=
        (if_pos hu).trans (if_neg ha)
      have hwords := stops_words (o := o) (m := m) (r := r) (k := 0) hd (Nat.zero_le n)
        (Nat.le_refl 0)
      rw [Mem.copy_zero] at hwords
      rw [stops_again hstep]
      exact hwords
  · have hstep : step o dst src n (.entry m) = .again (.bytes n dst src m) := if_neg hu
    have hbytes := stops_bytes (o := o) (m := m) (r := r) (k := 0) hd (Nat.zero_le n)
    rw [Mem.copy_zero] at hbytes
    rw [stops_again hstep]
    exact hbytes

end Memcpy

namespace Strcpy

variable {o : Order} {m : Mem} {s1 s2 len k : Nat} {r : Copied}

/-- The string is not written to. -/
theorem copy_source (hd : Extent.Disj ⟨s1, len + 1⟩ ⟨s2, len + 1⟩) (hk : k ≤ len + 1) {i : Nat}
    (hi : i ≤ len) : m.copy s1 s2 k (s2 + i) = m (s2 + i) :=
  Memcpy.copy_source hd hk (Nat.lt_succ_of_le hi)

/-- One byte, and what is behind it. -/
theorem byte_step (h : StringAt m s2 len) (hd : Extent.Disj ⟨s1, len + 1⟩ ⟨s2, len + 1⟩)
    (hk : k ≤ len) :
    (m.copy s1 s2 k (s2 + k) = 0 ↔ k = len) ∧
      (m.copy s1 s2 k).store (s1 + k) [m.copy s1 s2 k (s2 + k)] = m.copy s1 s2 (k + 1) := by
  have hread := copy_source (m := m) hd (Nat.le_succ_of_le hk) hk
  refine ⟨?_, store_copy_one hread⟩
  rw [hread]
  constructor
  · intro hnul
    by_contra hne
    exact h.ne_nul k (by omega) hnul
  · rintro rfl
    exact h.nul

theorem stops_plain (h : StringAt m s2 len) (hd : Extent.Disj ⟨s1, len + 1⟩ ⟨s2, len + 1⟩)
    (hk : k ≤ len) :
    Stops (step o s1 s2) (.plain (s1 + k) (s2 + k) (m.copy s1 s2 k)) r ↔
      r = (s1, m.copy s1 s2 (len + 1)) := by
  induction hn : len - k generalizing k with
  | zero =>
    obtain rfl : k = len := by omega
    obtain ⟨hnul, hstore⟩ := byte_step h hd hk
    have hstep : step o s1 s2 (.plain (s1 + k) (s2 + k) (m.copy s1 s2 k)) =
        .stop (s1, m.copy s1 s2 (k + 1)) := by
      rw [← hstore]
      exact if_pos (hnul.2 rfl)
    exact stops_stop hstep
  | succ j ih =>
    obtain ⟨hnul, hstore⟩ := byte_step h hd hk
    have hstep : step o s1 s2 (.plain (s1 + k) (s2 + k) (m.copy s1 s2 k)) =
        .again (.plain (s1 + (k + 1)) (s2 + (k + 1)) (m.copy s1 s2 (k + 1))) := by
      rw [← hstore]
      exact if_neg (mt hnul.1 (by omega))
    rw [stops_again hstep]
    exact ih (by omega) (by omega)

/-- The bytes of the last word. -/
theorem stops_extract {l : WordT .eight} (h : StringAt m s2 len) (hk : k ≤ len)
    (hlast : len - k < 8) (hl : ∀ i ≤ len - k, charAt o l i = m (s2 + (k + i))) :
    Stops (step o s1 s2) (.extract l (s1 + k) (m.copy s1 s2 k)) r ↔
      r = (s1, m.copy s1 s2 (len + 1)) := by
  have hstore : ∀ {k} {l : WordT .eight}, charAt o l 0 = m (s2 + k) →
      (m.copy s1 s2 k).store (s1 + k) [gfc o l] = m.copy s1 s2 (k + 1) := fun hl => by
    rw [gfc_eq, hl]
    refine Mem.store_copy fun i hi => ?_
    obtain rfl : i = 0 := Nat.lt_one_iff.1 hi
    rfl
  induction hn : len - k generalizing k l with
  | zero =>
    obtain rfl : k = len := by omega
    have hchar := hl 0 (Nat.zero_le _)
    have hstep : step o s1 s2 (.extract l (s1 + k) (m.copy s1 s2 k)) =
        .stop (s1, m.copy s1 s2 (k + 1)) := by
      rw [← hstore hchar]
      exact if_pos ((gfc_eq o l).trans (hchar.trans h.nul))
    exact stops_stop hstep
  | succ j ih =>
    have hchar := hl 0 (Nat.zero_le _)
    have hstep : step o s1 s2 (.extract l (s1 + k) (m.copy s1 s2 k)) =
        .again (.extract (incstr o l) (s1 + (k + 1)) (m.copy s1 s2 (k + 1))) := by
      rw [← hstore hchar]
      refine if_neg fun hnul => h.ne_nul k (by omega) ?_
      rw [← hnul, gfc_eq, hchar]
      rfl
    rw [stops_again hstep]
    refine ih (by omega) (by omega) (fun i hi => ?_) (by omega)
    rw [charAt_incstr (show i + 1 < 8 by omega), hl (i + 1) (by omega), Nat.add_assoc,
      Nat.add_comm 1]

theorem stops_words (h : StringAt m s2 len) (hd : Extent.Disj ⟨s1, len + 1⟩ ⟨s2, len + 1⟩)
    (hk : k ≤ len) :
    Stops (step o s1 s2) (.words (s1 + k) (s2 + k) (m.copy s1 s2 k)) r ↔
      r = (s1, m.copy s1 s2 (len + 1)) := by
  induction hn : len - k using Nat.strong_induction_on generalizing k with
  | _ j ih =>
    have hread : ∀ i ≤ len - k, charAt o (wordAt o .eight (m.copy s1 s2 k) (s2 + k)) i =
        m.copy s1 s2 k (s2 + k + i) → charAt o (wordAt o .eight (m.copy s1 s2 k) (s2 + k)) i =
          m (s2 + (k + i)) := fun i hi hchar => by
      rw [hchar, Nat.add_assoc]
      exact copy_source hd (by omega) (by omega)
    by_cases hj : j < 8
    · have htest : nulTest (wordAt o .eight (m.copy s1 s2 k) (s2 + k)) ≠ 0 := fun hzero => by
        have hne := (nulTest_iff o _).1 hzero (len - k) (show len - k < 8 by omega)
        rw [hread _ le_rfl (charAt_wordAt (show len - k < 8 by omega)),
          Nat.add_sub_cancel' hk] at hne
        exact hne h.nul
      have hstep : step o s1 s2 (.words (s1 + k) (s2 + k) (m.copy s1 s2 k)) =
          .again (.extract (wordAt o .eight (m.copy s1 s2 k) (s2 + k)) (s1 + k)
            (m.copy s1 s2 k)) := if_pos htest
      rw [stops_again hstep]
      exact stops_extract h hk (by omega) fun i hi =>
        hread i hi (charAt_wordAt (show i < 8 by omega))
    · have htest : nulTest (wordAt o .eight (m.copy s1 s2 k) (s2 + k)) = 0 := by
        refine (nulTest_iff o _).2 fun i hi => ?_
        rw [hread i (show i ≤ len - k by have : i < 8 := hi; omega) (charAt_wordAt hi)]
        exact h.ne_nul (k + i) (by have : i < 8 := hi; omega)
      have hstep : step o s1 s2 (.words (s1 + k) (s2 + k) (m.copy s1 s2 k)) =
          .again (.words (s1 + (k + 8)) (s2 + (k + 8)) (m.copy s1 s2 (k + 8))) := by
        rw [← storeWord_copy (o := o) fun i hi => by
          rw [Nat.add_assoc]
          exact copy_source hd (by omega) (by omega)]
        exact if_neg (not_not.2 htest)
      rw [stops_again hstep]
      exact ih (j - 8) (by omega) (by omega) (by omega)

/-- The counter is `-1` behind the loop exactly if it came to its end. -/
theorem stops_align (tmp : Nat) (h : StringAt m s2 len)
    (hd : Extent.Disj ⟨s1, len + 1⟩ ⟨s2, len + 1⟩) (hk : k ≤ len) :
    Stops (step o s1 s2) (.align tmp (s1 + k) (s2 + k) (m.copy s1 s2 k)) r ↔
      r = (s1, m.copy s1 s2 (len + 1)) := by
  induction tmp generalizing k with
  | zero =>
    have hstep : step o s1 s2 (.align (0 : Nat) (s1 + k) (s2 + k) (m.copy s1 s2 k)) =
        .again (.words (s1 + k) (s2 + k) (m.copy s1 s2 k)) := rfl
    rw [stops_again hstep]
    exact stops_words h hd hk
  | succ tmp ih =>
    obtain ⟨hnul, hstore⟩ := byte_step h hd hk
    have hne : ((tmp + 1 : Nat) : Int) ≠ 0 := by omega
    have hpred : ((tmp + 1 : Nat) : Int) - 1 = tmp := by omega
    by_cases hlast : k = len
    · have hstep : step o s1 s2 (.align (tmp + 1 : Nat) (s1 + k) (s2 + k) (m.copy s1 s2 k)) =
          .stop (s1, m.copy s1 s2 (len + 1)) := by
        unfold step leave
        dsimp only
        rw [if_neg hne, if_pos (hnul.2 hlast), hpred, if_pos (by omega), hstore, hlast]
      exact stops_stop hstep
    · have hstep : step o s1 s2 (.align (tmp + 1 : Nat) (s1 + k) (s2 + k) (m.copy s1 s2 k)) =
          .again (.align tmp (s1 + (k + 1)) (s2 + (k + 1)) (m.copy s1 s2 (k + 1))) := by
        unfold step
        dsimp only
        rw [if_neg hne, if_neg (mt hnul.1 hlast), hpred, hstore]
        rfl
      rw [stops_again hstep]
      exact ih (by omega)

/-- **`strcpy` leaves what the loop over the bytes leaves.** -/
theorem stops_entry (h : StringAt m s2 len) (hd : Extent.Disj ⟨s1, len + 1⟩ ⟨s2, len + 1⟩) :
    Stops (step o s1 s2) (.entry m) r ↔ r = (s1, m.copy s1 s2 (len + 1)) := by
  have hzero : m.copy s1 s2 0 = m := Mem.copy_zero
  by_cases hu : unaligned .eight s1 s2 ≠ 0
  · have hstep : step o s1 s2 (.entry m) = .again (.plain s1 s2 m) := if_pos hu
    have hplain := stops_plain (o := o) (r := r) (k := 0) h hd (Nat.zero_le len)
    rw [hzero] at hplain
    rw [stops_again hstep]
    exact hplain
  · by_cases ha : stralign .eight s1 ≠ 0
    · have hstep : step o s1 s2 (.entry m) = .again (.align (stralign .eight s1) s1 s2 m) :=
        (if_neg hu).trans (if_pos ha)
      have halign := stops_align (o := o) (r := r) (k := 0) (stralign .eight s1) h hd
        (Nat.zero_le len)
      rw [hzero] at halign
      rw [stops_again hstep]
      exact halign
    · have hstep : step o s1 s2 (.entry m) = .again (.words s1 s2 m) :=
        (if_neg hu).trans (if_neg ha)
      have hwords := stops_words (o := o) (r := r) (k := 0) h hd (Nat.zero_le len)
      rw [hzero] at hwords
      rw [stops_again hstep]
      exact hwords

end Strcpy

namespace Memmove

variable {m : Mem} {dst src n k : Nat} {r : Copied}

/-- Upwards, the bytes behind those copied are as they were. -/
theorem stops_up (hlt : dst < src) (hk : k ≤ n) :
    Stops (step dst src n) (.up (dst + k) (src + k) (n - k) (m.copy dst src k)) r ↔
      r = (dst, m.copy dst src n) := by
  induction hn : n - k generalizing k with
  | zero =>
    obtain rfl : k = n := by omega
    exact stops_stop rfl
  | succ j ih =>
    have hstep : step dst src n (.up (dst + k) (src + k) (j + 1) (m.copy dst src k)) =
        .again (.up (dst + (k + 1)) (src + (k + 1)) j (m.copy dst src (k + 1))) := by
      rw [← store_copy_one (Mem.copy_out (by omega))]
      rfl
    rw [stops_again hstep]
    exact ih (by omega) (by omega)

/-- Downwards, the bytes in front of those copied are as they were. -/
theorem stops_down {a b : Nat} (hlt : src < dst) (hd : dst + n ≤ 2 ^ 64) (hk : k ≤ n)
    (ha : k ≠ 0 → a = dst + (k - 1)) (hb : k ≠ 0 → b = src + (k - 1)) :
    Stops (step dst src n) (.down a b k (m.copy (dst + k) (src + k) (n - k))) r ↔
      r = (dst, m.copy dst src n) := by
  induction k generalizing a b with
  | zero => exact stops_stop rfl
  | succ k ih =>
    obtain rfl := ha (Nat.succ_ne_zero k)
    obtain rfl := hb (Nat.succ_ne_zero k)
    rw [Nat.add_sub_cancel]
    have hread : m.copy (dst + (k + 1)) (src + (k + 1)) (n - (k + 1)) (src + k) = m (src + k) :=
      Mem.copy_out (by omega)
    have hstep : step dst src n
        (.down (dst + k) (src + k) (k + 1) (m.copy (dst + (k + 1)) (src + (k + 1)) (n - (k + 1)))) =
        .again (.down (usub 64 (dst + k) 1) (usub 64 (src + k) 1) k
          (m.copy (dst + k) (src + k) (n - k))) := by
      rw [show n - k = n - (k + 1) + 1 by omega, ← Mem.store_copy_front, ← Nat.add_assoc,
        ← Nat.add_assoc, ← hread]
      rfl
    rw [stops_again hstep]
    refine ih (by omega) (fun hk0 => ?_) fun hk0 => ?_
    · rw [usub_of_le (by omega) (by omega)]
      omega
    · rw [usub_of_le (by omega) (by omega)]
      omega

/-- **`memmove` leaves the source as it was before, at the destination.** -/
theorem stops_entry (m : Mem) (hd : dst + n ≤ 2 ^ 64) (hs : src + n ≤ 2 ^ 64) (hn : n < 2 ^ 64) :
    Stops (step dst src n) (.entry m) r ↔ r = (dst, m.copy dst src n) := by
  by_cases hne : src ≠ dst
  · by_cases hlt : dst < src
    · have hstep : step dst src n (.entry m) = .again (.up dst src n m) :=
        (if_pos hne).trans (if_pos hlt)
      have hup := stops_up (m := m) (r := r) (k := 0) hlt (Nat.zero_le n)
      rw [Mem.copy_zero] at hup
      rw [stops_again hstep]
      exact hup
    · have hstep : step dst src n (.entry m) =
          .again (.down ((dst + usub 64 n 1) % 2 ^ 64) ((src + usub 64 n 1) % 2 ^ 64) n m) :=
        (if_pos hne).trans (if_neg hlt)
      have hpast : m.copy (dst + n) (src + n) (n - n) = m := by
        rw [Nat.sub_self, Mem.copy_zero]
      have hdown := stops_down (m := m) (r := r) (k := n) (a := (dst + usub 64 n 1) % 2 ^ 64)
        (b := (src + usub 64 n 1) % 2 ^ 64) (show src < dst by omega) hd le_rfl
        (fun h0 => by rw [usub_of_le (by omega) hn, Nat.mod_eq_of_lt (by omega)])
        (fun h0 => by rw [usub_of_le (by omega) hn, Nat.mod_eq_of_lt (by omega)])
      rw [hpast] at hdown
      rw [stops_again hstep]
      exact hdown
  · have hsame : m.copy dst src n = m := by
      rw [not_not.1 hne]
      funext i
      by_cases hi : dst ≤ i ∧ i < dst + n
      · obtain ⟨j, rfl⟩ := Nat.exists_eq_add_of_le hi.1
        exact Mem.copy_in (by omega)
      · exact Mem.copy_out hi
    rw [hsame]
    exact stops_stop (if_neg hne)

end Memmove

/-! ## The claim -/

/-- **Each call comes to its end and leaves the bytes of the source at the destination, as the loop over
the bytes does, and no other byte changed.** -/
theorem copies (o : Order) :
    (∀ (m : Mem) (dst src n : Nat), n < 2 ^ 64 → Extent.Disj ⟨dst, n⟩ ⟨src, n⟩ →
      Stops (Memcpy.step o dst src n) (.entry m) (dst, m.copy dst src n) ∧
        Stops (Memcpy.step o dst src n) (.bytes n dst src m) (dst, m.copy dst src n)) ∧
    (∀ (m : Mem) (s1 s2 len : Nat), StringAt m s2 len →
      Extent.Disj ⟨s1, len + 1⟩ ⟨s2, len + 1⟩ →
        Stops (Strcpy.step o s1 s2) (.entry m) (s1, m.copy s1 s2 (len + 1)) ∧
          Stops (Strcpy.step o s1 s2) (.plain s1 s2 m) (s1, m.copy s1 s2 (len + 1))) ∧
    ∀ (m : Mem) (dst src n : Nat), n < 2 ^ 64 → dst + n ≤ 2 ^ 64 → src + n ≤ 2 ^ 64 →
      Stops (Memmove.step dst src n) (.entry m) (dst, m.copy dst src n) := by
  refine ⟨fun m dst src n hn hd => ⟨(Memcpy.stops_entry m hn hd).2 rfl, ?_⟩,
    fun m s1 s2 len h hd => ⟨(Strcpy.stops_entry h hd).2 rfl, ?_⟩,
    fun m dst src n hn hd hs => (Memmove.stops_entry m hd hs hn).2 rfl⟩
  · have hbytes := Memcpy.stops_bytes (o := o) (m := m) (r := (dst, m.copy dst src n)) (k := 0) hd
      (Nat.zero_le n)
    rw [Mem.copy_zero] at hbytes
    exact hbytes.2 rfl
  · have hplain := Strcpy.stops_plain (o := o) (r := (s1, m.copy s1 s2 (len + 1))) (k := 0) h hd
      (Nat.zero_le len)
    rw [show m.copy s1 s2 0 = m from Mem.copy_zero] at hplain
    exact hplain.2 rfl

/-- Twenty bytes from one odd address to another, a string of three bytes, and five bytes that are moved
by three. -/
theorem copies_odd :
    let m : Mem := fun a => if a = 14 then 0 else UInt8.ofNat a
    Stops (Memcpy.step .little 101 13 20) (.entry m) (101, m.copy 101 13 20) ∧
      Stops (Strcpy.step .little 99 11) (.entry m) (99, m.copy 99 11 4) ∧
        Stops (Memmove.step 11 8 5) (.entry m) (11, m.copy 11 8 5) :=
  ⟨((copies .little).1 (fun a => if a = 14 then 0 else UInt8.ofNat a) 101 13 20 (by decide)
      (by decide)).1,
    ((copies .little).2.1 (fun a => if a = 14 then 0 else UInt8.ofNat a) 99 11 3
      ⟨by decide, by decide⟩ (by decide)).1,
    (copies .little).2.2 (fun a => if a = 14 then 0 else UInt8.ofNat a) 11 8 5 (by decide) (by decide)
      (by decide)⟩

end Dietlibc.Words
