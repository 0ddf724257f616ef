import Dietlibc.Dns.Labels

/-!
# Skipping and expanding names

A well-formed name (`WellFormed`) is expanded up to the place that `After` gives: the end of the
name, or the end of labels reached through its pointer if these run past it. `dn_skipname`
reads on to the place that `Skips` gives: it tests the bits of `0x0c` where a pointer has those
of `0xc0`. The two agree where both places are the same.
-/

namespace Dietlibc.Dns

variable {m : Packet} {start cur pos a e e' maxlen : Nat} {ls : List (List UInt8)} {c : Cursor}

/-- A domain name of RFC 1035 at `start`, with its labels: they end at a zero, or at a pointer to
a name that starts earlier. -/
inductive WellFormed (m : Packet) : Nat → List (List UInt8) → Prop where
  | zero {start pos : Nat} {ls : List (List UInt8)} : Run m start ls pos → m[pos]? = some 0 →
      WellFormed m start ls
  | pointer {start pos : Nat} {ls ls' : List (List UInt8)} {hi lo : UInt8} :
      Run m start ls pos → m[pos]? = some hi → hi >>> 6 = 3 → m[pos + 1]? = some lo →
      pointerOfs hi lo < start → WellFormed m (pointerOfs hi lo) ls' →
      WellFormed m start (ls ++ ls')

/-- `after`, from `a` on, when the name at `start` is expanded. -/
inductive After (m : Packet) : Nat → Nat → Nat → Prop where
  | root {start a : Nat} : m[start]? = some 0 → After m start a a
  | zero {start pos a : Nat} {ls : List (List UInt8)} : Run m start ls pos → ls ≠ [] →
      m[pos]? = some 0 → After m start a (if a < pos then pos + 1 else a)
  | pointer {start pos a e : Nat} {ls : List (List UInt8)} {hi lo : UInt8} :
      Run m start ls pos → m[pos]? = some hi → hi >>> 6 = 3 → m[pos + 1]? = some lo →
      After m (pointerOfs hi lo) (max a (pos + 2)) e → After m start a e

/-- `dn_skipname` reads from `cur` up to `e`. -/
inductive Skips (m : Packet) : Nat → Nat → Prop where
  | zero {cur : Nat} : m[cur]? = some 0 → Skips m cur (cur + 1)
  | pointer {cur : Nat} {b : UInt8} : m[cur]? = some b → b &&& 0xc = 0xc → cur + 1 < m.length →
      Skips m cur (cur + 2)
  | label {cur e : Nat} {b : UInt8} : m[cur]? = some b → b ≠ 0 → b &&& 0xc ≠ 0xc →
      cur + b.toNat + 1 < m.length → Skips m (cur + b.toNat + 1) e → Skips m cur e

/-! ## Expanding -/

theorem conv_after (hm : m.length < 2 ^ 31) (he : e ≤ m.length) :
    CInt.conv 32 (e : Int) = e :=
  CInt.conv_of_fits (by decide) (CInt.fits32.mpr (by omega))

/-- At the end of a name that fits, the terminator is stored. -/
theorem finish_fits (h : c.out.length < maxlen) :
    ∃ dest, finish maxlen c = .ok (CInt.conv 32 c.after, dest) := by
  unfold finish
  dsimp only
  rw [if_pos ?_]
  · exact ⟨_, rfl⟩
  · split
    · rw [List.length_dropLast]
      omega
    · exact h

/-- The loop gets to the end of the labels. -/
theorem decodeLoop_upto (hrun : Run m c.tmp ls pos) (hroom : (c.out ++ dotted ls).length < maxlen) :
    ∃ c', decodeLoop m maxlen c = decodeLoop m maxlen c' ∧ c'.tmp = pos ∧ c'.offset = c.offset ∧
      c'.out = c.out ++ dotted ls ∧ c'.after = if ls = [] then c.after
        else if c.after < pos then if m[pos]? = some 0 then pos + 1 else pos else c.after := by
  by_cases hls : ls = []
  · subst hls
    cases hrun
    exact ⟨c, rfl, rfl, rfl, by simp [dotted], by rw [if_pos rfl]⟩
  · refine ⟨c.along m ls pos, decodeLoop_run hrun hls (le_of_lt hroom), rfl, rfl, rfl, ?_⟩
    rw [if_neg hls]
    rfl

/-- The loop expands a well-formed name. -/
theorem decodeLoop_wellFormed (h : WellFormed m start ls) (htmp : c.tmp = start)
    (hofs : c.offset = start) (hroom : (c.out ++ dotted ls).length < maxlen) :
    ∃ e dest, After m start c.after e ∧ decodeLoop m maxlen c = .ok (CInt.conv 32 e, dest) := by
  induction h generalizing c with
  | zero hrun h0 =>
    rename_i start pos ls
    rw [← htmp] at hrun
    obtain ⟨c', he, hpos, -, hout, hafter⟩ := decodeLoop_upto hrun hroom
    have hstop : turn m maxlen c' = .stop := turn_zero (by rw [hpos]; exact h0)
    obtain ⟨dest, hfin⟩ := finish_fits (c := c') (by rw [hout]; exact hroom)
    refine ⟨c'.after, dest, ?_, ?_⟩
    · rw [hafter, ← htmp]
      by_cases hls : ls = []
      · subst hls
        cases hrun
        rw [if_pos rfl]
        exact .root h0
      · rw [if_neg hls, if_pos h0]
        exact .zero hrun hls h0
    · rw [he, decodeLoop, hstop]
      exact hfin
  | pointer hrun hhi h3 hlo hlt hwf ih =>
    rename_i start pos ls ls' hi lo
    rw [← htmp] at hrun
    have hd : dotted (ls ++ ls') = dotted ls ++ dotted ls' := by simp [dotted]
    rw [hd, ← List.append_assoc, List.length_append] at hroom
    obtain ⟨c', he, hpos, hofs', hout, hafter⟩ := decodeLoop_upto hrun
      (show _ < maxlen by omega)
    have hturn : turn m maxlen c' = .again (c'.follow (pointerOfs hi lo)) := by
      rw [turn_pointer (by rw [hpos]; exact hhi) h3, pointerTurn, hpos, hlo]
      exact if_neg (by omega)
    have hmax : (c'.follow (pointerOfs hi lo)).after = max c.after (pos + 2) := by
      have hnz : m[pos]? ≠ some 0 := by
        rw [hhi]
        simpa using ne_zero_of_pointer h3
      have hle : c.after ≤ c'.after ∧ c'.after ≤ max c.after pos := by
        rw [hafter, if_neg hnz]
        split_ifs <;> omega
      simp only [Cursor.follow, hpos]
      split <;> omega
    obtain ⟨e, dest, haft, hdec⟩ := ih (c := c'.follow (pointerOfs hi lo)) rfl rfl
      (by simp only [Cursor.follow, hout, List.length_append] at hroom ⊢; omega)
    rw [hmax] at haft
    refine ⟨e, dest, ?_, ?_⟩
    · rw [← htmp]
      exact .pointer hrun hhi h3 hlo haft
    · rw [he, decodeLoop, hturn]
      exact hdec

theorem Run.pos_lt {b : UInt8} (h : Run m start ls pos) (hb : m[pos]? = some b) : start < m.length := by
  have hend := h.end_eq
  have := lt_length hb
  omega

theorem After.bounds (h : After m start a e) (ha : a ≤ m.length) : a ≤ e ∧ e ≤ m.length := by
  induction h with
  | root _ => exact ⟨le_refl _, ha⟩
  | zero hrun hne h0 =>
    have := lt_length h0
    split <;> omega
  | pointer hrun hhi h3 hlo haft ih =>
    have := lt_length hlo
    have hb := ih (by omega)
    omega

theorem wellFormed_lt (h : WellFormed m start ls) : start < m.length := by
  cases h with
  | zero hrun h0 => exact hrun.pos_lt h0
  | pointer hrun hhi h3 hlo hlt hwf => exact hrun.pos_lt hhi

/-- What `dn_expand` returns for a well-formed name. -/
theorem dnExpand_wellFormed (hm : m.length < 2 ^ 31) (h : WellFormed m start ls)
    (h256 : (dotted ls).length < 256) :
    ∃ e dest, After m start start e ∧ dnExpand m start 256 = .ok ((e : Int) - start, dest) := by
  have hlt := wellFormed_lt h
  obtain ⟨e, dest, haft, hdec⟩ := decodeLoop_wellFormed (c := ⟨start, start, [], start, false⟩) h
    rfl rfl (by simpa using h256)
  have hb := haft.bounds (le_of_lt hlt)
  refine ⟨e, dest, haft, ?_⟩
  have hname : decodename m start 256 = .ok ((e : Int), dest) := by
    rw [decodename, if_neg (by decide), hdec, conv_after hm hb.2]
  have hsub : CInt.conv 32 ((e : Int) - start) = (e : Int) - start :=
    CInt.conv_of_fits (by decide) (CInt.fits32.mpr (by dsimp only at hb; omega))
  rw [dnExpand, hname]
  simp only [Except.map, hsub]

/-! ## Skipping -/

theorem Skips.bounds (h : Skips m cur e) : cur < e ∧ e ≤ m.length := by
  induction h with
  | zero h0 =>
    have := lt_length h0
    omega
  | pointer hb h0c hin => omega
  | label hb h0 h0c hin hs ih => omega

/-- What `Skips` finds at a byte. -/
theorem skips_iff {b : UInt8} (hb : m[cur]? = some b) : Skips m cur e ↔
    if b &&& 0xc = 0xc then cur + 1 < m.length ∧ e = cur + 2
    else if b = 0 then e = cur + 1
    else cur + b.toNat + 1 < m.length ∧ Skips m (cur + b.toNat + 1) e := by
  constructor
  · intro h
    cases h with
    | zero h0 =>
      cases Option.some.inj (hb.symm.trans h0)
      rw [if_neg (by decide), if_pos rfl]
    | pointer hb' h0c hin =>
      cases Option.some.inj (hb.symm.trans hb')
      rw [if_pos h0c]
      exact ⟨hin, rfl⟩
    | label hb' h0 h0c hin hs =>
      cases Option.some.inj (hb.symm.trans hb')
      rw [if_neg h0c, if_neg h0]
      exact ⟨hin, hs⟩
  · intro h
    split at h
    · rename_i h0c
      obtain ⟨hin, rfl⟩ := h
      exact .pointer hb h0c hin
    · rename_i h0c
      split at h
      · rename_i h0
        subst h0 h
        exact .zero hb
      · rename_i h0
        exact .label hb h0 h0c h.1 h.2

theorem conv_sub (hm : m.length < 2 ^ 31) {orig k : Nat} (ho : orig ≤ cur)
    (hk : cur + k ≤ m.length) :
    CInt.conv 32 ((cur : Int) - orig + k) = ((cur + k : Nat) : Int) - orig := by
  rw [CInt.conv_of_fits (by decide) (CInt.fits32.mpr (by omega))]
  omega

/-- `dn_skipname` returns the place that `Skips` gives, or `-1`. -/
theorem skipLoop_iff (hm : m.length < 2 ^ 31) {orig : Nat} (ho : orig ≤ cur) {n : Int}
    (hn : 0 ≤ n) : skipLoop m orig cur = n ↔ ∃ e, Skips m cur e ∧ n = (e : Int) - orig := by
  fun_induction skipLoop m orig cur with
  | case1 cur hb =>
    refine iff_of_false (by omega) ?_
    rintro ⟨e, hs, -⟩
    have hbd := hs.bounds
    have := List.getElem?_eq_none_iff.mp hb
    omega
  | case2 cur b hb h0c hin =>
    have hc := conv_sub (k := 2) hm ho hin
    simp only [skips_iff hb, h0c, if_true, hin, true_and, exists_eq_left]
    rw [← hc]
    exact eq_comm
  | case3 cur b hb h0c hin =>
    refine iff_of_false (by omega) ?_
    rintro ⟨e, hs, -⟩
    rw [skips_iff hb, if_pos h0c] at hs
    exact hin hs.1
  | case4 cur hb h0c =>
    have hc := conv_sub (k := 1) hm ho (lt_length hb)
    simp only [skips_iff hb, h0c, if_false, if_true, exists_eq_left]
    rw [← hc]
    exact eq_comm
  | case5 cur b hb h0c h0 hin ih =>
    simp only [skips_iff hb, h0c, h0, if_false, hin, true_and]
    exact ih (by omega)
  | case6 cur b hb h0c h0 hin =>
    refine iff_of_false (by omega) ?_
    rintro ⟨e, hs, -⟩
    rw [skips_iff hb, if_neg h0c, if_neg h0] at hs
    exact hin hs.1

/-! ## Agreement -/

theorem low_bits {b : UInt8} (h6 : b >>> 6 = 0) : b &&& 0xc = 0xc ↔ b.toNat / 4 % 4 = 3 := by
  have h : ∀ n < 64, UInt8.ofNat n &&& 0xc = 0xc ↔ n / 4 % 4 = 3 := by decide
  have hlt : b.toNat < 64 := by
    have h0 := congrArg UInt8.toNat h6
    rw [UInt8.toNat_shiftRight] at h0
    simp [Nat.shiftRight_eq_div_pow] at h0
    omega
  have hb := h b.toNat hlt
  rwa [UInt8.ofNat_toNat] at hb

/-- A run ends where no label starts. -/
def EndsAt (m : Packet) (pos : Nat) : Prop := ∀ b, m[pos]? = some b → b = 0 ∨ b >>> 6 ≠ 0

theorem endsAt_zero (h : m[pos]? = some 0) : EndsAt m pos := fun _ hb =>
  .inl (Option.some.inj (hb.symm.trans h))

theorem endsAt_pointer {hi : UInt8} (h : m[pos]? = some hi) (h3 : hi >>> 6 = 3) : EndsAt m pos := by
  intro b hb
  cases Option.some.inj (hb.symm.trans h)
  rw [h3]
  exact .inr (by decide)

theorem Run.unique {ls' : List (List UInt8)} {pos' : Nat} (h : Run m start ls pos)
    (h' : Run m start ls' pos') (hend : EndsAt m pos) (hend' : EndsAt m pos') :
    ls = ls' ∧ pos = pos' := by
  induction h generalizing ls' with
  | nil pos =>
    cases h' with
    | nil => exact ⟨rfl, rfl⟩
    | cons hb h0 h6 hin hrun => exact ((hend _ hb).elim h0 fun h => absurd h6 h).elim
  | cons hb h0 h6 hin hrun ih =>
    cases h' with
    | nil => exact ((hend' _ hb).elim h0 fun h => absurd h6 h).elim
    | cons hb' h0' h6' hin' hrun' =>
      cases Option.some.inj (hb.symm.trans hb')
      obtain ⟨hls, hpos⟩ := ih hrun' hend
      exact ⟨by rw [hls], hpos⟩

/-- Skipping over a run whose labels are read as such. -/
theorem skips_run (h : Run m start ls pos) (hlt : pos < e) :
    Skips m start e ↔ (∀ l ∈ ls, l.length / 4 % 4 ≠ 3) ∧ Skips m pos e := by
  induction h with
  | nil pos => simp
  | cons hb h0 h6 hin hrun ih =>
    rename_i cur pos b ls
    have hend := hrun.end_eq
    rw [skips_iff hb, List.forall_mem_cons, length_label hin]
    by_cases h3 : b &&& 0xc = 0xc
    · -- read as a pointer, the label ends the name too early
      have hn := (low_bits h6).mp h3
      rw [if_pos h3]
      refine iff_of_false ?_ fun h => h.1.1 hn
      rintro ⟨-, rfl⟩
      omega
    · have hn : b.toNat / 4 % 4 ≠ 3 := fun h => h3 ((low_bits h6).mpr h)
      rw [if_neg h3, if_neg h0, ih hlt]
      simp only [hin, hn, true_and, ne_eq, not_false_eq_true]

/-- The end of a name that ends at a zero. -/
theorem after_zero (hrun : Run m start ls pos) (h0 : m[pos]? = some 0) (h : After m start a e) :
    e = if ls = [] then a else if a < pos then pos + 1 else a := by
  cases h with
  | root hr =>
    obtain ⟨rfl, -⟩ := hrun.unique (.nil start) (endsAt_zero h0) (endsAt_zero hr)
    rw [if_pos rfl]
  | zero hrun' hne h0' =>
    obtain ⟨rfl, rfl⟩ := hrun.unique hrun' (endsAt_zero h0) (endsAt_zero h0')
    rw [if_neg hne]
  | pointer hrun' hhi h3 hlo haft =>
    obtain ⟨-, rfl⟩ := hrun.unique hrun' (endsAt_zero h0) (endsAt_pointer hhi h3)
    cases Option.some.inj (h0.symm.trans hhi)
    exact absurd h3 (by decide)

/-- The end of a name that ends at a pointer. -/
theorem after_pointer {hi lo : UInt8} (hrun : Run m start ls pos) (hhi : m[pos]? = some hi)
    (h3 : hi >>> 6 = 3) (hlo : m[pos + 1]? = some lo) (h : After m start a e) :
    After m (pointerOfs hi lo) (max a (pos + 2)) e := by
  cases h with
  | root hr =>
    obtain ⟨-, rfl⟩ := hrun.unique (.nil start) (endsAt_pointer hhi h3) (endsAt_zero hr)
    cases Option.some.inj (hr.symm.trans hhi)
    exact absurd h3 (by decide)
  | zero hrun' hne h0' =>
    obtain ⟨-, rfl⟩ := hrun.unique hrun' (endsAt_pointer hhi h3) (endsAt_zero h0')
    cases Option.some.inj (h0'.symm.trans hhi)
    exact absurd h3 (by decide)
  | pointer hrun' hhi' h3' hlo' haft =>
    obtain ⟨-, rfl⟩ := hrun.unique hrun' (endsAt_pointer hhi h3) (endsAt_pointer hhi' h3')
    cases Option.some.inj (hhi.symm.trans hhi')
    cases Option.some.inj (hlo.symm.trans hlo')
    exact haft

/-- Where the two readers of a name agree: no label has a length with both bits of `0x0c`, and
* the name ends at a zero and is not the root, or
* it ends at a pointer whose first byte has both bits of `0x0c`, and no labels reached through the
  pointer run past it, or
* the first byte of the pointer is taken for a length, and what follows is misread up to the very
  place where labels reached through the pointer end. -/
def Agree (m : Packet) (start : Nat) : Prop :=
  ∃ ls pos, Run m start ls pos ∧ (∀ l ∈ ls, l.length / 4 % 4 ≠ 3) ∧
    ((ls ≠ [] ∧ m[pos]? = some 0) ∨
      ∃ hi lo, m[pos]? = some hi ∧ hi >>> 6 = 3 ∧ m[pos + 1]? = some lo ∧
        ((hi &&& 0xc = 0xc ∧ After m (pointerOfs hi lo) (pos + 2) (pos + 2)) ∨
          (hi &&& 0xc ≠ 0xc ∧ pos + hi.toNat + 1 < m.length ∧
            ∃ e, After m (pointerOfs hi lo) (pos + 2) e ∧ Skips m (pos + hi.toNat + 1) e)))

theorem After.unique (h : After m start a e) (h' : After m start a e') : e = e' := by
  induction h with
  | root h0 => exact (after_zero (.nil _) h0 h').symm
  | zero hrun hne h0 =>
    have he := after_zero hrun h0 h'
    rw [if_neg hne] at he
    exact he.symm
  | pointer hrun hhi h3 hlo haft ih => exact ih (after_pointer hrun hhi h3 hlo h')

theorem agree_zero (hrun : Run m start ls pos) (h0 : m[pos]? = some 0) :
    Agree m start ↔ ls ≠ [] ∧ ∀ l ∈ ls, l.length / 4 % 4 ≠ 3 := by
  constructor
  · rintro ⟨ls', pos', hrun', hgood, ⟨hne, h0'⟩ | ⟨hi, lo, hhi, h3, -⟩⟩
    · obtain ⟨rfl, rfl⟩ := hrun.unique hrun' (endsAt_zero h0) (endsAt_zero h0')
      exact ⟨hne, hgood⟩
    · obtain ⟨-, rfl⟩ := hrun.unique hrun' (endsAt_zero h0) (endsAt_pointer hhi h3)
      cases Option.some.inj (h0.symm.trans hhi)
      exact absurd h3 (by decide)
  · rintro ⟨hne, hgood⟩
    exact ⟨ls, pos, hrun, hgood, .inl ⟨hne, h0⟩⟩

theorem agree_pointer {hi lo : UInt8} (hrun : Run m start ls pos) (hhi : m[pos]? = some hi)
    (h3 : hi >>> 6 = 3) (hlo : m[pos + 1]? = some lo)
    (haft : After m (pointerOfs hi lo) (pos + 2) e) :
    Agree m start ↔ (∀ l ∈ ls, l.length / 4 % 4 ≠ 3) ∧ Skips m pos e := by
  have hin := lt_length hlo
  rw [skips_iff hhi]
  constructor
  · rintro ⟨ls', pos', hrun', hgood, ⟨hne, h0'⟩ | ⟨hi', lo', hhi', h3', hlo', hcase⟩⟩
    · obtain ⟨-, rfl⟩ := hrun.unique hrun' (endsAt_pointer hhi h3) (endsAt_zero h0')
      cases Option.some.inj (h0'.symm.trans hhi)
      exact absurd h3 (by decide)
    · obtain ⟨rfl, rfl⟩ := hrun.unique hrun' (endsAt_pointer hhi h3) (endsAt_pointer hhi' h3')
      cases Option.some.inj (hhi.symm.trans hhi')
      cases Option.some.inj (hlo.symm.trans hlo')
      refine ⟨hgood, ?_⟩
      rcases hcase with ⟨hc, haft'⟩ | ⟨hc, hlen, e', haft', hs⟩
      · rw [if_pos hc]
        exact ⟨hin, haft.unique haft'⟩
      · rw [if_neg hc, if_neg (ne_zero_of_pointer h3), haft.unique haft']
        exact ⟨hlen, hs⟩
  · rintro ⟨hgood, hs⟩
    refine ⟨ls, pos, hrun, hgood, .inr ⟨hi, lo, hhi, h3, hlo, ?_⟩⟩
    split at hs
    · rename_i hc
      obtain ⟨-, rfl⟩ := hs
      exact .inl ⟨hc, haft⟩
    · rename_i hc
      rw [if_neg (ne_zero_of_pointer h3)] at hs
      exact .inr ⟨hc, hs.1, e, haft, hs.2⟩

/-- The readers of a well-formed name stop at the same place exactly where they agree. -/
theorem skips_iff_agree (hwf : WellFormed m start ls) (haft : After m start start e) :
    Skips m start e ↔ Agree m start := by
  cases hwf with
  | zero hrun h0 =>
    rename_i pos
    have he := after_zero hrun h0 haft
    rw [agree_zero hrun h0]
    by_cases hne : ls = []
    · rw [if_pos hne] at he
      refine iff_of_false (fun h => ?_) (fun h => h.1 hne)
      have hb := h.bounds
      omega
    · have hlt := (hrun.head hne).1
      rw [if_neg hne, if_pos hlt] at he
      subst he
      rw [skips_run hrun (by omega)]
      have hs : Skips m pos (pos + 1) := .zero h0
      simp only [hs, and_true, hne, ne_eq, not_false_eq_true, true_and]
  | pointer hrun hhi h3 hlo hlt hwf' =>
    rename_i pos ls ls' hi lo
    have hend := hrun.end_eq
    have haft' := after_pointer hrun hhi h3 hlo haft
    rw [max_eq_right (by omega)] at haft'
    have hb := haft'.bounds (lt_length hlo)
    rw [skips_run hrun (by omega), agree_pointer hrun hhi h3 hlo haft']

/-- **Skipping and expanding.** For every well-formed name that expands to fewer than 256 bytes,
`dn_expand` and `dn_skipname` return the same number exactly where they agree on the bytes. -/
theorem dnSkipname_eq_dnExpand_iff (m : Packet) (hm : m.length < 2 ^ 31) (start : Nat)
    (ls : List (List UInt8)) (hwf : WellFormed m start ls) (h256 : (dotted ls).length < 256) :
    (∃ n dest, dnExpand m start 256 = .ok (n, dest) ∧ dnSkipname m start = n) ↔
      Agree m start := by
  obtain ⟨e, dest, haft, hexp⟩ := dnExpand_wellFormed hm hwf h256
  have hb := haft.bounds (le_of_lt (wellFormed_lt hwf))
  have hn : (0 : Int) ≤ (e : Int) - start := by omega
  have hskip : dnSkipname m start = (e : Int) - start ↔ Skips m start e := by
    rw [dnSkipname, skipLoop_iff hm (le_refl _) hn]
    constructor
    · rintro ⟨e', hs, he⟩
      rwa [show e = e' by omega]
    · intro hs
      exact ⟨e, hs, rfl⟩
  rw [← skips_iff_agree hwf haft, ← hskip, hexp]
  constructor
  · rintro ⟨n, d, he, hs⟩
    obtain ⟨rfl, -⟩ := Prod.mk.inj (Except.ok.inj he)
    exact hs
  · intro hs
    exact ⟨_, dest, rfl, hs⟩

/-- The name `a`. -/
theorem dnSkipname_eq_dnExpand_label :
    ((∃ n dest, dnExpand [1, 97, 0] 0 256 = .ok (n, dest) ∧ dnSkipname [1, 97, 0] 0 = n) ↔
      Agree [1, 97, 0] 0) ∧ Agree [1, 97, 0] 0 := by
  have hrun : Run [1, 97, 0] 0 [[97]] 2 :=
    .cons (b := 1) rfl (by decide) (by decide) (by decide) (.nil 2)
  refine ⟨dnSkipname_eq_dnExpand_iff [1, 97, 0] (by decide) 0 [[97]] (.zero hrun rfl) (by decide),
    ?_⟩
  exact ⟨[[97]], 2, hrun, by decide, .inl ⟨by decide, rfl⟩⟩

/-- A label of twelve bytes: its length has the bits that `dn_skipname` takes for a pointer. -/
theorem dnSkipname_twelve : ∃ ls,
    WellFormed (12 :: List.replicate 12 97 ++ [0]) 0 ls ∧ (dotted ls).length < 256 ∧
      dnExpand (12 :: List.replicate 12 97 ++ [0]) 0 256 =
        .ok (14, List.replicate 12 97 ++ [0]) ∧
      dnSkipname (12 :: List.replicate 12 97 ++ [0]) 0 = 2 := by
  have hrun : Run (12 :: List.replicate 12 97 ++ [0]) 0 [List.replicate 12 97] 13 :=
    .cons (b := 12) rfl (by decide) (by decide) (by decide) (.nil 13)
  refine ⟨_, .zero hrun rfl, by decide, ?_, ?_⟩
  · have ht : turn (12 :: List.replicate 12 97 ++ [0]) 256 ⟨0, 0, [], 0, false⟩ =
        .again ⟨13, 0, List.replicate 12 97 ++ [46], 14, true⟩ := by decide
    have ht' : turn (12 :: List.replicate 12 97 ++ [0]) 256
        ⟨13, 0, List.replicate 12 97 ++ [46], 14, true⟩ = .stop := by decide
    rw [dnExpand, decodename, if_neg (by decide), decodeLoop, ht]
    dsimp only
    rw [decodeLoop, ht']
    rfl
  · rw [dnSkipname, skipLoop]
    rfl

end Dietlibc.Dns
