import Dietlibc.Base.Machine
import Dietlibc.Words.Dietstring

/-!
# `strcmp`

Two strings whose addresses differ modulo the word size are compared byte by byte, as are the bytes
up to the first word of any others, and these bytes are plain `char`s. The words behind are compared
as they are, and the bytes of the last ones are `unsigned char`s. So where a plain `char` has a sign,
what is returned depends on the addresses.
-/

namespace Dietlibc.Words

open Machine

namespace Strcmp

/-- The order of the bytes, the size of an `unsigned long`, and whether a plain `char` has a sign. -/
structure Target where
  order : Order
  size : Size
  signed : Bool

/-- The value of a plain `char`. -/
def Target.char (g : Target) (c : UInt8) : Int := if g.signed then c.toInt8.toInt else c.toNat

/-- At the entry, in the loop for addresses that differ, in the loop up to a word, in the loop over the
words, and in the loop over the bytes of two words. -/
inductive St where
  | entry
  | plain (s1 s2 : Nat)
  | align (tmp s1 s2 : Nat)
  | words (lx1 lx2 : Nat)
  | extract {z : Size} (l1 l2 : WordT z)

abbrev StNext := Next St Int Unit

/-- `strcmp(s1, s2)` -/
def step (g : Target) (m : Mem) (s1 s2 : Nat) : St → StNext
  | .entry =>
    if unaligned g.size s1 s2 ≠ 0 then .again (.plain s1 s2)
    else .again (.align (stralign g.size s1) s1 s2)
  | .plain s1 s2 =>
    if m s1 ≠ 0 ∧ m s1 = m s2 then .again (.plain (s1 + 1) (s2 + 1))
    else .stop (g.char (m s1) - g.char (m s2))
  | .align tmp s1 s2 =>
    if tmp = 0 then .again (.words s1 s2)
    else if m s1 = 0 ∨ m s1 ≠ m s2 then .stop (g.char (m s1) - g.char (m s2))
    else .again (.align (tmp - 1) (s1 + 1) (s2 + 1))
  | .words lx1 lx2 =>
    let l1 := wordAt g.order g.size m lx1
    let l2 := wordAt g.order g.size m lx2
    if nulTest l1 ≠ 0 ∨ nulTest l2 ≠ 0 ∨ l1 ≠ l2 then .again (.extract l1 l2)
    else .again (.words (lx1 + g.size.bytes) (lx2 + g.size.bytes))
  | .extract l1 l2 =>
    let c1 := gfc g.order l1
    let c2 := gfc g.order l2
    if c1 = 0 ∨ c1 ≠ c2 then .stop (c1.toNat - c2.toNat)
    else .again (.extract (incstr g.order l1) (incstr g.order l2))

end Strcmp

/-- The strings are the same in front of offset `d`, and differ or end there. -/
structure DiffAt (m : Mem) (s1 s2 d : Nat) : Prop where
  same : ∀ i < d, m (s1 + i) = m (s2 + i) ∧ m (s1 + i) ≠ 0
  diff : m (s1 + d) = 0 ∨ m (s1 + d) ≠ m (s2 + d)

theorem DiffAt.unique {m : Mem} {s1 s2 d d' : Nat} (h : DiffAt m s1 s2 d) (h' : DiffAt m s1 s2 d') :
    d = d' := by
  have hle : ∀ {d d'}, DiffAt m s1 s2 d → DiffAt m s1 s2 d' → d ≤ d' := fun {d d'} h h' => by
    by_contra hlt
    obtain ⟨heq, hne⟩ := h.same d' (by omega)
    exact h'.diff.elim hne fun hd => hd heq
  exact Nat.le_antisymm (hle h h') (hle h' h)

namespace Strcmp

variable {g : Target} {m : Mem} {s1 s2 d i : Nat} {r : Int}

/-! ## The loops -/

theorem stops_plain (h : DiffAt m s1 s2 d) (hi : i ≤ d) :
    Stops (step g m s1 s2) (.plain (s1 + i) (s2 + i)) r ↔
      r = g.char (m (s1 + d)) - g.char (m (s2 + d)) := by
  induction hn : d - i generalizing i with
  | zero =>
    obtain rfl : i = d := by omega
    refine stops_stop (if_neg ?_)
    rintro ⟨hne, heq⟩
    exact h.diff.elim hne fun hd => hd heq
  | succ n ih =>
    obtain ⟨heq, hne⟩ := h.same i (by omega)
    have hstep : step g m s1 s2 (.plain (s1 + i) (s2 + i)) =
        .again (.plain (s1 + (i + 1)) (s2 + (i + 1))) := if_pos ⟨hne, heq⟩
    rw [stops_again hstep]
    exact ih (by omega) (by omega)

theorem stops_align (tmp : Nat) (h : DiffAt m s1 s2 d) (hi : i ≤ d) :
    Stops (step g m s1 s2) (.align tmp (s1 + i) (s2 + i)) r ↔
      if i + tmp ≤ d then Stops (step g m s1 s2) (.words (s1 + (i + tmp)) (s2 + (i + tmp))) r
      else r = g.char (m (s1 + d)) - g.char (m (s2 + d)) := by
  induction tmp generalizing i with
  | zero =>
    rw [Nat.add_zero, if_pos hi]
    exact stops_again rfl
  | succ tmp ih =>
    by_cases hid : i = d
    · have hstep : step g m s1 s2 (.align (tmp + 1) (s1 + i) (s2 + i)) =
          .stop (g.char (m (s1 + i)) - g.char (m (s2 + i))) := by
        rw [hid]
        unfold step
        dsimp only
        rw [if_neg (Nat.succ_ne_zero tmp), if_pos h.diff]
      rw [stops_stop hstep, if_neg (by omega), hid]
    · obtain ⟨heq, hne⟩ := h.same i (by omega)
      have hstep : step g m s1 s2 (.align (tmp + 1) (s1 + i) (s2 + i)) =
          .again (.align tmp (s1 + (i + 1)) (s2 + (i + 1))) := by
        unfold step
        dsimp only
        rw [if_neg (Nat.succ_ne_zero tmp), if_neg (not_or.2 ⟨hne, not_not.2 heq⟩)]
        rfl
      rw [stops_again hstep, ih (by omega), show i + 1 + tmp = i + (tmp + 1) by omega]

/-- The bytes of two words, up to the first ones that differ or end the strings. -/
theorem stops_extract {l1 l2 : WordT g.size} {e : Nat} (he : e < g.size.bytes)
    (hsame : ∀ j < e, charAt g.order l1 j = charAt g.order l2 j ∧ charAt g.order l1 j ≠ 0)
    (hdiff : charAt g.order l1 e = 0 ∨ charAt g.order l1 e ≠ charAt g.order l2 e) :
    Stops (step g m s1 s2) (.extract l1 l2) r ↔
      r = ((charAt g.order l1 e).toNat : Int) - (charAt g.order l2 e).toNat := by
  induction e generalizing l1 l2 with
  | zero =>
    rw [← gfc_eq, ← gfc_eq] at hdiff ⊢
    exact stops_stop (if_pos hdiff)
  | succ e ih =>
    obtain ⟨heq, hne⟩ := hsame 0 (Nat.succ_pos e)
    rw [← gfc_eq, ← gfc_eq] at heq
    rw [← gfc_eq] at hne
    have hstep : step g m s1 s2 (.extract l1 l2) =
        .again (.extract (incstr g.order l1) (incstr g.order l2)) :=
      if_neg (not_or.2 ⟨hne, not_not.2 heq⟩)
    have hnext : ∀ j ≤ e, ∀ l : WordT g.size,
        charAt g.order (incstr g.order l) j = charAt g.order l (j + 1) := fun j hj l =>
      charAt_incstr (by omega)
    rw [stops_again hstep, ih (by omega), hnext e le_rfl, hnext e le_rfl]
    · intro j hj
      rw [hnext j (by omega), hnext j (by omega)]
      exact hsame (j + 1) (by omega)
    · rw [hnext e le_rfl, hnext e le_rfl]
      exact hdiff

/-- The loop goes on behind words that are the same and have no NUL. -/
theorem words_next_iff (h : DiffAt m s1 s2 d) (hi : i ≤ d) :
    (nulTest (wordAt g.order g.size m (s1 + i)) ≠ 0 ∨
        nulTest (wordAt g.order g.size m (s2 + i)) ≠ 0 ∨
          wordAt g.order g.size m (s1 + i) ≠ wordAt g.order g.size m (s2 + i)) ↔
      d < i + g.size.bytes := by
  have hchar : ∀ s, ∀ j < g.size.bytes,
      charAt g.order (wordAt g.order g.size m (s + i)) j = m (s + (i + j)) := fun s j hj => by
    rw [charAt_wordAt hj, Nat.add_assoc]
  constructor
  · intro hor
    by_contra hd
    have hone : ∀ j < g.size.bytes, charAt g.order (wordAt g.order g.size m (s1 + i)) j ≠ 0 :=
      fun j hj => by
        rw [hchar s1 j hj]
        exact (h.same (i + j) (by omega)).2
    have heq : wordAt g.order g.size m (s1 + i) = wordAt g.order g.size m (s2 + i) :=
      ext_charAt (o := g.order) fun j hj => by
        rw [hchar s1 j hj, hchar s2 j hj]
        exact (h.same (i + j) (by omega)).1
    have hnul := (nulTest_iff g.order _).2 hone
    rcases hor with h1 | h2 | h3
    · exact h1 hnul
    · exact h2 (heq ▸ hnul)
    · exact h3 heq
  · intro hd
    by_contra hnot
    simp only [not_or, not_not] at hnot
    obtain ⟨h1, -, heq⟩ := hnot
    have hj : d - i < g.size.bytes := by omega
    have hne := (nulTest_iff g.order _).1 h1 (d - i) hj
    rw [hchar s1 _ hj, Nat.add_sub_cancel' hi] at hne
    rcases h.diff with hzero | hdiff
    · exact hne hzero
    · have hsame := congrArg (charAt g.order · (d - i)) heq
      rw [hchar s1 _ hj, hchar s2 _ hj, Nat.add_sub_cancel' hi] at hsame
      exact hdiff hsame

theorem stops_words (h : DiffAt m s1 s2 d) (hi : i ≤ d) :
    Stops (step g m s1 s2) (.words (s1 + i) (s2 + i)) r ↔
      r = ((m (s1 + d)).toNat : Int) - (m (s2 + d)).toNat := by
  have hpos := bytes_pos g.size
  induction hn : d - i using Nat.strong_induction_on generalizing i with
  | _ n ih =>
    have hiff := words_next_iff (g := g) h hi
    by_cases hd : d < i + g.size.bytes
    · have hstep : step g m s1 s2 (.words (s1 + i) (s2 + i)) =
          .again (.extract (wordAt g.order g.size m (s1 + i)) (wordAt g.order g.size m (s2 + i))) :=
        if_pos (hiff.2 hd)
      have hchar : ∀ s, ∀ j < g.size.bytes,
          charAt g.order (wordAt g.order g.size m (s + i)) j = m (s + (i + j)) := fun s j hj => by
        rw [charAt_wordAt hj, Nat.add_assoc]
      have hlast : ∀ s, charAt g.order (wordAt g.order g.size m (s + i)) (d - i) = m (s + d) :=
        fun s => by rw [hchar s _ (by omega), Nat.add_sub_cancel' hi]
      rw [stops_again hstep, stops_extract (e := d - i) (by omega), hlast, hlast]
      · intro j hj
        rw [hchar s1 j (by omega), hchar s2 j (by omega)]
        exact h.same (i + j) (by omega)
      · rw [hlast, hlast]
        exact h.diff
    · have hstep : step g m s1 s2 (.words (s1 + i) (s2 + i)) =
          .again (.words (s1 + (i + g.size.bytes)) (s2 + (i + g.size.bytes))) := by
        rw [← Nat.add_assoc, ← Nat.add_assoc]
        exact if_neg (mt hiff.1 hd)
      rw [stops_again hstep]
      exact ih (d - (i + g.size.bytes)) (by omega) (by omega) rfl

/-- What a call returns. -/
theorem stops_entry (h : DiffAt m s1 s2 d) :
    Stops (step g m s1 s2) .entry r ↔
      r = if s1 % g.size.bytes = s2 % g.size.bytes ∧ stralign g.size s1 ≤ d then
          ((m (s1 + d)).toNat : Int) - (m (s2 + d)).toNat
        else g.char (m (s1 + d)) - g.char (m (s2 + d)) := by
  by_cases hu : s1 % g.size.bytes = s2 % g.size.bytes
  · have hstep : step g m s1 s2 .entry = .again (.align (stralign g.size s1) s1 s2) :=
      if_neg (not_not.2 ((unaligned_iff g.size s1 s2).2 hu))
    have halign := stops_align (g := g) (r := r) (stralign g.size s1) h (Nat.zero_le d)
    rw [Nat.add_zero, Nat.add_zero, Nat.zero_add] at halign
    rw [stops_again hstep, halign]
    by_cases hd : stralign g.size s1 ≤ d
    · rw [if_pos hd, if_pos ⟨hu, hd⟩, stops_words h hd]
    · rw [if_neg hd, if_neg fun hand => hd hand.2]
  · have hstep : step g m s1 s2 .entry = .again (.plain s1 s2) :=
      if_pos (mt (unaligned_iff g.size s1 s2).1 hu)
    rw [stops_again hstep, if_neg fun hand => hu hand.1]
    exact stops_plain (i := 0) h (Nat.zero_le d)

/-! ## Reads -/

/-- The pointers have moved together, and not behind the bytes that differ or end the strings. -/
def Moved (s1 s2 d : Nat) : St → Prop
  | .entry | .extract _ _ => True
  | .plain p q | .align _ p q | .words p q => ∃ i ≤ d, p = s1 + i ∧ q = s2 + i

theorem moved_step (h : DiffAt m s1 s2 d) {st st' : St} (hst : Moved s1 s2 d st)
    (hs : step g m s1 s2 st = .again st') : Moved s1 s2 d st' := by
  have hpast : ∀ i, i ≤ d → m (s1 + i) ≠ 0 → m (s1 + i) = m (s2 + i) → i + 1 ≤ d := by
    intro i hi hne heq
    by_contra hlt
    obtain rfl : i = d := by omega
    exact h.diff.elim hne fun hd => hd heq
  cases st with
  | entry =>
    unfold step at hs
    dsimp only at hs
    split at hs <;> cases hs <;> exact ⟨0, Nat.zero_le d, rfl, rfl⟩
  | plain p q =>
    obtain ⟨i, hi, rfl, rfl⟩ := hst
    unfold step at hs
    dsimp only at hs
    split at hs
    · rename_i hsame
      cases hs
      exact ⟨i + 1, hpast i hi hsame.1 hsame.2, rfl, rfl⟩
    · cases hs
  | align tmp p q =>
    obtain ⟨i, hi, rfl, rfl⟩ := hst
    unfold step at hs
    dsimp only at hs
    split at hs
    · cases hs
      exact ⟨i, hi, rfl, rfl⟩
    · split at hs
      · cases hs
      · rename_i hsame
        rw [not_or, not_not] at hsame
        cases hs
        exact ⟨i + 1, hpast i hi hsame.1 hsame.2, rfl, rfl⟩
  | words p q =>
    obtain ⟨i, hi, rfl, rfl⟩ := hst
    have hiff := words_next_iff (g := g) h hi
    unfold step at hs
    dsimp only at hs
    split at hs
    · cases hs
      trivial
    · rename_i hnext
      have hd := mt hiff.2 hnext
      cases hs
      exact ⟨i + g.size.bytes, by omega, Nat.add_assoc _ _ _, Nat.add_assoc _ _ _⟩
  | extract l1 l2 =>
    unfold step at hs
    dsimp only at hs
    split at hs
    · cases hs
    · cases hs
      trivial

/-! ## The order of strings -/

/-- A value compares two strings as the order of their bytes does. -/
def Compares (r : Int) (x y : List UInt8) : Prop := (r = 0 ↔ x = y) ∧ (r < 0 ↔ x < y)

theorem exists_diffAt {len1 len2 : Nat} (h1 : StringAt m s1 len1) (h2 : StringAt m s2 len2) :
    ∃ d, DiffAt m s1 s2 d ∧ d ≤ len1 ∧ d ≤ len2 := by
  have hex : ∃ d, m (s1 + d) = 0 ∨ m (s1 + d) ≠ m (s2 + d) := ⟨len1, .inl h1.nul⟩
  have hsame : ∀ i < Nat.find hex, m (s1 + i) = m (s2 + i) ∧ m (s1 + i) ≠ 0 := fun i hi => by
    have hnot := Nat.find_min hex hi
    rw [not_or, not_not] at hnot
    exact ⟨hnot.2, hnot.1⟩
  refine ⟨Nat.find hex, ⟨hsame, Nat.find_spec hex⟩, Nat.find_min' hex (.inl h1.nul), ?_⟩
  by_contra hlt
  obtain ⟨heq, hne⟩ := hsame len2 (by omega)
  exact hne (heq.trans h2.nul)

/-- **The first bytes that differ decide the order.** -/
theorem load_order {len1 len2 : Nat} (h : DiffAt m s1 s2 d) (h1 : StringAt m s1 len1)
    (h2 : StringAt m s2 len2) :
    (m.load s1 len1 = m.load s2 len2 ↔ m (s1 + d) = m (s2 + d)) ∧
      (m.load s1 len1 < m.load s2 len2 ↔ m (s1 + d) < m (s2 + d)) := by
  induction d generalizing s1 s2 len1 len2 with
  | zero =>
    have hdiff := h.diff
    rw [Nat.add_zero, Nat.add_zero] at hdiff ⊢
    cases len1 with
    | zero =>
      have hnul := h1.nul
      rw [Nat.add_zero] at hnul
      cases len2 with
      | zero =>
        have hnul2 := h2.nul
        rw [Nat.add_zero] at hnul2
        rw [hnul, hnul2]
        exact ⟨iff_of_true rfl rfl, iff_of_false (List.lt_irrefl _) (UInt8.lt_irrefl 0)⟩
      | succ n =>
        have hne := h2.ne_nul 0 (Nat.succ_pos n)
        rw [Nat.add_zero] at hne
        rw [hnul, Mem.load_cons]
        exact ⟨iff_of_false (List.cons_ne_nil _ _).symm hne.symm,
          iff_of_true (List.nil_lt_cons _ _) (UInt8.pos_iff_ne_zero.2 hne)⟩
    | succ n =>
      have hne := h1.ne_nul 0 (Nat.succ_pos n)
      rw [Nat.add_zero] at hne
      have hdiff := hdiff.resolve_left hne
      cases len2 with
      | zero =>
        have hnul2 := h2.nul
        rw [Nat.add_zero] at hnul2
        rw [hnul2, Mem.load_cons]
        exact ⟨iff_of_false (List.cons_ne_nil _ _) hne,
          iff_of_false (List.not_lt_nil _) UInt8.not_lt_zero⟩
      | succ n' =>
        rw [Mem.load_cons, Mem.load_cons, List.cons.injEq, List.cons_lt_cons_iff]
        exact ⟨iff_of_false (fun heq => hdiff heq.1) hdiff,
          ⟨fun hlt => hlt.resolve_right fun heq => hdiff heq.1, .inl⟩⟩
  | succ d ih =>
    obtain ⟨heq, hne⟩ := h.same 0 (Nat.succ_pos d)
    rw [Nat.add_zero, Nat.add_zero] at heq
    rw [Nat.add_zero] at hne
    have hlen : ∀ {s len}, StringAt m s len → m s ≠ 0 → ∃ n, len = n + 1 := fun {s len} hs hn => by
      cases len with
      | zero => exact absurd hs.nul hn
      | succ n => exact ⟨n, rfl⟩
    obtain ⟨n1, rfl⟩ := hlen h1 hne
    obtain ⟨n2, rfl⟩ := hlen h2 (heq ▸ hne)
    have hnext : DiffAt m (s1 + 1) (s2 + 1) d := by
      refine ⟨fun i hi => ?_, ?_⟩
      · rw [Nat.add_assoc, Nat.add_assoc, Nat.add_comm 1]
        exact h.same (i + 1) (by omega)
      · rw [Nat.add_assoc, Nat.add_assoc, Nat.add_comm 1]
        exact h.diff
    obtain ⟨heq', hlt'⟩ := ih hnext h1.tail h2.tail
    rw [Nat.add_assoc, Nat.add_assoc, Nat.add_comm 1] at heq' hlt'
    rw [Mem.load_cons, Mem.load_cons, List.cons.injEq, List.cons_lt_cons_iff, ← heq', ← hlt', heq]
    refine ⟨and_iff_right rfl, ?_⟩
    rw [or_iff_right (UInt8.lt_irrefl _), and_iff_right rfl]

/-! ## The claim -/

theorem char_eq (g : Target) (c : UInt8) :
    g.char c = if g.signed = true ∧ 128 ≤ c.toNat then (c.toNat : Int) - 256 else c.toNat := by
  have hc := c.toNat_lt
  unfold Target.char
  cases g.signed with
  | false => rfl
  | true =>
    have hint : c.toInt8.toInt = (c.toNat : Int).bmod 256 := BitVec.toInt_eq_toNat_bmod c.toBitVec
    rw [if_pos rfl, hint, Int.bmod_def]
    simp only [true_and]
    split <;> split <;> omega

/-- Plain `char`s compare as their bytes do if they have no sign, or are the same or on the same side of
`128`. -/
theorem char_order (g : Target) (a b : UInt8) :
    (g.char a - g.char b = 0 ↔ a = b) ∧
      ((g.char a - g.char b < 0 ↔ a < b) ↔ (g.signed = true → (a < 128 ↔ b < 128))) := by
  have ha := a.toNat_lt
  have hb := b.toNat_lt
  rw [char_eq, char_eq, ← UInt8.toNat_inj, UInt8.lt_iff_toNat_lt, UInt8.lt_iff_toNat_lt,
    UInt8.lt_iff_toNat_lt, show (128 : UInt8).toNat = 128 from rfl]
  cases g.signed with
  | false =>
    rw [if_neg (by simp), if_neg (by simp)]
    refine ⟨by omega, iff_of_true (by omega) nofun⟩
  | true =>
    simp only [true_and, forall_const]
    split <;> split <;> constructor <;> omega

/-- The value compares the strings, and no word is read behind the one with the first NUL. -/
def Correct (g : Target) (m : Mem) (s1 s2 len1 len2 : Nat) : Prop :=
  (∃ r, Stops (step g m s1 s2) .entry r ∧ Compares r (m.load s1 len1) (m.load s2 len2)) ∧
    ∀ lx1 lx2, Machine.Meets (step g m s1 s2) .entry (.words lx1 lx2) →
      lx1 ≤ s1 + len1 ∧ lx2 ≤ s2 + len2

/-- Where a plain `char` has a sign, the first bytes that differ are in the loop over the words, or on
the same side of `128`. -/
def OneOrder (g : Target) (m : Mem) (s1 s2 : Nat) : Prop :=
  g.signed = true → ∀ d, DiffAt m s1 s2 d →
    (s1 % g.size.bytes = s2 % g.size.bytes ∧ stralign g.size s1 ≤ d) ∨
      (m (s1 + d) < 128 ↔ m (s2 + d) < 128)

/-- **`strcmp` compares as the bytes do, unless bytes on both sides of `128` are compared as plain
`char`s that have a sign.** -/
theorem strcmp_compares_iff (g : Target) (m : Mem) (s1 s2 len1 len2 : Nat)
    (h1 : StringAt m s1 len1) (h2 : StringAt m s2 len2) :
    Correct g m s1 s2 len1 len2 ↔ OneOrder g m s1 s2 := by
  obtain ⟨d, hd, hd1, hd2⟩ := exists_diffAt h1 h2
  obtain ⟨heq, hlt⟩ := load_order hd h1 h2
  have hreads : ∀ lx1 lx2, Machine.Meets (step g m s1 s2) .entry (.words lx1 lx2) →
      lx1 ≤ s1 + len1 ∧ lx2 ≤ s2 + len2 := by
    intro lx1 lx2 hmeets
    obtain ⟨i, hi, rfl, rfl⟩ := hmeets.invariant (I := Moved s1 s2 d)
      (fun _ _ => moved_step hd) trivial
    exact ⟨by omega, by omega⟩
  have hone : OneOrder g m s1 s2 ↔ (g.signed = true →
      (s1 % g.size.bytes = s2 % g.size.bytes ∧ stralign g.size s1 ≤ d) ∨
        (m (s1 + d) < 128 ↔ m (s2 + d) < 128)) :=
    ⟨fun h hs => h hs d hd, fun h hs d' hd' => hd'.unique hd ▸ h hs⟩
  unfold Correct
  simp only [stops_entry hd, exists_eq_left]
  rw [and_iff_left hreads, hone]
  unfold Compares
  rw [heq, hlt]
  by_cases hw : s1 % g.size.bytes = s2 % g.size.bytes ∧ stralign g.size s1 ≤ d
  · rw [if_pos hw, ← UInt8.toNat_inj, UInt8.lt_iff_toNat_lt]
    exact iff_of_true ⟨by omega, by omega⟩ fun _ => .inl hw
  · obtain ⟨hzero, hneg⟩ := char_order g (m (s1 + d)) (m (s2 + d))
    rw [if_neg hw, and_iff_right hzero, hneg]
    exact imp_congr_right fun _ => (or_iff_right hw).symm

/-- A 64-bit target with a plain `char` that has a sign. -/
def signedTarget : Target := ⟨.little, .eight, true⟩

/-- `0xe9` and `0x61` in words. -/
theorem strcmp_words :
    Correct signedTarget (fun a => if a = 8 then 0xe9 else if a = 16 then 0x61 else 0) 8 16 1 1 :=
  (strcmp_compares_iff signedTarget
    (fun a => if a = 8 then 0xe9 else if a = 16 then 0x61 else 0) 8 16 1 1
    ⟨by decide, by decide⟩ ⟨by decide, by decide⟩).2
      fun _ d _ => .inl ⟨by decide, (show stralign .eight 8 ≤ 0 by decide).trans (Nat.zero_le d)⟩

/-- `0xe9` and `0x61`, at addresses that differ modulo eight. -/
theorem strcmp_plain :
    let m : Mem := fun a => if a = 9 then 0xe9 else if a = 16 then 0x61 else 0
    StringAt m 9 1 ∧ StringAt m 16 1 ∧ ¬Correct signedTarget m 9 16 1 1 := by
  refine ⟨⟨by decide, by decide⟩, ⟨by decide, by decide⟩, ?_⟩
  rintro ⟨⟨r, hr, -, hneg⟩, -⟩
  have hstops : Stops (step signedTarget
      (fun a => if a = 9 then 0xe9 else if a = 16 then 0x61 else 0) 9 16) .entry (-120) :=
    ⟨2, by decide +kernel⟩
  rw [stops_unique hr hstops] at hneg
  exact absurd (hneg.1 (by decide)) (by decide)

end Strcmp

end Dietlibc.Words
