import Dietlibc.Words.Strlen

/-!
# `strlen`, with the most significant byte first

The borrow of the test runs from a zero byte towards the bytes in front of it, as long as they are
`0x01`, and marks them too. The code finds the first mark. It takes that back only if the word is less
than `magic`, which is if the first byte of the word is marked.
-/

namespace Dietlibc.Words

open Machine Word

variable {z : Size} {m : Mem} {s len t k l r : Nat}

/-! ## The first mark -/

/-- The mark of the most significant bytes is behind `l` bytes without one. -/
structure Leads (x : WordT z) (l : Nat) : Prop where
  lt : l < z.bytes
  mark : byte x (z.bytes - 1 - l) = 0x80
  low : ∀ j < l, byte x (z.bytes - 1 - j) = 0

/-- One halving: the mark is behind less than `k` bytes then, and has moved as `t` has. -/
theorem narrow_spec {q : Search z} (h : Leads q.word l) (hl : l < 2 * k) (hk : k ≤ z.bytes)
    (hmask : ∀ j < z.bytes,
      byte (q.mask <<< (8 * k)) (z.bytes - 1 - j) = if j < k then 0x80 else 0) :
    ∃ l', Leads (q.narrow k).word l' ∧ l' < k ∧ (q.narrow k).moved + l' = q.moved + l ∧
      (q.narrow k).mask = q.mask <<< (8 * k) := by
  have hlt := h.lt
  unfold Search.narrow
  dsimp only
  by_cases hlk : l < k
  · have hne : q.word &&& q.mask <<< (8 * k) ≠ 0 := by
      intro hzero
      have hbyte := byte_and q.word (q.mask <<< (8 * k)) (z.bytes - 1 - l)
      rw [hzero, byte_zero, h.mark, hmask l hlt, if_pos hlk] at hbyte
      exact absurd hbyte (by decide)
    rw [if_neg hne]
    exact ⟨l, h, hlk, rfl, rfl⟩
  · have heq : q.word &&& q.mask <<< (8 * k) = 0 := by
      refine ext fun i hi => ?_
      rw [byte_and, byte_zero, show i = z.bytes - 1 - (z.bytes - 1 - i) by omega,
        hmask _ (by omega)]
      split
      · rw [h.low _ (by omega)]
        rfl
      · exact UInt8.and_zero
    rw [if_pos heq]
    refine ⟨l - k, ⟨by omega, ?_, fun j hj => ?_⟩, by omega, by dsimp only; omega, rfl⟩
    · dsimp only
      rw [byte_shiftLeft _ _ (by omega), if_neg (by omega), ← h.mark]
      congr 1
      omega
    · dsimp only
      rw [byte_shiftLeft _ _ (by omega), if_neg (by omega), ← h.low (j + k) (by omega)]
      congr 1
      omega

/-- **The halvings find the first mark.** -/
theorem positionBig_eq {x : WordT z} (h : Leads x l) : positionBig z x = l := by
  cases z with
  | four =>
    obtain ⟨l2, h2, hl2, hm2, hmask2⟩ := narrow_spec (q := ⟨magic .four <<< 7, x, 0⟩) (k := 2) h h.lt
      (by decide) (by dsimp only; decide)
    obtain ⟨l1, h1, hl1, hm1, -⟩ := narrow_spec (k := 1) h2 hl2 (by decide)
      (by rw [hmask2]; dsimp only; decide)
    unfold positionBig
    dsimp only at hm2 ⊢
    omega
  | eight =>
    obtain ⟨l4, h4, hl4, hm4, hmask4⟩ := narrow_spec (q := ⟨magic .eight <<< 7, x, 0⟩) (k := 4) h h.lt
      (by decide) (by dsimp only; decide)
    obtain ⟨l2, h2, hl2, hm2, hmask2⟩ := narrow_spec (k := 2) h4 hl4 (by decide)
      (by rw [hmask4]; dsimp only; decide)
    obtain ⟨l1, h1, hl1, hm1, -⟩ := narrow_spec (k := 1) h2 hl2 (by decide)
      (by rw [hmask2, hmask4]; dsimp only; decide)
    unfold positionBig
    dsimp only at hm4 ⊢
    omega

/-! ## The word of the NUL -/

/-- The NUL is behind `k` other bytes in the word at `t`. -/
structure NulIn (z : Size) (m : Mem) (t k : Nat) : Prop where
  lt : k < z.bytes
  nul : m (t + k) = 0
  ne_nul : ∀ j < k, m (t + j) ≠ 0

/-- The bytes from `l` on to the NUL are `0x01`, and the one in front of them is not. -/
structure OnesFrom (m : Mem) (t k l : Nat) : Prop where
  le : l ≤ k
  ones : ∀ j, l ≤ j → j < k → m (t + j) = 1
  first : ∀ j, j + 1 = l → m (t + j) ≠ 1

theorem exists_onesFrom (m : Mem) (t k : Nat) : ∃ l, OnesFrom m t k l := by
  classical
  have hex : ∃ l, ∀ j, l ≤ j → j < k → m (t + j) = 1 := ⟨k, fun j hj hjk => by omega⟩
  refine ⟨Nat.find hex, ?_, Nat.find_spec hex, fun j hj hone => ?_⟩
  · exact Nat.find_min' hex fun j hj hjk => by omega
  · refine Nat.find_min hex (m := j) (by omega) fun i hi hik => ?_
    by_cases hij : i = j
    · rw [hij]
      exact hone
    · exact Nat.find_spec hex i (by omega) hik

theorem byte_wordAt_big {j : Nat} (hj : j < z.bytes) :
    byte (wordAt .big z m t) (z.bytes - 1 - j) = m (t + j) := by
  rw [show wordAt .big z m t = ofBytes z.bytes fun i => m (t + (z.bytes - 1 - i)) from rfl,
    byte_ofBytes _ (by omega), show z.bytes - 1 - (z.bytes - 1 - j) = j by omega]

/-- A byte is marked if it is zero, or `0x01` in front of a mark. -/
theorem borrow_wordAt {j : Nat} (hj : j < z.bytes) :
    borrow (wordAt .big z m t) (magic z) (z.bytes - j) = true ↔ m (t + j) = 0 ∨
      m (t + j) = 1 ∧ borrow (wordAt .big z m t) (magic z) (z.bytes - (j + 1)) = true := by
  have hsucc : z.bytes - j = z.bytes - 1 - j + 1 := by omega
  rw [hsucc, borrow_ones (byte_magic z _ (by omega)), byte_wordAt_big hj,
    show z.bytes - 1 - j = z.bytes - (j + 1) by omega]

/-- **The marks reach from the NUL to the first of the `0x01` in front of it.** -/
theorem borrow_onesFrom (hn : NulIn z m t k) (hl : OnesFrom m t k l) {j : Nat} (hj : j ≤ k) :
    borrow (wordAt .big z m t) (magic z) (z.bytes - j) = true ↔ l ≤ j := by
  have hk := hn.lt
  induction hd : k - j generalizing j with
  | zero =>
    obtain rfl : j = k := by omega
    exact iff_of_true ((borrow_wordAt hk).2 (.inl hn.nul)) hl.le
  | succ d ih =>
    have hnext : borrow (wordAt .big z m t) (magic z) (z.bytes - (j + 1)) = true ↔ l ≤ j + 1 :=
      ih (by omega) (by omega)
    rw [borrow_wordAt (by omega), hnext]
    constructor
    · rintro (hzero | ⟨hone, hle⟩)
      · exact absurd hzero (hn.ne_nul j (by omega))
      · by_contra hlt
        exact hl.first j (by omega) hone
    · intro hle
      exact .inr ⟨hl.ones j hle (by omega), by omega⟩

theorem leads_onesFrom (hn : NulIn z m t k) (hl : OnesFrom m t k l) :
    Leads (zeroTest (magic z) (magic z <<< 7) (wordAt .big z m t)) l := by
  have hlt := Nat.lt_of_le_of_lt hl.le hn.lt
  refine ⟨hlt, ?_, fun j hj => ?_⟩
  · rw [byte_mark z _ (by omega), show z.bytes - 1 - l + 1 = z.bytes - l by omega,
      if_pos ((borrow_onesFrom hn hl hl.le).2 le_rfl)]
  · have hle := hl.le
    rw [byte_mark z _ (by omega), show z.bytes - 1 - j + 1 = z.bytes - j by omega,
      if_neg (mt (borrow_onesFrom hn hl (by omega)).1 (by omega))]

/-- The corner case is that the first byte is marked. -/
theorem lt_magic_iff (x : WordT z) : x < magic z ↔ borrow x (magic z) z.bytes = true := by
  unfold borrow
  rw [BitVec.lt_def, decide_eq_true_iff, Nat.mod_eq_of_lt x.isLt, Nat.mod_eq_of_lt (magic z).isLt]

theorem stops_corner {a : Nat} (hst : s ≤ t) (hta : t ≤ a) (hnul : m a = 0)
    (hne : ∀ i, t ≤ i → i < a → m i ≠ 0) :
    Stops (step .big z m s) (.corner t) r ↔ r = a - s := by
  induction hd : a - t generalizing t with
  | zero =>
    obtain rfl : t = a := by omega
    exact stops_stop (if_pos hnul)
  | succ d ih =>
    have hstep : step .big z m s (.corner t) = .again (.corner (t + 1)) :=
      if_neg (hne t le_rfl (by omega))
    rw [stops_again hstep]
    exact ih (by omega) (by omega) (fun i hi => hne i (by omega)) (by omega)

/-- What the word compare returns at the word of the NUL. -/
theorem stops_last (hst : s ≤ t) (hn : NulIn z m t k) (hl : OnesFrom m t k l) :
    Stops (step .big z m s) (.words t) r ↔ r = if l = 0 then t + k - s else t + l - s := by
  have hzero : byte (wordAt .big z m t) (z.bytes - 1 - k) = 0 := by
    rw [byte_wordAt_big hn.lt, hn.nul]
  have hk := hn.lt
  have htest : zeroTest (magic z) (magic z <<< 7) (wordAt .big z m t) ≠ 0 := fun hz =>
    (zeroTest_eq_zero_iff (byte_magic z) (byte_high z)).1 hz _ (by omega) hzero
  have hcorner : wordAt .big z m t < magic z ↔ l = 0 := by
    rw [lt_magic_iff]
    exact (borrow_onesFrom hn hl (Nat.zero_le k)).trans Nat.le_zero
  by_cases hl0 : l = 0
  · have hstep : step .big z m s (.words t) = .again (.corner (t + z.bytes - z.bytes)) := by
      unfold step
      exact (if_neg htest).trans (if_pos (hcorner.2 hl0))
    rw [stops_again hstep, Nat.add_sub_cancel, if_pos hl0]
    refine stops_corner hst (Nat.le_add_right t k) hn.nul fun i hi hik => ?_
    have hne := hn.ne_nul (i - t) (by omega)
    rwa [Nat.add_sub_cancel' hi] at hne
  · have hstep : step .big z m s (.words t) = .stop (t + z.bytes +
        positionBig z (zeroTest (magic z) (magic z <<< 7) (wordAt .big z m t)) - z.bytes - s) := by
      unfold step
      exact (if_neg htest).trans (if_neg (mt hcorner.1 hl0))
    rw [stops_stop hstep, positionBig_eq (leads_onesFrom hn hl), if_neg hl0]
    omega

/-! ## The claim -/

/-- The NUL at `a` is in a word of the string, behind a byte `0x01`, and not all bytes in front of it
in the word are `0x01`. -/
def Shadowed (z : Size) (m : Mem) (s a : Nat) : Prop :=
  s ≤ a - a % z.bytes ∧ a % z.bytes ≠ 0 ∧ m (a - 1) = 1 ∧
    ∃ i, a - a % z.bytes ≤ i ∧ i < a ∧ m i ≠ 1

/-- **Word-wise `strlen` finds the first NUL, with the most significant byte first, unless a byte `0x01`
and not only such bytes are in front of it in its word.** -/
theorem strlen_big_iff (z : Size) (m : Mem) (s len : Nat) (hs : s ≠ 0) (h : StringAt m s len) :
    Stops (step .big z m s) .entry len ↔ ¬Shadowed z m s (s + len) := by
  have hk := Nat.mod_lt (s + len) (bytes_pos z)
  have hle : s + len - (s + len) % z.bytes + (s + len) % z.bytes = s + len :=
    Nat.sub_add_cancel (Nat.mod_le _ _)
  have hentry : step .big z m s .entry = .again (.bytes s) := if_neg hs
  rw [stops_again hentry, stops_bytes h le_rfl (Nat.le_add_right s len)]
  unfold Shadowed
  by_cases hstart : s ≤ s + len - (s + len) % z.bytes
  · rw [if_pos hstart]
    generalize (s + len) % z.bytes = k at *
    generalize s + len - k = t at *
    have hn : NulIn z m t k := ⟨hk, by rw [hle]; exact h.nul, fun j hj => h.ne (by omega) (by omega)⟩
    obtain ⟨l, hl⟩ := exists_onesFrom m t k
    have hlk := hl.le
    rw [stops_last hstart hn hl]
    constructor
    · rintro heq ⟨-, hk0, hone, i, hi, hia, hne⟩
      split at heq
      · rename_i hl0
        have hall := hl.ones (i - t) (by omega) (by omega)
        rw [Nat.add_sub_cancel' hi] at hall
        exact hne hall
      · have hlast := hl.first (k - 1) (by omega)
        rw [show t + (k - 1) = s + len - 1 by omega] at hlast
        exact hlast hone
    · intro hns
      split
      · omega
      · rename_i hl0
        by_contra hlen
        have hlast := hl.ones (k - 1) (by omega) (by omega)
        rw [show t + (k - 1) = s + len - 1 by omega] at hlast
        exact hns ⟨hstart, by omega, hlast, t + (l - 1), by omega, by omega,
          hl.first (l - 1) (by omega)⟩
  · rw [if_neg hstart]
    exact iff_of_true rfl fun hsh => hstart hsh.1

/-- A string that ends in `0x01` at the end of a word of such bytes. -/
theorem strlen_big_ones : Stops (step .big .eight (fun a => if a = 11 then 0 else 1) 8) .entry 3 :=
  (strlen_big_iff .eight (fun a => if a = 11 then 0 else 1) 8 3 (by decide)
    ⟨by decide, by decide⟩).2 fun h => by
      obtain ⟨-, -, -, i, hi, hi', hne⟩ := h
      exact hne (if_neg (by omega))

/-- `0x02`, `0x01` and a NUL at the start of a word are a string of one byte. -/
theorem strlen_big_short :
    let m : Mem := fun a => if a = 8 then 2 else if a = 10 then 0 else 1
    StringAt m 8 2 ∧ Stops (step .big .eight m 8) .entry 1 ∧ Stops (step .big .four m 8) .entry 1 ∧
      ¬Stops (step .big .eight m 8) .entry 2 ∧ ¬Stops (step .big .four m 8) .entry 2 := by
  have height : Stops (step .big .eight (fun a => if a = 8 then 2 else if a = 10 then 0 else 1) 8)
      .entry 1 := ⟨3, by decide +kernel⟩
  have hfour : Stops (step .big .four (fun a => if a = 8 then 2 else if a = 10 then 0 else 1) 8)
      .entry 1 := ⟨3, by decide +kernel⟩
  exact ⟨⟨by decide, by decide⟩, height, hfour,
    fun h => absurd (stops_unique height h) (by decide),
    fun h => absurd (stops_unique hfour h) (by decide)⟩

end Dietlibc.Words
