import Dietlibc.Base.Machine
import Dietlibc.Words.Dietstring

/-!
# `strlen`

`strlen` goes byte by byte up to the first word, and word by word up to one with a zero byte. Where that
byte is in the word is computed from the word that the test for it leaves, in one way for each order of
the bytes and each word size.
-/

namespace Dietlibc.Words

open Machine Word

def magic (z : Size) : WordT z := BitVec.ofNat _ 0x0101010101010101

/-! ## The position of the zero byte -/

/-- What `t` is moved by, with the least significant byte first. -/
def positionLittle : (z : Size) → WordT z → Nat
  | .eight, word =>
    let word := (word - (1 : WordT .eight)) &&& (magic .eight <<< 8)
    let word := word + (word <<< 32)
    let word := word + (word <<< 16)
    let word := word + (word <<< 8)
    (word >>> 56).toNat
  | .four, word =>
    let word := (word - (1 : WordT .four)) &&& (magic .four <<< 10)
    let word := word + ((word <<< 8) + (word <<< 16))
    (word >>> 26).toNat

/-- `mask`, `word`, and what `t` is moved by. -/
structure Search (z : Size) where
  mask : WordT z
  word : WordT z
  moved : Nat

/-- `mask <<= k*8; if ((word & mask) == 0) { t += k; word <<= k*8; }` -/
def Search.narrow {z : Size} (k : Nat) (r : Search z) : Search z :=
  let mask := r.mask <<< (8 * k)
  if r.word &&& mask = 0 then ⟨mask, r.word <<< (8 * k), r.moved + k⟩ else ⟨mask, r.word, r.moved⟩

/-- What `t` is moved by, with the most significant byte first. -/
def positionBig : (z : Size) → WordT z → Nat
  | .eight, word =>
    ((((Search.mk (magic .eight <<< 7) word 0).narrow 4).narrow 2).narrow 1).moved
  | .four, word => (((Search.mk (magic .four <<< 7) word 0).narrow 2).narrow 1).moved

/-! ## The loops -/

/-- At the entry, in the byte compare, in the word compare, and in the loop of the corner case. -/
inductive St where
  | entry
  | bytes (t : Nat)
  | words (t : Nat)
  | corner (t : Nat)

abbrev StNext := Next St Nat Unit

/-- `strlen(s)` -/
def step (o : Order) (z : Size) (m : Mem) (s : Nat) : St → StNext
  | .entry => if s = 0 then .stop 0 else .again (.bytes s)
  | .bytes t =>
    if t &&& (z.bytes - 1) = 0 then .again (.words t)
    else if m t = 0 then .stop (t - s)
    else .again (.bytes (t + 1))
  | .words t =>
    let origWord := wordAt o z m t
    let t := t + z.bytes
    let word := ((origWord - magic z) &&& ~~~origWord) &&& (magic z <<< 7)
    if word = 0 then .again (.words t)
    else
      match o with
      | .little => .stop (t + positionLittle z word - z.bytes - s)
      | .big =>
        if origWord < magic z then .again (.corner (t - z.bytes))
        else .stop (t + positionBig z word - z.bytes - s)
  | .corner t => if m t = 0 then .stop (t - s) else .again (.corner (t + 1))

section

variable {o : Order} {z : Size} {m : Mem} {s len r : Nat}

theorem byte_magic (z : Size) : ∀ i < z.bytes, byte (magic z) i = 1 := by cases z <;> decide

theorem byte_high (z : Size) : ∀ i < z.bytes, byte (magic z <<< 7) i = 0x80 := by cases z <;> decide

/-- A word with no zero byte. -/
theorem stops_words_next {t : Nat} (h : ∀ i < z.bytes, m (t + i) ≠ 0) :
    Stops (step o z m s) (.words t) r ↔ Stops (step o z m s) (.words (t + z.bytes)) r := by
  have hword : ∀ i < z.bytes, byte (wordAt o z m t) i ≠ 0 := by
    intro i hi
    cases o with
    | little =>
      rw [show wordAt .little z m t = ofBytes z.bytes fun i => m (t + i) from rfl, byte_ofBytes _ hi]
      exact h i hi
    | big =>
      rw [show wordAt .big z m t = ofBytes z.bytes fun i => m (t + (z.bytes - 1 - i)) from rfl,
        byte_ofBytes _ hi]
      exact h _ (by omega)
  have hzero : zeroTest (magic z) (magic z <<< 7) (wordAt o z m t) = 0 :=
    (zeroTest_eq_zero_iff (byte_magic z) (byte_high z)).2 hword
  refine stops_again ?_
  unfold step
  exact if_pos hzero

/-- The word compare comes to the word of the NUL. -/
theorem stops_words {t : Nat} (h : StringAt m s len) (ht : t % z.bytes = 0) (hst : s ≤ t)
    (hle : t ≤ s + len) :
    Stops (step o z m s) (.words t) r ↔
      Stops (step o z m s) (.words (s + len - (s + len) % z.bytes)) r := by
  have hpos := bytes_pos z
  have hmod := Nat.mod_lt (s + len) hpos
  by_cases hlast : s + len < t + z.bytes
  · have hstart : s + len - (s + len) % z.bytes = t := by
      have hsplit : s + len = t + (s + len - t) := by omega
      have hrest : (s + len) % z.bytes = s + len - t := by
        rw [hsplit, Nat.add_mod, ht, Nat.zero_add, Nat.mod_mod, Nat.mod_eq_of_lt (by omega)]
        omega
      omega
    rw [hstart]
  · rw [stops_words_next fun i hi => h.ne (by omega) (by omega)]
    exact stops_words h (by rw [Nat.add_mod_right]; exact ht) (by omega) (by omega)
termination_by s + len - t

/-- The byte compare finds the NUL, or comes to the first word. -/
theorem stops_bytes {t : Nat} (h : StringAt m s len) (hst : s ≤ t) (hle : t ≤ s + len) :
    Stops (step o z m s) (.bytes t) r ↔
      if t ≤ s + len - (s + len) % z.bytes then
        Stops (step o z m s) (.words (s + len - (s + len) % z.bytes)) r
      else r = len := by
  have hpos := bytes_pos z
  have hmod := Nat.mod_lt (s + len) hpos
  have hdvd : (s + len - (s + len) % z.bytes) % z.bytes = 0 :=
    Nat.sub_mod_eq_zero_of_mod_eq (Nat.mod_mod _ _).symm
  by_cases ht : t % z.bytes = 0
  · have hstep : step o z m s (.bytes t) = .again (.words t) := if_pos ((aligned_iff z t).2 ht)
    have hbefore : t ≤ s + len - (s + len) % z.bytes := by
      have h1 := Nat.div_add_mod t z.bytes
      have h2 := Nat.div_add_mod (s + len) z.bytes
      have h3 := Nat.mul_le_mul_left z.bytes (Nat.div_le_div_right (c := z.bytes) hle)
      omega
    rw [stops_again hstep, if_pos hbefore, stops_words h ht hst hle]
  · have hne : t ≠ s + len - (s + len) % z.bytes := fun heq => ht (heq ▸ hdvd)
    by_cases hnul : t = s + len
    · have hstep : step o z m s (.bytes t) = .stop (t - s) := by
        unfold step
        dsimp only
        rw [if_neg (mt (aligned_iff z t).1 ht), hnul, if_pos h.nul]
      rw [stops_stop hstep, if_neg (by omega), hnul, Nat.add_sub_cancel_left]
    · have hstep : step o z m s (.bytes t) = .again (.bytes (t + 1)) := by
        unfold step
        dsimp only
        rw [if_neg (mt (aligned_iff z t).1 ht), if_neg (h.ne hst (by omega))]
      rw [stops_again hstep, stops_bytes h (by omega) (by omega)]
      have hiff : t + 1 ≤ s + len - (s + len) % z.bytes ↔ t ≤ s + len - (s + len) % z.bytes := by
        omega
      simp only [hiff]
termination_by s + len - t

/-! ## Little endian -/

/-- In the word less one, the bytes below the first mark are all ones, and those above are kept. -/
theorem byte_sub_one {n k i : Nat} {x : BitVec (8 * n)} (hx : byte x k = 0x80)
    (hlow : ∀ j < k, byte x j = 0) (hi : i < n) :
    byte (x - 1) i = if i < k then 255 else if i = k then 127 else byte x i := by
  have hone : ∀ j, byte (1 : BitVec (8 * n)) j = if j = 0 then 1 else 0 := by
    intro j
    refine UInt8.toNat_inj.1 ?_
    have hbits : 2 ≤ 2 ^ (8 * n) := Nat.le_self_pow (by omega) 2
    rw [toNat_byte, show (1 : BitVec (8 * n)).toNat = 1 % 2 ^ (8 * n) from BitVec.toNat_ofNat _ _,
      Nat.mod_eq_of_lt (show 1 < 2 ^ (8 * n) by omega)]
    by_cases hj : j = 0
    · rw [if_pos hj, hj]
      rfl
    · rw [if_neg hj, Nat.div_eq_of_lt (Nat.one_lt_two_pow (by omega))]
      rfl
  have hborrow : ∀ j ≤ n, borrow x 1 j = decide (0 < j ∧ j ≤ k) := by
    intro j hj
    induction j with
    | zero => exact borrow_zero x 1
    | succ j ih =>
      rw [Bool.eq_iff_iff, borrow_succ, ih (Nat.le_of_succ_le hj), decide_eq_true_iff,
        decide_eq_true_iff, hone]
      by_cases hjk : j < k
      · rw [hlow j hjk]
        by_cases hj0 : j = 0
        · rw [if_pos hj0]
          exact iff_of_true (.inl (by decide)) ⟨Nat.succ_pos j, hjk⟩
        · rw [if_neg hj0]
          exact iff_of_true (.inr ⟨rfl, Nat.pos_of_ne_zero hj0, hjk.le⟩) ⟨Nat.succ_pos j, hjk⟩
      · refine iff_of_false ?_ (by omega)
        by_cases hj0 : j = k
        · rw [hj0, hx]
          split <;> (rintro (h | ⟨h, -⟩) <;> revert h <;> decide)
        · rw [if_neg (by omega)]
          rintro (h | ⟨-, h⟩)
          · exact absurd h (UInt8.not_lt_zero)
          · omega
  rw [byte_sub _ _ hi, hone, hborrow i hi.le]
  by_cases hik : i < k
  · rw [if_pos hik, hlow i hik]
    by_cases hi0 : i = 0
    · rw [if_pos hi0, decide_eq_false (by omega)]
      rfl
    · rw [if_neg hi0, decide_eq_true ⟨Nat.pos_of_ne_zero hi0, hik.le⟩]
      rfl
  · rw [if_neg hik]
    by_cases hieq : i = k
    · rw [if_pos hieq, hieq, hx]
      by_cases hi0 : k = 0
      · rw [if_pos hi0, decide_eq_false (by omega)]
        rfl
      · rw [if_neg hi0, decide_eq_true ⟨Nat.pos_of_ne_zero hi0, le_rfl⟩]
        rfl
    · rw [if_neg hieq, if_neg (by omega), decide_eq_false (by omega)]
      rw [if_neg Bool.false_ne_true, UInt8.sub_zero, UInt8.sub_zero]

/-- The mask leaves a bit for each byte below the first mark. -/
theorem mask_sub_one {n k : Nat} {x mask : BitVec (8 * n)} {v : UInt8} (hv : v = 1 ∨ v = 4)
    (hx : byte x k = 0x80) (hlow : ∀ j < k, byte x j = 0)
    (hmarks : ∀ j < n, byte x j = 0x80 ∨ byte x j = 0)
    (hmask : ∀ j < n, byte mask j = if j = 0 then 0 else v) :
    (x - 1) &&& mask = ofBytes n fun i => if 0 < i ∧ i ≤ k then v else 0 := by
  refine ext fun i hi => ?_
  rw [byte_and, byte_sub_one hx hlow hi, byte_ofBytes _ hi, hmask i hi]
  by_cases hi0 : i = 0
  · rw [if_pos hi0, UInt8.and_zero, if_neg (by omega)]
  rw [if_neg hi0]
  by_cases hik : i < k
  · rw [if_pos hik, if_pos (by omega)]
    rcases hv with rfl | rfl <;> decide
  rw [if_neg hik]
  by_cases hieq : i = k
  · rw [if_pos hieq, if_pos (by omega)]
    rcases hv with rfl | rfl <;> decide
  · rw [if_neg hieq, if_neg (by omega)]
    rcases hv with rfl | rfl <;> rcases hmarks i hi with h | h <;> rw [h] <;> decide

/-- **The sum of those bits is the position of the first mark.** -/
theorem positionLittle_eq {x : WordT z} {k : Nat} (hk : k < z.bytes) (hx : byte x k = 0x80)
    (hlow : ∀ j < k, byte x j = 0) (hmarks : ∀ j < z.bytes, byte x j = 0x80 ∨ byte x j = 0) :
    positionLittle z x = k := by
  cases z with
  | four =>
    have hmask : ∀ j < 4, byte (magic .four <<< 10) j = if j = 0 then 0 else 4 := by decide
    unfold positionLittle
    dsimp only
    rw [mask_sub_one (.inr rfl) hx hlow hmarks hmask]
    clear hx hlow hmarks hmask x
    revert k
    decide
  | eight =>
    have hmask : ∀ j < 8, byte (magic .eight <<< 8) j = if j = 0 then 0 else 1 := by decide
    unfold positionLittle
    dsimp only
    rw [mask_sub_one (.inl rfl) hx hlow hmarks hmask]
    clear hx hlow hmarks hmask x
    revert k
    decide

/-- The marks that the test leaves in a word. -/
theorem byte_mark (z : Size) (x : WordT z) {i : Nat} (hi : i < z.bytes) :
    byte (zeroTest (magic z) (magic z <<< 7) x) i =
      if borrow x (magic z) (i + 1) = true then 0x80 else 0 :=
  byte_zeroTest (byte_magic z) (byte_high z) hi

/-- **Word-wise `strlen` finds the first NUL, with the least significant byte first.** -/
theorem strlen_little (z : Size) (m : Mem) (s len : Nat) (hs : s ≠ 0) (h : StringAt m s len) :
    Stops (step .little z m s) .entry len := by
  have hk := Nat.mod_lt (s + len) (bytes_pos z)
  have hle : s + len - (s + len) % z.bytes + (s + len) % z.bytes = s + len :=
    Nat.sub_add_cancel (Nat.mod_le _ _)
  have hentry : step .little z m s .entry = .again (.bytes s) := if_neg hs
  rw [stops_again hentry, stops_bytes h le_rfl (Nat.le_add_right s len)]
  split
  · rename_i hstart
    generalize (s + len) % z.bytes = k at *
    generalize s + len - k = t at *
    have hword : ∀ i < z.bytes, byte (wordAt .little z m t) i = m (t + i) := fun i hi => by
      rw [show wordAt .little z m t = ofBytes z.bytes fun i => m (t + i) from rfl, byte_ofBytes _ hi]
    have hnul : byte (wordAt .little z m t) k = 0 := by
      rw [hword k hk, hle, h.nul]
    have hne : ∀ j < k, byte (wordAt .little z m t) j ≠ 0 := fun j hj => by
      rw [hword j (by omega)]
      exact h.ne (by omega) (by omega)
    have hmark : byte (zeroTest (magic z) (magic z <<< 7) (wordAt .little z m t)) k = 0x80 := by
      rw [byte_mark z _ hk, if_pos ((borrow_ones (byte_magic z k hk)).2 (.inl hnul))]
    have hlow : ∀ j < k, byte (zeroTest (magic z) (magic z <<< 7) (wordAt .little z m t)) j = 0 :=
      fun j hj => by
        rw [byte_mark z _ (by omega), not_borrow (byte_magic z) (by omega) fun i hi => hne i (by omega)]
        rfl
    have hmarks : ∀ j < z.bytes,
        byte (zeroTest (magic z) (magic z <<< 7) (wordAt .little z m t)) j = 0x80 ∨
          byte (zeroTest (magic z) (magic z <<< 7) (wordAt .little z m t)) j = 0 := fun j hj => by
      rw [byte_mark z _ hj]
      split
      · exact .inl rfl
      · exact .inr rfl
    have htest : zeroTest (magic z) (magic z <<< 7) (wordAt .little z m t) ≠ 0 := fun hz =>
      (zeroTest_eq_zero_iff (byte_magic z) (byte_high z)).1 hz k hk hnul
    have hstep : step .little z m s (.words t) =
        .stop (t + z.bytes + positionLittle z
          (zeroTest (magic z) (magic z <<< 7) (wordAt .little z m t)) - z.bytes - s) := by
      unfold step
      exact if_neg htest
    rw [stops_stop hstep, positionLittle_eq hk hmark hlow hmarks]
    omega
  · rfl

/-- Eight bytes and a NUL at an odd address, with other bytes behind. -/
theorem strlen_little_odd :
    Stops (step .little .eight (fun a => if a = 17 then 0 else 1) 9) .entry 8 ∧
      Stops (step .little .four (fun a => if a = 17 then 0 else 1) 9) .entry 8 :=
  ⟨strlen_little .eight (fun a => if a = 17 then 0 else 1) 9 8 (by decide) ⟨by decide, by decide⟩,
    strlen_little .four (fun a => if a = 17 then 0 else 1) 9 8 (by decide) ⟨by decide, by decide⟩⟩

end

end Dietlibc.Words
