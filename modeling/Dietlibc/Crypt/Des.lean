import Dietlibc.Base.Assign
import Dietlibc.Base.Feistel
import Mathlib.Data.Nat.Bitwise
import Mathlib.Data.Set.Function

/-!
# The DES core

`encrypt` with its tables and its static arrays: `L` holds both halves, and `R` is `L + 32`. A read
behind a selection function or behind `L` is undefined, and the call has no result. Between the first
and the last permutation the halves go through the rounds of a Feistel network.
-/

namespace Dietlibc.Crypt

open Assign Feistel Function

/-- Initial permutation. -/
def IP : List Nat :=
  [57, 49, 41, 33, 25, 17, 9, 1, 59, 51, 43, 35, 27, 19, 11, 3,
   61, 53, 45, 37, 29, 21, 13, 5, 63, 55, 47, 39, 31, 23, 15, 7,
   56, 48, 40, 32, 24, 16, 8, 0, 58, 50, 42, 34, 26, 18, 10, 2,
   60, 52, 44, 36, 28, 20, 12, 4, 62, 54, 46, 38, 30, 22, 14, 6]

/-- Final permutation. -/
def FP : List Nat :=
  [39, 7, 47, 15, 55, 23, 63, 31, 38, 6, 46, 14, 54, 22, 62, 30,
   37, 5, 45, 13, 53, 21, 61, 29, 36, 4, 44, 12, 52, 20, 60, 28,
   35, 3, 43, 11, 51, 19, 59, 27, 34, 2, 42, 10, 50, 18, 58, 26,
   33, 1, 41, 9, 49, 17, 57, 25, 32, 0, 40, 8, 48, 16, 56, 24]

/-- The `E` bit-selection table, as `setkey` leaves it in `E`. -/
def e2 : List Nat :=
  [32, 1, 2, 3, 4, 5, 4, 5, 6, 7, 8, 9,
   8, 9, 10, 11, 12, 13, 12, 13, 14, 15, 16, 17,
   16, 17, 18, 19, 20, 21, 20, 21, 22, 23, 24, 25,
   24, 25, 26, 27, 28, 29, 28, 29, 30, 31, 32, 1]

/-- The selection functions. -/
def S : List (List Nat) :=
  [[14, 4, 13, 1, 2, 15, 11, 8, 3, 10, 6, 12, 5, 9, 0, 7,
    0, 15, 7, 4, 14, 2, 13, 1, 10, 6, 12, 11, 9, 5, 3, 8,
    4, 1, 14, 8, 13, 6, 2, 11, 15, 12, 9, 7, 3, 10, 5, 0,
    15, 12, 8, 2, 4, 9, 1, 7, 5, 11, 3, 14, 10, 0, 6, 13],
   [15, 1, 8, 14, 6, 11, 3, 4, 9, 7, 2, 13, 12, 0, 5, 10,
    3, 13, 4, 7, 15, 2, 8, 14, 12, 0, 1, 10, 6, 9, 11, 5,
    0, 14, 7, 11, 10, 4, 13, 1, 5, 8, 12, 6, 9, 3, 2, 15,
    13, 8, 10, 1, 3, 15, 4, 2, 11, 6, 7, 12, 0, 5, 14, 9],
   [10, 0, 9, 14, 6, 3, 15, 5, 1, 13, 12, 7, 11, 4, 2, 8,
    13, 7, 0, 9, 3, 4, 6, 10, 2, 8, 5, 14, 12, 11, 15, 1,
    13, 6, 4, 9, 8, 15, 3, 0, 11, 1, 2, 12, 5, 10, 14, 7,
    1, 10, 13, 0, 6, 9, 8, 7, 4, 15, 14, 3, 11, 5, 2, 12],
   [7, 13, 14, 3, 0, 6, 9, 10, 1, 2, 8, 5, 11, 12, 4, 15,
    13, 8, 11, 5, 6, 15, 0, 3, 4, 7, 2, 12, 1, 10, 14, 9,
    10, 6, 9, 0, 12, 11, 7, 13, 15, 1, 3, 14, 5, 2, 8, 4,
    3, 15, 0, 6, 10, 1, 13, 8, 9, 4, 5, 11, 12, 7, 2, 14],
   [2, 12, 4, 1, 7, 10, 11, 6, 8, 5, 3, 15, 13, 0, 14, 9,
    14, 11, 2, 12, 4, 7, 13, 1, 5, 0, 15, 10, 3, 9, 8, 6,
    4, 2, 1, 11, 10, 13, 7, 8, 15, 9, 12, 5, 6, 3, 0, 14,
    11, 8, 12, 7, 1, 14, 2, 13, 6, 15, 0, 9, 10, 4, 5, 3],
   [12, 1, 10, 15, 9, 2, 6, 8, 0, 13, 3, 4, 14, 7, 5, 11,
    10, 15, 4, 2, 7, 12, 9, 5, 6, 1, 13, 14, 0, 11, 3, 8,
    9, 14, 15, 5, 2, 8, 12, 3, 7, 0, 4, 10, 1, 13, 11, 6,
    4, 3, 2, 12, 9, 5, 15, 10, 11, 14, 1, 7, 6, 0, 8, 13],
   [4, 11, 2, 14, 15, 0, 8, 13, 3, 12, 9, 7, 5, 10, 6, 1,
    13, 0, 11, 7, 4, 9, 1, 10, 14, 3, 5, 12, 2, 15, 8, 6,
    1, 4, 11, 13, 12, 3, 7, 14, 10, 15, 6, 8, 0, 5, 9, 2,
    6, 11, 13, 8, 1, 4, 10, 7, 9, 5, 0, 15, 14, 2, 3, 12],
   [13, 2, 8, 4, 6, 15, 11, 1, 10, 9, 3, 14, 5, 0, 12, 7,
    1, 15, 13, 8, 10, 3, 7, 4, 12, 5, 6, 11, 0, 14, 9, 2,
    7, 11, 4, 1, 9, 12, 14, 2, 0, 6, 10, 13, 15, 3, 5, 8,
    2, 1, 14, 7, 4, 10, 8, 13, 15, 12, 9, 0, 3, 5, 6, 11]]

/-- The permutation of what they select. -/
def P : List Nat :=
  [15, 6, 19, 20, 28, 11, 27, 16, 0, 14, 22, 25, 4, 17, 30, 9,
   1, 7, 23, 13, 31, 26, 2, 8, 18, 12, 29, 5, 21, 10, 3, 24]

/-- The arrays that `encrypt` leaves for its next call. -/
structure Statics where
  L : Nat → Nat
  tempL : Nat → Nat
  f : Nat → Nat
  preS : Nat → Nat

/-! ## encrypt -/

/-- The number that six bits of `preS` select. -/
def selected (preS : Nat → Nat) (j : Nat) : Option Nat :=
  let t := ((j <<< 1) + j) <<< 1
  (S.getD j [])[(preS t <<< 5) + (preS (t + 1) <<< 3) + (preS (t + 2) <<< 2) + (preS (t + 3) <<< 1) +
    preS (t + 4) + (preS (t + 5) <<< 4)]?

/-- The four assignments to `f[t]` and the elements behind it. -/
def putBits (f : Nat → Nat) (t k : Nat) : Nat → Nat :=
  let f := update f t ((k >>> 3) &&& 1)
  let f := update f (t + 1) ((k >>> 2) &&& 1)
  let f := update f (t + 2) ((k >>> 1) &&& 1)
  update f (t + 3) (k &&& 1)

/-- One turn of the loop over the selection functions. -/
def selectTurn (preS f : Nat → Nat) (j : Nat) : Option (Nat → Nat) :=
  (selected preS j).map fun k => putBits f (j <<< 2) k

/-- `preS[j] = R[E[j]-1] ^ KS[i][j]` for every `j`. -/
def expand (E row L preS : Nat → Nat) : Option (Nat → Nat) :=
  if ∀ j < 48, 32 + E j - 1 < 64 then some (assign 0 48 (fun j _ => L (32 + E j - 1) ^^^ row j) preS)
  else none

/-- One of the 16 operations, with a row of the key schedule. -/
def encryptTurn (E : Nat → Nat) (st : Statics) (row : Nat → Nat) : Option Statics := do
  let tempL := assign 0 32 (fun j _ => st.L (32 + j)) st.tempL
  let preS ← expand E row st.L st.preS
  let f ← (List.range 8).foldlM (selectTurn preS) st.f
  let L := assign 32 32 (fun j L => L j ^^^ f (P.getD j 0)) st.L
  let L := assign 0 32 (fun j _ => tempL j) L
  some { L := L, tempL := tempL, f := f, preS := preS }

/-- One turn of the loop that exchanges `L` and `R`. -/
def swapTurn (L : Nat → Nat) (j : Nat) : Nat → Nat :=
  let L := update L j (L j ^^^ L (32 + j))
  let L := update L (32 + j) (L (32 + j) ^^^ L j)
  update L j (L j ^^^ L (32 + j))

def encrypt (KS : Nat → Nat → Nat) (E : Nat → Nat) (st : Statics) (block : Nat → Nat) :
    Option (Statics × (Nat → Nat)) := do
  let L := assign 0 64 (fun j _ => block (IP.getD j 0)) st.L
  let st ← (List.range 16).foldlM (fun st ii => encryptTurn E st (KS ii)) { st with L := L }
  let L := (List.range 32).foldl swapTurn st.L
  some ({ st with L := L }, assign 0 64 (fun j _ => L (FP.getD j 0)) block)

/-! ## The selection functions -/

/-- The entries before `n` are zero or one. -/
def Bits (n : Nat) (a : Nat → Nat) : Prop := ∀ j < n, a j ≤ 1

/-- The bit of `f` at `i`. -/
def picked (preS : Nat → Nat) (i : Nat) : Nat :=
  ((selected preS (i / 4)).getD 0 >>> (3 - i % 4)) &&& 1

section Select

variable {preS preS' f : Nat → Nat} {n i j k : Nat}

theorem S_length (hj : j < 8) : (S.getD j []).length = 64 := by
  interval_cases j <;> rfl

theorem exists_selected (hb : Bits 48 preS) (hj : j < 8) : ∃ k, selected preS j = some k := by
  refine ⟨_, List.getElem?_eq_getElem (h := ?_)⟩
  rw [S_length hj]
  simp only [Nat.shiftLeft_eq]
  have b (i : Nat) (hi : i < 6) := hb ((j * 2 ^ 1 + j) * 2 ^ 1 + i) (by omega)
  have b0 := b 0 (by omega)
  have b1 := b 1 (by omega)
  have b2 := b 2 (by omega)
  have b3 := b 3 (by omega)
  have b4 := b 4 (by omega)
  have b5 := b 5 (by omega)
  simp only [Nat.add_zero] at b0
  omega

theorem selected_congr (h : ∀ i < 48, preS i = preS' i) (hj : j < 8) :
    selected preS j = selected preS' j := by
  have b (i : Nat) (hi : i < 6) := h (((j <<< 1) + j) <<< 1 + i) (by
    simp only [Nat.shiftLeft_eq]
    omega)
  have b0 := b 0 (by omega)
  rw [Nat.add_zero] at b0
  simp only [selected, b0, b 1 (by omega), b 2 (by omega), b 3 (by omega), b 4 (by omega),
    b 5 (by omega)]

theorem picked_congr (h : ∀ i < 48, preS i = preS' i) (hi : i < 32) :
    picked preS i = picked preS' i := by
  unfold picked
  rw [selected_congr h (by omega)]

theorem picked_le (preS : Nat → Nat) (i : Nat) : picked preS i ≤ 1 := Nat.and_le_right

theorem putBits_out {t : Nat} (h : ¬(t ≤ i ∧ i < t + 4)) : putBits f t k i = f i := by
  unfold putBits
  rw [update_of_ne (by omega), update_of_ne (by omega), update_of_ne (by omega),
    update_of_ne (by omega)]

theorem putBits_in {t d : Nat} (hd : d < 4) : putBits f t k (t + d) = (k >>> (3 - d)) &&& 1 := by
  unfold putBits
  interval_cases d <;> simp

theorem selectTurn_eq (h : selected preS n = some k) (f : Nat → Nat) :
    selectTurn preS f n = some (putBits f (4 * n) k) := by
  rw [selectTurn, h, Option.map_some, Nat.shiftLeft_eq, Nat.mul_comm]

theorem picked_eq {d : Nat} (h : selected preS n = some k) (hd : d < 4) :
    picked preS (4 * n + d) = (k >>> (3 - d)) &&& 1 := by
  have hq : (4 * n + d) / 4 = n := by omega
  have hm : (4 * n + d) % 4 = d := by omega
  rw [picked, hq, hm, h, Option.getD_some]

/-- The loop over the selection functions. -/
theorem select_eq (hb : Bits 48 preS) (f : Nat → Nat) (hn : n ≤ 8) :
    ∃ f', (List.range n).foldlM (selectTurn preS) f = some f' ∧ ∀ i < 4 * n, f' i = picked preS i := by
  induction n with
  | zero => exact ⟨f, rfl, fun i hi => absurd hi (by omega)⟩
  | succ n ih =>
    obtain ⟨f', hf', h⟩ := ih (by omega)
    obtain ⟨k, hk⟩ := exists_selected hb (show n < 8 by omega)
    have hs := selectTurn_eq hk f'
    refine ⟨putBits f' (4 * n) k, by simp [List.range_succ, List.foldlM_append, hf', hs], ?_⟩
    intro i hi
    rcases Nat.lt_or_ge i (4 * n) with hlt | hge
    · rw [putBits_out (by omega), h i hlt]
    · obtain ⟨d, rfl⟩ := Nat.exists_eq_add_of_le hge
      rw [putBits_in (by omega), picked_eq hk (by omega)]

end Select

/-! ## The halves -/

/-- The 32 entries from `off` on. -/
def half (off : Nat) (L : Nat → Nat) : Nat → Nat := fun j => if j < 32 then L (off + j) else 0

/-- The left and the right half. -/
def halves (L : Nat → Nat) : (Nat → Nat) × (Nat → Nat) := (half 0 L, half 32 L)

def xorHalf (a b : Nat → Nat) : Nat → Nat := fun j => a j ^^^ b j

/-- What a round combines with the left half: the selection from the right half and the row of the
key schedule. -/
def cipher (E row r : Nat → Nat) : Nat → Nat := fun j =>
  if j < 32 then picked (fun i => r (E i - 1) ^^^ row i) (P.getD j 0) else 0

section Halves

variable {E row L L' preS f block : Nat → Nat} {st : Statics} {n i j : Nat}

theorem xorHalf_cancel (a b : Nat → Nat) : xorHalf (xorHalf a b) b = a :=
  funext fun j => by rw [xorHalf, xorHalf, Nat.xor_assoc, Nat.xor_self, Nat.xor_zero]

theorem xor_le {a b : Nat} (ha : a ≤ 1) (hb : b ≤ 1) : a ^^^ b ≤ 1 := by
  interval_cases a <;> interval_cases b <;> decide

theorem half_of_lt {off : Nat} (hj : j < 32) : half off L j = L (off + j) := if_pos hj

theorem half_of_ge {off : Nat} (hj : ¬j < 32) : half off L j = 0 := if_neg hj

theorem halves_fst (hj : j < 32) : (halves L).1 j = L j :=
  (half_of_lt hj).trans (by rw [Nat.zero_add])

theorem halves_snd (hj : j < 32) : (halves L).2 j = L (32 + j) := half_of_lt hj

theorem halves_ge (hj : ¬j < 32) : (halves L).1 j = 0 ∧ (halves L).2 j = 0 :=
  ⟨half_of_ge hj, half_of_ge hj⟩

theorem halves_ext (h : ∀ j < 32, L j = L' j ∧ L (32 + j) = L' (32 + j)) : halves L = halves L' := by
  refine Prod.ext ?_ ?_ <;> funext j <;> by_cases hj : j < 32
  · rw [halves_fst hj, halves_fst hj, (h j hj).1]
  · rw [(halves_ge hj).1, (halves_ge hj).1]
  · rw [halves_snd hj, halves_snd hj, (h j hj).2]
  · rw [(halves_ge hj).2, (halves_ge hj).2]

theorem of_halves (h : halves L = halves L') (hi : i < 64) : L i = L' i := by
  rcases Nat.lt_or_ge i 32 with hlt | hge
  · have e := congrFun (congrArg Prod.fst h) i
    rwa [halves_fst hlt, halves_fst hlt] at e
  · obtain ⟨d, rfl⟩ := Nat.exists_eq_add_of_le hge
    have e := congrFun (congrArg Prod.snd h) d
    rwa [halves_snd (by omega), halves_snd (by omega)] at e

/-- The halves have bits, wherever one looks. -/
def BitHalf (a : Nat → Nat) : Prop := ∀ j, a j ≤ 1

theorem bits_iff : Bits 64 L ↔ BitHalf (halves L).1 ∧ BitHalf (halves L).2 := by
  constructor
  · intro h
    have e (off : Nat) (ho : off ≤ 32) : BitHalf (half off L) := by
      intro j
      by_cases hj : j < 32
      · exact (half_of_lt hj).trans_le (h _ (by omega))
      · exact (half_of_ge hj).trans_le (Nat.zero_le 1)
    exact ⟨e 0 (by omega), e 32 (by omega)⟩
  · rintro ⟨hl, hr⟩ i hi
    rcases Nat.lt_or_ge i 32 with hlt | hge
    · exact (halves_fst hlt).symm.trans_le (hl i)
    · obtain ⟨d, rfl⟩ := Nat.exists_eq_add_of_le hge
      exact (halves_snd (by omega)).symm.trans_le (hr d)

theorem cipher_le (E row r : Nat → Nat) (j : Nat) : cipher E row r j ≤ 1 := by
  unfold cipher
  split
  · exact picked_le _ _
  · exact Nat.zero_le 1

theorem xorHalf_cipher (E row : Nat → Nat) (a b : Nat → Nat) (ha : BitHalf a) (_ : BitHalf b) :
    BitHalf (xorHalf a (cipher E row b)) := fun j => xor_le (ha j) (cipher_le E row b j)

/-! ## The rounds -/

theorem P_lt (hj : j < 32) : P.getD j 0 < 32 := by
  have h : ∀ i < 32, P.getD i 0 < 32 := by decide
  exact h j hj

theorem expand_eq (hE : ∀ j < 48, 1 ≤ E j ∧ E j ≤ 32) (row L preS : Nat → Nat) :
    ∃ preS', expand E row L preS = some preS' ∧
      ∀ j < 48, preS' j = (halves L).2 (E j - 1) ^^^ row j := by
  have hr : ∀ j < 48, 32 + E j - 1 < 64 := fun j hj => by
    have := (hE j hj).2
    omega
  refine ⟨_, if_pos hr, fun j hj => ?_⟩
  have := hE j hj
  rw [assign_zero hj, halves_snd (by omega), Nat.add_sub_assoc this.1]

/-- The loop that puts the new right half behind the left one, and the old one in front. -/
theorem turn_halves (f tempL L : Nat → Nat) (ht : ∀ j < 32, tempL j = L (32 + j)) :
    halves (assign 0 32 (fun j _ => tempL j) (assign 32 32 (fun j L => L j ^^^ f (P.getD j 0)) L)) =
      ((halves L).2, fun j => if j < 32 then L j ^^^ f (P.getD j 0) else 0) := by
  refine Prod.ext ?_ ?_ <;> funext j <;> by_cases hj : j < 32
  · rw [halves_fst hj, assign_zero hj, ht j hj]
    exact (halves_snd hj).symm
  · rw [(halves_ge hj).1]
    exact (halves_ge hj).2.symm
  · rw [halves_snd hj, assign_out (by omega), assign_in hj, assign_out (by omega)]
    exact (if_pos hj).symm
  · rw [(halves_ge hj).2]
    exact (if_neg hj).symm

/-- A turn is a round on the halves. -/
theorem encryptTurn_eq (hE : ∀ j < 48, 1 ≤ E j ∧ E j ≤ 32) (hrow : Bits 48 row) (hL : Bits 64 st.L) :
    ∃ st', encryptTurn E st row = some st' ∧
      halves st'.L = Feistel.round xorHalf (cipher E) (halves st.L) row := by
  obtain ⟨preS, hpre, hpreS⟩ := expand_eq hE row st.L st.preS
  have hbits : Bits 48 preS := fun j hj => by
    rw [hpreS j hj]
    exact xor_le ((bits_iff.mp hL).2 _) (hrow j hj)
  obtain ⟨f, hf, hpick⟩ := select_eq hbits st.f (Nat.le_refl 8)
  refine ⟨_, by simp only [encryptTurn, hpre, hf, Option.bind_eq_bind, Option.bind_some]; rfl, ?_⟩
  refine (turn_halves f _ st.L fun j hj => ?_).trans (Prod.ext rfl (funext fun j => ?_))
  · exact assign_zero hj
  · by_cases hj : j < 32
    · simp only [if_pos hj, Feistel.round, xorHalf, cipher, halves_fst hj]
      rw [hpick _ (P_lt hj), picked_congr hpreS (P_lt hj)]
    · simp only [if_neg hj, Feistel.round, xorHalf, cipher, (halves_ge hj).1, Nat.xor_self]

/-- The turns with these rows are the rounds with them. -/
theorem encryptTurns_eq (hE : ∀ j < 48, 1 ≤ E j ∧ E j ≤ 32) {rows : List (Nat → Nat)}
    (hrows : ∀ row ∈ rows, Bits 48 row) (hL : Bits 64 st.L) :
    ∃ st', rows.foldlM (encryptTurn E) st = some st' ∧
      halves st'.L = rounds xorHalf (cipher E) rows (halves st.L) ∧ Bits 64 st'.L := by
  induction rows generalizing st with
  | nil => exact ⟨st, rfl, rfl, hL⟩
  | cons row rows ih =>
    obtain ⟨st₁, h₁, e₁⟩ := encryptTurn_eq hE (hrows row List.mem_cons_self) hL
    have hL₁ : Bits 64 st₁.L := by
      have hb := bits_iff.mp hL
      rw [bits_iff, e₁]
      exact ⟨hb.2, xorHalf_cipher E row _ _ hb.1 hb.2⟩
    obtain ⟨st', h', e', hL'⟩ := ih (fun row h => hrows row (List.mem_cons_of_mem _ h)) hL₁
    exact ⟨st', by rw [List.foldlM_cons, h₁]; exact h', by rw [rounds_cons, ← e₁]; exact e', hL'⟩

/-! ## The exchange of the halves -/

theorem swapTurn_apply (L : Nat → Nat) (j i : Nat) :
    swapTurn L j i = if i = j then L (32 + j) else if i = 32 + j then L j else L i := by
  have hne : 32 + j ≠ j := by omega
  unfold swapTurn
  rcases eq_or_ne i j with rfl | hi
  · simp only [update_self, update_of_ne hne, update_of_ne hne.symm, if_pos]
    rw [Nat.xor_comm (L i ^^^ _), Nat.xor_assoc, Nat.xor_self, Nat.xor_zero]
  · rcases eq_or_ne i (32 + j) with rfl | hi'
    · simp only [update_self, update_of_ne hne, if_pos, if_neg hne]
      rw [Nat.xor_comm (L j), ← Nat.xor_assoc, Nat.xor_self, Nat.zero_xor]
    · simp only [update_of_ne hi, update_of_ne hi', if_neg hi, if_neg hi']

theorem swap_apply (hn : n ≤ 32) :
    (∀ i < n, (List.range n).foldl swapTurn L i = L (32 + i) ∧
      (List.range n).foldl swapTurn L (32 + i) = L i) ∧
    ∀ i, n ≤ i → i < 32 → (List.range n).foldl swapTurn L i = L i ∧
      (List.range n).foldl swapTurn L (32 + i) = L (32 + i) := by
  induction n with
  | zero => exact ⟨fun i hi => absurd hi (Nat.not_lt_zero i), fun i _ _ => ⟨rfl, rfl⟩⟩
  | succ n ih =>
    obtain ⟨hdone, hrest⟩ := ih (by omega)
    rw [List.range_succ, List.foldl_append, List.foldl_cons, List.foldl_nil]
    refine ⟨fun i hi => ?_, fun i hi hi' => ?_⟩
    · rw [swapTurn_apply, swapTurn_apply]
      rcases Nat.lt_succ_iff_lt_or_eq.mp hi with hlt | rfl
      · rw [if_neg (by omega), if_neg (by omega), if_neg (by omega), if_neg (by omega)]
        exact hdone i hlt
      · rw [if_pos rfl, if_neg (by omega), if_pos rfl]
        exact (hrest i (Nat.le_refl i) (by omega)).symm
    · rw [swapTurn_apply, swapTurn_apply, if_neg (by omega),
        if_neg (by omega), if_neg (by omega), if_neg (by omega)]
      exact hrest i (by omega) hi'

theorem halves_swap (L : Nat → Nat) :
    halves ((List.range 32).foldl swapTurn L) = (halves L).swap := by
  have h := (swap_apply (L := L) (Nat.le_refl 32)).1
  refine Prod.ext ?_ ?_ <;> funext j <;> by_cases hj : j < 32
  · rw [halves_fst hj, (h j hj).1, Prod.fst_swap, halves_snd hj]
  · rw [(halves_ge hj).1, Prod.fst_swap, (halves_ge hj).2]
  · rw [halves_snd hj, (h j hj).2, Prod.snd_swap, halves_fst hj]
  · rw [(halves_ge hj).2, Prod.snd_swap, (halves_ge hj).1]

end Halves

/-! ## A block -/

/-- The block after the first permutation. -/
def permuted (block : Nat → Nat) : Nat → Nat := fun j => block (IP.getD j 0)

/-- The rows of a key schedule. -/
def rows (KS : Nat → Nat → Nat) : List (Nat → Nat) := (List.range 16).map KS

/-- The blocks of 64 bits. -/
def blocks : Set (Nat → Nat) := {b | Bits 64 b ∧ ∀ i, 64 ≤ i → b i = 0}

section Block

variable {KS KS' : Nat → Nat → Nat} {E b b' : Nat → Nat} {st : Statics} {i : Nat}

theorem IP_lt (hi : i < 64) : IP.getD i 0 < 64 := by
  have h : ∀ i < 64, IP.getD i 0 < 64 := by decide
  exact h i hi

theorem FP_lt (hi : i < 64) : FP.getD i 0 < 64 := by
  have h : ∀ i < 64, FP.getD i 0 < 64 := by decide
  exact h i hi

theorem FP_IP (hi : i < 64) : FP.getD (IP.getD i 0) 0 = i := by
  have h : ∀ i < 64, FP.getD (IP.getD i 0) 0 = i := by decide
  exact h i hi

theorem IP_FP (hi : i < 64) : IP.getD (FP.getD i 0) 0 = i := by
  have h : ∀ i < 64, IP.getD (FP.getD i 0) 0 = i := by decide
  exact h i hi

theorem bits_permuted (hb : Bits 64 b) : Bits 64 (permuted b) := fun _ hj => hb _ (IP_lt hj)

/-- A block is known from the halves of its permutation. -/
theorem eq_of_permuted (h : halves (permuted b) = halves (permuted b')) (hi : i < 64) : b i = b' i := by
  have e := of_halves h (FP_lt hi)
  rwa [permuted, permuted, IP_FP hi] at e

/-- What a call does to the block: the rounds on the halves of the permuted one, and the exchange. -/
structure Encrypted (KS : Nat → Nat → Nat) (E b b' : Nat → Nat) : Prop where
  halves : halves (permuted b') = (rounds xorHalf (cipher E) (rows KS) (halves (permuted b))).swap
  bits : Bits 64 b'
  rest : ∀ i, 64 ≤ i → b' i = b i

theorem encrypt_eq (hKS : ∀ i < 16, Bits 48 (KS i)) (hE : ∀ j < 48, 1 ≤ E j ∧ E j ≤ 32)
    (st : Statics) (hb : Bits 64 b) :
    ∃ st' b', encrypt KS E st b = some (st', b') ∧ Encrypted KS E b b' := by
  let L := assign 0 64 (fun j _ => b (IP.getD j 0)) st.L
  have hL : ∀ i < 64, L i = permuted b i := fun i hi => assign_zero hi
  have hbits : Bits 64 ({ st with L := L } : Statics).L := fun i hi =>
    (hL i hi).trans_le (bits_permuted hb i hi)
  have hrows : ∀ row ∈ rows KS, Bits 48 row := by
    intro row h
    obtain ⟨i, hi, rfl⟩ := List.mem_map.mp h
    exact hKS i (List.mem_range.mp hi)
  obtain ⟨st₁, h₁, e₁, hb₁⟩ := encryptTurns_eq hE hrows hbits
  rw [rows, List.foldlM_map] at h₁
  let M := (List.range 32).foldl swapTurn st₁.L
  have hM : Bits 64 M := by
    rw [bits_iff] at hb₁ ⊢
    rw [halves_swap]
    exact hb₁.symm
  refine ⟨{ st₁ with L := M }, assign 0 64 (fun j _ => M (FP.getD j 0)) b, ?_, ?_, ?_, ?_⟩
  · exact Option.bind_eq_some_iff.mpr ⟨st₁, h₁, rfl⟩
  · have e : Crypt.halves L = Crypt.halves (permuted b) :=
      halves_ext fun j hj => ⟨hL _ (by omega), hL _ (by omega)⟩
    rw [← e, ← e₁, ← halves_swap]
    have hper : ∀ j < 64, permuted (assign 0 64 (fun j _ => M (FP.getD j 0)) b) j = M j := by
      intro j hj
      rw [permuted, assign_zero (IP_lt hj), FP_IP hj]
    exact halves_ext fun j hj => ⟨hper _ (by omega), hper _ (by omega)⟩
  · intro i hi
    rw [assign_zero hi]
    exact hM _ (FP_lt hi)
  · intro i hi
    exact assign_out (by omega)

theorem Encrypted.back (h : Encrypted KS E b b') {b'' : Nat → Nat} (h' : Encrypted KS' E b' b'')
    (hr : rows KS' = (rows KS).reverse) : b'' = b := by
  funext i
  rcases Nat.lt_or_ge i 64 with hi | hi
  · refine eq_of_permuted ?_ hi
    rw [h'.halves, h.halves, hr, rounds_reverse xorHalf_cancel, Prod.swap_swap]
  · rw [h'.rest i hi, h.rest i hi]

/-- The rows in reverse order. -/
theorem rows_reverse (KS : Nat → Nat → Nat) : rows (fun i => KS (15 - i)) = (rows KS).reverse := rfl

theorem bits_reverse (hKS : ∀ i < 16, Bits 48 (KS i)) : ∀ i < 16, Bits 48 (KS (15 - i)) :=
  fun i _ => hKS (15 - i) (by omega)

/-- The block after a call. -/
def crypted (KS : Nat → Nat → Nat) (E : Nat → Nat) (st : Statics) (b : Nat → Nat) : Nat → Nat :=
  ((encrypt KS E st b).getD (st, b)).2

theorem crypted_eq (hKS : ∀ i < 16, Bits 48 (KS i)) (hE : ∀ j < 48, 1 ≤ E j ∧ E j ≤ 32)
    (st : Statics) (hb : Bits 64 b) :
    (encrypt KS E st b).map Prod.snd = some (crypted KS E st b) ∧
      Encrypted KS E b (crypted KS E st b) := by
  obtain ⟨st', b', h, he⟩ := encrypt_eq hKS hE st hb
  have hc : crypted KS E st b = b' := by rw [crypted, h, Option.getD_some]
  rw [hc, h]
  exact ⟨rfl, he⟩

theorem crypted_mapsTo (hKS : ∀ i < 16, Bits 48 (KS i)) (hE : ∀ j < 48, 1 ≤ E j ∧ E j ≤ 32)
    (st : Statics) : Set.MapsTo (crypted KS E st) blocks blocks := by
  rintro b ⟨hb, h0⟩
  have he := (crypted_eq hKS hE st hb).2
  exact ⟨he.bits, fun i hi => (he.rest i hi).trans (h0 i hi)⟩

theorem crypted_leftInvOn (hKS : ∀ i < 16, Bits 48 (KS i)) (hKS' : ∀ i < 16, Bits 48 (KS' i))
    (hE : ∀ j < 48, 1 ≤ E j ∧ E j ≤ 32) (hr : rows KS' = (rows KS).reverse) (st : Statics) :
    Set.LeftInvOn (crypted KS' E st) (crypted KS E st) blocks := by
  rintro b ⟨hb, -⟩
  have he := (crypted_eq hKS hE st hb).2
  exact he.back (crypted_eq hKS' hE st he.bits).2 hr

theorem crypted_bijOn (hKS : ∀ i < 16, Bits 48 (KS i)) (hE : ∀ j < 48, 1 ≤ E j ∧ E j ≤ 32)
    (st : Statics) : Set.BijOn (crypted KS E st) blocks blocks := by
  have hback : rows KS = (rows fun i => KS (15 - i)).reverse := by
    rw [rows_reverse, List.reverse_reverse]
  have hinv : Set.InvOn (crypted (fun i => KS (15 - i)) E st) (crypted KS E st) blocks blocks :=
    ⟨crypted_leftInvOn hKS (bits_reverse hKS) hE (rows_reverse KS) st,
      crypted_leftInvOn (bits_reverse hKS) hKS hE hback st⟩
  exact hinv.bijOn (crypted_mapsTo hKS hE st) (crypted_mapsTo (bits_reverse hKS) hE st)

/-- A call with the rows of the key schedule in reverse order, with whatever the call before it left in
the static arrays, gives the block back, and a call is a bijection on blocks. -/
theorem encrypt_invertible (hKS : ∀ i < 16, Bits 48 (KS i)) (hE : ∀ j < 48, 1 ≤ E j ∧ E j ≤ 32)
    (st : Statics) :
    (∀ b, Bits 64 b → ∃ st' b' st'', encrypt KS E st b = some (st', b') ∧ Bits 64 b' ∧
      encrypt (fun i => KS (15 - i)) E st' b' = some (st'', b)) ∧
    ∃ g, Set.BijOn g blocks blocks ∧
      ∀ b ∈ blocks, (encrypt KS E st b).map Prod.snd = some (g b) := by
  constructor
  · intro b hb
    obtain ⟨st', b', h, he⟩ := encrypt_eq hKS hE st hb
    obtain ⟨st'', b'', h', he'⟩ := encrypt_eq (bits_reverse hKS) hE st' he.bits
    refine ⟨st', b', st'', h, he.bits, ?_⟩
    rw [h', he.back he' (rows_reverse KS)]
  · exact ⟨crypted KS E st, crypted_bijOn hKS hE st, fun b hb => (crypted_eq hKS hE st hb.1).1⟩

/-- The unsalted selector, and the schedule without a bit. -/
theorem encrypt_invertible_e2 :
    (∀ i < 16, Bits 48 fun j => (fun _ _ => 0 : Nat → Nat → Nat) i j) ∧
    (∀ j < 48, 1 ≤ e2.getD j 0 ∧ e2.getD j 0 ≤ 32) ∧
    ((∀ b, Bits 64 b → ∃ st' b' st'',
      encrypt (fun _ _ => 0) (fun j => e2.getD j 0) ⟨id, id, id, id⟩ b = some (st', b') ∧ Bits 64 b' ∧
        encrypt (fun _ _ => 0) (fun j => e2.getD j 0) st' b' = some (st'', b)) ∧
    ∃ g, Set.BijOn g blocks blocks ∧ ∀ b ∈ blocks,
      (encrypt (fun _ _ => 0) (fun j => e2.getD j 0) ⟨id, id, id, id⟩ b).map Prod.snd = some (g b)) :=
  have hE : ∀ j < 48, 1 ≤ e2.getD j 0 ∧ e2.getD j 0 ≤ 32 := by decide
  have hKS : ∀ i < 16, Bits 48 fun j => (fun _ _ => 0 : Nat → Nat → Nat) i j :=
    fun _ _ _ _ => Nat.zero_le 1
  ⟨hKS, hE, encrypt_invertible hKS hE ⟨id, id, id, id⟩⟩

end Block

end Dietlibc.Crypt
