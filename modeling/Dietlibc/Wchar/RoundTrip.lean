import Dietlibc.Wchar.Multibyte

/-!
# UTF-8 read back

Behind the first byte of a character, `n` more bytes are due and what was read of it is its high
part. Each byte shifts six bits in, so the last one completes the character.
-/

namespace Dietlibc.Wchar

variable {wc : Int} {ps : MbState} {s rest : List UInt8} {i n : Nat}

/-! ## Bytes behind the first -/

theorem ofInt_cont {k : Nat} (hk : k < 64) :
    UInt8.ofInt (0x80 + (k : Int)) &&& 0xc0 = 0x80 ∧
      (UInt8.ofInt (0x80 + (k : Int)) &&& 0x3f).toNat = k := by
  revert k
  decide

theorem turn_cont {d v : Int} (hd : 0 ≤ d ∧ d < 64) (hv : 0 ≤ v ∧ v * 64 + d < 2 ^ 31) (n : Nat) :
    turn (UInt8.ofInt (0x80 + d)) ⟨n + 1, v⟩ =
      if n = 0 then .complete ⟨n, v * 64 + d⟩ else .more ⟨n, v * 64 + d⟩ := by
  obtain ⟨k, rfl⟩ : ∃ k : Nat, d = k := ⟨d.toNat, by omega⟩
  obtain ⟨h1, h2⟩ := ofInt_cont (show k < 64 by omega)
  have hfit : CInt.conv 32 (v * 64 + k) = v * 64 + k :=
    CInt.conv_of_fits (by decide) (CInt.fits32.mpr (by omega))
  have hcount : (n : Int) + 1 ≠ 0 := by omega
  unfold turn
  simp only [hcount, ne_eq, not_false_eq_true, if_true, h1, not_true_eq_false, if_false, h2, hfit,
    Int.add_sub_cancel, Int.natCast_eq_zero]

/-- The high part of `wc` that is known when `n` bytes are due. -/
def high (wc : Int) (n : Nat) : Int := wc / 2 ^ (6 * n)

theorem high_succ (wc : Int) (n : Nat) :
    high wc (n + 1) * 64 + wc / 2 ^ (6 * n) % 64 = high wc n := by
  unfold high
  have h64 : (2 : Int) ^ (6 * (n + 1)) = 2 ^ (6 * n) * 64 := by
    rw [Nat.mul_add, pow_add]
    norm_num
  rw [h64, ← Int.ediv_ediv_of_nonneg (by positivity)]
  omega

theorem high_bounds (h : 0 ≤ wc ∧ wc < 2 ^ 31) (n : Nat) :
    0 ≤ high wc n ∧ high wc n < 2 ^ 31 := by
  unfold high
  refine ⟨Int.ediv_nonneg h.1 (by positivity), lt_of_le_of_lt ?_ h.2⟩
  exact Int.ediv_le_self _ h.1

/-- The byte that comes when `n + 1` are due. -/
theorem turn_wcTail (h : 0 ≤ wc ∧ wc < 2 ^ 31) (n : Nat) :
    turn (UInt8.ofInt (0x80 + wc / 2 ^ (6 * n) % 64)) ⟨n + 1, high wc (n + 1)⟩ =
      if n = 0 then .complete ⟨n, high wc n⟩ else .more ⟨n, high wc n⟩ := by
  have hb := high_bounds h n
  have hs := high_succ wc n
  rw [turn_cont (by omega) ⟨(high_bounds h (n + 1)).1, by rw [hs]; exact hb.2⟩, hs]

theorem wcTail_succ (wc : Int) (n : Nat) : wcTail wc (n + 1) (6 * (n + 1)) =
    UInt8.ofInt (0x80 + wc / 2 ^ (6 * n) % 64) :: wcTail wc n (6 * n) := by
  rw [wcTail]
  rfl

/-- The bytes behind the first complete the character. -/
theorem mbrtowcLoop_wcTail (h : 1 ≤ wc ∧ wc < 2 ^ 31) (n i : Nat) (rest : List UInt8) :
    mbrtowcLoop .utf8 (wcTail wc (n + 1) (6 * (n + 1)) ++ rest) i ⟨n + 1, high wc (n + 1)⟩ =
      (i + (n + 1), some wc, ⟨0, 0⟩) := by
  induction n generalizing i with
  | zero =>
    have hwc : high wc 0 = wc := by simp [high]
    rw [wcTail_succ, List.cons_append, mbrtowcLoop]
    have ht := turn_wcTail (show 0 ≤ wc ∧ wc < 2 ^ 31 by omega) 0
    rw [if_pos rfl, hwc] at ht
    have hne : wc ≠ 0 := by omega
    rw [ht]
    simp [hne]
  | succ n ih =>
    rw [wcTail_succ, List.cons_append, mbrtowcLoop]
    have ht := turn_wcTail (show 0 ≤ wc ∧ wc < 2 ^ 31 by omega) (n + 1)
    rw [if_neg (by omega)] at ht
    rw [ht]
    dsimp only
    push_cast
    rw [ih]
    simp [Nat.add_comm, Nat.add_left_comm]

/-! ## The first byte -/

theorem ofInt_ascii {k : Nat} (hk : k < 128) :
    UInt8.ofInt (k : Int) &&& 0x80 = 0 ∧ (UInt8.ofInt (k : Int)).toNat = k := by
  revert k
  decide

theorem turn_ascii {k : Nat} (hk : k < 128) (hps : ps.Initial) :
    turn (UInt8.ofInt k) ps = .complete ⟨0, k⟩ := by
  obtain ⟨h1, h2⟩ := ofInt_ascii hk
  obtain ⟨count, sofar⟩ := ps
  cases (show count = 0 from hps)
  unfold turn
  simp only [ne_eq, not_true_eq_false, if_false, h1, h2]

/-- `c` announces `j` more bytes and holds `k`. -/
def Lead (c : UInt8) (j k : Nat) : Prop :=
  c &&& 0x80 ≠ 0 ∧ (leadLoop 8 (c <<< 1) 0).2 = j ∧
    (leadLoop 8 (c <<< 1) 0).1.toNat / 2 ^ (j + 1) = k

instance (c : UInt8) (j k : Nat) : Decidable (Lead c j k) := inferInstanceAs (Decidable (_ ∧ _))

theorem lead_marks :
    (∀ k < 32, Lead (0xC0 ||| UInt8.ofInt (k : Nat)) 1 k) ∧
    (∀ k < 16, Lead (0xE0 ||| UInt8.ofInt (k : Nat)) 2 k) ∧
    (∀ k < 8, Lead (0xF0 ||| UInt8.ofInt (k : Nat)) 3 k) ∧
    (∀ k < 4, Lead (0xF8 ||| UInt8.ofInt (k : Nat)) 4 k) ∧
    (∀ k < 2, Lead (0xFC ||| UInt8.ofInt (k : Nat)) 5 k) := by
  decide

theorem turn_lead {c : UInt8} {j k : Nat} (h : Lead c j k) (hj : 1 ≤ j ∧ j ≤ 5)
    (hps : ps.Initial) : turn c ps = .more ⟨j, k⟩ := by
  obtain ⟨h1, h2, h3⟩ := h
  have hc : ¬ ps.count ≠ 0 := fun h => h hps
  have hn : ¬ (j = 0 ∨ 5 < j) := by omega
  unfold turn
  rw [if_neg hc, if_pos h1]
  simp only [h2, hn, if_false]
  rw [← h3]
  simp

/-- What `wcrtomb` stores: a byte below 128, or a first byte and `j` more. -/
theorem wcrtomb_utf8 (h : 0 ≤ wc ∧ wc < 2 ^ 31) :
    (wc < 128 ∧ wcrtomb .utf8 wc = (1, [UInt8.ofInt wc])) ∨
    ∃ j c, 1 ≤ j ∧ j ≤ 5 ∧ 128 ≤ wc ∧
      wcrtomb .utf8 wc = (j + 1, c :: wcTail wc j (6 * j)) ∧ Lead c j (high wc j).toNat := by
  obtain ⟨l1, l2, l3, l4, l5⟩ := lead_marks
  have hhigh : ∀ j, ((high wc j).toNat : Int) = wc / 2 ^ (6 * j) := fun j =>
    Int.toNat_of_nonneg (high_bounds h j).1
  unfold wcrtomb wcBytes
  dsimp only
  split
  · refine .inr ⟨5, _, by decide, by decide, by omega, rfl, ?_⟩
    have hk := hhigh 5
    rw [← hk]
    exact l5 _ (by omega)
  · split
    · refine .inr ⟨4, _, by decide, by decide, by omega, rfl, ?_⟩
      have hk := hhigh 4
      rw [← hk]
      exact l4 _ (by omega)
    · split
      · refine .inr ⟨3, _, by decide, by decide, by omega, rfl, ?_⟩
        have hk := hhigh 3
        rw [← hk]
        exact l3 _ (by omega)
      · split
        · refine .inr ⟨2, _, by decide, by decide, by omega, rfl, ?_⟩
          have hk := hhigh 2
          rw [← hk]
          exact l2 _ (by omega)
        · split
          · refine .inr ⟨1, _, by decide, by decide, by omega, rfl, ?_⟩
            have hk := hhigh 1
            rw [← hk]
            exact l1 _ (by omega)
          · exact .inl ⟨by omega, rfl⟩

/-! ## Whole characters -/

theorem length_wcTail (wc : Int) (n bits : Nat) : (wcTail wc n bits).length = n := by
  induction n generalizing bits with
  | zero => rfl
  | succ n ih => simp [wcTail, ih]

theorem wcrtomb_length (h : 0 ≤ wc ∧ wc < 2 ^ 31) :
    (wcrtomb .utf8 wc).2.length = (wcrtomb .utf8 wc).1 ∧
      1 ≤ (wcrtomb .utf8 wc).1 ∧ (wcrtomb .utf8 wc).1 ≤ 6 := by
  rcases wcrtomb_utf8 h with ⟨-, he⟩ | ⟨j, c, h1, h5, -, he, -⟩
  · simp [he]
  · rw [he]
    refine ⟨?_, by simp, by simp; omega⟩
    simp [length_wcTail]

theorem mbrtowc_wcrtomb (h : 1 ≤ wc ∧ wc < 2 ^ 31) (hps : ps.Initial) (rest : List UInt8) :
    mbrtowc .utf8 ((wcrtomb .utf8 wc).2 ++ rest) ps =
      ((wcrtomb .utf8 wc).1, some wc, ⟨0, 0⟩) := by
  have h0 : 0 ≤ wc ∧ wc < 2 ^ 31 := by omega
  unfold mbrtowc
  rcases wcrtomb_utf8 h0 with ⟨hlt, he⟩ | ⟨j, c, h1, h5, -, he, hlead⟩
  · obtain ⟨k, rfl⟩ : ∃ k : Nat, wc = k := ⟨wc.toNat, by omega⟩
    have hne : (k : Int) ≠ 0 := by omega
    rw [he, List.singleton_append, mbrtowcLoop, turn_ascii (by omega) hps]
    simp only [hne, ne_eq, not_false_eq_true, if_true, Nat.zero_add]
  · obtain ⟨j, rfl⟩ : ∃ k, j = k + 1 := ⟨j - 1, by omega⟩
    have hk : ((high wc (j + 1)).toNat : Int) = high wc (j + 1) :=
      Int.toNat_of_nonneg (high_bounds h0 _).1
    rw [he, List.cons_append, mbrtowcLoop, turn_lead hlead ⟨h1, h5⟩ hps]
    dsimp only
    rw [hk]
    push_cast
    rw [mbrtowcLoop_wcTail h]
    simp [Nat.add_comm, Nat.add_left_comm]

/-- The characters of a byte string, one call of `mbrtowc` after the other. -/
def decode (s : List UInt8) (ps : MbState) : Option (List Int) :=
  if s = [] then some []
  else
    match mbrtowc .utf8 s ps with
    | (n, some wc, ps) =>
      if _h : 1 ≤ n ∧ n ≤ s.length then (decode (s.drop n) ps).map (wc :: ·) else none
    | _ => none
termination_by s.length
decreasing_by
  rw [List.length_drop]
  omega

theorem decode_wcrtomb (h : 1 ≤ wc ∧ wc < 2 ^ 31) (hps : ps.Initial) (rest : List UInt8) :
    decode ((wcrtomb .utf8 wc).2 ++ rest) ps = (decode rest ⟨0, 0⟩).map (wc :: ·) := by
  obtain ⟨hl, h1, h6⟩ := wcrtomb_length (show 0 ≤ wc ∧ wc < 2 ^ 31 by omega)
  have hm := mbrtowc_wcrtomb h hps rest
  have hne : (wcrtomb .utf8 wc).2 ++ rest ≠ [] := by
    intro hnil
    have hlen := congrArg List.length hnil
    rw [List.length_append, List.length_nil] at hlen
    omega
  have hle : (wcrtomb .utf8 wc).1 ≤ ((wcrtomb .utf8 wc).2 ++ rest).length := by
    rw [List.length_append]
    omega
  rw [decode, if_neg hne, hm]
  dsimp only
  rw [dif_pos ⟨h1, hle⟩, List.drop_left' hl]

/-- **UTF-8 round trip.** Every character is stored in 1 to 6 bytes that `mbrtowc` reads back,
whatever follows them, and a sequence of characters is read back from the bytes of all. -/
theorem wcrtomb_roundtrip (wcs : List Int) (h : ∀ wc ∈ wcs, 1 ≤ wc ∧ wc ≤ 0x7fffffff)
    (ps : MbState) (hps : ps.Initial) :
    (∀ wc ∈ wcs, ∃ n s, wcrtomb .utf8 wc = (n, s) ∧ s.length = n ∧ 1 ≤ n ∧ n ≤ 6 ∧
      ∀ rest, mbrtowc .utf8 (s ++ rest) ps = (n, some wc, ⟨0, 0⟩)) ∧
    decode (wcs.flatMap fun wc => (wcrtomb .utf8 wc).2) ps = some wcs := by
  have hr : ∀ wc ∈ wcs, 1 ≤ wc ∧ wc < 2 ^ 31 := fun wc hm => by
    have := h wc hm
    omega
  constructor
  · intro wc hm
    obtain ⟨hl, h1, h6⟩ := wcrtomb_length (show 0 ≤ wc ∧ wc < 2 ^ 31 by have := hr wc hm; omega)
    exact ⟨_, _, rfl, hl, h1, h6, mbrtowc_wcrtomb (hr wc hm) hps⟩
  · clear h
    induction wcs generalizing ps with
    | nil =>
      rw [List.flatMap_nil, decode]
      rfl
    | cons wc wcs ih =>
      rw [List.flatMap_cons, decode_wcrtomb (hr wc List.mem_cons_self) hps,
        ih ⟨0, 0⟩ rfl fun x hx => hr x (List.mem_cons_of_mem _ hx)]
      rfl

theorem wcrtomb_roundtrip_euro :
    (∀ wc ∈ [(0x20ac : Int), 0x41], ∃ n s, wcrtomb .utf8 wc = (n, s) ∧ s.length = n ∧
      1 ≤ n ∧ n ≤ 6 ∧ ∀ rest, mbrtowc .utf8 (s ++ rest) ⟨0, 0⟩ = (n, some wc, ⟨0, 0⟩)) ∧
    decode ([(0x20ac : Int), 0x41].flatMap fun wc => (wcrtomb .utf8 wc).2) ⟨0, 0⟩ =
      some [0x20ac, 0x41] :=
  wcrtomb_roundtrip [0x20ac, 0x41] (by decide) ⟨0, 0⟩ rfl

example : (wcrtomb .utf8 0x20ac).2 = [0xe2, 0x82, 0xac] := by decide

end Dietlibc.Wchar
