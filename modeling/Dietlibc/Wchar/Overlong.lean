import Mathlib.Data.Nat.Digits.Lemmas
import Dietlibc.Wchar.RoundTrip

/-!
# Overlong sequences

The bytes of a sequence are the digits of a number in base 64, and `mbrtowc` stores the number. It
does not ask whether a shorter sequence has the same number, so a character has one sequence of each
length that is long enough for it.
-/

namespace Dietlibc.Wchar

variable {s t : List UInt8} {wc : Int} {ps ps' ps1 ps2 : MbState}

/-- `c & 0x3f` -/
def sixBits (c : UInt8) : Nat := (c &&& 0x3f).toNat

/-- The bits of a first byte that belong to the character. -/
def leadValue (c : UInt8) : Nat :=
  (leadLoop 8 (c <<< 1) 0).1.toNat / 2 ^ ((leadLoop 8 (c <<< 1) 0).2 + 1)

/-- The digits of a sequence of several bytes, the lowest first. -/
def sixBitDigits (c : UInt8) (rest : List UInt8) : List Nat :=
  (rest.map sixBits).reverse ++ [leadValue c]

/-- All bits but the lowest seven are zero, in a sequence of several bytes. -/
def LowDigits : List Nat → Prop
  | _ :: d :: ds => d ≤ 1 ∧ ∀ e ∈ ds, e = 0
  | _ => False

/-- The bytes of an overlong form of a character below `0x80`. -/
def OverlongAscii : List UInt8 → Prop
  | [] => False
  | c :: rest => LowDigits (sixBitDigits c rest)

/-- `mbrtowc` stores the character `wc` at the last byte of `s`. -/
def Accepts (ps : MbState) (s : List UInt8) (wc : Int) : Prop :=
  (mbrtowc .utf8 s ps).2.1 = some wc ∧ (mbrtowc .utf8 s.dropLast ps).2.1 = none

/-! ## The bytes behind the first -/

theorem sixBits_lt (c : UInt8) : sixBits c < 64 := by
  apply CInt.forall_byte (P := fun c => sixBits c < 64)
  decide +kernel

/-- A byte that continues a sequence is known from its six bits. -/
theorem cont_eq (c : UInt8) : c &&& 0xc0 = 0x80 → c = UInt8.ofInt (0x80 + (sixBits c : Int)) := by
  apply CInt.forall_byte
    (P := fun c => c &&& 0xc0 = 0x80 → c = UInt8.ofInt (0x80 + (sixBits c : Int)))
  decide +kernel

/-- A first byte is known from the number of bytes that it announces and its value. -/
theorem lead_eq (c : UInt8) : c &&& 0x80 ≠ 0 → 1 ≤ (leadLoop 8 (c <<< 1) 0).2 →
    (leadLoop 8 (c <<< 1) 0).2 ≤ 5 →
    leadValue c < 2 ^ (6 - (leadLoop 8 (c <<< 1) 0).2) ∧
      c = UInt8.ofNat (0x100 - 2 ^ (7 - (leadLoop 8 (c <<< 1) 0).2) + leadValue c) := by
  apply CInt.forall_byte (P := fun c => c &&& 0x80 ≠ 0 → 1 ≤ (leadLoop 8 (c <<< 1) 0).2 →
    (leadLoop 8 (c <<< 1) 0).2 ≤ 5 → leadValue c < 2 ^ (6 - (leadLoop 8 (c <<< 1) 0).2) ∧
      c = UInt8.ofNat (0x100 - 2 ^ (7 - (leadLoop 8 (c <<< 1) 0).2) + leadValue c))
  decide +kernel

theorem turn_kaputt {c : UInt8} {n : Nat} {v : Int} (h : c &&& 0xc0 ≠ 0x80) :
    turn c ⟨n + 1, v⟩ = .kaputt ⟨0, v⟩ := by
  have hcount : (n : Int) + 1 ≠ 0 := by omega
  unfold turn
  rw [if_pos hcount, if_pos h]

open Nat (ofDigits)

/-- The next digit. -/
theorem turn_digit {c : UInt8} {ds : List Nat} {n : Nat} (hc : c &&& 0xc0 = 0x80)
    (hv : (ofDigits 64 ds + 1) * 64 ^ (n + 1) ≤ 2 ^ 31) :
    turn c ⟨n + 1, (ofDigits 64 ds : Nat)⟩ =
        (if n = 0 then .complete ⟨n, (ofDigits 64 (sixBits c :: ds) : Nat)⟩
        else .more ⟨n, (ofDigits 64 (sixBits c :: ds) : Nat)⟩) ∧
      (ofDigits 64 (sixBits c :: ds) + 1) * 64 ^ n ≤ 2 ^ 31 := by
  have hlt := sixBits_lt c
  have hnext : ofDigits 64 (sixBits c :: ds) = ofDigits 64 ds * 64 + sixBits c := by
    rw [Nat.ofDigits_cons]
    omega
  have hbound : (ofDigits 64 (sixBits c :: ds) + 1) * 64 ^ n ≤ 2 ^ 31 := by
    calc (ofDigits 64 (sixBits c :: ds) + 1) * 64 ^ n
        ≤ ((ofDigits 64 ds + 1) * 64) * 64 ^ n := Nat.mul_le_mul_right _ (by omega)
      _ = (ofDigits 64 ds + 1) * 64 ^ (n + 1) := by rw [pow_succ]; ring
      _ ≤ 2 ^ 31 := hv
  have hfit : ofDigits 64 (sixBits c :: ds) + 1 ≤ 2 ^ 31 :=
    Nat.le_trans (Nat.le_mul_of_pos_right _ (by positivity)) hbound
  refine ⟨?_, hbound⟩
  have hturn := turn_cont (d := sixBits c) (v := (ofDigits 64 ds : Nat)) ⟨by omega, by omega⟩
    ⟨by omega, by omega⟩ n
  rw [← cont_eq c hc] at hturn
  rw [hturn, hnext]
  push_cast
  rfl

/-- A byte that completes a character is the last one of its sequence. -/
theorem loop_complete {c : UInt8} {i : Nat} (hturn : turn c ps = .complete ps1)
    (h : (mbrtowcLoop .utf8 (c :: s) i ps).2.1 = some wc)
    (hlast : (mbrtowcLoop .utf8 (c :: s).dropLast i ps).2.1 = none) : s = [] ∧ wc = ps1.sofar := by
  have hstored : ∀ t, (mbrtowcLoop .utf8 (c :: t) i ps).2.1 = some ps1.sofar := by
    intro t
    rw [mbrtowcLoop, hturn]
    dsimp only
    split <;> rfl
  refine ⟨?_, Option.some.inj (h.symm.trans (hstored s))⟩
  cases s with
  | nil => rfl
  | cons d s =>
    rw [List.dropLast_cons_cons, hstored] at hlast
    cases hlast

/-- A byte that leaves a sequence open is followed by others. -/
theorem loop_more {c : UInt8} {i : Nat} (hturn : turn c ps = .more ps1)
    (h : (mbrtowcLoop .utf8 (c :: s) i ps).2.1 = some wc)
    (hlast : (mbrtowcLoop .utf8 (c :: s).dropLast i ps).2.1 = none) :
    (mbrtowcLoop .utf8 s (i + 1) ps1).2.1 = some wc ∧
      (mbrtowcLoop .utf8 s.dropLast (i + 1) ps1).2.1 = none := by
  have hnext : ∀ t, mbrtowcLoop .utf8 (c :: t) i ps = mbrtowcLoop .utf8 t (i + 1) ps1 := by
    intro t
    rw [mbrtowcLoop, hturn]
  rw [hnext] at h
  cases s with
  | nil => cases h
  | cons d s =>
    rw [List.dropLast_cons_cons, hnext] at hlast
    exact ⟨h, hlast⟩

/-- **What the loop takes behind a first byte**: the bytes due, and the number of all digits. -/
theorem mbrtowcLoop_accepts {n i : Nat} {ds : List Nat}
    (h : (mbrtowcLoop .utf8 s i ⟨n + 1, (ofDigits 64 ds : Nat)⟩).2.1 = some wc)
    (hlast : (mbrtowcLoop .utf8 s.dropLast i ⟨n + 1, (ofDigits 64 ds : Nat)⟩).2.1 = none)
    (hv : (ofDigits 64 ds + 1) * 64 ^ (n + 1) ≤ 2 ^ 31) :
    s.length = n + 1 ∧ (∀ b ∈ s, b &&& 0xc0 = 0x80) ∧
      wc = (ofDigits 64 ((s.map sixBits).reverse ++ ds) : Nat) := by
  induction s generalizing n i ds with
  | nil => cases h
  | cons c s ih =>
    by_cases hc : c &&& 0xc0 = 0x80
    · obtain ⟨hturn, hbound⟩ := turn_digit hc hv
      cases n with
      | zero =>
        obtain ⟨rfl, hwc⟩ := loop_complete (hturn.trans (if_pos rfl)) h hlast
        exact ⟨rfl, by simpa using hc, hwc⟩
      | succ n =>
        obtain ⟨h', hlast'⟩ := loop_more (hturn.trans (if_neg (Nat.succ_ne_zero n))) h hlast
        push_cast at h' hlast'
        obtain ⟨hlen, hall, hwc⟩ := ih (by exact_mod_cast h') (by exact_mod_cast hlast') hbound
        refine ⟨congrArg (· + 1) hlen, List.forall_mem_cons.2 ⟨hc, hall⟩, ?_⟩
        rw [hwc, List.map_cons, List.reverse_cons, List.append_assoc]
        rfl
    · rw [mbrtowcLoop, turn_kaputt hc] at h
      cases h

/-! ## Whole sequences -/

/-- **A sequence that is accepted** is a byte below `0x80`, or a first byte and the bytes that it
announces, which are the digits of the character. -/
theorem accepts_cases (hps : ps.Initial) (h : Accepts ps s wc) :
    (∃ c, s = [c] ∧ c &&& 0x80 = 0 ∧ wc = c.toNat) ∨
    ∃ c rest, s = c :: rest ∧ c &&& 0x80 ≠ 0 ∧ 1 ≤ rest.length ∧ rest.length ≤ 5 ∧
      (leadLoop 8 (c <<< 1) 0).2 = rest.length ∧ (∀ b ∈ rest, b &&& 0xc0 = 0x80) ∧
      wc = (ofDigits 64 (sixBitDigits c rest) : Nat) := by
  obtain ⟨h, hlast⟩ := h
  unfold mbrtowc at h hlast
  cases s with
  | nil => cases h
  | cons c rest =>
    have hcount : ¬ps.count ≠ 0 := fun hne => hne hps
    by_cases hc : c &&& 0x80 = 0
    · left
      have hturn : turn c ps = .complete { ps with sofar := c.toNat } := by
        unfold turn
        rw [if_neg hcount, if_neg (not_not.2 hc)]
      obtain ⟨rfl, hwc⟩ := loop_complete hturn h hlast
      exact ⟨c, rfl, hc, hwc⟩
    · right
      by_cases hcnt : (leadLoop 8 (c <<< 1) 0).2 = 0 ∨ 5 < (leadLoop 8 (c <<< 1) 0).2
      · have hturn : turn c ps = .kaputt { ps with count := 0 } := by
          unfold turn
          rw [if_neg hcount, if_pos hc]
          exact if_pos hcnt
        rw [mbrtowcLoop, hturn] at h
        cases h
      · obtain ⟨n, hn⟩ : ∃ n, (leadLoop 8 (c <<< 1) 0).2 = n + 1 :=
          ⟨(leadLoop 8 (c <<< 1) 0).2 - 1, by omega⟩
        have hlead : Lead c (n + 1) (leadValue c) := ⟨hc, hn, by rw [leadValue, hn]⟩
        have hvalue := (lead_eq c hc (by omega) (by omega)).1
        have hbound : (leadValue c + 1) * 64 ^ (n + 1) ≤ 2 ^ 31 := by
          rw [hn] at hvalue
          have hn5 : n < 5 := by omega
          interval_cases n <;> omega
        obtain ⟨h', hlast'⟩ := loop_more (turn_lead hlead (by omega) hps) h hlast
        rw [← Nat.ofDigits_singleton (b := 64) (n := leadValue c)] at h' hlast' hbound
        push_cast at h' hlast'
        obtain ⟨hlen, hall, hwc⟩ := mbrtowcLoop_accepts (by exact_mod_cast h')
          (by exact_mod_cast hlast') hbound
        exact ⟨c, rest, rfl, hc, by omega, by omega, hn.trans hlen.symm, hall, hwc⟩

theorem sixBitDigits_lt {c : UInt8} (rest : List UInt8) (hc : c &&& 0x80 ≠ 0)
    (h1 : 1 ≤ (leadLoop 8 (c <<< 1) 0).2) (h5 : (leadLoop 8 (c <<< 1) 0).2 ≤ 5) :
    ∀ d ∈ sixBitDigits c rest, d < 64 := by
  intro d hd
  rcases List.mem_append.1 hd with hd | hd
  · obtain ⟨b, -, rfl⟩ := List.mem_map.1 (List.mem_reverse.1 hd)
    exact sixBits_lt b
  · rw [List.mem_singleton.1 hd]
    refine Nat.lt_of_lt_of_le (lead_eq c hc h1 h5).1 ?_
    exact Nat.pow_le_pow_right (by decide) (by omega : 6 - _ ≤ 6)

theorem map_sixBits (h : ∀ b ∈ s, b &&& 0xc0 = 0x80) :
    s = (s.map sixBits).map fun d : Nat => UInt8.ofInt (0x80 + (d : Int)) := by
  rw [List.map_map]
  conv_lhs => rw [← List.map_id s]
  exact List.map_congr_left fun b hb => cont_eq b (h b hb)

/-- **A character has one sequence of each length.** -/
theorem accepts_inj (hps : ps.Initial) (hps' : ps'.Initial) (hs : Accepts ps s wc)
    (ht : Accepts ps' t wc) (hlen : s.length = t.length) : s = t := by
  rcases accepts_cases hps hs with ⟨c, rfl, hc, hv⟩ | ⟨c, rest, rfl, hc, h1, h5, hj, hall, hv⟩
  · rcases accepts_cases hps' ht with ⟨c', rfl, -, hv'⟩ | ⟨c', rest', rfl, -, h1', -⟩
    · have hcc : c.toNat = c'.toNat := by omega
      rw [UInt8.toNat_inj.1 hcc]
    · simp only [List.length_cons, List.length_nil] at hlen
      omega
  · rcases accepts_cases hps' ht with
      ⟨c', rfl, -, -⟩ | ⟨c', rest', rfl, hc', h1', h5', hj', hall', hv'⟩
    · simp only [List.length_cons, List.length_nil] at hlen
      omega
    · rw [List.length_cons, List.length_cons, Nat.succ_inj] at hlen
      have hdigits : sixBitDigits c rest = sixBitDigits c' rest' := by
        refine Nat.ofDigits_inj_of_len_eq (b := 64) (by decide) ?_
          (sixBitDigits_lt rest hc (by omega) (by omega))
          (sixBitDigits_lt rest' hc' (by omega) (by omega))
          (by omega)
        simp [sixBitDigits, hlen]
      obtain ⟨hmap, hlead⟩ := List.append_inj hdigits (by simp [hlen])
      have hrest : rest = rest' := by
        rw [map_sixBits hall, map_sixBits hall', List.reverse_inj.1 hmap]
      rw [List.singleton_inj] at hlead
      rw [(lead_eq c hc (by omega) (by omega)).2, (lead_eq c' hc' (by omega) (by omega)).2, hj, hj',
        hlead, hlen, hrest]

theorem ofDigits_eq_zero {ds : List Nat} : ofDigits 64 ds = 0 ↔ ∀ d ∈ ds, d = 0 := by
  induction ds with
  | nil => simp
  | cons d ds ih =>
    rw [Nat.ofDigits_cons, List.forall_mem_cons, ← ih]
    omega

theorem lowDigits_iff {ds : List Nat} (h : ∀ d ∈ ds, d < 64) (h2 : 2 ≤ ds.length) :
    LowDigits ds ↔ ofDigits 64 ds < 0x80 := by
  match ds, h2 with
  | d :: d' :: ds, _ =>
    have hd : d < 64 := h d List.mem_cons_self
    show (d' ≤ 1 ∧ ∀ e ∈ ds, e = 0) ↔ _
    rw [← ofDigits_eq_zero, Nat.ofDigits_cons, Nat.ofDigits_cons]
    omega

/-- A sequence of several bytes stands for a character below `0x80` only when it is overlong. -/
theorem overlongAscii_iff (hps : ps.Initial) (hs : Accepts ps s wc) :
    (1 < s.length → 0x80 ≤ wc) ↔ ¬OverlongAscii s := by
  rcases accepts_cases hps hs with ⟨c, rfl, -, -⟩ | ⟨c, rest, rfl, hc, h1, h5, hj, -, hv⟩
  · exact ⟨fun _ h => h, fun _ h => absurd h (Nat.lt_irrefl 1)⟩
  · have hlow := lowDigits_iff (sixBitDigits_lt rest hc (by omega) (by omega))
      (by simp [sixBitDigits]; omega)
    have hlen : 1 < (c :: rest).length := Nat.succ_lt_succ h1
    show _ ↔ ¬LowDigits (sixBitDigits c rest)
    rw [hlow, hv]
    constructor
    · intro h hlt
      have := h hlen
      omega
    · intro h _
      omega

/-- **Two sequences of one character are equal exactly when they have the same length**, and a
sequence of several bytes stands for a character from `0x80` on when it is no overlong form of a lower
one. -/
theorem mbrtowc_unique_iff (hps : ps.Initial) (hps' : ps'.Initial) (hs : Accepts ps s wc)
    (ht : Accepts ps' t wc) :
    (s = t ∧ (1 < s.length → 0x80 ≤ wc)) ↔ (s.length = t.length ∧ ¬OverlongAscii s) := by
  rw [overlongAscii_iff hps hs]
  constructor
  · rintro ⟨rfl, hlong⟩
    exact ⟨rfl, hlong⟩
  · rintro ⟨hlen, hlong⟩
    exact ⟨accepts_inj hps hps' hs ht hlen, hlong⟩

/-- The euro sign. -/
theorem mbrtowc_unique_euro : ([0xe2, 0x82, 0xac] : List UInt8) = [0xe2, 0x82, 0xac] ∧
    (1 < ([0xe2, 0x82, 0xac] : List UInt8).length → (0x80 : Int) ≤ 0x20ac) := by
  have heuro : Accepts ⟨0, 0⟩ [0xe2, 0x82, 0xac] 0x20ac := ⟨by decide, by decide⟩
  have hinit : MbState.Initial ⟨0, 0⟩ := rfl
  refine (mbrtowc_unique_iff hinit hinit heuro heuro).2 ⟨rfl, ?_⟩
  exact fun h => absurd h.1 (by decide : ¬sixBits 0x82 ≤ 1)

/-- `A` in one byte and in two. -/
theorem mbrtowc_overlong : Accepts ⟨0, 0⟩ [0x41] 0x41 ∧ Accepts ⟨0, 0⟩ [0xc1, 0x81] 0x41 ∧
    ¬∀ (ps ps' : MbState) (s t : List UInt8) (wc : Int), ps.Initial → ps'.Initial →
      Accepts ps s wc → Accepts ps' t wc → wc ≠ 0 → s = t ∧ (1 < s.length → 0x80 ≤ wc) := by
  have hone : Accepts ⟨0, 0⟩ [0x41] 0x41 := ⟨by decide, by decide⟩
  have htwo : Accepts ⟨0, 0⟩ [0xc1, 0x81] 0x41 := ⟨by decide, by decide⟩
  refine ⟨hone, htwo, fun h => ?_⟩
  have hsame := (h ⟨0, 0⟩ ⟨0, 0⟩ [0x41] [0xc1, 0x81] 0x41 rfl rfl hone htwo (by decide)).1
  exact absurd hsame (by decide)

end Dietlibc.Wchar
