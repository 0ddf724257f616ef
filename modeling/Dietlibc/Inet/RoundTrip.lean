import Dietlibc.Inet.Parse

/-!
# From an address to its text and back

The text that `inet_ntop` writes is an address text in the sense of `Address`, and `inet_pton`
takes it. `fmt_ip6` leaves out the first run of zero groups: before it the groups stand each with a
colon behind, after it the loop writes the groups that are left (`texts`).
-/

namespace Dietlibc.Inet

open Lib

variable {ip : List UInt8} {f : Fmt} {k : Nat}

/-! ## Numbers -/

theorem tohex_digit : ∀ d < 16, HexDigit (tohex d) ∧ hexVal (tohex d) = d ∧
    (tohex d = '0' → d = 0) := by decide

theorem hexFrom_append (v : Nat) (s : List Char) (c : Char) :
    hexFrom v (s ++ [c]) = hexFrom v s * 16 + hexVal c := by
  induction s generalizing v with
  | nil => rfl
  | cons a s ih => exact ih _

/-- Hexadecimal digits for a value, at most `n` of them. -/
structure Digits (n : Nat) (s : List Char) (v : Nat) : Prop where
  length_le : s.length ≤ n
  digits : ∀ c ∈ s, HexDigit c
  value : hexadecimal s = v

theorem Digits.put {n v d : Nat} {s : List Char} (h : Digits n s v) (hd : d < 16) :
    Digits (n + 1) (s ++ [tohex d]) (v * 16 + d) := by
  obtain ⟨h1, h2, -⟩ := tohex_digit d hd
  refine ⟨?_, ?_, ?_⟩
  · rw [List.length_append, List.length_singleton]
    exact Nat.add_le_add_right h.length_le 1
  · intro c hc
    rcases List.mem_append.mp hc with hc | hc
    · exact h.digits c hc
    · rw [List.mem_singleton.mp hc]
      exact h1
  · rw [hexadecimal, hexFrom_append, h2, ← hexadecimal, h.value]

theorem Digits.putDigit {n v d : Nat} {s : List Char} (h : Digits n s v) (hd : d < 16) :
    Digits (n + 1) (putDigit s (tohex d)) (v * 16 + d) := by
  unfold Inet.putDigit
  split
  · exact h.put hd
  · rename_i hskip
    obtain ⟨hs, hz⟩ := not_or.mp hskip
    have hd0 := (tohex_digit d hd).2.2 (not_not.mp hz)
    have hv : v = 0 := by
      rw [← h.value, not_not.mp hs]
      rfl
    rw [hd0, hv]
    rw [hv] at h
    exact ⟨le_trans h.length_le (Nat.le_succ n), h.digits, h.value⟩

theorem fmtXlong_digits {v : Nat} (hv : v < 65536) : Digits 4 (fmtXlong v) v := by
  have hnil : Digits 0 [] 0 := ⟨le_refl _, by simp, rfl⟩
  have hand : ∀ n : Nat, n &&& 0xf = n % 16 := fun n => Nat.and_two_pow_sub_one_eq_mod n 4
  have h := (((hnil.putDigit (Nat.mod_lt (v >>> 12) (by decide))).putDigit
    (Nat.mod_lt (v >>> 8) (by decide))).putDigit (Nat.mod_lt (v >>> 4) (by decide))).put
    (Nat.mod_lt v (by decide))
  simp only [← hand] at h
  refine ⟨h.length_le, h.digits, h.value.trans ?_⟩
  simp only [hand, Nat.shiftRight_eq_div_pow]
  omega

theorem fmtXlong_group {v : Nat} (hv : v < 65536) :
    Group (fmtXlong v) ∧ hexadecimal (fmtXlong v) = v := by
  have h := fmtXlong_digits hv
  refine ⟨⟨?_, h.length_le, h.digits⟩, h.value⟩
  unfold fmtXlong
  simp

theorem digit_octet : ∀ d < 10, (Char.ofNat (d + 48)).isDigit ∧ (Char.ofNat (d + 48)).toNat - 48 = d ∧
    (Char.ofNat (d + 48) = '0' → d = 0) := by decide

theorem decimalFrom_cons (v : Nat) (c : Char) (cs : List Char) :
    decimalFrom v (c :: cs) = decimalFrom (v * 10 + (c.toNat - 48)) cs := by
  conv_lhs => unfold decimalFrom

theorem decimalFrom_nil (v : Nat) : decimalFrom v [] = v := by
  unfold decimalFrom
  rfl

theorem i2a_octet (b : UInt8) : Octet (i2a b.toNat) b := by
  have hb := b.toNat_lt
  generalize hn : b.toNat = n at hb
  by_cases h100 : 100 ≤ n
  · obtain ⟨a1, a2, a3⟩ := digit_octet (n / 100) (by omega)
    obtain ⟨b1, b2, -⟩ := digit_octet (n % 100 / 10) (by omega)
    obtain ⟨c1, c2, -⟩ := digit_octet (n % 100 % 10) (by omega)
    have he : i2a n = [Char.ofNat (n / 100 + 48), Char.ofNat (n % 100 / 10 + 48),
        Char.ofNat (n % 100 % 10 + 48)] := by
      simp only [i2a, if_pos h100, if_pos (show 10 ≤ n by omega), List.cons_append,
        List.nil_append]
    rw [he]
    refine ⟨by simp, by simp, ?_, ?_, ?_⟩
    · simp only [List.mem_cons, List.not_mem_nil, or_false]
      rintro c (rfl | rfl | rfl)
      · exact a1
      · exact b1
      · exact c1
    · intro h
      have := a3 (Option.some.inj h)
      omega
    · unfold decimal
      rw [decimalFrom_cons, decimalFrom_cons, decimalFrom_cons, decimalFrom_nil, a2, b2, c2, hn]
      omega
  · by_cases h10 : 10 ≤ n
    · obtain ⟨b1, b2, b3⟩ := digit_octet (n / 10) (by omega)
      obtain ⟨c1, c2, -⟩ := digit_octet (n % 10) (by omega)
      have he : i2a n = [Char.ofNat (n / 10 + 48), Char.ofNat (n % 10 + 48)] := by
        simp only [i2a, if_neg h100, if_pos h10, List.cons_append, List.nil_append]
      rw [he]
      refine ⟨by simp, by simp, ?_, ?_, ?_⟩
      · simp only [List.mem_cons, List.not_mem_nil, or_false]
        rintro c (rfl | rfl)
        · exact b1
        · exact c1
      · intro h
        have := b3 (Option.some.inj h)
        omega
      · unfold decimal
        rw [decimalFrom_cons, decimalFrom_cons, decimalFrom_nil, b2, c2, hn]
        omega
    · obtain ⟨c1, c2, c3⟩ := digit_octet n (by omega)
      have he : i2a n = [Char.ofNat (n + 48)] := by
        simp only [i2a, if_neg h100, if_neg h10, List.nil_append]
      rw [he]
      refine ⟨by simp, by simp, ?_, ?_, ?_⟩
      · simp only [List.mem_singleton]
        rintro c rfl
        exact c1
      · intro h
        rw [Option.some.inj h]
      · unfold decimal
        rw [decimalFrom_cons, decimalFrom_nil, c2, hn]
        omega

/-- The text of an IPv4 address is a quad. -/
theorem inetNtoaR_quad (b₀ b₁ b₂ b₃ : UInt8) :
    Quad (inetNtoaR [b₀, b₁, b₂, b₃]) [b₀, b₁, b₂, b₃] :=
  .mk (i2a_octet b₀) (i2a_octet b₁) (i2a_octet b₂) (i2a_octet b₃)

/-! ## The loop of `fmt_ip6` -/

/-- The group at offset `j`. -/
def groupAt (ip : List UInt8) (j : Nat) : Nat := byteAt ip j * 256 + byteAt ip (j + 1)

/-- The offsets of the last `k` groups. -/
def offsets : Nat → List Nat
  | 0 => []
  | k + 1 => (14 - 2 * k) :: offsets k

/-- The texts of the last `k` groups. -/
def texts (ip : List UInt8) (k : Nat) : List (List Char) :=
  (offsets k).map fun j => fmtXlong (groupAt ip j)

theorem texts_succ (ip : List UInt8) (k : Nat) :
    texts ip (k + 1) = fmtXlong (groupAt ip (14 - 2 * k)) :: texts ip k := rfl

theorem length_texts (ip : List UInt8) (k : Nat) : (texts ip k).length = k := by
  induction k with
  | zero => rfl
  | succ k ih => rw [texts_succ, List.length_cons, ih]

@[simp] theorem Fmt.put_s (f : Fmt) (t : List Char) : (f.put t).s = f.s ++ t := rfl

@[simp] theorem Fmt.put_compressing (f : Fmt) (t : List Char) :
    (f.put t).compressing = f.compressing := rfl

@[simp] theorem Fmt.put_compressed (f : Fmt) (t : List Char) :
    (f.put t).compressed = f.compressed := rfl

/-- A group that is written. -/
theorem fmtGroup_write {j : Nat} (hc : f.compressing = false)
    (h : f.compressed = true ∨ groupAt ip j ≠ 0) :
    fmtGroup ip j f = (f.put (fmtXlong (groupAt ip j))).put (if j < 14 then [':'] else []) := by
  have hneg : ¬ (byteAt ip j * 256 + byteAt ip (j + 1) = 0 ∧ ¬ f.compressed = true) := by
    rintro ⟨h0, h1⟩
    exact h.elim h1 (fun h => h h0)
  simp only [fmtGroup, if_neg hneg, hc, Bool.false_eq_true, if_false]
  split
  · rfl
  · simp [Fmt.put, groupAt]

/-- The end of a zero run. -/
theorem fmtGroup_leave {j : Nat} (hc : f.compressing = true) (h : groupAt ip j ≠ 0) :
    fmtGroup ip j f = fmtGroup ip j { f.put [':'] with compressing := false, compressed := true } := by
  have hneg : ¬ (byteAt ip j * 256 + byteAt ip (j + 1) = 0 ∧ ¬ f.compressed = true) :=
    fun h0 => h h0.1
  conv_rhs => rw [fmtGroup_write rfl (.inl rfl)]
  simp only [fmtGroup, if_neg hneg, hc, if_true]
  split
  · rfl
  · simp [Fmt.put, groupAt]

theorem fmtGroup_zero {j : Nat} (hc : f.compressed = false) (h : groupAt ip j = 0) :
    fmtGroup ip j f = if f.compressing then f
      else { f.put (if j = 0 then [':'] else []) with compressing := true } := by
  have hpos : byteAt ip j * 256 + byteAt ip (j + 1) = 0 ∧ ¬ f.compressed = true :=
    ⟨h, by simp [hc]⟩
  simp only [fmtGroup, if_pos hpos]
  split
  · rfl
  · split
    · rfl
    · simp [Fmt.put]

theorem colons_cons_ne {gs : List (List Char)} (g : List Char) (hne : gs ≠ []) :
    colons (g :: gs) = g ++ ':' :: colons gs := by
  obtain ⟨g', gs, rfl⟩ := List.exists_cons_of_ne_nil hne
  rw [colons, colonAll_cons]
  rfl

section

variable (hmap : ip.take 12 ≠ v4mappedprefix)
include hmap

theorem fmtLoop_succ (k : Nat) (f : Fmt) :
    fmtLoop ip (offsets (k + 1)) f = fmtLoop ip (offsets k) (fmtGroup ip (14 - 2 * k) f) :=
  if_neg fun h => hmap h.2

/-- All groups that are left are written. -/
theorem fmtLoop_write (hk : k ≤ 8) (hc : f.compressing = false)
    (h : f.compressed = true ∨ ∀ i < k, groupAt ip (14 - 2 * i) ≠ 0) :
    (fmtLoop ip (offsets k) f).s = f.s ++ colons (texts ip k) := by
  induction k generalizing f with
  | zero =>
    rw [offsets, fmtLoop, if_neg (by simp [hc])]
    exact (List.append_nil _).symm
  | succ k ih =>
    have hhead : f.compressed = true ∨ groupAt ip (14 - 2 * k) ≠ 0 :=
      h.imp_right fun h => h k (Nat.lt_succ_self k)
    rw [fmtLoop_succ hmap, fmtGroup_write hc hhead, ih (by omega) (by simpa using hc)
      (h.imp (fun h => by simpa using h) (fun h i hi => h i (by omega))), texts_succ]
    by_cases hk0 : k = 0
    · subst hk0
      simp [texts, offsets, colons, colonAll]
    · rw [if_pos (by omega), colons_cons_ne _ (by
        intro h0
        have hl := length_texts ip k
        rw [h0] at hl
        exact hk0 hl.symm)]
      simp

/-- From a zero run on. -/
theorem fmtLoop_compressing (hk : k ≤ 8) (hc : f.compressing = true) (hd : f.compressed = false) :
    ∃ n ≤ k, (∀ i, n ≤ i → i < k → groupAt ip (14 - 2 * i) = 0) ∧
      (fmtLoop ip (offsets k) f).s = f.s ++ ':' :: colons (texts ip n) := by
  induction k with
  | zero =>
    refine ⟨0, le_refl _, fun i _ hi => absurd hi (Nat.not_lt_zero i), ?_⟩
    rw [offsets, fmtLoop, if_pos hc]
    rfl
  | succ k ih =>
    by_cases h0 : groupAt ip (14 - 2 * k) = 0
    · obtain ⟨n, hn, hz, hs⟩ := ih (by omega)
      refine ⟨n, by omega, fun i hi hik => ?_, ?_⟩
      · by_cases hik' : i = k
        · rw [hik']
          exact h0
        · exact hz i hi (by omega)
      · rw [fmtLoop_succ hmap, fmtGroup_zero hd h0, if_pos hc]
        exact hs
    · refine ⟨k + 1, le_refl _, fun i hi hik => by omega, ?_⟩
      rw [fmtLoop_succ hmap, fmtGroup_leave hc h0, ← fmtLoop_succ hmap,
        fmtLoop_write hmap hk rfl (.inl rfl)]
      simp

/-- From the second group on, before a zero run. -/
theorem fmtLoop_plain (hk : k ≤ 7) (hc : f.compressing = false) (hd : f.compressed = false) :
    (fmtLoop ip (offsets k) f).s = f.s ++ colons (texts ip k) ∨
      ∃ m n, m + n < k ∧ (∀ i, n ≤ i → i < k - m → groupAt ip (14 - 2 * i) = 0) ∧
        (fmtLoop ip (offsets k) f).s =
          f.s ++ (((texts ip k).take m).flatMap (· ++ [':']) ++ ':' :: colons (texts ip n)) := by
  induction k generalizing f with
  | zero => exact .inl (fmtLoop_write hmap (by decide) hc (.inr fun i hi => absurd hi (by omega)))
  | succ k ih =>
    by_cases h0 : groupAt ip (14 - 2 * k) = 0
    · right
      obtain ⟨n, hn, hz, hs⟩ := fmtLoop_compressing (k := k)
        (f := { f.put (if 14 - 2 * k = 0 then [':'] else []) with compressing := true }) hmap
        (by omega) rfl hd
      refine ⟨0, n, by omega, fun i hi hik => ?_, ?_⟩
      · by_cases hik' : i = k
        · rw [hik']
          exact h0
        · exact hz i hi (by omega)
      · rw [fmtLoop_succ hmap, fmtGroup_zero hd h0, if_neg (by simp [hc]), hs,
          if_neg (by omega)]
        simp
    · rw [fmtLoop_succ hmap, fmtGroup_write hc (.inr h0)]
      rcases ih (f := (f.put (fmtXlong (groupAt ip (14 - 2 * k)))).put
        (if 14 - 2 * k < 14 then [':'] else [])) (by omega) (by simpa using hc)
        (by simpa using hd) with hs | ⟨m, n, hmn, hz, hs⟩
      · left
        rw [hs, texts_succ]
        by_cases hk0 : k = 0
        · subst hk0
          simp [texts, offsets, colons, colonAll]
        · rw [if_pos (by omega), colons_cons_ne _ (by
            intro h0
            have hl := length_texts ip k
            rw [h0] at hl
            exact hk0 hl.symm)]
          simp
      · right
        refine ⟨m + 1, n, by omega, fun i hi hik => hz i hi (by omega), ?_⟩
        rw [hs, if_pos (by omega), texts_succ, List.take_succ_cons, List.flatMap_cons]
        simp

end

/-! ## The text of an address -/

theorem fmtGroup_len (j : Nat) (h : f.len = f.s.length) :
    (fmtGroup ip j f).len = (fmtGroup ip j f).s.length := by
  have hput : ∀ (f : Fmt) (t : List Char), f.len = f.s.length →
      (f.put t).len = (f.put t).s.length := by
    intro f t hf
    simp only [Fmt.put, List.length_append, hf]
  have hflag : ∀ (f : Fmt) (a b : Bool), f.len = f.s.length →
      ({ f with compressing := a, compressed := b } : Fmt).len = f.s.length := fun _ _ _ hf => hf
  unfold fmtGroup
  dsimp only
  split
  · split
    · exact h
    · split
      · exact hput _ _ h
      · exact h
  · split <;> split
    · exact hput _ _ (hput _ _ (hput _ _ h))
    · exact hput _ _ (hput _ _ h)
    · exact hput _ _ (hput _ _ h)
    · exact hput _ _ h

/-- `len` is the length of the text. -/
theorem fmtLoop_len (js : List Nat) (h : f.len = f.s.length) :
    (fmtLoop ip js f).len = (fmtLoop ip js f).s.length := by
  induction js generalizing f with
  | nil =>
    unfold fmtLoop
    split
    · simp [Fmt.put, h]
    · exact h
  | cons j js ih =>
    unfold fmtLoop
    split
    · simp [Fmt.put, h]
    · exact ih (fmtGroup_len j h)

theorem groupValue_text {j : Nat} :
    groupValue (fmtXlong (groupAt ip j)) = [ip.getD j 0, ip.getD (j + 1) 0] := by
  have h0 := (ip.getD j 0).toNat_lt
  have h1 := (ip.getD (j + 1) 0).toNat_lt
  have hv : groupAt ip j < 65536 := by
    unfold groupAt byteAt
    omega
  rw [groupValue, (fmtXlong_group hv).2]
  unfold groupAt byteAt
  rw [ofNat_byte (b := ip.getD j 0) (by omega), ofNat_byte (b := ip.getD (j + 1) 0) (by omega)]

theorem texts_group (ip : List UInt8) (k : Nat) : ∀ g ∈ texts ip k, Group g := by
  intro g hg
  obtain ⟨j, -, rfl⟩ := List.mem_map.mp hg
  have h0 := (ip.getD j 0).toNat_lt
  have h1 := (ip.getD (j + 1) 0).toNat_lt
  refine (fmtXlong_group ?_).1
  unfold groupAt byteAt
  omega

/-- The last `k` groups are the last bytes. -/
theorem groupValues_texts (h16 : ip.length = 16) (hk : k ≤ 8) :
    groupValues (texts ip k) = ip.drop (16 - 2 * k) := by
  induction k with
  | zero =>
    rw [List.drop_of_length_le (by omega)]
    rfl
  | succ k ih =>
    have hget : ∀ j < 16, ip.drop j = ip.getD j 0 :: ip.drop (j + 1) := by
      intro j hj
      rw [List.drop_eq_getElem_cons (by omega), List.getD_eq_getElem?_getD,
        List.getElem?_eq_getElem (by omega), Option.getD_some]
    rw [texts_succ, groupValues_cons, groupValue_text, ih (by omega),
      show 16 - 2 * (k + 1) = 14 - 2 * k by omega, hget (14 - 2 * k) (by omega),
      hget (14 - 2 * k + 1) (by omega), show 14 - 2 * k + 1 + 1 = 16 - 2 * k by omega]
    rfl

theorem groupValues_take (gs : List (List Char)) (m : Nat) :
    groupValues (gs.take m) = (groupValues gs).take (2 * m) := by
  induction gs generalizing m with
  | nil => simp [groupValues]
  | cons g gs ih =>
    cases m with
    | zero => rfl
    | succ m =>
      rw [List.take_succ_cons, groupValues_cons, groupValues_cons, ih, Nat.mul_succ,
        Nat.add_comm, show 2 + 2 * m = (groupValue g).length + 2 * m from rfl,
        List.take_length_add_append]

/-- A run of zero groups is a run of zero bytes. -/
theorem zeros_of_groups {m n : Nat} (h16 : ip.length = 16) (hmn : m + n < 8)
    (hz : ∀ i, n ≤ i → i < 8 - m → groupAt ip (14 - 2 * i) = 0) :
    ip = ip.take (2 * m) ++ (List.replicate (16 - 2 * (m + n)) 0 ++ ip.drop (16 - 2 * n)) := by
  have hmid : (ip.drop (2 * m)).take (16 - 2 * (m + n)) = List.replicate (16 - 2 * (m + n)) 0 := by
    rw [List.eq_replicate_iff]
    refine ⟨by rw [List.length_take, List.length_drop]; omega, fun b hb => ?_⟩
    obtain ⟨i, hi, rfl⟩ := List.mem_iff_getElem.mp hb
    rw [List.length_take, List.length_drop] at hi
    rw [List.getElem_take, List.getElem_drop]
    -- the byte lies in one of the groups between
    have hg := hz (7 - (2 * m + i) / 2) (by omega) (by omega)
    rw [show 14 - 2 * (7 - (2 * m + i) / 2) = 2 * ((2 * m + i) / 2) by omega] at hg
    have hbyte : byteAt ip (2 * m + i) = 0 := by
      unfold groupAt at hg
      rcases Nat.mod_two_eq_zero_or_one (2 * m + i) with h | h
      · rw [show 2 * m + i = 2 * ((2 * m + i) / 2) by omega]
        omega
      · rw [show 2 * m + i = 2 * ((2 * m + i) / 2) + 1 by omega]
        omega
    rw [byteAt, List.getD_eq_getElem?_getD, List.getElem?_eq_getElem (by omega),
      Option.getD_some] at hbyte
    exact UInt8.toNat_inj.mp hbyte
  have hlast : ip.drop (16 - 2 * n) = (ip.drop (2 * m)).drop (16 - 2 * (m + n)) := by
    rw [List.drop_drop]
    congr 1
    omega
  rw [← hmid, hlast, List.take_append_drop, List.take_append_drop]

theorem colons_flatMap (gs : List (List Char)) (hne : gs ≠ []) :
    gs.flatMap (· ++ [':']) = colons gs ++ [':'] := by
  induction gs with
  | nil => exact absurd rfl hne
  | cons g gs ih =>
    by_cases h : gs = []
    · subst h
      simp [colons, colonAll]
    · rw [List.flatMap_cons, ih h, colons_cons_ne g h]
      simp

/-- The text of an address that is not a mapped IPv4 address. -/
theorem fmtIp6_text (hmap : ip.take 12 ≠ v4mappedprefix) :
    (fmtIp6 ip).s = colons (texts ip 8) ∨ ∃ m n, m + n < 8 ∧
      (∀ i, n ≤ i → i < 8 - m → groupAt ip (14 - 2 * i) = 0) ∧
      (fmtIp6 ip).s = colons ((texts ip 8).take m) ++ ':' :: ':' :: colons (texts ip n) := by
  have hstart : fmtIp6 ip = fmtLoop ip (offsets 7) (fmtGroup ip 0 ⟨[], 0, false, false⟩) :=
    fmtLoop_succ hmap 7 _
  have htexts : texts ip 8 = fmtXlong (groupAt ip 0) :: texts ip 7 := rfl
  by_cases h0 : groupAt ip 0 = 0
  · right
    obtain ⟨n, hn, hz, hs⟩ := fmtLoop_compressing (k := 7) (f := ⟨[':'], 1, true, false⟩) hmap
      (by decide) rfl rfl
    refine ⟨0, n, by omega, fun i hi hik => ?_, ?_⟩
    · by_cases hi7 : i = 7
      · rw [hi7]
        exact h0
      · exact hz i hi (by omega)
    · rw [hstart, fmtGroup_zero rfl h0]
      exact hs
  · rw [hstart, fmtGroup_write rfl (.inr h0)]
    rcases fmtLoop_plain (k := 7) (f := ((⟨[], 0, false, false⟩ : Fmt).put
      (fmtXlong (groupAt ip 0))).put [':']) hmap (by decide) rfl rfl with hs | ⟨m, n, hmn, hz, hs⟩
    · left
      rw [if_pos (by decide), hs, htexts, colons_cons_ne _ (by simp [texts, offsets])]
      simp
    · right
      refine ⟨m + 1, n, by omega, fun i hi hik => hz i hi (by omega), ?_⟩
      rw [if_pos (by decide), hs]
      rw [htexts, List.take_succ_cons]
      have hf := colons_flatMap (fmtXlong (groupAt ip 0) :: (texts ip 7).take m) (by simp)
      rw [List.flatMap_cons, List.append_assoc] at hf
      simp only [Fmt.put_s, List.nil_append, List.append_assoc]
      rw [← List.append_assoc [':'], ← List.append_assoc (fmtXlong _), hf]
      simp

theorem fmtLoop_cons {j : Nat} (hj : j ≠ 12) (js : List Nat) (f : Fmt) :
    fmtLoop ip (j :: js) f = fmtLoop ip js (fmtGroup ip j f) := if_neg fun h => hj h.1

/-- The text of a mapped IPv4 address. -/
theorem fmtIp6_mapped (b₀ b₁ b₂ b₃ : UInt8) :
    (fmtIp6 ( v4mappedprefix ++ [b₀, b₁, b₂, b₃])).s =
      colons [] ++ ':' :: ':' :: colons ([['f', 'f', 'f', 'f']] ++ [inetNtoaR [b₀, b₁, b₂, b₃]]) := by
  have hz : ∀ j ∈ [0, 2, 4, 6, 8], groupAt ( v4mappedprefix ++ [b₀, b₁, b₂, b₃]) j = 0 := by
    simp only [List.mem_cons, List.not_mem_nil, or_false]
    rintro j (rfl | rfl | rfl | rfl | rfl) <;> simp [groupAt, byteAt, v4mappedprefix]
  have hf : groupAt ( v4mappedprefix ++ [b₀, b₁, b₂, b₃]) 10 = 65535 := by
    simp [groupAt, byteAt, v4mappedprefix]
  have hff : fmtXlong 65535 = ['f', 'f', 'f', 'f'] := by decide
  rw [fmtIp6, fmtLoop_cons (by decide), fmtGroup_zero rfl (hz 0 (by simp)), if_neg (by simp),
    fmtLoop_cons (by decide), fmtGroup_zero rfl (hz 2 (by simp)), if_pos rfl,
    fmtLoop_cons (by decide), fmtGroup_zero rfl (hz 4 (by simp)), if_pos rfl,
    fmtLoop_cons (by decide), fmtGroup_zero rfl (hz 6 (by simp)), if_pos rfl,
    fmtLoop_cons (by decide), fmtGroup_zero rfl (hz 8 (by simp)), if_pos rfl,
    fmtLoop_cons (by decide), fmtGroup_leave rfl (by rw [hf]; decide),
    fmtGroup_write rfl (.inl rfl), hf, hff, fmtLoop, if_pos ⟨rfl, rfl⟩]
  simp [colons, colonAll, v4mappedprefix]

/-! ## Round trip -/

/-- A character of an address text. -/
def TextChar (c : Char) : Prop := HexDigit c ∨ c = ':' ∨ c = '.'

theorem colons_chars {gs : List (List Char)} (h : ∀ g ∈ gs, ∀ c ∈ g, TextChar c) :
    ∀ c ∈ colons gs, TextChar c := by
  have hall : ∀ gs : List (List Char), (∀ g ∈ gs, ∀ c ∈ g, TextChar c) →
      ∀ c ∈ colonAll gs, TextChar c := by
    intro gs h c hc
    obtain ⟨g, hg, hc⟩ := List.mem_flatMap.mp hc
    rcases List.mem_cons.mp hc with rfl | hc
    · exact .inr (.inl rfl)
    · exact h g hg c hc
  cases gs with
  | nil => simp [colons]
  | cons g gs =>
    intro c hc
    rcases List.mem_append.mp hc with hc | hc
    · exact h g List.mem_cons_self c hc
    · exact hall gs (fun g hg => h g (List.mem_cons_of_mem _ hg)) c hc

theorem Group.chars {g : List Char} (hg : Group g) : ∀ c ∈ g, TextChar c := fun c hc =>
  .inl (hg.digits c hc)

theorem Quad.chars {t : List Char} {q : List UInt8} (h : Quad t q) : ∀ c ∈ t, TextChar c := by
  obtain ⟨h₀, h₁, h₂, h₃⟩ := h
  intro c hc
  simp only [List.mem_append, List.mem_cons] at hc
  rcases hc with hc | rfl | hc | rfl | hc | rfl | hc
  · exact h₀.group.chars c hc
  · exact .inr (.inr rfl)
  · exact h₁.group.chars c hc
  · exact .inr (.inr rfl)
  · exact h₂.group.chars c hc
  · exact .inr (.inr rfl)
  · exact h₃.group.chars c hc

theorem Quad.length_le {t : List Char} {q : List UInt8} (h : Quad t q) : t.length ≤ 15 := by
  obtain ⟨h₀, h₁, h₂, h₃⟩ := h
  have := h₀.length_le
  have := h₁.length_le
  have := h₂.length_le
  have := h₃.length_le
  simp only [List.length_append, List.length_cons]
  omega

theorem colons_length_le {gs : List (List Char)} (h : ∀ g ∈ gs, Group g) :
    (colons gs).length ≤ 5 * gs.length := by
  induction gs with
  | nil => simp [colons]
  | cons g gs ih =>
    have hg := (h g List.mem_cons_self).length_le
    have ih := ih fun g hg => h g (List.mem_cons_of_mem _ hg)
    by_cases hne : gs = []
    · subst hne
      simp only [colons, colonAll, List.flatMap_nil, List.append_nil, List.length_singleton]
      omega
    · rw [colons_cons_ne g hne, List.length_append, List.length_cons, List.length_cons]
      omega

/-- No character of an address text is the terminator. -/
theorem no_nul {t : List Char} (h : ∀ c ∈ t, TextChar c) : Char.ofNat 0 ∉ t := by
  intro h0
  exact absurd (h _ h0) (by unfold TextChar; decide)

/-- The string that `inet_ntop` stores in a buffer of `n` bytes fits there, and `inet_pton` gives
the address back. -/
def RoundTrips (af : Int) (a : List UInt8) (n : Nat) : Prop :=
  ∃ text, inetNtop af a n = some text ∧ text.length + 1 ≤ n ∧ Char.ofNat 0 ∉ text ∧
    ∀ buf, inetPton af text buf = (1, buf.store 0 a)

theorem inetPton_eq {t : List Char} {a : List UInt8} {buf : Mem}
    (h : scanIp6 t buf = (t.length, buf.store 0 a)) :
    inetPton afInet6 t buf = (1, buf.store 0 a) := by
  rw [← List.append_nil t] at h
  have hret := inetPton_scan (t := t) zone_nil (by rwa [List.append_nil] at h ⊢)
  rw [List.append_nil] at hret
  exact Prod.ext hret.1 hret.2

theorem roundTrips_of_scan {a : List UInt8} (hlen : (fmtIp6 a).s.length < inet6Addrstrlen)
    (hchars : ∀ c ∈ (fmtIp6 a).s, TextChar c)
    (h : ∀ buf, scanIp6 (fmtIp6 a).s buf = ((fmtIp6 a).s.length, buf.store 0 a)) :
    RoundTrips afInet6 a inet6Addrstrlen := by
  have hcount : (fmtIp6 a).len = (fmtIp6 a).s.length := fmtLoop_len _ rfl
  refine ⟨(fmtIp6 a).s, ?_, hlen, no_nul hchars, fun buf => inetPton_eq (h buf)⟩
  rw [inetNtop, if_neg (by decide), if_pos rfl]
  dsimp only
  rw [hcount, if_pos hlen]

theorem roundTrips_mapped (b₀ b₁ b₂ b₃ : UInt8) :
    RoundTrips afInet6 ( v4mappedprefix ++ [b₀, b₁, b₂, b₃]) inet6Addrstrlen := by
  have hq := inetNtoaR_quad b₀ b₁ b₂ b₃
  have hf : ∀ g ∈ [['f', 'f', 'f', 'f']], Group g := by
    intro g hg
    rw [List.mem_singleton.mp hg]
    exact ⟨by simp, by simp, by simp [HexDigit]⟩
  have hlen : (fmtIp6 ( v4mappedprefix ++ [b₀, b₁, b₂, b₃])).s.length < inet6Addrstrlen := by
    have hle := hq.length_le
    rw [fmtIp6_mapped, inet6Addrstrlen]
    simp only [colons, colonAll, List.singleton_append, List.flatMap_cons, List.flatMap_nil,
      List.append_nil, List.nil_append, List.length_append, List.length_cons, List.length_nil]
    omega
  refine roundTrips_of_scan hlen ?_ fun buf => ?_
  · rw [fmtIp6_mapped]
    intro c hc
    simp only [colons, List.nil_append, List.mem_cons] at hc
    rcases hc with rfl | rfl | hc
    · exact .inr (.inl rfl)
    · exact .inr (.inl rfl)
    · have hall : ∀ g ∈ [['f', 'f', 'f', 'f']] ++ [inetNtoaR [b₀, b₁, b₂, b₃]],
          ∀ c ∈ g, TextChar c := by
        intro g hg
        rcases List.mem_cons.mp hg with rfl | hg
        · exact (hf _ List.mem_cons_self).chars
        · rw [List.mem_singleton.mp hg]
          exact hq.chars
      exact colons_chars hall c hc
  · rw [inet6Addrstrlen] at hlen
    rw [fmtIp6_mapped] at hlen ⊢
    exact scanIp6_gapQuad buf (by simp) hf (by decide) hq (by omega)

theorem roundTrips_plain {a : List UInt8} (h16 : a.length = 16)
    (hmap : a.take 12 ≠ v4mappedprefix) : RoundTrips afInet6 a inet6Addrstrlen := by
  rcases fmtIp6_text hmap with hs | ⟨m, n, hmn, hz, hs⟩
  · have hg := texts_group a 8
    have hle := colons_length_le hg
    rw [length_texts] at hle
    refine roundTrips_of_scan (by rw [hs, inet6Addrstrlen]; omega) ?_ fun buf => ?_
    · rw [hs]
      exact colons_chars fun g h => (hg g h).chars
    · have hscan := scanIp6_full buf hg (length_texts a 8) zone_nil
        (by rw [List.append_nil]; omega)
      rw [List.append_nil, groupValues_texts h16 (by decide)] at hscan
      rw [hs]
      exact hscan
  · have hg : ∀ g ∈ (texts a 8).take m, Group g := fun g h => texts_group a 8 g (List.mem_of_mem_take h)
    have hh := texts_group a n
    have hm : ((texts a 8).take m).length = m := by
      rw [List.length_take, length_texts]
      omega
    have hle := colons_length_le hg
    have hle' := colons_length_le hh
    rw [hm] at hle
    rw [length_texts] at hle'
    have hlen : (colons ((texts a 8).take m) ++ ':' :: ':' :: colons (texts a n)).length < 46 := by
      simp only [List.length_append, List.length_cons]
      omega
    refine roundTrips_of_scan (by rw [hs]; exact hlen) ?_ fun buf => ?_
    · rw [hs]
      intro c hc
      rcases List.mem_append.mp hc with hc | hc
      · exact colons_chars (fun g h => (hg g h).chars) c hc
      · simp only [List.mem_cons] at hc
        rcases hc with rfl | rfl | hc
        · exact .inr (.inl rfl)
        · exact .inr (.inl rfl)
        · exact colons_chars (fun g h => (hh g h).chars) c hc
    · have hscan := scanIp6_gapGroups buf hg hh (by rw [hm, length_texts]; omega) zone_nil
        (fun _ => rfl) (by rw [List.append_nil]; omega)
      rw [List.append_nil, hm, length_texts, groupValues_take, groupValues_texts h16 (by decide),
        groupValues_texts h16 (by omega), Nat.sub_self, List.drop_zero,
        ← zeros_of_groups h16 hmn hz] at hscan
      rw [hs]
      exact hscan

/-- **The round trip of addresses.** The text of every address fits the buffer that the header
promises for it, and parsing it stores exactly the address. -/
theorem inetPton_inetNtop (a : List UInt8) :
    (a.length = 16 → RoundTrips afInet6 a inet6Addrstrlen) ∧
      (a.length = 4 → RoundTrips afInet a inetAddrstrlen) := by
  refine ⟨fun h16 => ?_, fun h4 => ?_⟩
  · by_cases hmap : a.take 12 = v4mappedprefix
    · obtain ⟨b₀, b₁, b₂, b₃, hd⟩ : ∃ b₀ b₁ b₂ b₃, a.drop 12 = [b₀, b₁, b₂, b₃] := by
        have hl : (a.drop 12).length = 4 := by
          rw [List.length_drop]
          omega
        match h : a.drop 12, hl with
        | [b₀, b₁, b₂, b₃], _ => exact ⟨b₀, b₁, b₂, b₃, rfl⟩
      rw [← List.take_append_drop 12 a, hmap, hd]
      exact roundTrips_mapped b₀ b₁ b₂ b₃
    · exact roundTrips_plain h16 hmap
  · match a, h4 with
    | [b₀, b₁, b₂, b₃], _ =>
      have hq := inetNtoaR_quad b₀ b₁ b₂ b₃
      have hle := hq.length_le
      refine ⟨inetNtoaR [b₀, b₁, b₂, b₃], ?_, Nat.succ_le_succ hle, no_nul hq.chars, fun buf => ?_⟩
      · rw [inetNtop, if_pos rfl]
        exact if_pos (Nat.lt_succ_of_le hle)
      · rw [inetPton, if_pos rfl, inetAton_quad hq]

/-- The loopback addresses. -/
theorem inetPton_inetNtop_loopback :
    RoundTrips afInet6 [0, 0, 0, 0, 0, 0, 0, 0, 0, 0, 0, 0, 0, 0, 0, 1] inet6Addrstrlen ∧
      RoundTrips afInet [127, 0, 0, 1] inetAddrstrlen :=
  ⟨(inetPton_inetNtop _).1 rfl, (inetPton_inetNtop _).2 rfl⟩

example : (fmtIp6 [0, 0, 0, 0, 0, 0, 0, 0, 0, 0, 0, 0, 0, 0, 0, 1]).s = "::1".toList := by decide

end Dietlibc.Inet
