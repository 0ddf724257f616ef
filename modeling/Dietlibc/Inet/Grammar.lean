import Dietlibc.Inet.Numbers

/-!
# Address texts

The text grammar of RFC 4291 (`Address`), and how `scan_ip6` runs over such a text: group by group
in both loops, with the bytes of the groups in the buffer (`filled`).
-/

namespace Dietlibc.Inet

open Lib

/-- Groups, each behind a colon. -/
def colonAll (gs : List (List Char)) : List Char := gs.flatMap (':' :: ·)

/-- Groups with colons between them. -/
def colons : List (List Char) → List Char
  | [] => []
  | g :: gs => g ++ colonAll gs

/-- The two bytes of a group. -/
def groupValue (g : List Char) : List UInt8 :=
  [UInt8.ofNat (hexadecimal g / 256), UInt8.ofNat (hexadecimal g % 256)]

/-- The bytes of groups. -/
def groupValues (gs : List (List Char)) : List UInt8 := gs.flatMap groupValue

/-- The texts of RFC 4291 with the bytes they denote: eight groups, or fewer of them and one `::`;
the last two groups may be a dotted quad. -/
inductive Address : List Char → List UInt8 → Prop where
  | full {gs : List (List Char)} : (∀ g ∈ gs, Group g) → gs.length = 8 →
      Address (colons gs) (groupValues gs)
  | fullQuad {gs : List (List Char)} {t : List Char} {q : List UInt8} : (∀ g ∈ gs, Group g) →
      gs.length = 6 → Quad t q → Address (colons (gs ++ [t])) (groupValues gs ++ q)
  | gap {gs hs : List (List Char)} : (∀ g ∈ gs, Group g) → (∀ g ∈ hs, Group g) →
      gs.length + hs.length < 8 →
      Address (colons gs ++ ':' :: ':' :: colons hs)
        (groupValues gs ++ (List.replicate (16 - 2 * (gs.length + hs.length)) 0 ++ groupValues hs))
  | gapQuad {gs hs : List (List Char)} {t : List Char} {q : List UInt8} : (∀ g ∈ gs, Group g) →
      (∀ g ∈ hs, Group g) → gs.length + hs.length + 2 < 8 → Quad t q →
      Address (colons gs ++ ':' :: ':' :: colons (hs ++ [t]))
        (groupValues gs ++ (List.replicate (12 - 2 * (gs.length + hs.length)) 0 ++
          (groupValues hs ++ q)))

/-- Nothing, or a zone. -/
def Zone (z : List Char) : Prop := z = [] ∨ z.head? = some '%'

/-- The buffer once the bytes `pre` are stored. -/
def filled (buf : Mem) (pre : List UInt8) : Mem :=
  buf.store 0 (pre ++ List.replicate (16 - pre.length) 0)

variable {g r s z : List Char} {gs : List (List Char)} {len p : Nat} {buf ip : Mem}
  {pre x q : List UInt8}

theorem filled_store (buf : Mem) (pre : List UInt8) {d : List UInt8} (h : pre.length + d.length ≤ 16) :
    (filled buf pre).store pre.length d = filled buf (pre ++ d) := by
  have hsplit : List.replicate (16 - pre.length) (0 : UInt8) =
      List.replicate d.length 0 ++ List.replicate (16 - (pre ++ d).length) 0 := by
    rw [List.replicate_append_replicate, List.length_append]
    congr 1
    omega
  have hstore := Mem.store_store_within (m := buf) (a := 0) (x := pre)
    (z := List.replicate (16 - (pre ++ d).length) 0)
    (List.length_replicate (n := d.length) (a := (0 : UInt8))).symm
  rw [Nat.zero_add] at hstore
  rw [filled, filled, hsplit, hstore, List.append_assoc]

/-- The suffix moved to the end of the buffer. -/
theorem filled_suffix (buf : Mem) (h : pre.length + x.length ≤ 16) :
    (filled buf pre).store (CInt.usub 32 16 x.length) x =
      buf.store 0 (pre ++ (List.replicate (16 - (pre.length + x.length)) 0 ++ x)) := by
  have hsplit : List.replicate (16 - pre.length) (0 : UInt8) =
      List.replicate (16 - (pre.length + x.length)) 0 ++ (List.replicate x.length 0 ++ []) := by
    rw [List.append_nil, List.replicate_append_replicate]
    congr 1
    omega
  have hlen : 16 - x.length =
      (pre ++ List.replicate (16 - (pre.length + x.length)) (0 : UInt8)).length := by
    rw [List.length_append, List.length_replicate]
    omega
  have hstore := Mem.store_store_within (m := buf) (a := 0) (z := [])
    (x := pre ++ List.replicate (16 - (pre.length + x.length)) 0)
    (List.length_replicate (n := x.length) (a := (0 : UInt8))).symm
  rw [Nat.zero_add, ← hlen] at hstore
  rw [CInt.usub_of_le (by omega) (by decide), filled, hsplit, ← List.append_assoc, hstore,
    List.append_nil, List.append_assoc]

/-! ## Numbers in the text -/

theorem groupBytes_hexadecimal : groupBytes (hexadecimal g) = groupValue g := by
  rw [groupBytes, groupValue, Nat.shiftRight_eq_div_pow]
  rw [show hexadecimal g &&& 255 = hexadecimal g % 256 from Nat.and_two_pow_sub_one_eq_mod _ 8]

theorem length_groupValues (gs : List (List Char)) : (groupValues gs).length = 2 * gs.length := by
  induction gs with
  | nil => rfl
  | cons g gs ih =>
    rw [groupValues, List.flatMap_cons, List.length_append, ← groupValues, ih, List.length_cons,
      groupValue]
    simp only [List.length_cons, List.length_nil]
    omega

theorem taken_append (h : (g ++ r).length < 2 ^ 32) : taken (g ++ r) r = g.length := by
  rw [List.length_append] at h
  rw [taken, List.length_append, Nat.add_sub_cancel, Nat.mod_eq_of_lt (by omega)]

theorem getElem?_append_self (g r : List Char) : (g ++ r)[g.length]? = r.head? := by
  rw [List.getElem?_append_right (le_refl _), Nat.sub_self, List.head?_eq_getElem?]

theorem Group.length_pos (hg : Group g) : 0 < g.length := List.length_pos_iff.mpr hg.nonempty

/-- A group before `::`. -/
theorem prefixNumber_group (hg : Group g) (hr : Delim r) (hlen : len + (g ++ r).length < 2 ^ 31)
    (hq : ¬ (p = 12 ∧ r.head? = some '.')) :
    prefixNumber (g ++ r) len p ip =
      if p + 2 = 16 then .done (len + g.length) (ip.store p (groupValue g))
      else .again r (len + g.length) (p + 2) (ip.store p (groupValue g)) := by
  have hpos := hg.length_pos
  rw [prefixNumber, (strtoul_group hg hr).1]
  dsimp only
  rw [List.length_append] at hlen
  rw [taken_append (by rw [List.length_append]; omega), getElem?_append_self, if_neg (by omega),
    if_neg hq, List.drop_left, groupBytes_hexadecimal, Nat.mod_eq_of_lt (by omega)]

/-- A group after `::`. -/
theorem suffixNumber_group (hg : Group g) (hr : Delim r) (hlen : len + (g ++ r).length < 2 ^ 31)
    (hq : r.head? ≠ some '.') :
    suffixNumber (g ++ r) len p x = suffixGroup r (len + g.length) p (x ++ groupValue g) := by
  have hpos := hg.length_pos
  have hlt := (strtoul_group hg hr).2
  have hu : (((hexadecimal g : Int)) % 2 ^ 64).toNat = hexadecimal g := by omega
  rw [suffixNumber, strtol_group hg hr]
  dsimp only
  rw [List.length_append] at hlen
  rw [taken_append (by rw [List.length_append]; omega), getElem?_append_self, if_neg (by omega)]
  have hquad : ¬ (x.length + p ≤ 12 ∧ r.head? = some '.') := fun h => hq h.2
  simp only [if_neg hquad]
  rw [List.drop_left, hu, groupBytes_hexadecimal, Nat.mod_eq_of_lt (by omega)]

/-- `scan_ip6` from the end of a turn of its first loop on. -/
def prefixRun (p : Nat) (ip : Mem) : PrefixTurn → Nat × Mem
  | .done len ip => (len, ip)
  | .gap s' len => ((scanSuffix s' len p []).1,
      ip.store (CInt.usub 32 16 (scanSuffix s' len p []).2.length) (scanSuffix s' len p []).2)
  | .again s' len p ip => scanPrefix s' len p ip

theorem scanPrefix_eq (s : List Char) (len p : Nat) (ip : Mem) :
    scanPrefix s len p ip = prefixRun p ip (prefixTurn s len p ip) := by
  rw [scanPrefix]
  split <;> rename_i h <;> rw [h] <;> rfl

/-- The second loop from the end of a turn on. -/
def suffixRun : SuffixTurn → Nat × List UInt8
  | .stop len x => (len, x)
  | .again s len p x => scanSuffix s len p x

theorem scanSuffix_eq (s : List Char) (len p : Nat) (x : List UInt8) :
    scanSuffix s len p x = suffixRun (suffixTurn s len p x) := by
  rw [scanSuffix]
  split <;> rename_i h <;> rw [h] <;> rfl

theorem prefixTurn_number {c : Char} (hc : c ≠ ':') (cs : List Char) :
    prefixTurn (c :: cs) len p ip = prefixNumber (c :: cs) len p ip := by
  unfold prefixTurn
  split
  · rename_i he
    exact absurd (List.cons.inj he).1 hc
  · rename_i he
    exact absurd (List.cons.inj he).1 hc
  · rfl

theorem prefixTurn_colon {c : Char} (hc : c ≠ ':') (cs : List Char) :
    prefixTurn (':' :: c :: cs) len p ip = prefixNumber (c :: cs) ((len + 1) % 2 ^ 32) p ip := by
  unfold prefixTurn
  split
  · rename_i he
    exact absurd (List.cons.inj (List.cons.inj he).2).1 hc
  · rename_i he
    rw [(List.cons.inj he).2]
  · rename_i h1 h2
    exact absurd rfl (h2 _)

theorem suffixTurn_number {c : Char} (hc : c ≠ ':') (cs : List Char) :
    suffixTurn (c :: cs) len p [] = suffixNumber (c :: cs) len p [] := by
  unfold suffixTurn
  split
  · rename_i he
    exact absurd (List.cons.inj he).1 hc
  · rw [if_neg (by simp)]

theorem suffixTurn_colon (hx : x ≠ []) (cs : List Char) :
    suffixTurn (':' :: cs) len p x = suffixNumber cs ((len + 1) % 2 ^ 32) p x := if_neg hx

/-- After a group, the second loop stops where no colon follows. -/
theorem suffixTurn_stop (hx : x ≠ []) (hs : s.head? ≠ some ':') :
    suffixTurn s len p x = .stop len x := by
  unfold suffixTurn
  split
  · exact absurd rfl hs
  · rw [if_pos hx]

/-! ## Runs of groups -/

/-- `scan_ip6` behind a group of its first loop. -/
def prefixRest (s : List Char) (len p : Nat) (ip : Mem) : Nat × Mem :=
  if p = 16 then (len, ip) else scanPrefix s len p ip

/-- The second loop behind a group. -/
def suffixRest (s : List Char) (len p : Nat) (x : List UInt8) : Nat × List UInt8 :=
  if p + x.length = 16 then (len, x) else scanSuffix s len p x

theorem suffixRun_group (s : List Char) (len p : Nat) (x : List UInt8) :
    suffixRun (suffixGroup s len p x) = suffixRest s len p x := by
  unfold suffixGroup suffixRest
  split <;> rfl

theorem Group.head (hg : Group g) : ∃ c cs, g = c :: cs ∧ c ≠ ':' := by
  obtain ⟨c, cs, rfl⟩ := List.exists_cons_of_ne_nil hg.nonempty
  exact ⟨c, cs, rfl, (hexDigit_ne (hg.digits c List.mem_cons_self)).2.2.2.2.2.1⟩

theorem scanPrefix_first (hg : Group g) (hr : Delim r) (hlen : len + (g ++ r).length < 2 ^ 31)
    (hq : ¬ (p = 12 ∧ r.head? = some '.')) :
    scanPrefix (g ++ r) len p ip =
      prefixRest r (len + g.length) (p + 2) (ip.store p (groupValue g)) := by
  obtain ⟨c, cs, he, hc⟩ := hg.head
  rw [scanPrefix_eq, show g ++ r = c :: (cs ++ r) by rw [he]; rfl, prefixTurn_number hc,
    ← List.cons_append, ← he, prefixNumber_group hg hr hlen hq, prefixRest]
  by_cases hp : p + 2 = 16
  · rw [if_pos hp, if_pos hp]
    rfl
  · rw [if_neg hp, if_neg hp]
    rfl

theorem scanPrefix_next (hg : Group g) (hr : Delim r) (hlen : len + 1 + (g ++ r).length < 2 ^ 31)
    (hq : ¬ (p = 12 ∧ r.head? = some '.')) :
    scanPrefix (':' :: (g ++ r)) len p ip =
      prefixRest r (len + 1 + g.length) (p + 2) (ip.store p (groupValue g)) := by
  obtain ⟨c, cs, he, hc⟩ := hg.head
  rw [scanPrefix_eq, show g ++ r = c :: (cs ++ r) by rw [he]; rfl, prefixTurn_colon hc,
    ← List.cons_append, ← he, Nat.mod_eq_of_lt (by omega), prefixNumber_group hg hr hlen hq,
    prefixRest]
  by_cases hp : p + 2 = 16
  · rw [if_pos hp, if_pos hp]
    rfl
  · rw [if_neg hp, if_neg hp]
    rfl

theorem delim_colonAll (hr : Delim r) (hq : r.head? ≠ some '.') (gs : List (List Char)) :
    Delim (colonAll gs ++ r) ∧ (colonAll gs ++ r).head? ≠ some '.' := by
  cases gs with
  | nil => exact ⟨hr, hq⟩
  | cons g gs => exact ⟨delim_cons (.inl rfl) _, by simp [colonAll]⟩

theorem colonAll_cons (g : List Char) (gs : List (List Char)) :
    colonAll (g :: gs) = ':' :: (g ++ colonAll gs) := by
  rw [colonAll, List.flatMap_cons]
  rfl

theorem groupValues_cons (g : List Char) (gs : List (List Char)) :
    groupValues (g :: gs) = groupValue g ++ groupValues gs := List.flatMap_cons

/-- The first loop over groups. -/
theorem prefixRest_groups (buf : Mem) (pre : List UInt8) (len : Nat) (hg : ∀ g ∈ gs, Group g)
    (hr : Delim r) (hq : r.head? ≠ some '.')
    (hp : pre.length + 2 * gs.length ≤ 16) (hlen : len + (colonAll gs ++ r).length < 2 ^ 31) :
    prefixRest (colonAll gs ++ r) len pre.length (filled buf pre) =
      prefixRest r (len + (colonAll gs).length) (pre.length + 2 * gs.length)
        (filled buf (pre ++ groupValues gs)) := by
  induction gs generalizing len pre with
  | nil =>
    rw [show groupValues [] = [] from rfl, List.append_nil]
    rfl
  | cons g gs ih =>
    have hd := delim_colonAll hr hq gs
    rw [List.length_cons] at hp
    rw [colonAll_cons] at hlen ⊢
    simp only [List.cons_append, List.append_assoc, List.length_cons, List.length_append] at hlen
    have hv : (groupValue g).length = 2 := rfl
    rw [prefixRest, if_neg (by omega), List.cons_append, List.append_assoc,
      scanPrefix_next (hg g List.mem_cons_self) hd.1
        (by simp only [List.length_append]; omega) (fun h => hd.2 h.2),
      filled_store buf pre (by rw [hv]; omega)]
    have hlen' : pre.length + 2 = (pre ++ groupValue g).length := by rw [List.length_append, hv]
    rw [hlen', ih _ _ (fun g' h' => hg g' (List.mem_cons_of_mem _ h')) (by rw [← hlen']; omega)
      (by simp only [List.length_append]; omega), groupValues_cons, List.append_assoc]
    congr 1
    · simp only [List.length_cons, List.length_append]
      omega
    · rw [← hlen', List.length_cons]
      omega

/-- `scan_ip6` over the groups at the start of a text. -/
theorem scanIp6_groups (buf : Mem) (hg : ∀ g ∈ gs, Group g) (hr : Delim r) (hq : r.head? ≠ some '.')
    (hp : gs.length ≤ 8) (hlen : (colons gs ++ r).length < 2 ^ 31) :
    scanIp6 (colons gs ++ r) buf =
      prefixRest r (colons gs).length (2 * gs.length) (filled buf (groupValues gs)) := by
  cases gs with
  | nil => rfl
  | cons g gs =>
    have hd := delim_colonAll hr hq gs
    rw [List.length_cons] at hp
    rw [colons] at hlen ⊢
    have hv : (groupValue g).length = 2 := rfl
    have hfirst := filled_store buf [] (d := groupValue g) (by rw [hv]; decide)
    rw [List.append_assoc] at hlen ⊢
    rw [scanIp6, scanPrefix_first (hg g List.mem_cons_self) hd.1 (by rwa [Nat.zero_add])
      (fun h => hd.2 h.2)]
    rw [show buf.store 0 (List.replicate 16 0) = filled buf [] from rfl]
    have hrun := prefixRest_groups buf (groupValue g) g.length
      (fun g' h' => hg g' (List.mem_cons_of_mem _ h')) hr hq (by rw [hv]; omega)
      (by simpa only [List.length_append] using hlen)
    rw [List.length_nil, List.nil_append] at hfirst
    rw [hfirst, Nat.zero_add, Nat.zero_add, ← hv, hrun, groupValues_cons, List.length_append,
      List.length_cons, hv]
    congr 1
    omega

theorem colons_append (gs : List (List Char)) (t : List Char) :
    colons (gs ++ [t]) = if gs = [] then t else colons gs ++ ':' :: t := by
  cases gs with
  | nil => simp [colons, colonAll]
  | cons g gs => simp [colons, colonAll]

/-- The second loop over groups. -/
theorem suffixRest_groups (hg : ∀ g ∈ gs, Group g) (hr : Delim r) (hq : r.head? ≠ some '.')
    (hx : x ≠ []) (hp : p + x.length + 2 * gs.length ≤ 16)
    (hlen : len + (colonAll gs ++ r).length < 2 ^ 31) :
    suffixRest (colonAll gs ++ r) len p x =
      suffixRest r (len + (colonAll gs).length) p (x ++ groupValues gs) := by
  induction gs generalizing len x with
  | nil =>
    rw [show groupValues [] = [] from rfl, List.append_nil]
    rfl
  | cons g gs ih =>
    have hd := delim_colonAll hr hq gs
    rw [List.length_cons] at hp
    rw [colonAll_cons] at hlen ⊢
    simp only [List.cons_append, List.append_assoc, List.length_cons, List.length_append] at hlen
    have hv : (groupValue g).length = 2 := rfl
    have hstep : suffixRest (':' :: (g ++ colonAll gs) ++ r) len p x =
        suffixRest (colonAll gs ++ r) (len + 1 + g.length) p (x ++ groupValue g) := by
      rw [suffixRest, if_neg (by omega), List.cons_append, List.append_assoc, scanSuffix_eq,
        suffixTurn_colon hx, Nat.mod_eq_of_lt (by omega),
        suffixNumber_group (hg g List.mem_cons_self) hd.1
          (by simp only [List.length_append]; omega) hd.2, suffixRun_group]
    rw [hstep, ih (fun g' h' => hg g' (List.mem_cons_of_mem _ h')) (by simp [hx])
      (by rw [List.length_append, hv]; omega) (by simp only [List.length_append]; omega),
      groupValues_cons, List.append_assoc]
    congr 1
    simp only [List.length_cons, List.length_append]
    omega

/-- The second loop over the groups behind `::`. -/
theorem scanSuffix_groups (hg : ∀ g ∈ gs, Group g) (hne : gs ≠ []) (hr : Delim r)
    (hq : r.head? ≠ some '.') (hp : p + 2 * gs.length ≤ 16)
    (hlen : len + (colons gs ++ r).length < 2 ^ 31) :
    scanSuffix (colons gs ++ r) len p [] =
      suffixRest r (len + (colons gs).length) p (groupValues gs) := by
  obtain ⟨g, gs, rfl⟩ := List.exists_cons_of_ne_nil hne
  have hd := delim_colonAll hr hq gs
  have hg1 := hg g List.mem_cons_self
  obtain ⟨c, cs, he, hc⟩ := hg1.head
  rw [List.length_cons] at hp
  have hv : (groupValue g).length = 2 := rfl
  rw [colons, List.append_assoc] at hlen ⊢
  have hstep : scanSuffix (g ++ (colonAll gs ++ r)) len p [] =
      suffixRest (colonAll gs ++ r) (len + g.length) p (groupValue g) := by
    rw [scanSuffix_eq, show g ++ (colonAll gs ++ r) = c :: (cs ++ (colonAll gs ++ r)) by
      rw [he]; rfl, suffixTurn_number hc, ← List.cons_append, ← he,
      suffixNumber_group hg1 hd.1 hlen hd.2, suffixRun_group, List.nil_append]
  rw [hstep, suffixRest_groups (fun g' h' => hg g' (List.mem_cons_of_mem _ h')) hr hq
    (by simp [groupValue]) (by rw [hv]; omega)
    (by simp only [List.length_append] at hlen ⊢; omega), groupValues_cons]
  congr 1
  simp only [List.length_append]
  omega

/-- The second loop up to the text `t` behind groups. -/
theorem scanSuffix_last {c : Char} {cs t : List Char} (hg : ∀ g ∈ gs, Group g) (ht : t = c :: cs)
    (hc : c ≠ ':') (hp : p + 2 * gs.length < 16)
    (hlen : len + (colons (gs ++ [t])).length < 2 ^ 31) :
    ∃ pos, pos + t.length = len + (colons (gs ++ [t])).length ∧
      scanSuffix (colons (gs ++ [t])) len p [] =
        suffixRun (suffixNumber t pos p (groupValues gs)) := by
  rw [colons_append] at hlen ⊢
  by_cases hne : gs = []
  · subst hne
    refine ⟨len, rfl, ?_⟩
    rw [if_pos rfl, scanSuffix_eq, ht, suffixTurn_number hc]
    rfl
  · rw [if_neg hne] at hlen ⊢
    simp only [List.length_append, List.length_cons] at hlen
    have hx : groupValues gs ≠ [] := by
      intro h0
      have hl := length_groupValues gs
      rw [h0, List.length_nil] at hl
      exact hne (List.length_eq_zero_iff.mp (by omega))
    refine ⟨len + (colons gs).length + 1, ?_, ?_⟩
    · simp only [List.length_append, List.length_cons]
      omega
    · rw [scanSuffix_groups hg hne (delim_cons (.inl rfl) t) (by simp) (by omega)
        (by simp only [List.length_append, List.length_cons]; omega), suffixRest,
        if_neg (by rw [length_groupValues]; omega), scanSuffix_eq, suffixTurn_colon hx,
        Nat.mod_eq_of_lt (by omega)]

end Dietlibc.Inet
