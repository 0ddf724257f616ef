import Dietlibc.Inet.Grammar

/-!
# Parsing address texts

What `inet_pton` does with a text of the grammar, a zone behind it or not: it takes the text and
stores the bytes it denotes, unless the text is one of those that are `Lost`.
-/

namespace Dietlibc.Inet

open Lib

variable {s z t : List Char} {gs hs : List (List Char)} {b q x : List UInt8} {buf : Mem}
  {len p n : Nat}

/-- `s` is an address text, up to a zone, for the bytes `b`. -/
def Denotes (s : List Char) (b : List UInt8) : Prop := ∃ t z, Address t b ∧ Zone z ∧ s = t ++ z

/-- Address texts that are refused: a dotted quad behind six groups, a dotted quad with a zone, and
a zone directly behind `::`. -/
inductive Lost : List Char → Prop where
  | quad {gs : List (List Char)} {t z : List Char} {q : List UInt8} : (∀ g ∈ gs, Group g) →
      gs.length = 6 → Quad t q → Zone z → Lost (colons (gs ++ [t]) ++ z)
  | quadZone {gs hs : List (List Char)} {t z : List Char} {q : List UInt8} : (∀ g ∈ gs, Group g) →
      (∀ g ∈ hs, Group g) → gs.length + hs.length + 2 < 8 → Quad t q →
      Lost (colons gs ++ ':' :: ':' :: colons (hs ++ [t]) ++ '%' :: z)
  | gapZone {gs : List (List Char)} {z : List Char} : (∀ g ∈ gs, Group g) → gs.length < 8 →
      Lost (colons gs ++ ':' :: ':' :: '%' :: z)

/-! ## The value returned -/

theorem inetPton6 (cp : List Char) (buf : Mem) :
    (inetPton afInet6 cp buf).2 = (scanIp6 cp buf).2 ∧
      ((inetPton afInet6 cp buf).1 = 1 ↔ Zone (cp.drop (scanIp6 cp buf).1)) := by
  have hafs : ¬ afInet6 = afInet := by decide
  have hhead : (cp.drop (scanIp6 cp buf).1).head? = cp[(scanIp6 cp buf).1]? := List.head?_drop
  rw [Zone, hhead, ← List.head?_eq_none_iff, hhead, inetPton, if_neg hafs, if_pos rfl]
  dsimp only
  cases cp[(scanIp6 cp buf).1]? with
  | none => simp
  | some c =>
    by_cases hc : c = '%'
    · simp [hc]
    · simp [hc]

theorem zone_nil : Zone [] := .inl rfl

theorem zone_cons : Zone ('%' :: z) := .inr rfl

theorem not_zone {c : Char} (hc : c ≠ '%') : ¬ Zone (c :: s) := by
  rintro (h | h)
  · cases h
  · exact hc (Option.some.inj h)

theorem Zone.delim (h : Zone z) : Delim z ∧ z.head? ≠ some '.' ∧ z.head? ≠ some ':' := by
  rcases h with rfl | h
  · exact ⟨delim_nil, by simp, by simp⟩
  · refine ⟨fun c hc => ?_, by rw [h]; decide, by rw [h]; decide⟩
    rw [h] at hc
    cases hc
    exact .inr (.inr rfl)

/-- The scan ended at `z`. -/
theorem zone_drop (h : s.length = n) : (s ++ z).drop n = z := by
  rw [← h, List.drop_left]

/-! ## Accepted texts -/

theorem filled_full (h : b.length = 16) : filled buf b = buf.store 0 b := by
  rw [filled, h]
  simp

theorem scanIp6_full (buf : Mem) (hg : ∀ g ∈ gs, Group g) (h8 : gs.length = 8) (hz : Zone z)
    (hlen : (colons gs ++ z).length < 2 ^ 31) :
    scanIp6 (colons gs ++ z) buf = ((colons gs).length, buf.store 0 (groupValues gs)) := by
  rw [scanIp6_groups buf hg hz.delim.1 hz.delim.2.1 (by omega) hlen, prefixRest, if_pos (by omega),
    filled_full (by rw [length_groupValues]; omega)]

/-- At `::` the first loop is left. -/
theorem scanIp6_gap (buf : Mem) (hg : ∀ g ∈ gs, Group g) (h8 : gs.length < 8)
    (hlen : (colons gs ++ ':' :: ':' :: s).length < 2 ^ 31)
    (hs : scanSuffix s ((colons gs).length + 2) (2 * gs.length) [] = (n, x))
    (hx : 2 * gs.length + x.length ≤ 16) :
    scanIp6 (colons gs ++ ':' :: ':' :: s) buf = (n, buf.store 0 (groupValues gs ++
      (List.replicate (16 - (2 * gs.length + x.length)) 0 ++ x))) := by
  simp only [List.length_append, List.length_cons] at hlen
  rw [scanIp6_groups buf hg (delim_cons (.inl rfl) _) (by simp) (by omega)
    (by simp only [List.length_append, List.length_cons]; omega), prefixRest, if_neg (by omega),
    scanPrefix_eq, prefixTurn, Nat.mod_eq_of_lt (by omega), prefixRun, hs]
  dsimp only
  rw [filled_suffix buf (by rw [length_groupValues]; exact hx), length_groupValues]

theorem suffixRest_zone (hz : Zone z) (hx : x ≠ []) : suffixRest z len p x = (len, x) := by
  unfold suffixRest
  split
  · rfl
  · rw [scanSuffix_eq, suffixTurn_stop hx hz.delim.2.2]
    rfl

theorem scanSuffix_nil : scanSuffix [] len p [] = (len, []) := by
  rw [scanSuffix_eq, show suffixTurn [] len p [] = .stop len [] from rfl]
  rfl

/-- The number that starts a quad is read up to the dot. -/
theorem Quad.first (h : Quad t q) : ∃ g r, Group g ∧ t = g ++ '.' :: r := by
  obtain ⟨h₀, h₁, h₂, h₃⟩ := h
  exact ⟨_, _, h₀.group, rfl⟩

theorem Quad.length (h : Quad t q) : q.length = 4 := by
  obtain ⟨h₀, h₁, h₂, h₃⟩ := h
  rfl

/-- A turn at a quad, after `::`. -/
theorem suffixNumber_quad (ht : Quad t q) (hp : x.length + p ≤ 12) (hlen : len + t.length < 2 ^ 31) :
    suffixNumber t len p x = .stop (len + t.length) (x ++ q) := by
  have hton := inetAton_quad ht
  obtain ⟨g, r, hg, he⟩ := ht.first
  have hpos := hg.length_pos
  have hl := congrArg List.length he
  rw [List.length_append] at hl
  have hnum := strtol_group hg (delim_cons (.inr (.inl rfl)) r)
  have htaken := taken_append (g := g) (r := '.' :: r) (by rw [List.length_append]; omega)
  have hdot := getElem?_append_self g ('.' :: r)
  rw [← he] at hnum htaken hdot
  rw [suffixNumber, hnum]
  dsimp only
  rw [htaken, hdot, if_neg (by omega)]
  have hquad : x.length + p ≤ 12 ∧ ('.' :: r).head? = some '.' := ⟨hp, rfl⟩
  simp only [if_pos hquad, hton]
  rw [Nat.mod_eq_of_lt (by omega)]

/-- A turn at a quad with a zone, after `::`: the dot is where the scan ends. -/
theorem suffixNumber_quadZone (len : Nat) (ht : Quad t q) (hp : x.length + p ≤ 12)
    (hlen : len + (t ++ '%' :: z).length < 2 ^ 31) :
    ∃ g r p' x', Group g ∧ t = g ++ '.' :: r ∧ x' ≠ [] ∧ x'.length = x.length + 2 ∧
      suffixNumber (t ++ '%' :: z) len p x =
        .again ('.' :: (r ++ '%' :: z)) (len + g.length) p' x' := by
  have hton := inetAton_zone ht z
  obtain ⟨g, r, hg, he⟩ := ht.first
  have hpos := hg.length_pos
  have hl := congrArg List.length he
  rw [List.length_append] at hl hlen
  have he' : t ++ '%' :: z = g ++ '.' :: (r ++ '%' :: z) := by
    rw [he, List.append_assoc]
    rfl
  have hnum := strtol_group hg (delim_cons (.inr (.inl rfl)) (r ++ '%' :: z))
  have htaken := taken_append (g := g) (r := '.' :: (r ++ '%' :: z))
    (by rw [← he', List.length_append]; omega)
  have hdot := getElem?_append_self g ('.' :: (r ++ '%' :: z))
  have hdrop : (t ++ '%' :: z).drop g.length = '.' :: (r ++ '%' :: z) := by rw [he', List.drop_left]
  rw [← he'] at hnum htaken hdot
  refine ⟨g, r, 12 - x.length, x ++ groupBytes (((hexadecimal g : Int)) % 2 ^ 64).toNat, hg, he,
    by simp [groupBytes], by rw [List.length_append]; rfl, ?_⟩
  rw [suffixNumber, hnum]
  dsimp only
  rw [htaken, hdot, if_neg (by omega)]
  have hquad : x.length + p ≤ 12 ∧ ('.' :: (r ++ '%' :: z)).head? = some '.' := ⟨hp, rfl⟩
  simp only [if_pos hquad, hton]
  rw [Nat.mod_eq_of_lt (by omega), hdrop, suffixGroup, if_neg ?_]
  rw [List.length_append]
  simp only [groupBytes, List.length_cons, List.length_nil]
  omega

theorem groupValues_ne_nil (hne : gs ≠ []) : groupValues gs ≠ [] := by
  intro h0
  have hl := length_groupValues gs
  rw [h0, List.length_nil] at hl
  exact hne (List.length_eq_zero_iff.mp (by omega))

theorem scanIp6_gapGroups (buf : Mem) (hg : ∀ g ∈ gs, Group g) (hh : ∀ g ∈ hs, Group g)
    (h8 : gs.length + hs.length < 8) (hz : Zone z) (hne : hs = [] → z = [])
    (hlen : (colons gs ++ ':' :: ':' :: (colons hs ++ z)).length < 2 ^ 31) :
    scanIp6 (colons gs ++ ':' :: ':' :: (colons hs ++ z)) buf =
      ((colons gs ++ ':' :: ':' :: colons hs).length, buf.store 0 (groupValues gs ++
        (List.replicate (16 - 2 * (gs.length + hs.length)) 0 ++ groupValues hs))) := by
  have hlen' := hlen
  simp only [List.length_append, List.length_cons] at hlen'
  have hsuf : scanSuffix (colons hs ++ z) ((colons gs).length + 2) (2 * gs.length) [] =
      ((colons gs).length + 2 + (colons hs).length, groupValues hs) := by
    by_cases h : hs = []
    · rw [hne h, h]
      exact scanSuffix_nil
    · rw [scanSuffix_groups hh h hz.delim.1 hz.delim.2.1 (by omega)
        (by simp only [List.length_append]; omega), suffixRest_zone hz (groupValues_ne_nil h)]
  rw [scanIp6_gap buf hg (by omega) hlen hsuf (by rw [length_groupValues]; omega), length_groupValues,
    Nat.mul_add, List.length_append, List.length_cons, List.length_cons]
  congr 1
  omega

/-- The text behind `::` ends with a quad, with or without a zone. -/
theorem scanSuffix_quad (len : Nat) (hh : ∀ g ∈ hs, Group g) (ht : Quad t q) (hp : p + 2 * hs.length ≤ 12)
    (hlen : len + (colons (hs ++ [t ++ z])).length < 2 ^ 31) :
    ∃ pos, pos + (t ++ z).length = len + (colons (hs ++ [t ++ z])).length ∧
      scanSuffix (colons (hs ++ [t ++ z])) len p [] =
        suffixRun (suffixNumber (t ++ z) pos p (groupValues hs)) := by
  obtain ⟨g, r, hg, he⟩ := ht.first
  obtain ⟨c, cs, hgc, hc⟩ := hg.head
  have hhead : t ++ z = c :: (cs ++ '.' :: r ++ z) := by
    rw [he, hgc]
    rfl
  exact scanSuffix_last hh hhead hc (by omega) hlen

theorem scanIp6_gapQuad (buf : Mem) (hg : ∀ g ∈ gs, Group g) (hh : ∀ g ∈ hs, Group g)
    (h8 : gs.length + hs.length + 2 < 8) (ht : Quad t q)
    (hlen : (colons gs ++ ':' :: ':' :: colons (hs ++ [t])).length < 2 ^ 31) :
    scanIp6 (colons gs ++ ':' :: ':' :: colons (hs ++ [t])) buf =
      ((colons gs ++ ':' :: ':' :: colons (hs ++ [t])).length, buf.store 0 (groupValues gs ++
        (List.replicate (12 - 2 * (gs.length + hs.length)) 0 ++ (groupValues hs ++ q)))) := by
  have hlen' := hlen
  simp only [List.length_append, List.length_cons] at hlen'
  obtain ⟨pos, hpos, hsuf⟩ := scanSuffix_quad ((colons gs).length + 2)
    (p := 2 * gs.length) (z := []) hh ht (by omega) (by simp only [List.append_nil]; omega)
  rw [List.append_nil] at hpos hsuf
  rw [suffixNumber_quad ht (by rw [length_groupValues]; omega) (by omega), suffixRun, hpos] at hsuf
  rw [scanIp6_gap buf hg (by omega) hlen hsuf
    (by rw [List.length_append, length_groupValues, ht.length]; omega)]
  rw [@List.length_append _ (groupValues hs), length_groupValues, ht.length, List.length_append,
    List.length_cons, List.length_cons]
  congr 1
  · omega
  · congr 4
    omega

theorem inetPton_scan (hz : Zone z) (hscan : scanIp6 (t ++ z) buf = (t.length, buf.store 0 b)) :
    (inetPton afInet6 (t ++ z) buf).1 = 1 ∧ (inetPton afInet6 (t ++ z) buf).2 = buf.store 0 b := by
  obtain ⟨hmem, hret⟩ := inetPton6 (t ++ z) buf
  rw [hscan] at hmem hret
  rw [hret, hmem, zone_drop rfl]
  exact ⟨hz, rfl⟩

theorem Zone.cases (h : Zone z) : z = [] ∨ ∃ z', z = '%' :: z' := by
  rcases h with h | h
  · exact .inl h
  · cases z with
    | nil => cases h
    | cons c z => exact .inr ⟨z, by rw [Option.some.inj h]⟩

/-- **The address texts that are taken.** They give 1, with their bytes in the buffer. -/
theorem inetPton_address (h : Denotes s b) (hl : ¬ Lost s) (hlen : s.length < 2 ^ 31) :
    (inetPton afInet6 s buf).1 = 1 ∧ (inetPton afInet6 s buf).2 = buf.store 0 b := by
  obtain ⟨t, z, ha, hz, rfl⟩ := h
  apply inetPton_scan hz
  cases ha with
  | full hg h8 => exact scanIp6_full buf hg h8 hz hlen
  | fullQuad hg h6 hq => exact absurd (.quad hg h6 hq hz) hl
  | gap hg hh h8 =>
    rename_i gs hs
    rw [List.append_assoc, List.cons_append, List.cons_append] at hl hlen ⊢
    refine scanIp6_gapGroups buf hg hh h8 hz ?_ hlen
    intro hnil
    subst hnil
    rcases hz.cases with hz | ⟨z', rfl⟩
    · exact hz
    · exact absurd (.gapZone hg (by simpa using h8)) hl
  | gapQuad hg hh h8 hq =>
    rename_i gs hs t q
    rcases hz.cases with rfl | ⟨z', rfl⟩
    · rw [List.append_nil] at hlen ⊢
      exact scanIp6_gapQuad buf hg hh h8 hq hlen
    · exact absurd (.quadZone hg hh h8 hq) hl

/-! ## Lost texts -/

/-- What is left at a position is told by its length. -/
theorem drop_of_length {u w : List Char} (h : n + w.length = (u ++ w).length) :
    (u ++ w).drop n = w := by
  rw [List.length_append] at h
  rw [show n = u.length by omega, List.drop_left]

theorem colons_last (gs : List (List Char)) (t : List Char) : ∃ u, colons (gs ++ [t]) = u ++ t := by
  rw [colons_append]
  split
  · exact ⟨[], rfl⟩
  · exact ⟨colons gs ++ [':'], by simp⟩

theorem colons_zone (gs : List (List Char)) (t z : List Char) :
    colons (gs ++ [t]) ++ z = colons (gs ++ [t ++ z]) := by
  rw [colons_append, colons_append]
  split
  · rfl
  · simp

/-- The scan of a quad behind six groups ends at a dot, or not at all. -/
theorem scanIp6_fullQuad (buf : Mem) (hg : ∀ g ∈ gs, Group g) (h6 : gs.length = 6) (ht : Quad t q)
    (hlen : (colons gs ++ ':' :: (t ++ z)).length < 2 ^ 31) :
    ∃ n r, ((colons gs ++ ':' :: (t ++ z)).drop n = '.' :: r ∨ n = 0) ∧
      (scanIp6 (colons gs ++ ':' :: (t ++ z)) buf).1 = n := by
  obtain ⟨g, r, hg1, he⟩ := ht.first
  obtain ⟨c, cs, hgc, hc⟩ := hg1.head
  have hpos := hg1.length_pos
  have he' : t ++ z = g ++ '.' :: (r ++ z) := by
    rw [he, List.append_assoc]
    rfl
  have hlen' := hlen
  rw [he'] at hlen'
  simp only [List.length_append, List.length_cons] at hlen'
  have hnum := (strtoul_group hg1 (delim_cons (.inr (.inl rfl)) (r ++ z))).1
  have htaken := taken_append (g := g) (r := '.' :: (r ++ z))
    (by simp only [List.length_append, List.length_cons]; omega)
  have hturn : ∀ ip, prefixTurn (':' :: (g ++ '.' :: (r ++ z))) (colons gs).length 12 ip =
      prefixNumber (g ++ '.' :: (r ++ z)) ((colons gs).length + 1) 12 ip := by
    intro ip
    rw [show g ++ '.' :: (r ++ z) = c :: (cs ++ '.' :: (r ++ z)) by rw [hgc]; rfl,
      prefixTurn_colon hc, Nat.mod_eq_of_lt (by omega)]
  rw [scanIp6_groups buf hg (delim_cons (.inl rfl) _) (by simp) (by omega) hlen, prefixRest,
    if_neg (by omega), h6, scanPrefix_eq, he', hturn, prefixNumber, hnum]
  dsimp only
  rw [htaken, getElem?_append_self, if_neg (by omega), if_pos ⟨rfl, rfl⟩]
  cases inetAton (g ++ '.' :: (r ++ z)) with
  | none => exact ⟨0, [], .inr rfl, rfl⟩
  | some q =>
    refine ⟨g.length + ((colons gs).length + 1), r ++ z, .inl ?_,
      Nat.mod_eq_of_lt (by omega)⟩
    rw [show colons gs ++ ':' :: (g ++ '.' :: (r ++ z)) =
        (colons gs ++ ':' :: g) ++ '.' :: (r ++ z) by simp]
    apply drop_of_length
    simp only [List.length_append, List.length_cons]
    omega

theorem scanIp6_quadZone (buf : Mem) (hg : ∀ g ∈ gs, Group g) (hh : ∀ g ∈ hs, Group g)
    (h8 : gs.length + hs.length + 2 < 8) (ht : Quad t q)
    (hlen : (colons gs ++ ':' :: ':' :: colons (hs ++ [t ++ '%' :: z])).length < 2 ^ 31) :
    ∃ r, (colons gs ++ ':' :: ':' :: colons (hs ++ [t ++ '%' :: z])).drop
      (scanIp6 (colons gs ++ ':' :: ':' :: colons (hs ++ [t ++ '%' :: z])) buf).1 = '.' :: r := by
  have hlen' := hlen
  simp only [List.length_append, List.length_cons] at hlen'
  obtain ⟨pos, hpos, hsuf⟩ := scanSuffix_quad ((colons gs).length + 2)
    (p := 2 * gs.length) (z := '%' :: z) hh ht (by omega) (by omega)
  obtain ⟨g, r, p', x', hg1, he, hx', hxl, hnum⟩ := suffixNumber_quadZone (z := z)
    (x := groupValues hs) (p := 2 * gs.length) pos ht
    (by rw [length_groupValues]; omega) (by omega)
  have hstop : scanSuffix ('.' :: (r ++ '%' :: z)) (pos + g.length) p' x' =
      (pos + g.length, x') := by
    rw [scanSuffix_eq, suffixTurn_stop hx' (by simp)]
    rfl
  rw [hnum, suffixRun, hstop] at hsuf
  have hscan := scanIp6_gap buf hg (by omega) hlen hsuf
    (by rw [hxl, length_groupValues]; omega)
  obtain ⟨u, hu⟩ := colons_last hs (t ++ '%' :: z)
  have hw : t ++ '%' :: z = g ++ '.' :: (r ++ '%' :: z) := by
    rw [he, List.append_assoc]
    rfl
  refine ⟨r ++ '%' :: z, ?_⟩
  rw [hscan]
  rw [hu] at hpos ⊢
  rw [hw] at hpos ⊢
  rw [show colons gs ++ ':' :: ':' :: (u ++ (g ++ '.' :: (r ++ '%' :: z))) =
    (colons gs ++ ':' :: ':' :: (u ++ g)) ++ '.' :: (r ++ '%' :: z) by simp]
  apply drop_of_length
  simp only [List.length_append, List.length_cons] at hpos ⊢
  omega

theorem scanIp6_gapZone (buf : Mem) (hg : ∀ g ∈ gs, Group g) (h8 : gs.length < 8)
    (hlen : (colons gs ++ ':' :: ':' :: '%' :: z).length < 2 ^ 31) :
    (colons gs ++ ':' :: ':' :: '%' :: z).drop
      (scanIp6 (colons gs ++ ':' :: ':' :: '%' :: z) buf).1 = ':' :: '%' :: z := by
  have hlen' := hlen
  simp only [List.length_append, List.length_cons] at hlen'
  have hsuf : scanSuffix ('%' :: z) ((colons gs).length + 2) (2 * gs.length) [] =
      ((colons gs).length + 1, []) := by
    rw [scanSuffix_eq, suffixTurn_number (by decide), suffixNumber,
      (strtoul_delim (.inr (.inr rfl)) z).2]
    dsimp only
    rw [if_pos (by rw [taken, Nat.sub_self, Nat.zero_mod]), if_neg (by simp),
      CInt.usub_of_le (by omega) (by omega)]
    rfl
  rw [scanIp6_gap buf hg h8 hlen hsuf (by rw [List.length_nil]; omega),
    show colons gs ++ ':' :: ':' :: '%' :: z = (colons gs ++ [':']) ++ ':' :: '%' :: z by simp]
  apply drop_of_length
  simp only [List.length_append, List.length_cons, List.length_nil]

theorem colons_head {c : Char} (hg : ∀ g ∈ gs, Group g) (hne : gs ≠ []) (r : List Char)
    (h : (colons gs ++ r).head? = some c) : HexDigit c := by
  obtain ⟨g, gs, rfl⟩ := List.exists_cons_of_ne_nil hne
  have hg1 := hg g List.mem_cons_self
  obtain ⟨d, ds, rfl⟩ := List.exists_cons_of_ne_nil hg1.nonempty
  obtain rfl : d = c := Option.some.inj h
  exact hg1.digits d List.mem_cons_self

/-- **The lost texts** are refused. -/
theorem inetPton_lost (h : Lost s) (hlen : s.length < 2 ^ 31) : (inetPton afInet6 s buf).1 ≠ 1 := by
  rw [Ne, (inetPton6 s buf).2]
  cases h with
  | quad hg h6 hq hz =>
    rename_i gs t z q
    have hne : gs ≠ [] := by
      rintro rfl
      cases h6
    rw [colons_append, if_neg hne, List.append_assoc, List.cons_append] at hlen ⊢
    obtain ⟨n, r, hn, hscan⟩ := scanIp6_fullQuad (z := z) buf hg h6 hq hlen
    rw [hscan]
    rcases hn with hn | rfl
    · rw [hn]
      exact not_zone (by decide)
    · rintro (h0 | h0)
      · simp at h0
      · exact absurd rfl (hexDigit_ne (colons_head hg hne _ h0)).2.2.2.2.2.2.2
  | quadZone hg hh h8 hq =>
    rename_i gs hs t z q
    rw [List.append_assoc, List.cons_append, List.cons_append, colons_zone] at hlen ⊢
    obtain ⟨r, hr⟩ := scanIp6_quadZone buf hg hh h8 hq hlen
    rw [hr]
    exact not_zone (by decide)
  | gapZone hg h8 =>
    rw [scanIp6_gapZone buf hg h8 hlen]
    exact not_zone (by decide)

end Dietlibc.Inet
