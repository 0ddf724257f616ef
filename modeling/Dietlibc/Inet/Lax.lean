import Dietlibc.Inet.Parse

/-!
# What `inet_pton` takes

`Lax` describes the texts that `scan_ip6` reads to their end. It is wider than the grammar: a
number is whatever `strtoul` or `strtol` take (blanks, a sign, `0x`, any number of digits), a colon
may stand before the first group and may be missing between groups, a colon may end the text behind
`::`, the quad is whatever `inet_aton` takes, `::` may stand for no group at all, and nothing or a
bare zone is an address. It is narrower where an address text is `Lost`.
-/

namespace Dietlibc.Inet

open Lib

variable {cp s r u z : List Char} {len p k : Nat} {x : List UInt8} {ip buf : Mem}

/-- `strtoul` reads a number from `s` up to `r`. -/
def NumberTo (s r : List Char) : Prop := (strtoul s 16).2.1 = r ∧ r.length < s.length

/-- `strtol` reads a number from `s` up to `r`. -/
def SignedTo (s r : List Char) : Prop := (strtol s 16).2 = r ∧ r.length < s.length

/-- What is read behind `::`, where `k` groups are missing. -/
inductive Trail : Nat → List Char → Prop where
  | none {k : Nat} : Trail (k + 1) []
  | last {k : Nat} {s z : List Char} : SignedTo s z → Zone z → Trail (k + 1) s
  | more {k : Nat} {s r : List Char} : SignedTo s (':' :: r) → Trail (k + 1) r → Trail (k + 2) s
  | quad {k : Nat} {s r : List Char} {q : List UInt8} : SignedTo s ('.' :: r) →
      inetAton s = some q → Trail (k + 2) s

/-- What is read from the start, where `k` groups are missing. -/
inductive LaxFrom : Nat → List Char → Prop where
  | zone {z : List Char} : Zone z → LaxFrom 0 z
  | gap {k : Nat} {s : List Char} : Trail (k + 1) s → LaxFrom (k + 1) (':' :: ':' :: s)
  | group {k : Nat} {s r : List Char} : NumberTo s r → LaxFrom k r → LaxFrom (k + 1) s
  | colon {k : Nat} {s r : List Char} : NumberTo s r → LaxFrom k r → LaxFrom (k + 1) (':' :: s)

/-- The texts that are read to their end or to a zone. -/
def Lax (s : List Char) : Prop := Zone s ∨ LaxFrom 8 s

/-! ## Ends of numbers -/

theorem strtoulLoop_suffix (base : Nat) (s : List Char) (v : Nat) (o : Bool) :
    (strtoulLoop base s v o).2.2 <:+ s := by
  induction s generalizing v o with
  | nil => exact List.suffix_refl _
  | cons c cs ih =>
    unfold strtoulLoop
    split
    · exact List.suffix_refl _
    · exact (ih _ _).trans (List.suffix_cons c cs)

theorem strtoulSign_suffix (s : List Char) : (strtoulSign s).2 <:+ s := by
  unfold strtoulSign
  split
  · exact List.suffix_cons _ _
  · exact List.suffix_cons _ _
  · exact List.suffix_refl _

theorem strtoulBase_suffix (base : Nat) (s : List Char) : (strtoulBase base s).2 <:+ s := by
  unfold strtoulBase
  split
  · split
    · exact (List.suffix_cons _ _).trans (List.suffix_cons _ _)
    · exact List.suffix_refl _
  · exact List.suffix_refl _
  · exact List.suffix_refl _

/-- `*endptr` is an end of the string. -/
theorem strtoul_suffix (s : List Char) (base : Nat) : (strtoul s base).2.1 <:+ s := by
  unfold strtoul
  dsimp only
  have h := (strtoulLoop_suffix (strtoulBase base (strtoulSign (s.dropWhile isspace)).2).1
    (strtoulBase base (strtoulSign (s.dropWhile isspace)).2).2 0 false).trans
    ((strtoulBase_suffix base (strtoulSign (s.dropWhile isspace)).2).trans
      ((strtoulSign_suffix (s.dropWhile isspace)).trans (List.dropWhile_suffix isspace)))
  split
  · exact List.suffix_refl _
  · split
    · exact h
    · exact h

theorem strtolSign_suffix (s : List Char) : (strtolSign s).2 <:+ s := by
  unfold strtolSign
  split
  · split
    · exact List.suffix_cons _ _
    · exact List.suffix_refl _
  · exact List.suffix_refl _

theorem strtol_suffix (s : List Char) (base : Nat) : (strtol s base).2 <:+ s := by
  unfold strtol
  dsimp only
  have h := (strtoul_suffix (strtolSign (s.dropWhile isspace)).2 base).trans
    ((strtolSign_suffix (s.dropWhile isspace)).trans (List.dropWhile_suffix isspace))
  have hrest : (if (strtoul (strtolSign (s.dropWhile isspace)).2 base).2.1.length =
      (strtolSign (s.dropWhile isspace)).2.length then s
      else (strtoul (strtolSign (s.dropWhile isspace)).2 base).2.1) <:+ s := by
    split
    · exact List.suffix_refl _
    · exact h
  split <;> exact hrest

/-- Nothing is taken, or a number up to `r`. -/
theorem taken_cases (h : r <:+ s) (hlen : s.length < 2 ^ 31) :
    (taken s r = 0 ∧ ¬ r.length < s.length) ∨
      ∃ w, s = w ++ r ∧ w ≠ [] ∧ taken s r = w.length ∧ r.length < s.length := by
  obtain ⟨w, rfl⟩ := h
  have ht := taken_append (g := w) (r := r) (by omega)
  by_cases hw : w = []
  · left
    rw [ht, hw]
    simp
  · right
    refine ⟨w, rfl, hw, ht, ?_⟩
    have := List.length_pos_iff.mpr hw
    rw [List.length_append]
    omega

theorem not_signedTo_delim {c : Char} (hc : c = ':' ∨ c = '.' ∨ c = '%') (cs : List Char) :
    ¬ SignedTo (c :: cs) r := by
  rintro ⟨h, hlt⟩
  rw [(strtoul_delim hc cs).2] at h
  rw [← h] at hlt
  exact lt_irrefl _ hlt

theorem not_numberTo_delim {c : Char} (hc : c = ':' ∨ c = '.' ∨ c = '%') (cs : List Char) :
    ¬ NumberTo (c :: cs) r := by
  rintro ⟨h, hlt⟩
  rw [(strtoul_delim hc cs).1] at h
  rw [← h] at hlt
  exact lt_irrefl _ hlt

/-! ## The second loop -/

/-- Nothing was read, or the number up to `r`: what `suffixNumber` does. -/
theorem suffixNumber_cases (s : List Char) (len p : Nat) (x : List UInt8)
    (hlen : len + s.length < 2 ^ 31) :
    ((∀ r, ¬ SignedTo s r) ∧
      suffixNumber s len p x = .stop (if s = [] then len else CInt.usub 32 len 1) x) ∨
    ∃ w r x', s = w ++ r ∧ w ≠ [] ∧ (∀ r', SignedTo s r' ↔ r' = r) ∧ x' ≠ [] ∧
      x'.length = x.length + 2 ∧
      suffixNumber s len p x =
        match if x.length + p ≤ 12 ∧ r.head? = some '.' then inetAton s else none with
        | some q => .stop (len + s.length) (x ++ q)
        | none => suffixGroup r (len + w.length)
            (if x.length + p ≤ 12 ∧ r.head? = some '.' then 12 - x.length else p) x' := by
  rcases taken_cases (strtol_suffix s 16) (by omega) with ⟨ht, hno⟩ | ⟨w, hs, hw, ht, hlt⟩
  · left
    refine ⟨?_, ?_⟩
    · rintro r ⟨rfl, hr⟩
      exact hno hr
    · rw [suffixNumber]
      dsimp only
      rw [if_pos ht]
  · right
    generalize hr : (strtol s 16).2 = r at hs ht hlt
    have hwl := List.length_pos_iff.mpr hw
    have hsl := congrArg List.length hs
    rw [List.length_append] at hsl
    have hdot : s[w.length]? = r.head? := by
      conv_lhs => rw [hs]
      exact getElem?_append_self w r
    have hrest : s.drop w.length = r := by
      conv_lhs => rw [hs]
      exact List.drop_left
    refine ⟨w, r, x ++ groupBytes ((strtol s 16).1 % 2 ^ 64).toNat, hs, hw, fun r' => ?_,
      by simp [groupBytes], by rw [List.length_append]; rfl, ?_⟩
    · constructor
      · rintro ⟨h, -⟩
        rw [← h, hr]
      · rintro rfl
        exact ⟨hr, hlt⟩
    · have hm : (len + s.length) % 2 ^ 32 = len + s.length := Nat.mod_eq_of_lt (by omega)
      have hm' : (len + w.length) % 2 ^ 32 = len + w.length := Nat.mod_eq_of_lt (by omega)
      rw [suffixNumber]
      dsimp only
      rw [hr, ht, hdot, hrest, if_neg (by omega), hm, hm']
      all_goals rfl

theorem trail_none (h : ∀ r, ¬ SignedTo s r) : Trail (k + 1) s ↔ s = [] := by
  constructor
  · intro ht
    cases ht with
    | none => rfl
    | last hn _ => exact absurd hn (h _)
    | more hn _ => exact absurd hn (h _)
    | quad hn _ => exact absurd hn (h _)
  · rintro rfl
    exact .none

theorem trail_number (hne : s ≠ []) (h : ∀ r', SignedTo s r' ↔ r' = r) :
    Trail (k + 1) s ↔ Zone r ∨ ∃ j, k = j + 1 ∧ ((∃ r', r = ':' :: r' ∧ Trail (j + 1) r') ∨
      r.head? = some '.' ∧ ∃ q, inetAton s = some q) := by
  constructor
  · intro ht
    cases ht with
    | none => exact absurd rfl hne
    | last hn hz => exact .inl ((h _).mp hn ▸ hz)
    | more hn ht => exact .inr ⟨_, rfl, .inl ⟨_, ((h _).mp hn).symm, ht⟩⟩
    | quad hn ha => exact .inr ⟨_, rfl, .inr ⟨(h _).mp hn ▸ rfl, _, ha⟩⟩
  · rintro (hz | ⟨j, rfl, ⟨r', rfl, ht⟩ | ⟨hd, q, ha⟩⟩)
    · exact .last ((h _).mpr rfl) hz
    · exact .more ((h _).mpr rfl) ht
    · cases r with
      | nil => cases hd
      | cons c r' =>
        cases Option.some.inj hd
        exact .quad ((h _).mpr rfl) ha

theorem not_zone_head {c : Char} (hc : c ≠ '%') (h : s.head? = some c) : ¬ Zone s := by
  rintro (h0 | h0)
  · rw [h0] at h
    cases h
  · rw [h] at h0
    exact hc (Option.some.inj h0)

/-- The text behind `::` is read to its end exactly for a `Trail`. Here `cp` is the whole text and
`s` starts behind a colon. -/
theorem suffixRun_accepts (hcp : cp = u ++ ':' :: s) (hlen : cp.length < 2 ^ 31)
    (hl : len = u.length + 1) (hp : p + x.length + 2 * k = 16) (hk : 0 < k) :
    Zone (cp.drop (suffixRun (suffixNumber s len p x)).1) ↔ Trail k s := by
  induction k generalizing u s len x with
  | zero => exact absurd hk (lt_irrefl 0)
  | succ k ih =>
    have hcl : cp.length = len + s.length := by
      rw [hcp, List.length_append, List.length_cons]
      omega
    rcases suffixNumber_cases s len p x (by omega) with
      ⟨hno, he⟩ | ⟨w, r, x', hs, hw, hr, hx', hxl, he⟩
    · rw [he, trail_none hno, suffixRun]
      by_cases hs : s = []
      · rw [if_pos hs, List.drop_of_length_le (by rw [hcl, hs]; simp)]
        exact iff_of_true zone_nil hs
      · rw [if_neg hs, CInt.usub_of_le (by omega) (by omega), hcp, show len - 1 = u.length by omega,
          List.drop_left]
        exact iff_of_false (not_zone (by decide)) hs
    · have hdrop : cp.drop (len + w.length) = r := by
        rw [hcp, hs, show u ++ ':' :: (w ++ r) = (u ++ ':' :: w) ++ r by simp]
        apply drop_of_length
        simp only [List.length_append, List.length_cons]
        omega
      have hne : s ≠ [] := by
        rw [hs]
        simp [hw]
      have hsl := congrArg List.length hs
      rw [List.length_append] at hsl
      rw [he, trail_number hne hr]
      by_cases hquad : x.length + p ≤ 12 ∧ r.head? = some '.'
      · simp only [if_pos hquad]
        have hnz : ¬ Zone r := not_zone_head (by decide) hquad.2
        cases ha : inetAton s with
        | some q =>
          refine iff_of_true ?_ (.inr ⟨k - 1, by omega, .inr ⟨hquad.2, q, rfl⟩⟩)
          dsimp only [suffixRun]
          rw [List.drop_of_length_le (by omega)]
          exact zone_nil
        | none =>
          -- the number before the dot is stored and the loop stops at the dot
          dsimp only
          rw [suffixGroup, if_neg (by omega), suffixRun, scanSuffix_eq,
            suffixTurn_stop hx' (by rw [hquad.2]; decide), suffixRun]
          dsimp only
          rw [hdrop]
          refine iff_of_false hnz ?_
          rintro (hz | ⟨j, -, ⟨r', rfl, -⟩ | ⟨-, q, hq⟩⟩)
          · exact hnz hz
          · cases hquad.2
          · cases hq
      · simp only [if_neg hquad]
        rw [suffixRun_group, suffixRest]
        by_cases h16 : p + x'.length = 16
        · rw [if_pos h16, hdrop]
          constructor
          · exact .inl
          · rintro (hz | ⟨j, rfl, -⟩)
            · exact hz
            · omega
        · rw [if_neg h16, scanSuffix_eq]
          by_cases hcolon : r.head? = some ':'
          · obtain ⟨r', rfl⟩ : ∃ r', r = ':' :: r' := by
              cases r with
              | nil => cases hcolon
              | cons c r' => exact ⟨r', by rw [Option.some.inj hcolon]⟩
            rw [suffixTurn_colon hx', Nat.mod_eq_of_lt (by simp only [List.length_cons] at hsl; omega),
              ih (u := u ++ ':' :: w) (by rw [hcp, hs]; simp)
                (by simp only [List.length_append, List.length_cons]; omega) (by omega) (by omega)]
            constructor
            · intro ht
              exact .inr ⟨k - 1, by omega, .inl ⟨r', rfl, by rwa [Nat.sub_add_cancel (by omega)]⟩⟩
            · rintro (hz | ⟨j, rfl, ⟨r'', he, ht⟩ | ⟨hd, -⟩⟩)
              · exact absurd hz (not_zone (by decide))
              · rw [(List.cons.inj he).2]
                exact ht
              · cases hd
          · rw [suffixTurn_stop hx' hcolon, suffixRun, hdrop]
            constructor
            · exact .inl
            · rintro (hz | ⟨j, rfl, ⟨r', rfl, -⟩ | ⟨hd, -⟩⟩)
              · exact hz
              · exact absurd rfl hcolon
              · exact absurd ⟨by omega, hd⟩ hquad

/-! ## The first loop -/

/-- Nothing was read, or the number up to `r`: what `prefixNumber` does. -/
theorem prefixNumber_cases (s : List Char) (len p : Nat) (ip : Mem)
    (hlen : len + s.length < 2 ^ 31) :
    ((∀ r, ¬ NumberTo s r) ∧ prefixNumber s len p ip = .done 0 ip) ∨
    ∃ w r d, s = w ++ r ∧ w ≠ [] ∧ (∀ r', NumberTo s r' ↔ r' = r) ∧ d.length = 2 ∧
      prefixNumber s len p ip =
        if p = 12 ∧ r.head? = some '.' then
          match inetAton s with
          | some q => .done (w.length + len) (ip.store 12 q)
          | none => .done 0 ip
        else if p + 2 = 16 then .done (len + w.length) (ip.store p d)
        else .again r (len + w.length) (p + 2) (ip.store p d) := by
  rcases taken_cases (strtoul_suffix s 16) (by omega) with ⟨ht, hno⟩ | ⟨w, hs, hw, ht, hlt⟩
  · left
    refine ⟨?_, ?_⟩
    · rintro r ⟨rfl, hr⟩
      exact hno hr
    · rw [prefixNumber]
      dsimp only
      rw [if_pos ht]
  · right
    generalize hr : (strtoul s 16).2.1 = r at hs ht hlt
    have hwl := List.length_pos_iff.mpr hw
    have hsl := congrArg List.length hs
    rw [List.length_append] at hsl
    have hdot : s[w.length]? = r.head? := by
      conv_lhs => rw [hs]
      exact getElem?_append_self w r
    have hrest : s.drop w.length = r := by
      conv_lhs => rw [hs]
      exact List.drop_left
    refine ⟨w, r, groupBytes (strtoul s 16).1, hs, hw, fun r' => ?_, rfl, ?_⟩
    · constructor
      · rintro ⟨h, -⟩
        rw [← h, hr]
      · rintro rfl
        exact ⟨hr, hlt⟩
    · have hm : (w.length + len) % 2 ^ 32 = w.length + len := Nat.mod_eq_of_lt (by omega)
      have hm' : (len + w.length) % 2 ^ 32 = len + w.length := Nat.mod_eq_of_lt (by omega)
      rw [prefixNumber]
      dsimp only
      rw [hr, ht, hdot, hrest, if_neg (by omega), hm, hm']
      all_goals rfl

theorem laxFrom_number (hc : s.head? ≠ some ':') :
    LaxFrom (k + 1) s ↔ ∃ r, NumberTo s r ∧ LaxFrom k r := by
  constructor
  · intro h
    cases h with
    | gap _ => exact absurd rfl hc
    | group hn h => exact ⟨_, hn, h⟩
    | colon _ _ => exact absurd rfl hc
  · rintro ⟨r, hn, h⟩
    exact .group hn h

theorem laxFrom_colon (hc : s.head? ≠ some ':') :
    LaxFrom (k + 1) (':' :: s) ↔ ∃ r, NumberTo s r ∧ LaxFrom k r := by
  constructor
  · intro h
    cases h with
    | gap _ => exact absurd rfl hc
    | group hn _ => exact absurd hn (not_numberTo_delim (.inl rfl) _)
    | colon hn h => exact ⟨_, hn, h⟩
  · rintro ⟨r, hn, h⟩
    exact .colon hn h

theorem laxFrom_gap : LaxFrom (k + 1) (':' :: ':' :: s) ↔ Trail (k + 1) s := by
  constructor
  · intro h
    cases h with
    | gap h => exact h
    | group hn _ => exact absurd hn (not_numberTo_delim (.inl rfl) _)
    | colon hn _ => exact absurd hn (not_numberTo_delim (.inl rfl) _)
  · exact .gap

theorem not_laxFrom_dot (hd : s.head? = some '.') : ¬ LaxFrom (k + 1) s := by
  cases s with
  | nil => cases hd
  | cons c s =>
    cases Option.some.inj hd
    rw [laxFrom_number (by simp)]
    rintro ⟨r, hn, -⟩
    exact not_numberTo_delim (.inr (.inl rfl)) _ hn

/-- The text behind `::`, from the start of the second loop. -/
theorem scanSuffix_accepts (hcp : cp = u ++ ':' :: s) (hlen : cp.length < 2 ^ 31)
    (hl : len = u.length + 1) (hp : p + 2 * k = 16) (hk : 0 < k) :
    Zone (cp.drop (scanSuffix s len p []).1) ↔ Trail k s := by
  have hnum := suffixRun_accepts (x := []) hcp hlen hl (by rw [List.length_nil]; omega) hk
  rw [scanSuffix_eq]
  cases s with
  | nil => exact hnum
  | cons c s =>
    by_cases hc : c = ':'
    · subst hc
      refine iff_of_false ?_ ?_
      · rw [show suffixTurn (':' :: s) len p [] = .stop len [] from rfl, suffixRun, hcp,
          show u ++ ':' :: ':' :: s = (u ++ [':']) ++ ':' :: s by simp,
          drop_of_length (by simp only [List.length_append, List.length_cons, List.length_nil]; omega)]
        exact not_zone (by decide)
      · obtain ⟨j, rfl⟩ : ∃ j, k = j + 1 := ⟨k - 1, by omega⟩
        rw [trail_none fun r => not_signedTo_delim (.inl rfl) s]
        simp
    · rw [suffixTurn_number hc]
      exact hnum

/-- A number of the first loop, and what follows it. -/
theorem prefixRun_accepts (hcp : cp = u ++ s) (hlen : cp.length < 2 ^ 31) (hl : len = u.length)
    (hz : ¬ Zone cp) (hp : p + 2 * (k + 1) = 16)
    (ih : ∀ {u r : List Char} {len : Nat} {ip : Mem}, cp = u ++ r → len = u.length →
      k ≠ 0 → (Zone (cp.drop (scanPrefix r len (p + 2) ip).1) ↔ LaxFrom k r)) :
    Zone (cp.drop (prefixRun p ip (prefixNumber s len p ip)).1) ↔
      ∃ r, NumberTo s r ∧ LaxFrom k r := by
  have hcl : cp.length = len + s.length := by
    rw [hcp, List.length_append]
    omega
  have hzero : ¬ Zone (cp.drop 0) := hz
  rcases prefixNumber_cases s len p ip (by omega) with ⟨hno, he⟩ | ⟨w, r, d, hs, hw, hr, hd, he⟩
  · rw [he]
    refine iff_of_false hzero ?_
    rintro ⟨r, hn, -⟩
    exact hno r hn
  · have hdrop : cp.drop (len + w.length) = r := by
      rw [hcp, hs, ← List.append_assoc]
      apply drop_of_length
      simp only [List.length_append]
      omega
    have hto : (∃ r', NumberTo s r' ∧ LaxFrom k r') ↔ LaxFrom k r := by
      constructor
      · rintro ⟨r', hn, h⟩
        rw [← (hr r').mp hn]
        exact h
      · exact fun h => ⟨r, (hr r).mpr rfl, h⟩
    rw [he, hto]
    by_cases hquad : p = 12 ∧ r.head? = some '.'
    · rw [if_pos hquad, show k = k - 1 + 1 by omega]
      refine iff_of_false ?_ (not_laxFrom_dot hquad.2)
      cases inetAton s with
      | none => exact hzero
      | some q =>
        dsimp only [prefixRun]
        rw [Nat.add_comm, hdrop]
        exact not_zone_head (by decide) hquad.2
    · rw [if_neg hquad]
      by_cases h16 : p + 2 = 16
      · rw [if_pos h16, prefixRun, hdrop]
        have hk0 : k = 0 := by omega
        subst hk0
        constructor
        · exact .zone
        · intro h
          cases h with
          | zone h => exact h
      · rw [if_neg h16, prefixRun]
        refine ih (u := u ++ w) (by rw [hcp, hs, List.append_assoc]) ?_ (by omega)
        rw [List.length_append]
        omega

/-- **What the scanner reads.** -/
theorem scanPrefix_accepts (hcp : cp = u ++ s) (hlen : cp.length < 2 ^ 31) (hl : len = u.length)
    (hz : ¬ Zone cp) (hp : p + 2 * k = 16) (hk : k ≠ 0) :
    Zone (cp.drop (scanPrefix s len p ip).1) ↔ LaxFrom k s := by
  induction k generalizing u s len p ip with
  | zero => exact absurd rfl hk
  | succ k ih =>
    have hcl : cp.length = len + s.length := by
      rw [hcp, List.length_append]
      omega
    have ih' : ∀ {u r : List Char} {len : Nat} {ip : Mem}, cp = u ++ r → len = u.length →
        k ≠ 0 → (Zone (cp.drop (scanPrefix r len (p + 2) ip).1) ↔ LaxFrom k r) :=
      fun hcp hl hk => ih hcp hl (by omega) hk
    rw [scanPrefix_eq]
    cases s with
    | nil =>
      rw [laxFrom_number (by simp)]
      exact prefixRun_accepts hcp hlen hl hz hp ih'
    | cons c s =>
      by_cases hc : c = ':'
      · subst hc
        rw [List.length_cons] at hcl
        cases s with
        | nil =>
          rw [laxFrom_colon (by simp), show prefixTurn [':'] len p ip =
            prefixNumber [] ((len + 1) % 2 ^ 32) p ip from rfl, Nat.mod_eq_of_lt (by omega)]
          exact prefixRun_accepts (u := u ++ [':']) (by simpa using hcp) hlen
            (by rw [hl, List.length_append]; rfl) hz hp ih'
        | cons c s =>
          rw [List.length_cons] at hcl
          by_cases hc : c = ':'
          · subst hc
            rw [laxFrom_gap, prefixTurn, Nat.mod_eq_of_lt (by omega), prefixRun]
            exact scanSuffix_accepts (u := u ++ [':']) (by simpa using hcp) hlen
              (by rw [hl, List.length_append]; rfl) hp (Nat.succ_pos k)
          · rw [laxFrom_colon (by simpa using hc), prefixTurn_colon hc, Nat.mod_eq_of_lt (by omega)]
            exact prefixRun_accepts (u := u ++ [':']) (by simpa using hcp) hlen
              (by rw [hl, List.length_append]; rfl) hz hp ih'
      · rw [laxFrom_number (by simpa using hc), prefixTurn_number hc]
        exact prefixRun_accepts hcp hlen hl hz hp ih'

/-- **Acceptance.** `inet_pton` takes exactly the lax texts. -/
theorem inetPton_accepts (cp : List Char) (hlen : cp.length < 2 ^ 31) (buf : Mem) :
    (inetPton afInet6 cp buf).1 = 1 ↔ Lax cp := by
  rw [(inetPton6 cp buf).2, Lax]
  by_cases hz : Zone cp
  · have hscan : (scanIp6 cp buf).1 = 0 := by
      rw [scanIp6, scanPrefix_eq]
      rcases hz.cases with rfl | ⟨z, rfl⟩
      · rfl
      · rw [prefixTurn_number (by decide), prefixNumber, (strtoul_delim (.inr (.inr rfl)) z).1]
        dsimp only
        rw [if_pos (by rw [taken, Nat.sub_self, Nat.zero_mod])]
        rfl
    rw [hscan]
    exact iff_of_true hz (.inl hz)
  · rw [or_iff_right hz]
    exact scanPrefix_accepts (u := []) rfl hlen rfl hz rfl (by decide)

/-! ## The bytes written -/

theorem length_inetAton {q : List UInt8} (h : inetAton s = some q) : q.length = 4 := by
  obtain ⟨ip, -, rfl⟩ := Option.map_eq_some_iff.mp h
  rfl

/-- `suffix` never has more than 16 bytes. -/
theorem length_suffixRun (hlen : len + s.length < 2 ^ 31) (hp : p + x.length + 2 * k = 16)
    (hk : 0 < k) : (suffixRun (suffixNumber s len p x)).2.length ≤ 16 := by
  induction k generalizing s len x with
  | zero => exact absurd hk (lt_irrefl 0)
  | succ k ih =>
    rcases suffixNumber_cases s len p x hlen with
      ⟨hno, he⟩ | ⟨w, r, x', hs, hw, hr, hx', hxl, he⟩
    · rw [he, suffixRun]
      dsimp only
      omega
    · have hsl := congrArg List.length hs
      rw [List.length_append] at hsl
      rw [he]
      by_cases hquad : x.length + p ≤ 12 ∧ r.head? = some '.'
      · simp only [if_pos hquad]
        cases ha : inetAton s with
        | some q =>
          dsimp only [suffixRun]
          rw [List.length_append, length_inetAton ha]
          omega
        | none =>
          dsimp only
          rw [suffixGroup, if_neg (by omega), suffixRun, scanSuffix_eq,
            suffixTurn_stop hx' (by rw [hquad.2]; decide), suffixRun]
          dsimp only
          omega
      · simp only [if_neg hquad]
        rw [suffixRun_group, suffixRest]
        split
        · dsimp only
          omega
        · rw [scanSuffix_eq]
          cases r with
          | nil =>
            rw [suffixTurn_stop hx' (by simp), suffixRun]
            dsimp only
            omega
          | cons c r =>
            by_cases hc : c = ':'
            · subst hc
              rw [List.length_cons] at hsl
              rw [suffixTurn_colon hx', Nat.mod_eq_of_lt (by omega)]
              exact ih (by omega) (by omega) (by omega)
            · rw [suffixTurn_stop hx' (by simpa using hc), suffixRun]
              dsimp only
              omega

theorem length_scanSuffix (len : Nat) (hlen : len + s.length < 2 ^ 31) (hp : p + 2 * k = 16) (hk : 0 < k) :
    (scanSuffix s len p []).2.length ≤ 16 := by
  have hnum := length_suffixRun (x := []) hlen (by rw [List.length_nil]; omega) hk
  rw [scanSuffix_eq]
  cases s with
  | nil => exact hnum
  | cons c s =>
    by_cases hc : c = ':'
    · subst hc
      exact Nat.zero_le _
    · rw [suffixTurn_number hc]
      exact hnum

theorem prefixRun_frame (hlen : len + s.length < 2 ^ 31) (hp : p + 2 * (k + 1) = 16)
    (ih : ∀ {r : List Char} {len : Nat} {ip : Mem}, len + r.length < 2 ^ 31 → k ≠ 0 →
      ∀ i, 16 ≤ i → (scanPrefix r len (p + 2) ip).2 i = ip i) :
    ∀ i, 16 ≤ i → (prefixRun p ip (prefixNumber s len p ip)).2 i = ip i := by
  intro i hi
  rcases prefixNumber_cases s len p ip hlen with ⟨-, he⟩ | ⟨w, r, d, hs, -, -, hd, he⟩
  · rw [he]
    rfl
  · have hsl := congrArg List.length hs
    rw [List.length_append] at hsl
    have hstore : ip.store p d i = ip i := Mem.store_out (by omega)
    rw [he]
    split
    · cases ha : inetAton s with
      | none => rfl
      | some q =>
        have hq := length_inetAton ha
        exact Mem.store_out (by omega)
    · split
      · exact hstore
      · rw [prefixRun, ih (by omega) (by omega) i hi]
        exact hstore

/-- `scan_ip6` writes nothing behind the 16 bytes. -/
theorem scanPrefix_frame (hlen : len + s.length < 2 ^ 31) (hp : p + 2 * k = 16) (hk : k ≠ 0) :
    ∀ i, 16 ≤ i → (scanPrefix s len p ip).2 i = ip i := by
  induction k generalizing s len p ip with
  | zero => exact absurd rfl hk
  | succ k ih =>
    have ih' : ∀ {r : List Char} {len : Nat} {ip : Mem}, len + r.length < 2 ^ 31 → k ≠ 0 →
        ∀ i, 16 ≤ i → (scanPrefix r len (p + 2) ip).2 i = ip i :=
      fun hlen hk => ih hlen (by omega) hk
    rw [scanPrefix_eq]
    unfold prefixTurn
    split
    · rename_i s'
      rw [List.length_cons, List.length_cons] at hlen
      intro i hi
      have hle := length_scanSuffix (s := s') ((len + 2) % 2 ^ 32)
        (by rw [Nat.mod_eq_of_lt (by omega)]; omega) hp (Nat.succ_pos k)
      refine Mem.store_out (.inr ?_)
      rw [CInt.usub_of_le hle (by decide)]
      omega
    · rw [List.length_cons] at hlen
      rw [Nat.mod_eq_of_lt (by omega)]
      exact prefixRun_frame (by omega) hp ih'
    · exact prefixRun_frame hlen hp ih'

/-! ## Exactness -/

/-- `inet_pton` decides the grammar on `s`: it returns 1 exactly for an address text with an
optional zone, the buffer then holds the bytes denoted, and nothing behind its 16 bytes changes. -/
def Decides (s : List Char) (buf : Mem) : Prop :=
  ((inetPton afInet6 s buf).1 = 1 ↔ ∃ b, Denotes s b) ∧
    (∀ b, Denotes s b → (inetPton afInet6 s buf).2.load 0 16 = b) ∧
    ∀ i, 16 ≤ i → (inetPton afInet6 s buf).2 i = buf i

theorem Address.length {t : List Char} {b : List UInt8} (h : Address t b) : b.length = 16 := by
  cases h with
  | full hg h8 => rw [length_groupValues, h8]
  | fullQuad hg h6 hq => rw [List.length_append, length_groupValues, h6, hq.length]
  | gap hg hh h8 =>
    simp only [List.length_append, length_groupValues, List.length_replicate]
    omega
  | gapQuad hg hh h8 hq =>
    simp only [List.length_append, length_groupValues, List.length_replicate, hq.length]
    omega

theorem Address.nonempty {t : List Char} {b : List UInt8} (h : Address t b) : t ≠ [] := by
  have hcolons : ∀ {gs : List (List Char)}, gs ≠ [] → (∀ g ∈ gs, g ≠ []) → colons gs ≠ [] := by
    intro gs hne hg
    obtain ⟨g, gs, rfl⟩ := List.exists_cons_of_ne_nil hne
    simp [colons, hg g List.mem_cons_self]
  cases h with
  | full hg h8 => exact hcolons (by rintro rfl; cases h8) fun g h => (hg g h).nonempty
  | fullQuad hg h6 hq =>
    refine hcolons (by simp) fun g h => ?_
    rcases List.mem_append.mp h with h | h
    · exact (hg g h).nonempty
    · obtain ⟨g', r, -, he⟩ := hq.first
      rw [List.mem_singleton.mp h, he]
      simp
  | gap hg hh h8 => simp
  | gapQuad hg hh h8 hq => simp

theorem Lost.denotes (h : Lost s) : ∃ b, Denotes s b := by
  cases h with
  | quad hg h6 hq hz => exact ⟨_, _, _, .fullQuad hg h6 hq, hz, rfl⟩
  | quadZone hg hh h8 hq => exact ⟨_, _, _, .gapQuad hg hh h8 hq, zone_cons, rfl⟩
  | gapZone hg h8 =>
    rename_i gs z
    have ha := Address.gap hg (fun g (h : g ∈ []) => absurd h List.not_mem_nil) h8
    refine ⟨_, _, '%' :: z, ha, zone_cons, ?_⟩
    simp [colons]

/-- **Exactness of `inet_pton`.** It decides the grammar on a text exactly if the text is not one
of the address texts that are lost, and not one of the lax texts that are no address text. -/
theorem inetPton_decides_iff (s : List Char) (hlen : s.length < 2 ^ 31) (buf : Mem) :
    Decides s buf ↔ ¬ Lost s ∧ (Lax s → ∃ b, Denotes s b) := by
  have hacc := inetPton_accepts s hlen buf
  constructor
  · rintro ⟨hret, -, -⟩
    refine ⟨fun hl => ?_, fun hx => ?_⟩
    · exact inetPton_lost hl hlen (hret.mpr hl.denotes)
    · exact hret.mp (hacc.mpr hx)
  · rintro ⟨hl, hx⟩
    refine ⟨⟨fun h => ?_, ?_⟩, ?_, ?_⟩
    · exact hx (hacc.mp h)
    · rintro ⟨b, hb⟩
      exact (inetPton_address hb hl hlen).1
    · intro b hb
      obtain ⟨t, z, ha, -, -⟩ := id hb
      rw [(inetPton_address hb hl hlen).2, Mem.load_store_self ha.length]
    · intro i hi
      rw [(inetPton6 s buf).1, scanIp6, scanPrefix_frame (k := 8) (by omega) rfl (by decide) i hi]
      exact Mem.store_out (.inr (by simpa using hi))

theorem Lost.marked (h : Lost s) : '.' ∈ s ∨ '%' ∈ s := by
  cases h with
  | quad hg h6 hq hz =>
    rename_i gs t z q
    obtain ⟨g, r, -, he⟩ := hq.first
    obtain ⟨u, hu⟩ := colons_last gs t
    left
    rw [hu, he]
    simp
  | quadZone hg hh h8 hq => simp
  | gapZone hg h8 => simp

/-- The text `::1`. -/
theorem inetPton_decides_loopback : Decides "::1".toList (fun _ => 0) := by
  refine (inetPton_decides_iff "::1".toList (by decide) _).mpr ⟨fun h => ?_, fun _ => ?_⟩
  · exact absurd h.marked (by decide)
  · have hg : ∀ g ∈ [['1']], Group g := by
      intro g hg
      rw [List.mem_singleton.mp hg]
      exact ⟨by simp, by simp, List.forall_mem_singleton.mpr (by decide)⟩
    have ha := Address.gap (fun g (h : g ∈ []) => absurd h List.not_mem_nil) hg (by decide)
    exact ⟨_, _, [], ha, zone_nil, rfl⟩

/-- Eight groups, the last two as a quad, are refused; the empty text is taken. -/
theorem inetPton_undecided :
    (∃ b, Denotes "1:2:3:4:5:6:1.2.3.4".toList b) ∧
      (inetPton afInet6 "1:2:3:4:5:6:1.2.3.4".toList (fun _ => 0)).1 ≠ 1 ∧
      (inetPton afInet6 [] (fun _ => 0)).1 = 1 ∧ ¬ ∃ b, Denotes [] b := by
  have hg : ∀ g ∈ [['1'], ['2'], ['3'], ['4'], ['5'], ['6']], Group g := by
    have hall : ∀ g ∈ [['1'], ['2'], ['3'], ['4'], ['5'], ['6']],
        g ≠ [] ∧ g.length ≤ 4 ∧ g.all (fun c => HexDigit c) := by decide
    intro g hg
    obtain ⟨hne, hle, hhex⟩ := hall g hg
    exact ⟨hne, hle, by simpa using hhex⟩
  have ho : Octet ['1'] 1 ∧ Octet ['2'] 2 ∧ Octet ['3'] 3 ∧ Octet ['4'] 4 :=
    ⟨⟨by simp, by simp, by simp, by simp, by decide⟩,
      ⟨by simp, by simp, by simp, by simp, by decide⟩,
      ⟨by simp, by simp, by simp, by simp, by decide⟩,
      ⟨by simp, by simp, by simp, by simp, by decide⟩⟩
  have hq : Quad "1.2.3.4".toList [1, 2, 3, 4] := .mk ho.1 ho.2.1 ho.2.2.1 ho.2.2.2
  have hl : Lost "1:2:3:4:5:6:1.2.3.4".toList := .quad hg rfl hq zone_nil
  refine ⟨hl.denotes, inetPton_lost hl (by decide), ?_, ?_⟩
  · exact (inetPton_accepts [] (by decide) _).mpr (.inl zone_nil)
  · rintro ⟨b, t, z, ha, -, he⟩
    exact ha.nonempty (List.append_eq_nil_iff.mp he.symm).1

end Dietlibc.Inet
