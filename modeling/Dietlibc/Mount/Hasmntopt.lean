import Dietlibc.Base.Cells
import Dietlibc.Base.CInt
import Dietlibc.Base.Machine
import Dietlibc.Strings.Strstr

/-!
# `hasmntopt`

The options of a mount entry are in an array with a terminator at its end, and a pointer into it is an
index, which the search may move out of the array. A read there is a fault.
-/

namespace Dietlibc.Mount

open Cells Machine Occurrence Strings

/-- `','` -/
def comma : UInt8 := 44

/-- `'='` -/
def equals : UInt8 := 61

/-- The array from `c` on. -/
def rest (s : List UInt8) (c : Int) : List UInt8 := if 0 ≤ c then s.drop c.toNat else []

/-- One turn of `hasmntopt`. -/
def hasmntoptStep (s opt : List UInt8) (len : Int) (c : Int) : Next Int (Option Int) Unit :=
  match strstr (rest s c) opt with
  | none => .fault ()
  | some none => .stop none
  | some (some k) =>
    if c + k = 0 ∨ get s (c + k - 1) = some comma then
      match get s (c + k + len) with
      | none => .fault ()
      | some x =>
        if x = 0 ∨ x = comma ∨ x = equals then .stop (some (c + k)) else .again (c + k + len + 1)
    else .again (c + k + len + 1)

/-- `hasmntopt` returns `r`. The length of `opt` is an `int`. -/
def Hasmntopt (mntOpts : Option (List UInt8)) (opt : List UInt8) (r : Option Int) : Prop :=
  ∃ len, strlen opt = some len ∧
    mntOpts.elim (r = none) fun s => Stops (hasmntoptStep s opt (CInt.conv 32 len)) 0 r

/-! ## What is asked of it -/

/-- The element that starts at `k`. -/
def element (s : List UInt8) (k : Nat) : List UInt8 := (s.drop k).takeWhile (· ≠ comma)

/-- At `k` an element starts that is `opt`, or `opt` with a value. -/
structure Names (s opt : List UInt8) (k : Nat) : Prop where
  start : k = 0 ∨ s[k - 1]? = some comma
  names : element s k = opt ∨ opt ++ [equals] <+: element s k

/-- `r` is the first element that names `opt`. -/
def Found (s opt : List UInt8) : Option Nat → Prop
  | none => ∀ k, ¬Names s opt k
  | some k => Names s opt k ∧ ∀ j < k, ¬Names s opt j

/-- `hasmntopt` comes to its end without a fault, and with the right element. -/
def HasmntoptRight (s opt : List UInt8) : Prop :=
  ∃ r, Found s opt r ∧ Hasmntopt (some (s ++ [0])) (opt ++ [0]) (r.map Nat.cast)

variable {s t opt : List UInt8} {c k j : Nat} {r : Option Int} {r' : Option Nat}

/-! ## One turn -/

theorem rest_eq (h : c ≤ s.length) : rest (s ++ [0]) c = s.drop c ++ [0] := by
  rw [rest, if_pos (Int.natCast_nonneg c), Int.toNat_natCast, List.drop_append_of_le_length h]

/-- Behind the terminator there is nothing to read. -/
theorem strstr_behind (h0 : 0 ∉ opt) :
    strstr (rest (s ++ [0]) ((s.length + 1 : Nat) : Int)) (opt ++ [0]) = none := by
  have hnil : rest (s ++ [0]) ((s.length + 1 : Nat) : Int) = [] := by
    rw [rest, if_pos (Int.natCast_nonneg _), Int.toNat_natCast]
    exact List.drop_eq_nil_of_le (by simp)
  rw [hnil, strstr, strlen_eq h0]
  rfl

/-- The character behind an occurrence of `opt` says whether it is an element. -/
theorem names_at (h0 : 0 ∉ s) (hc : comma ∉ opt) (hne : opt ≠ []) (hp : opt <+: s.drop k) :
    ∃ x, get (s ++ [0]) (k + opt.length : Nat) = some x ∧
      ((x = 0 ∨ x = comma ∨ x = equals) ↔
        (element s k = opt ∨ opt ++ [equals] <+: element s k)) := by
  obtain ⟨t, ht⟩ := hp
  have hle : k ≤ s.length := by
    by_contra hlt
    rw [List.drop_eq_nil_of_le (by omega)] at ht
    exact hne (List.append_eq_nil_iff.mp ht).1
  obtain ⟨u, hu, hlen⟩ : ∃ u, s = u ++ t ∧ u.length = k + opt.length :=
    ⟨s.take k ++ opt, by rw [List.append_assoc, ht, List.take_append_drop],
      by rw [List.length_append, List.length_take_of_le hle]⟩
  have hall : ∀ a ∈ opt, decide (a ≠ comma) = true := fun a ha =>
    decide_eq_true fun he => hc (he ▸ ha)
  have hel : element s k = opt ++ t.takeWhile (· ≠ comma) := by
    rw [element, ← ht, List.takeWhile_append_of_pos hall]
  have hsame : opt ++ t.takeWhile (· ≠ comma) = opt ↔ t.takeWhile (· ≠ comma) = [] := by simp
  have hget : ∀ x w, t ++ [0] = x :: w → get (s ++ [0]) (k + opt.length : Nat) = some x := by
    intro x w hw
    rw [← hlen, hu, List.append_assoc, hw]
    exact get_at u x w
  rw [hel, hsame, List.prefix_append_right_inj]
  cases t with
  | nil => exact ⟨0, hget 0 [] rfl, by simp⟩
  | cons x t =>
    have hx0 : x ≠ 0 := fun h => h0 (by rw [hu, h]; simp)
    refine ⟨x, hget x _ rfl, ?_⟩
    by_cases hx : x = comma
    · subst hx
      simp
    · rw [List.takeWhile_cons_of_pos (by simpa using hx), List.cons_prefix_cons]
      simp only [hx, hx0, false_or, reduceCtorEq, List.nil_prefix, and_true]
      exact eq_comm

/-- The two comparisons on the left of an occurrence. -/
theorem start_iff (hk : k ≤ s.length) :
    ((k : Int) = 0 ∨ get (s ++ [0]) (k - 1) = some comma) ↔ (k = 0 ∨ s[k - 1]? = some comma) := by
  cases k with
  | zero => simp
  | succ k =>
    have hget : get (s ++ [0]) ((k + 1 : Nat) - 1) = s[k]? := by
      unfold Cells.get
      rw [if_pos (by omega), show (((k + 1 : Nat) : Int) - 1).toNat = k by omega,
        List.getElem?_append_left (by omega)]
    rw [hget, Nat.add_sub_cancel]
    refine or_congr ?_ Iff.rfl
    omega

/-- No occurrence is left. -/
theorem step_none (h0 : 0 ∉ s) (n0 : 0 ∉ opt) (hne : opt ≠ []) (hlen : s.length < 2 ^ 64)
    (hc : c ≤ s.length) (hr : FirstIn (s.drop c) opt none) (len : Int) :
    hasmntoptStep (s ++ [0]) (opt ++ [0]) len c = .stop none := by
  have hd0 : 0 ∉ s.drop c := fun h => h0 (List.mem_of_mem_drop h)
  obtain ⟨r, hr', hfind⟩ := strstr_spec hd0 n0 hne (by rw [List.length_drop]; omega)
  obtain rfl := hr'.unique hr
  rw [hasmntoptStep, rest_eq hc, hfind]

/-- The next occurrence is looked at. -/
theorem step_some (h0 : 0 ∉ s) (n0 : 0 ∉ opt) (hne : opt ≠ []) (hlen : s.length < 2 ^ 64)
    (hc : c ≤ s.length) (hr : FirstIn (s.drop c) opt (some k)) (len : Int) :
    hasmntoptStep (s ++ [0]) (opt ++ [0]) len c =
      if c + k = 0 ∨ s[c + k - 1]? = some comma then
        match get (s ++ [0]) ((c + k : Nat) + len) with
        | none => .fault ()
        | some x => if x = 0 ∨ x = comma ∨ x = equals then .stop (some ((c + k : Nat) : Int))
          else .again ((c + k : Nat) + len + 1)
      else .again ((c + k : Nat) + len + 1) := by
  have hd0 : 0 ∉ s.drop c := fun h => h0 (List.mem_of_mem_drop h)
  obtain ⟨r, hr', hfind⟩ := strstr_spec hd0 n0 hne (by rw [List.length_drop]; omega)
  obtain rfl := hr'.unique hr
  have hle := hr.2.1
  rw [List.length_drop] at hle
  rw [hasmntoptStep, rest_eq hc, hfind]
  dsimp only
  rw [← Nat.cast_add, if_congr (start_iff (by omega)) rfl rfl]

/-- A place that is no occurrence is no element. -/
theorem not_names (hp : ¬opt <+: s.drop k) : ¬Names s opt k := fun h => hp <| by
  have hpre : element s k <+: s.drop k := List.takeWhile_prefix _
  rcases h.names with he | hv
  · rwa [he] at hpre
  · exact ((List.prefix_append opt [equals]).trans hv).trans hpre

/-- An element does not start inside an occurrence or right behind it. -/
theorem not_names_inside (hc : comma ∉ opt) (hp : opt <+: s.drop k) (hlt : k < j)
    (hle : j ≤ k + opt.length) : ¬Names s opt j := by
  rintro ⟨hj | hj, -⟩
  · omega
  · obtain ⟨t, ht⟩ := hp
    have hget : s[j - 1]? = opt[j - 1 - k]? := by
      have hdrop : (s.drop k)[j - 1 - k]? = s[j - 1]? := by
        rw [List.getElem?_drop]
        congr 1
        omega
      rw [← hdrop, ← ht, List.getElem?_append_left (by omega)]
    rw [hget] at hj
    exact hc (List.mem_of_getElem? hj)

/-! ## The search -/

/-- The occurrences of `opt` from the left, each with a byte at least in front of the next one, come to
one that ends the string. -/
inductive Overruns (opt : List UInt8) : List UInt8 → Prop where
  | last {s : List UInt8} {k : Nat} (hk : FirstIn s opt (some k)) (hend : k + opt.length = s.length) :
      Overruns opt s
  | next {s : List UInt8} {k : Nat} (hk : FirstIn s opt (some k)) (hlt : k + opt.length < s.length)
      (h : Overruns opt (s.drop (k + opt.length + 1))) : Overruns opt s

/-- What the strings of a call are. -/
structure Call (s opt : List UInt8) : Prop where
  s0 : 0 ∉ s
  opt0 : 0 ∉ opt
  comma : comma ∉ opt
  equals : equals ∉ opt
  ne : opt ≠ []
  length : s.length < 2 ^ 64

theorem step_stop (h : Call s opt) (hc : c ≤ s.length) (hr : FirstIn (s.drop c) opt (some k))
    (hn : Names s opt (c + k)) :
    hasmntoptStep (s ++ [0]) (opt ++ [0]) opt.length c = .stop (some ((c + k : Nat) : Int)) := by
  have hp : opt <+: s.drop (c + k) := by
    rw [← List.drop_drop]
    exact hr.1
  obtain ⟨x, hget, hx⟩ := names_at h.s0 h.comma h.ne hp
  rw [step_some h.s0 h.opt0 h.ne h.length hc hr, if_pos hn.start, ← Nat.cast_add, hget]
  exact if_pos (hx.mpr hn.names)

theorem step_skip (h : Call s opt) (hc : c ≤ s.length) (hr : FirstIn (s.drop c) opt (some k))
    (hn : ¬Names s opt (c + k)) : hasmntoptStep (s ++ [0]) (opt ++ [0]) opt.length c =
      .again ((c + (k + opt.length + 1) : Nat) : Int) := by
  have hp : opt <+: s.drop (c + k) := by
    rw [← List.drop_drop]
    exact hr.1
  obtain ⟨x, hget, hx⟩ := names_at h.s0 h.comma h.ne hp
  have hnext : (c + k : Nat) + (opt.length : Int) + 1 = ((c + (k + opt.length + 1) : Nat) : Int) := by
    push_cast
    ring
  rw [step_some h.s0 h.opt0 h.ne h.length hc hr, hnext]
  by_cases hs : c + k = 0 ∨ s[c + k - 1]? = some Mount.comma
  · rw [if_pos hs, ← Nat.cast_add, hget]
    exact if_neg fun hmem => hn ⟨hs, hx.mp hmem⟩
  · exact if_neg hs

/-- An element is not in front of the next occurrence. -/
theorem not_names_before (hr : FirstIn (s.drop c) opt r') (hbefore : ∀ j < c, ¬Names s opt j)
    (hlt : ∀ k, r' = some k → j < c + k) : ¬Names s opt j := by
  by_cases hj : j < c
  · exact hbefore j hj
  · have hdrop : s.drop j = (s.drop c).drop (j - c) := by
      rw [List.drop_drop, Nat.add_sub_cancel' (not_lt.mp hj)]
    refine not_names ?_
    rw [hdrop]
    cases r' with
    | none => exact hr (j - c)
    | some k => exact hr.2.2 (j - c) (by have := hlt k rfl; omega)

theorem not_names_front (hr : FirstIn (s.drop c) opt (some k)) (hbefore : ∀ j < c, ¬Names s opt j)
    (hj : j < c + k) : ¬Names s opt j :=
  not_names_before hr hbefore fun i hi => by
    obtain rfl := Option.some.inj hi
    exact hj

/-- Nor between an occurrence that is no element and the place where the search goes on. -/
theorem not_names_skipped (h : Call s opt) (hr : FirstIn (s.drop c) opt (some k))
    (hbefore : ∀ j < c, ¬Names s opt j) (hn : ¬Names s opt (c + k))
    (hj : j < c + (k + opt.length + 1)) : ¬Names s opt j := by
  have hp : opt <+: s.drop (c + k) := by
    rw [← List.drop_drop]
    exact hr.1
  rcases Nat.lt_trichotomy j (c + k) with hlt | rfl | hgt
  · exact not_names_front hr hbefore hlt
  · exact hn
  · exact not_names_inside h.comma hp hgt (by omega)

theorem not_overruns (hr : FirstIn s opt none) : ¬Overruns opt s := by
  intro h
  cases h with
  | last hk hend => exact absurd (hk.unique hr) (Option.some_ne_none _)
  | next hk hlt hrest => exact absurd (hk.unique hr) (Option.some_ne_none _)

theorem overruns_next (hr : FirstIn s opt (some k)) (hlt : k + opt.length < s.length) :
    Overruns opt s ↔ Overruns opt (s.drop (k + opt.length + 1)) := by
  refine ⟨fun h => ?_, .next hr hlt⟩
  cases h with
  | last hk hend =>
    obtain rfl := Option.some.inj (hk.unique hr)
    omega
  | next hk hlt hrest =>
    obtain rfl := Option.some.inj (hk.unique hr)
    exact hrest

/-- **The search**, by induction on what is left of the string. No element in front is missed. -/
theorem search_spec (h : Call s opt) (hc : c ≤ s.length) (hbefore : ∀ j < c, ¬Names s opt j) :
    (∃ m, Found s opt (some m) ∧
      Stops (hasmntoptStep (s ++ [0]) (opt ++ [0]) opt.length) c (some (m : Int))) ∨
    Found s opt none ∧ (Overruns opt (s.drop c) →
        ∀ r, ¬Stops (hasmntoptStep (s ++ [0]) (opt ++ [0]) opt.length) c r) ∧
      (¬Overruns opt (s.drop c) →
        Stops (hasmntoptStep (s ++ [0]) (opt ++ [0]) opt.length) c none) := by
  induction hn : s.length - c using Nat.strong_induction_on generalizing c with
  | _ n ih =>
    obtain ⟨r, hr⟩ := exists_firstIn (s.drop c) opt
    cases r with
    | none =>
      have hnone : Found s opt none := fun j =>
        not_names_before hr hbefore fun k hk => absurd hk (Option.some_ne_none k).symm
      exact .inr ⟨hnone, fun hov => absurd hov (not_overruns hr), fun _ =>
        (stops_stop (step_none h.s0 h.opt0 h.ne h.length hc hr _)).mpr rfl⟩
    | some k =>
      have hadd := hr.add_le
      rw [List.length_drop] at hadd
      by_cases hnames : Names s opt (c + k)
      · exact .inl ⟨c + k, ⟨hnames, fun j => not_names_front hr hbefore⟩,
          (stops_stop (step_stop h hc hr hnames)).mpr rfl⟩
      have hstep := step_skip h hc hr hnames
      have hskip : ∀ j < c + (k + opt.length + 1), ¬Names s opt j := fun j =>
        not_names_skipped h hr hbefore hnames
      by_cases hend : k + opt.length = (s.drop c).length
      · -- the search goes on behind the terminator
        rw [List.length_drop] at hend
        have hbehind : c + (k + opt.length + 1) = s.length + 1 := by omega
        rw [hbehind] at hstep hskip
        have hfault : hasmntoptStep (s ++ [0]) (opt ++ [0]) opt.length ((s.length + 1 : Nat) : Int) =
            .fault () := by
          rw [hasmntoptStep, strstr_behind h.opt0]
        refine .inr ⟨fun j => ?_, fun _ r hstops => ?_, fun hov => ?_⟩
        · by_cases hj : j < s.length + 1
          · exact hskip j hj
          · refine not_names fun hpre => h.ne ?_
            rwa [List.drop_eq_nil_of_le (by omega), List.prefix_nil] at hpre
        · exact not_stops_fault hfault ((stops_again hstep).mp hstops)
        · exact absurd (.last hr (by rw [List.length_drop]; omega)) hov
      · have hlt : k + opt.length < (s.drop c).length := by
          rw [List.length_drop] at hend ⊢
          omega
        rw [List.length_drop] at hlt
        have hov := overruns_next hr (by rw [List.length_drop]; exact hlt)
        rw [hov, List.drop_drop]
        rcases ih _ (by omega) (c := c + (k + opt.length + 1)) (by omega) hskip rfl with
          ⟨m, hm, hstops⟩ | ⟨hnone, hfault, hgood⟩
        · exact .inl ⟨m, hm, (stops_again hstep).mpr hstops⟩
        · refine .inr ⟨hnone, fun hov r hstops => ?_, fun hov => ?_⟩
          · exact hfault hov r ((stops_again hstep).mp hstops)
          · exact (stops_again hstep).mpr (hgood hov)

/-! ## Names of `2 ^ 31` bytes and more -/

/-- The array inside an occurrence is `opt`. -/
theorem get_inside (hp : opt <+: s.drop k) (hj : j < opt.length) :
    get (s ++ [0]) (k + j : Nat) = opt[j]? := by
  obtain ⟨t, ht⟩ := hp
  have hle : k ≤ s.length := by
    by_contra hlt
    rw [List.drop_eq_nil_of_le (by omega)] at ht
    rw [(List.append_eq_nil_iff.mp ht).1] at hj
    exact absurd hj (Nat.not_lt_zero j)
  have hlen := congrArg List.length ht
  rw [List.length_append, List.length_drop] at hlen
  unfold Cells.get
  rw [if_pos (Int.natCast_nonneg _), Int.toNat_natCast, List.getElem?_append_left (by omega),
    ← List.getElem?_drop, ← ht, List.getElem?_append_left hj]

/-- With a length that is too small the character looked at is one of `opt`, and nothing is found. -/
theorem stops_short (h : Call s opt) (hj : j < opt.length) (hc : c ≤ s.length) :
    Stops (hasmntoptStep (s ++ [0]) (opt ++ [0]) j) c none := by
  induction hn : s.length - c using Nat.strong_induction_on generalizing c with
  | _ n ih =>
    obtain ⟨r, hr⟩ := exists_firstIn (s.drop c) opt
    cases r with
    | none => exact (stops_stop (step_none h.s0 h.opt0 h.ne h.length hc hr _)).mpr rfl
    | some k =>
      have hadd := hr.add_le
      rw [List.length_drop] at hadd
      have hp : opt <+: s.drop (c + k) := by
        rw [← List.drop_drop]
        exact hr.1
      have hnext : ((c + k : Nat) : Int) + j + 1 = ((c + k + j + 1 : Nat) : Int) := by push_cast; ring
      have hstep : hasmntoptStep (s ++ [0]) (opt ++ [0]) j c = .again ((c + k + j + 1 : Nat) : Int) := by
        rw [step_some h.s0 h.opt0 h.ne h.length hc hr, hnext, ← Nat.cast_add, get_inside hp hj,
          List.getElem?_eq_getElem hj]
        have hmem := List.getElem_mem hj
        have hplain : ¬(opt[j] = 0 ∨ opt[j] = comma ∨ opt[j] = equals) := by
          rintro (he | he | he)
          · exact h.opt0 (he ▸ hmem)
          · exact h.comma (he ▸ hmem)
          · exact h.equals (he ▸ hmem)
        dsimp only
        rw [if_neg hplain, ite_self]
      exact (stops_again hstep).mpr (ih _ (by omega) (c := c + k + j + 1) (by omega) rfl)

/-- With a length below zero the search comes back to the same occurrence, unless a comma or an equals
sign stands where it looks. -/
theorem stops_back {len : Int} (h : Call s opt) (hneg : len < 0) (hr : FirstIn s opt (some k)) :
    Stops (hasmntoptStep (s ++ [0]) (opt ++ [0]) len) (0 : Nat) r ↔ r = some (k : Int) ∧
      (k = 0 ∨ s[k - 1]? = some comma) ∧
        (get s (k + len) = some comma ∨ get s (k + len) = some equals) := by
  have hk := hr.2.1
  have hback : ∀ c : Nat, c ≤ k → hasmntoptStep (s ++ [0]) (opt ++ [0]) len c =
      hasmntoptStep (s ++ [0]) (opt ++ [0]) len (0 : Nat) := by
    intro c hc
    rw [step_some h.s0 h.opt0 h.ne h.length (by omega) (hr.drop hc),
      step_some h.s0 h.opt0 h.ne h.length (Nat.zero_le _) hr, Nat.add_sub_cancel' hc, Nat.zero_add]
  -- a step back to the occurrence leads to the same step again
  have hloop : hasmntoptStep (s ++ [0]) (opt ++ [0]) len (0 : Nat) = .again (k + len + 1) →
      ¬Stops (hasmntoptStep (s ++ [0]) (opt ++ [0]) len) (0 : Nat) r := by
    intro hstep
    rw [stops_again hstep]
    by_cases hlow : (k : Int) + len + 1 < 0
    · refine not_stops_fault (e := ()) ?_
      rw [hasmntoptStep, rest, if_neg (not_le.mpr hlow), strstr, strlen_eq h.opt0]
      rfl
    · obtain ⟨c, hc⟩ := Int.eq_ofNat_of_zero_le (not_lt.mp hlow)
      rw [hc] at hstep ⊢
      exact not_stops_self ((hback c (by omega)).trans hstep)
  have hget : get (s ++ [0]) (k + len) = get s (k + len) := by
    unfold Cells.get
    by_cases h0 : 0 ≤ (k : Int) + len
    · rw [if_pos h0, if_pos h0, List.getElem?_append_left (by omega)]
    · rw [if_neg h0, if_neg h0]
  have hstep := step_some h.s0 h.opt0 h.ne h.length (Nat.zero_le _) hr len
  rw [Nat.zero_add, hget] at hstep
  by_cases hs : k = 0 ∨ s[k - 1]? = some comma
  · rw [if_pos hs] at hstep
    cases hx : get s (k + len) with
    | none =>
      rw [hx] at hstep
      refine iff_of_false (not_stops_fault hstep) fun hr => ?_
      rcases hr.2.2 with he | he <;> cases he
    | some x =>
      rw [hx] at hstep
      dsimp only at hstep
      have hx0 : x ≠ 0 := by
        rintro rfl
        unfold Cells.get at hx
        split at hx
        · exact h.s0 (List.mem_of_getElem? hx)
        · cases hx
      by_cases hmark : x = comma ∨ x = equals
      · rw [if_pos (.inr hmark)] at hstep
        rw [stops_stop hstep]
        refine ⟨fun he => ⟨he, hs, hmark.imp (congrArg some) (congrArg some)⟩, fun he => he.1⟩
      · rw [if_neg fun he => hmark (he.resolve_left hx0)] at hstep
        refine iff_of_false (hloop hstep) fun hr => hmark ?_
        exact hr.2.2.imp Option.some.inj Option.some.inj
  · rw [if_neg hs] at hstep
    exact iff_of_false (hloop hstep) fun hr => hs hr.2.1

/-! ## The condition -/

/-- When `hasmntopt` is right. -/
def SearchOk (s opt : List UInt8) : Prop :=
  if opt.length < 2 ^ 31 then (∃ k, Names s opt k) ∨ ¬Overruns opt s
  else
    FirstIn s opt none ∨
    (0 ≤ CInt.conv 32 opt.length ∧ ∀ k, ¬Names s opt k) ∨
    (CInt.conv 32 opt.length < 0 ∧ ∃ k, FirstIn s opt (some k) ∧ Names s opt k ∧
      (get s (k + CInt.conv 32 opt.length) = some comma ∨
        get s (k + CInt.conv 32 opt.length) = some equals))

theorem found_none (hr : FirstIn s opt none) : Found s opt none := fun k => not_names (hr k)

theorem found_some (hr : FirstIn s opt (some k)) : Found s opt (some k) ↔ Names s opt k :=
  and_iff_left fun j hj => not_names (hr.2.2 j hj)

theorem right_iff_stops (h : Call s opt) : HasmntoptRight s opt ↔ ∃ r, Found s opt r ∧
    Stops (hasmntoptStep (s ++ [0]) (opt ++ [0]) (CInt.conv 32 opt.length)) (0 : Nat)
      (r.map Nat.cast) := by
  refine exists_congr fun r => and_congr_right fun _ => ?_
  unfold Hasmntopt
  rw [strlen_eq h.opt0]
  constructor
  · rintro ⟨len, hlen, hstops⟩
    obtain rfl := Option.some.inj hlen
    exact hstops
  · exact fun hstops => ⟨_, rfl, hstops⟩

/-- **`hasmntopt`** finds the first element that names the option, unless the occurrences it looks at
end at the end of the string. -/
theorem hasmntopt_right_iff (h : Call s opt) : HasmntoptRight s opt ↔ SearchOk s opt := by
  rw [right_iff_stops h, SearchOk]
  by_cases hshort : opt.length < 2 ^ 31
  · have hlen : CInt.conv 32 opt.length = opt.length :=
      CInt.conv_of_fits (by decide) (by rw [CInt.fits32]; omega)
    rw [if_pos hshort, hlen]
    rcases search_spec h (c := 0) (Nat.zero_le _) (fun j hj => absurd hj (Nat.not_lt_zero j)) with
      ⟨m, hm, hstops⟩ | ⟨hnone, hfault, hgood⟩
    · exact iff_of_true ⟨some m, hm, hstops⟩ (.inl ⟨m, hm.1⟩)
    · rw [List.drop_zero] at hfault hgood
      constructor
      · rintro ⟨r, -, hstops⟩
        exact .inr fun hov => hfault hov _ hstops
      · rintro (⟨k, hk⟩ | hov)
        · exact absurd hk (hnone k)
        · exact ⟨none, hnone, hgood hov⟩
  · rw [if_neg hshort]
    by_cases hpos : 0 ≤ CInt.conv 32 opt.length
    · have hmod := CInt.conv_emod32 opt.length
      have hbound := CInt.conv_bounds32 opt.length
      obtain ⟨j, hj⟩ := Int.eq_ofNat_of_zero_le hpos
      have hstops := stops_short h (j := j) (by omega) (Nat.zero_le s.length)
      rw [← hj] at hstops
      constructor
      · rintro ⟨r, hr, hstops'⟩
        have he := stops_unique hstops' hstops
        obtain rfl := Option.map_eq_none_iff.mp he
        exact .inr (.inl ⟨hpos, hr⟩)
      · rintro (hr | ⟨-, hr⟩ | ⟨hneg, -⟩)
        · exact ⟨none, found_none hr, hstops⟩
        · exact ⟨none, hr, hstops⟩
        · omega
    · obtain ⟨r, hr⟩ := exists_firstIn s opt
      cases r with
      | none =>
        exact iff_of_true ⟨none, found_none hr,
          (stops_stop (step_none h.s0 h.opt0 h.ne h.length (Nat.zero_le _) hr _)).mpr rfl⟩ (.inl hr)
      | some k =>
        have hback := fun r => stops_back (r := r) h (not_le.mp hpos) hr
        constructor
        · rintro ⟨r', hr', hstops⟩
          obtain ⟨hk, -, hmark⟩ := (hback _).mp hstops
          obtain ⟨k', rfl, hcast⟩ := Option.map_eq_some_iff.mp hk
          obtain rfl := Nat.cast_injective hcast
          exact .inr (.inr ⟨not_le.mp hpos, k', hr, hr'.1, hmark⟩)
        · rintro (hr' | ⟨hpos', -⟩ | ⟨-, k', hr', hn, hmark⟩)
          · exact absurd (hr'.unique hr) (Option.some_ne_none k).symm
          · exact absurd hpos' hpos
          · obtain rfl := Option.some.inj (hr'.unique hr)
            exact ⟨some k', (found_some hr).mpr hn, (hback _).mpr ⟨rfl, hn.start, hmark⟩⟩

/-- The options `rw,user` and the option `user`. -/
theorem hasmntopt_right_iff_user :
    HasmntoptRight [114, 119, 44, 117, 115, 101, 114] [117, 115, 101, 114] ↔
      SearchOk [114, 119, 44, 117, 115, 101, 114] [117, 115, 101, 114] :=
  hasmntopt_right_iff ⟨by decide, by decide, by decide, by decide, by decide, by decide⟩

/-- The options `nouser` and the option `user`. -/
theorem hasmntopt_overruns : ¬∀ s opt : List UInt8, Call s opt → HasmntoptRight s opt := by
  intro hall
  have hcall : Call [110, 111, 117, 115, 101, 114] [117, 115, 101, 114] :=
    ⟨by decide, by decide, by decide, by decide, by decide, by decide⟩
  have hfirst : FirstIn [110, 111, 117, 115, 101, 114] [117, 115, 101, 114] (some 2) :=
    ⟨by decide, by decide, by decide⟩
  obtain ⟨r, hr, hstops⟩ := (right_iff_stops hcall).mp (hall _ _ hcall)
  have hmeets : Meets (hasmntoptStep [110, 111, 117, 115, 101, 114, 0] [117, 115, 101, 114, 0] 4) 0 7 :=
    .step (by decide) (.refl _)
  have hfault : hasmntoptStep [110, 111, 117, 115, 101, 114, 0] [117, 115, 101, 114, 0] 4 7 =
    .fault () := by decide
  exact not_stops_fault hfault (hmeets.stops.mp hstops)

end Dietlibc.Mount
