import Dietlibc.Base.Cells
import Dietlibc.Base.Machine
import Dietlibc.Shell.Fnmatch
import Mathlib.Data.List.DropRight

/-!
# `basename` and `dirname`

Both work in place, on the array that holds the path. A pointer is its index, which may be `-1`: an
access there, or behind the terminator, is a fault.
-/

namespace Dietlibc.Shell

open Cells Machine

/-- The loop of `strrchr` with the last match so far. -/
def strrchrLoop (ch : UInt8) (t : Nat) (l : Option Nat) : List UInt8 → Option (Option Nat)
  | [] => none
  | b :: bs =>
    let l := if b = ch then some t else l
    if b = 0 then some l else strrchrLoop ch (t + 1) l bs

/-- `strrchr`: the index it returns, `none` for a null pointer. -/
def strrchr (b : List UInt8) (ch : UInt8) : Option (Option Nat) := strrchrLoop ch 0 none b

/-- One turn of `basename`. -/
def basenameStep (path : List UInt8) : Next (List UInt8) (Nat × List UInt8) Unit :=
  match strrchr path slash with
  | none => .fault ()
  | some none => .stop (0, path)
  | some (some c) =>
    match get path (c + 1) with
    | none => .fault ()
    | some x =>
      if x ≠ 0 then .stop (c + 1, path)
      else if c = 0 then .stop (c, path)
      else
        match put path c 0 with
        | none => .fault ()
        | some path => .again path

/-- Where `dirname` is: at the head of its loop, or in one of the two loops inside. -/
inductive DirSt where
  | head (path : List UInt8)
  | trailing (c : Int) (path : List UInt8)
  | middle (c : Int) (path : List UInt8)

/-- What `dirname` returns: the static `dot`, or the path. -/
abbrev DirNext := Next DirSt (Option Nat × List UInt8) Unit

/-- One turn of `dirname`. -/
def dirnameStep : DirSt → DirNext
  | .head path =>
    match strrchr path slash with
    | none => .fault ()
    | some none => .stop (none, path)
    | some (some c) =>
      match get path (c + 1) with
      | none => .fault ()
      | some x =>
        if x = 0 ∧ c ≠ 0 then .again (.trailing c path)
        else if c ≠ 0 then .again (.middle c path)
        else
          match put path 1 0 with
          | none => .fault ()
          | some path => .stop (some 0, path)
  | .trailing c path =>
    match get path c with
    | none => .fault ()
    | some x =>
      if x = slash ∧ c ≠ 0 then
        match put path c 0 with
        | none => .fault ()
        | some path => .again (.trailing (c - 1) path)
      else .again (.head path)
  | .middle c path =>
    match get path c with
    | none => .fault ()
    | some x =>
      if x = slash ∧ 0 ≤ c then
        match put path c 0 with
        | none => .fault ()
        | some path => .again (.middle (c - 1) path)
      else .stop (some 0, path)

/-! ## The parts of a path -/

/-- The path without trailing slashes. -/
def stripped (p : List UInt8) : List UInt8 := p.rdropWhile (· = slash)

/-- The last component, empty if there are slashes only. -/
def component (p : List UInt8) : List UInt8 := (stripped p).rtakeWhile (· ≠ slash)

/-- What is left of the last component. -/
def left (p : List UInt8) : List UInt8 := (stripped p).rdropWhile (· ≠ slash)

/-- What `basename` is asked for. -/
def basenameOf (p : List UInt8) : List UInt8 := if stripped p = [] then [slash] else component p

/-- What `dirname` is asked for. -/
def dirnameOf (p : List UInt8) : List UInt8 :=
  if stripped p = [] then [slash]
  else if left p = [] then [46]
  else if stripped (left p) = [] then [slash]
  else stripped (left p)

/-- `basename` comes to its end without a fault, and the string it returns is the right one. -/
def BasenameRight (p : List UInt8) : Prop :=
  ∃ c b, Stops basenameStep (p ++ [0]) (c, b) ∧ cstring b c = basenameOf p

/-- `dirname` comes to its end without a fault, and the string it returns is the right one. -/
def DirnameRight (p : List UInt8) : Prop :=
  ∃ r b, Stops dirnameStep (.head (p ++ [0])) (r, b) ∧ r.elim [46] (cstring b) = dirnameOf p

variable {p u v w x : List UInt8} {r : List UInt8} {c : Nat}

@[simp] theorem stripped_nil : stripped [] = [] := List.rdropWhile_nil _

@[simp] theorem stripped_slash (p : List UInt8) : stripped (p ++ [slash]) = stripped p :=
  List.rdropWhile_concat_pos _ _ _ (by simp)

theorem stripped_concat {a : UInt8} (ha : a ≠ slash) (p : List UInt8) :
    stripped (p ++ [a]) = p ++ [a] :=
  List.rdropWhile_concat_neg _ _ _ (by simpa using ha)

/-! ## `strrchr` -/

theorem slash_ne : slash ≠ 0 := by decide

theorem strrchrLoop_none (h0 : 0 ∉ v) (hv : slash ∉ v) (t : Nat) (l : Option Nat) (r : List UInt8) :
    strrchrLoop slash t l (v ++ 0 :: r) = some l := by
  induction v generalizing t with
  | nil => rfl
  | cons a v ih =>
    obtain ⟨ha, h0⟩ := not_or.mp (mt List.mem_cons.mpr h0)
    obtain ⟨hs, hv⟩ := not_or.mp (mt List.mem_cons.mpr hv)
    rw [List.cons_append, strrchrLoop, if_neg (Ne.symm hs), if_neg (Ne.symm ha)]
    exact ih h0 hv _

/-- The last slash of the string is found. -/
theorem strrchrLoop_some (h0 : 0 ∉ u ++ slash :: v) (hv : slash ∉ v) (t : Nat) (l : Option Nat)
    (r : List UInt8) :
    strrchrLoop slash t l (u ++ slash :: v ++ 0 :: r) = some (some (t + u.length)) := by
  induction u generalizing t l with
  | nil =>
    have hv0 : 0 ∉ v := fun h => h0 (List.mem_cons_of_mem _ h)
    rw [List.nil_append, List.cons_append, strrchrLoop, if_pos rfl, if_neg slash_ne]
    exact strrchrLoop_none hv0 hv _ _ r
  | cons a u ih =>
    rw [List.cons_append] at h0
    obtain ⟨ha, h0⟩ := not_or.mp (mt List.mem_cons.mpr h0)
    rw [List.cons_append, List.cons_append, strrchrLoop, if_neg (Ne.symm ha), ih h0,
      List.length_cons]
    exact congrArg (some <| some ·) (by omega)

/-- A string has no slash or a last one. -/
theorem slash_cases (x : List UInt8) : slash ∉ x ∨ ∃ u v, x = u ++ slash :: v ∧ slash ∉ v := by
  by_cases h : slash ∈ x
  · obtain ⟨v, u, hx, hv⟩ := List.eq_append_cons_of_mem (List.mem_reverse.mpr h)
    refine .inr ⟨u.reverse, v.reverse, ?_, mt List.mem_reverse.mp hv⟩
    rw [← List.reverse_reverse x, hx]
    simp
  · exact .inl h

/-- `strrchr` of a slash: where the last component starts. -/
theorem strrchr_none (h0 : 0 ∉ x) (hx : slash ∉ x) (r : List UInt8) :
    strrchr (x ++ 0 :: r) slash = some none :=
  strrchrLoop_none h0 hx 0 none r

theorem strrchr_some (h0 : 0 ∉ u ++ slash :: v) (hv : slash ∉ v) (r : List UInt8) :
    strrchr (u ++ slash :: (v ++ 0 :: r)) slash = some (some u.length) := by
  have h := strrchrLoop_some h0 hv 0 none r
  rwa [List.append_assoc, List.cons_append, Nat.zero_add] at h

/-! ## `basename` -/

theorem parts_bare (hv : slash ∉ v) : stripped v = v ∧ component v = v ∧ left v = [] := by
  have hkeep : stripped v = v := by
    refine List.rdropWhile_eq_self_iff.mpr fun hne => ?_
    rw [decide_eq_true_iff]
    exact fun h => hv (h ▸ List.getLast_mem hne)
  have hall : ∀ a ∈ v, (decide (a ≠ slash)) = true := fun a ha =>
    decide_eq_true fun h => hv (h ▸ ha)
  unfold component left
  rw [hkeep]
  exact ⟨rfl, List.rtakeWhile_eq_self_iff.mpr hall, List.rdropWhile_eq_nil_iff.mpr hall⟩

/-- A component behind the last slash. -/
theorem parts_split (hv : slash ∉ v) (hne : v ≠ []) (u : List UInt8) :
    stripped (u ++ slash :: v) = u ++ slash :: v ∧ component (u ++ slash :: v) = v ∧
      left (u ++ slash :: v) = u ++ [slash] := by
  have hkeep : stripped (u ++ slash :: v) = u ++ slash :: v := by
    obtain ⟨w, a, rfl⟩ := List.eq_nil_or_concat v |>.resolve_left hne
    have ha : a ≠ slash := fun h => hv (by simp [h])
    have h := stripped_concat ha (u ++ slash :: w)
    simpa using h
  have hall : ∀ a ∈ v.reverse, (decide (a ≠ slash)) = true := fun a ha =>
    decide_eq_true fun h => hv (h ▸ List.mem_reverse.mp ha)
  have hrev : (u ++ slash :: v).reverse = v.reverse ++ slash :: u.reverse := by simp
  unfold component left
  rw [hkeep, List.rtakeWhile, List.rdropWhile, hrev, List.takeWhile_append_of_pos hall,
    List.dropWhile_append_of_pos hall, List.takeWhile_cons_of_neg (by simp),
    List.dropWhile_cons_of_neg (by simp)]
  simp

theorem basename_stops (h0 : 0 ∉ x) (hne : x ≠ []) (r : List UInt8) :
    ∃ c b, Stops basenameStep (x ++ 0 :: r) (c, b) ∧ cstring b c = basenameOf x := by
  induction hlen : x.length using Nat.strong_induction_on generalizing x r with
  | _ n ih =>
    rcases slash_cases x with hx | ⟨u, v, rfl, hv⟩
    · have hstep : basenameStep (x ++ 0 :: r) = .stop (0, x ++ 0 :: r) := by
        rw [basenameStep, strrchr_none h0 hx]
      obtain ⟨hkeep, hcomp, -⟩ := parts_bare hx
      refine ⟨0, _, (stops_stop hstep).mpr rfl, ?_⟩
      rw [cstring_zero h0, basenameOf, hkeep, if_neg hne, hcomp]
    · rw [List.append_assoc, List.cons_append]
      cases v with
      | nil =>
        by_cases hu : u = []
        · subst hu
          have hstep : basenameStep (slash :: 0 :: r) = .stop (0, slash :: 0 :: r) := rfl
          exact ⟨0, _, (stops_stop hstep).mpr rfl, cstring_zero h0 r⟩
        · have hpos : u.length ≠ 0 := mt List.length_eq_zero_iff.mp hu
          have hstep : basenameStep (u ++ slash :: 0 :: r) = .again (u ++ 0 :: 0 :: r) := by
            rw [basenameStep, show u ++ slash :: 0 :: r = u ++ slash :: ([] ++ 0 :: r) from rfl,
              strrchr_some h0 hv]
            dsimp only
            rw [List.nil_append, get_after, put_at]
            simp [hpos]
          have hu0 : 0 ∉ u := fun h => h0 (List.mem_append_left _ h)
          obtain ⟨c, b, hstops, hbase⟩ :=
            ih u.length (by rw [← hlen]; simp) hu0 hu (0 :: r) rfl
          refine ⟨c, b, (stops_again hstep).mpr hstops, ?_⟩
          rw [hbase, basenameOf, basenameOf, component, component, stripped_slash]
      | cons a v =>
        have ha : a ≠ 0 := fun h => h0 (by simp [h])
        have hv0 : 0 ∉ a :: v := fun h => h0 (by simp_all)
        have hstep : basenameStep (u ++ slash :: (a :: v ++ 0 :: r)) =
            .stop (u.length + 1, u ++ slash :: (a :: v ++ 0 :: r)) := by
          rw [basenameStep, strrchr_some h0 hv]
          dsimp only
          rw [List.cons_append, get_after]
          simp [ha]
        obtain ⟨hkeep, hcomp, -⟩ := parts_split hv (List.cons_ne_nil a v) u
        refine ⟨_, _, (stops_stop hstep).mpr rfl, ?_⟩
        have hat := cstring_at hv0 (u ++ [slash]) r
        rw [List.append_assoc, List.length_append, List.length_singleton] at hat
        rw [basenameOf, hkeep, if_neg hne, hcomp]
        exact hat

/-! ## `dirname` -/

theorem head_bare (h0 : 0 ∉ x) (hx : slash ∉ x) (r : List UInt8) :
    dirnameStep (.head (x ++ 0 :: r)) = .stop (none, x ++ 0 :: r) := by
  rw [dirnameStep, strrchr_none h0 hx]

/-- The last slash is the first character. -/
theorem head_root (h0 : 0 ∉ v) (hv : slash ∉ v) (r : List UInt8) :
    ∃ t, dirnameStep (.head (slash :: (v ++ 0 :: r))) = .stop (some 0, slash :: 0 :: t) := by
  have hlast : strrchr (slash :: (v ++ 0 :: r)) slash = some (some 0) :=
    strrchr_some (u := []) (List.not_mem_cons_of_ne_of_not_mem slash_ne.symm h0) hv r
  obtain ⟨a, t, ht⟩ : ∃ a t, v ++ 0 :: r = a :: t := by
    cases v with
    | nil => exact ⟨0, r, rfl⟩
    | cons a v => exact ⟨a, v ++ 0 :: r, rfl⟩
  refine ⟨t, ?_⟩
  rw [dirnameStep, hlast, ht]
  have hget : get (slash :: a :: t) ((0 : Nat) + 1) = some a := get_after [] slash a t
  have hput : put (slash :: a :: t) 1 0 = some (slash :: 0 :: t) := put_at [slash] a t 0
  dsimp only
  rw [hget, hput]
  simp

theorem head_trailing (h0 : 0 ∉ u) (hu : u ≠ []) (r : List UInt8) :
    dirnameStep (.head (u ++ slash :: 0 :: r)) = .again (.trailing u.length (u ++ slash :: 0 :: r)) := by
  have hlast := strrchr_some (u := u) (v := []) (by simpa [slash_ne.symm] using h0)
    List.not_mem_nil r
  rw [List.nil_append] at hlast
  have hpos : u.length ≠ 0 := mt List.length_eq_zero_iff.mp hu
  rw [dirnameStep, hlast]
  dsimp only
  rw [get_after]
  simp [hpos]

theorem head_middle (h0 : 0 ∉ u ++ slash :: v) (hv : slash ∉ v) (hu : u ≠ []) (hne : v ≠ [])
    (r : List UInt8) : dirnameStep (.head (u ++ slash :: (v ++ 0 :: r))) =
      .again (.middle u.length (u ++ slash :: (v ++ 0 :: r))) := by
  obtain ⟨a, v, rfl⟩ := List.exists_cons_of_ne_nil hne
  have ha : a ≠ 0 := fun h => h0 (by simp [h])
  have hpos : u.length ≠ 0 := mt List.length_eq_zero_iff.mp hu
  rw [dirnameStep, strrchr_some h0 hv]
  dsimp only
  rw [List.cons_append, get_after]
  simp [hpos, ha]

/-- What trailing slashes leave. -/
def kept (p : List UInt8) : List UInt8 := if stripped p = [] then [slash] else stripped p

/-- The loop over trailing slashes, by induction on what is in front of its pointer. -/
theorem trailing_meets (y r : List UInt8) (hne : y ≠ []) {c : Int} (hc : c + 1 = y.length) :
    ∃ r', Meets dirnameStep (.trailing c (y ++ 0 :: r)) (.head (kept y ++ 0 :: r')) := by
  induction y using List.reverseRecOn generalizing r c with
  | nil => exact absurd rfl hne
  | append_singleton u a ih =>
    obtain rfl : c = u.length := by
      rw [List.length_append, List.length_singleton] at hc
      omega
    rw [List.append_assoc, List.singleton_append]
    by_cases ha : a = slash
    · subst ha
      by_cases hu : u = []
      · subst hu
        exact ⟨r, .step rfl (.refl _)⟩
      · have hpos : (u.length : Int) ≠ 0 := by
          exact_mod_cast mt List.length_eq_zero_iff.mp hu
        have hstep : dirnameStep (.trailing u.length (u ++ slash :: 0 :: r)) =
            .again (.trailing (u.length - 1) (u ++ 0 :: 0 :: r)) := by
          rw [dirnameStep, get_at]
          dsimp only
          rw [if_pos ⟨rfl, hpos⟩, put_at]
        obtain ⟨r', hmeets⟩ := ih (0 :: r) hu (by omega : (u.length : Int) - 1 + 1 = u.length)
        refine ⟨r', .step hstep ?_⟩
        rwa [kept, stripped_slash]
    · have hstep : dirnameStep (.trailing u.length (u ++ a :: 0 :: r)) =
          .again (.head (u ++ a :: 0 :: r)) := by
        rw [dirnameStep, get_at]
        dsimp only
        rw [if_neg fun h => ha h.1]
      refine ⟨r, .step hstep ?_⟩
      rw [kept, stripped_concat ha, if_neg (by simp), List.append_assoc]
      exact .refl _

/-- The loop over slashes in the middle stops in front of them. -/
theorem middle_stops (y r : List UInt8) (hy : stripped y ≠ []) {c : Int} (hc : c + 1 = y.length) :
    ∃ r', Stops dirnameStep (.middle c (y ++ 0 :: r)) (some 0, stripped y ++ 0 :: r') := by
  induction y using List.reverseRecOn generalizing r c with
  | nil => exact absurd stripped_nil hy
  | append_singleton u a ih =>
    obtain rfl : c = u.length := by
      rw [List.length_append, List.length_singleton] at hc
      omega
    rw [List.append_assoc, List.singleton_append]
    by_cases ha : a = slash
    · subst ha
      rw [stripped_slash] at hy ⊢
      have hstep : dirnameStep (.middle u.length (u ++ slash :: 0 :: r)) =
          .again (.middle (u.length - 1) (u ++ 0 :: 0 :: r)) := by
        rw [dirnameStep, get_at]
        dsimp only
        rw [if_pos ⟨rfl, Int.natCast_nonneg _⟩, put_at]
      obtain ⟨r', hstops⟩ := ih (0 :: r) hy (by omega : (u.length : Int) - 1 + 1 = u.length)
      exact ⟨r', (stops_again hstep).mpr hstops⟩
    · have hstep : dirnameStep (.middle u.length (u ++ a :: 0 :: r)) =
          .stop (some 0, u ++ a :: 0 :: r) := by
        rw [dirnameStep, get_at]
        dsimp only
        rw [if_neg fun h => ha h.1]
      refine ⟨r, (stops_stop hstep).mpr ?_⟩
      rw [stripped_concat ha, List.append_assoc]
      rfl

/-- If there is nothing in front of them, it steps in front of the path and looks there. -/
theorem middle_fault (y r : List UInt8) (hy : stripped y = []) {c : Int} (hc : c + 1 = y.length)
    (R : Option Nat × List UInt8) : ¬Stops dirnameStep (.middle c (y ++ r)) R := by
  induction y using List.reverseRecOn generalizing r c with
  | nil =>
    have hstep : dirnameStep (.middle c r) = .fault () := by
      rw [dirnameStep, get_neg (by simp only [List.length_nil] at hc; omega)]
    exact not_stops_fault hstep
  | append_singleton u a ih =>
    obtain rfl : c = u.length := by
      rw [List.length_append, List.length_singleton] at hc
      omega
    rw [List.append_assoc, List.singleton_append]
    by_cases ha : a = slash
    · subst ha
      rw [stripped_slash] at hy
      have hstep : dirnameStep (.middle u.length (u ++ slash :: r)) =
          .again (.middle (u.length - 1) (u ++ 0 :: r)) := by
        rw [dirnameStep, get_at]
        dsimp only
        rw [if_pos ⟨rfl, Int.natCast_nonneg _⟩, put_at]
      rw [stops_again hstep]
      exact ih (0 :: r) hy (by omega)
    · rw [stripped_concat ha] at hy
      exact absurd hy (by simp)

/-- `dirname` is right on a string with any bytes behind it. -/
def DirnameFrom (x r : List UInt8) : Prop :=
  ∃ R b, Stops dirnameStep (.head (x ++ 0 :: r)) (R, b) ∧ R.elim [46] (cstring b) = dirnameOf x

/-- Slashes only are left of the last component, more than one. -/
def ManySlashes (p : List UInt8) : Prop := stripped (left p) = [] ∧ 2 ≤ (left p).length

/-- A path that does not end with a slash. -/
theorem plain_right_iff (h0 : 0 ∉ u ++ slash :: v) (hv : slash ∉ v) (hne : v ≠ []) (r : List UInt8) :
    DirnameFrom (u ++ slash :: v) r ↔ ¬ManySlashes (u ++ slash :: v) := by
  obtain ⟨hkeep, -, hleft⟩ := parts_split hv hne u
  have hne' : u ++ slash :: v ≠ [] := by simp
  have hv0 : 0 ∉ v := fun h => h0 (by simp [h])
  unfold DirnameFrom ManySlashes dirnameOf
  rw [hkeep, hleft, if_neg hne', if_neg (by simp), stripped_slash, List.append_assoc,
    List.cons_append]
  by_cases hu : u = []
  · subst hu
    obtain ⟨t, hstep⟩ := head_root hv0 hv r
    refine iff_of_true ⟨some 0, _, (stops_stop hstep).mpr rfl, ?_⟩ (by simp)
    exact cstring_zero (v := [slash]) (by simp [slash_ne.symm]) t
  · have hlen : 2 ≤ (u ++ [slash]).length := by
      have := List.length_pos_iff.mpr hu
      rw [List.length_append, List.length_singleton]
      omega
    rw [and_iff_left hlen]
    have hhead := head_middle h0 hv hu hne r
    have hu0 : 0 ∉ u := fun h => h0 (List.mem_append_left _ h)
    by_cases hs : stripped u = []
    · refine iff_of_false ?_ (not_not.mpr hs)
      rintro ⟨R, b, hstops, -⟩
      rw [stops_again hhead] at hstops
      have hno := middle_fault (u ++ [slash]) (v ++ 0 :: r) (by rwa [stripped_slash])
        (c := u.length) (by simp) (R, b)
      rw [List.append_assoc] at hno
      exact hno hstops
    · have hstep : dirnameStep (.middle u.length (u ++ slash :: (v ++ 0 :: r))) =
          .again (.middle (u.length - 1) (u ++ 0 :: (v ++ 0 :: r))) := by
        rw [dirnameStep, get_at]
        dsimp only
        rw [if_pos ⟨rfl, Int.natCast_nonneg _⟩, put_at]
      obtain ⟨t, hstops⟩ := middle_stops u (v ++ 0 :: r) hs
        (by omega : (u.length : Int) - 1 + 1 = u.length)
      refine iff_of_true ⟨some 0, _, (stops_again hhead).mpr ((stops_again hstep).mpr hstops), ?_⟩ hs
      rw [if_neg hs]
      have hs0 : 0 ∉ stripped u := fun h => hu0 ((List.rdropWhile_prefix _ _).subset h)
      exact cstring_zero hs0 t

theorem bare_right (h0 : 0 ∉ x) (hx : slash ∉ x) (hne : x ≠ []) (r : List UInt8) :
    DirnameFrom x r ∧ ¬ManySlashes x := by
  obtain ⟨hkeep, -, hleft⟩ := parts_bare hx
  refine ⟨⟨none, _, (stops_stop (head_bare h0 hx r)).mpr rfl, ?_⟩, fun h => ?_⟩
  · rw [dirnameOf, hkeep, if_neg hne, hleft, if_pos rfl]
    rfl
  · rw [ManySlashes, hleft] at h
    exact absurd h.2 (by simp)

/-- A path of slashes only. -/
theorem root_right (r : List UInt8) : ∃ R b, Stops dirnameStep (.head ([slash] ++ 0 :: r)) (R, b) ∧
    R.elim [46] (cstring b) = [slash] := by
  obtain ⟨t, hstep⟩ := head_root List.not_mem_nil List.not_mem_nil r (v := [])
  exact ⟨some 0, _, (stops_stop hstep).mpr rfl,
    cstring_zero (v := [slash]) (by simp [slash_ne.symm]) t⟩

theorem dirname_from_iff (h0 : 0 ∉ x) (hne : x ≠ []) (r : List UInt8) :
    DirnameFrom x r ↔ ¬ManySlashes x := by
  rcases slash_cases x with hx | ⟨u, v, rfl, hv⟩
  · obtain ⟨hright, hnot⟩ := bare_right h0 hx hne r
    exact iff_of_true hright hnot
  by_cases hv' : v ≠ []
  · exact plain_right_iff h0 hv hv' r
  obtain rfl := not_not.mp hv'
  have hu0 : 0 ∉ u := fun h => h0 (List.mem_append_left _ h)
  -- trailing slashes are taken away first, unless there is one and nothing else
  have hmeets : ∃ r', Meets dirnameStep (.head (u ++ [slash] ++ 0 :: r))
      (.head (kept (u ++ [slash]) ++ 0 :: r')) := by
    by_cases hu : u = []
    · subst hu
      exact ⟨r, .refl _⟩
    · obtain ⟨r', h⟩ := trailing_meets (u ++ [slash]) r hne (c := u.length) (by simp)
      rw [List.append_assoc, List.singleton_append] at h ⊢
      exact ⟨r', .step (head_trailing hu0 hu r) h⟩
  obtain ⟨r', hmeets⟩ := hmeets
  by_cases hs : stripped (u ++ [slash]) = []
  · rw [kept, if_pos hs] at hmeets
    obtain ⟨R, b, hstops, hval⟩ := root_right r'
    refine iff_of_true ⟨R, b, hmeets.stops.mpr hstops, ?_⟩ fun h => ?_
    · rw [hval, dirnameOf, if_pos hs]
    · rw [ManySlashes, left, hs] at h
      exact absurd h.2 (by simp)
  · rw [kept, if_neg hs] at hmeets
    have hrec : DirnameFrom (u ++ [slash]) r ↔ DirnameFrom (stripped (u ++ [slash])) r' := by
      unfold DirnameFrom dirnameOf left
      rw [show stripped (stripped (u ++ [slash])) = stripped (u ++ [slash]) from
        List.rdropWhile_idempotent _ _]
      exact exists_congr fun R => exists_congr fun b => and_congr_left' hmeets.stops
    have hmany : ManySlashes (u ++ [slash]) ↔ ManySlashes (stripped (u ++ [slash])) := by
      unfold ManySlashes left
      rw [show stripped (stripped (u ++ [slash])) = stripped (u ++ [slash]) from
        List.rdropWhile_idempotent _ _]
    rw [hrec, hmany]
    have hs0 : 0 ∉ stripped (u ++ [slash]) := fun h =>
      h0 ((List.rdropWhile_prefix _ _).subset h)
    -- what is left does not end with a slash
    rcases slash_cases (stripped (u ++ [slash])) with hx | ⟨u', v', hx, hv'⟩
    · obtain ⟨hright, hnot⟩ := bare_right hs0 hx hs r'
      exact iff_of_true hright hnot
    · have hne' : v' ≠ [] := by
        rintro rfl
        refine List.rdropWhile_last_not (decide <| · = slash) (u ++ [slash]) hs ?_
        have hlast : (stripped (u ++ [slash])).getLast hs = slash := by simp [hx]
        exact decide_eq_true hlast
      rw [hx] at hs0 ⊢
      exact plain_right_iff hs0 hv' hne' r'

theorem basename_right (h0 : 0 ∉ p) (hne : p ≠ []) : BasenameRight p := basename_stops h0 hne []

/-- **Splitting a path**: `basename` is right on every path, and `dirname` unless slashes only, more
than one, are left of the last component. -/
theorem splits_right_iff (h0 : 0 ∉ p) (hne : p ≠ []) :
    BasenameRight p ∧ (DirnameRight p ↔ ¬ManySlashes p) :=
  ⟨basename_right h0 hne, dirname_from_iff h0 hne []⟩

/-- The path `/usr/lib/`. -/
theorem splits_right_iff_usr :
    BasenameRight [47, 117, 115, 114, 47, 108, 105, 98, 47] ∧
      (DirnameRight [47, 117, 115, 114, 47, 108, 105, 98, 47] ↔
        ¬ManySlashes [47, 117, 115, 114, 47, 108, 105, 98, 47]) :=
  splits_right_iff (by decide) (by decide)

/-- The path `//a`: `dirname` takes away both slashes and looks in front of the path. -/
theorem dirname_double_slash : ¬∀ p : List UInt8, 0 ∉ p → p ≠ [] → BasenameRight p ∧ DirnameRight p := by
  intro h
  obtain ⟨-, R, b, hstops, -⟩ := h [47, 47, 97] (by decide) (by decide)
  have hmeets : Meets dirnameStep (.head [47, 47, 97, 0]) (.middle (-1) [0, 0, 97, 0]) :=
    .step rfl (.step rfl (.step rfl (.refl _)))
  have hfault : dirnameStep (.middle (-1) [0, 0, 97, 0]) = .fault () := rfl
  exact not_stops_fault hfault (hmeets.stops.mp hstops)

end Dietlibc.Shell
