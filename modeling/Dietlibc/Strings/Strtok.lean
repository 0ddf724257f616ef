import Dietlibc.Base.Cells
import Dietlibc.Base.CInt
import Mathlib.Data.List.TakeWhile

/-!
# `strtok_r`

The string lies in an array with its terminator, and is taken apart there. A pointer into it is an
index. `none` is undefined: an access outside an array, or an overflow of an `int`.
-/

namespace Dietlibc.Strings

open Cells

/-- The inner loop of `strspn`: the `*a` behind it. -/
def strspnInner (ch : UInt8) : List UInt8 → Option UInt8
  | [] => none
  | a :: accept => if a ≠ 0 ∧ ch ≠ a then strspnInner ch accept else some a

/-- `strspn`. -/
def strspn (accept : List UInt8) : List UInt8 → Option Nat
  | [] => none
  | c :: s =>
    if c = 0 then some 0
    else
      (strspnInner c accept).bind fun a =>
        if a = 0 then some 0 else (strspn accept s).map (· + 1)

/-- The inner loop of `strcspn`, which counts with an `int`: whether it returns. -/
def strcspnInner (ch : UInt8) (i : Int) : List UInt8 → Option Bool
  | [] => none
  | a :: reject =>
    if a = 0 then some false
    else if ch = a then some true
    else (CInt.sval 32 (i + 1)).bind fun i => strcspnInner ch i reject

/-- `strcspn`. -/
def strcspn (reject : List UInt8) : List UInt8 → Option Nat
  | [] => none
  | c :: s =>
    if c = 0 then some 0
    else
      (strcspnInner c 0 reject).bind fun found =>
        if found then some 0 else (strcspn reject s).map (· + 1)

/-- What a call of `strtok_r` leaves. -/
structure Scan where
  tmp : Option Nat
  ptr : Nat
  buf : List UInt8

/-- `strtok_r`. -/
def strtokR (s : Option Nat) (delim : List UInt8) (ptr : Option Nat) (buf : List UInt8) :
    Option Scan :=
  (s.or ptr).bind fun s =>
  (strspn delim (buf.drop s)).bind fun lead =>
  buf[s + lead]?.bind fun c =>
  if c = 0 then some ⟨none, s + lead, buf⟩
  else
    (strcspn delim (buf.drop (s + lead))).bind fun len =>
    buf[s + lead + len]?.bind fun c =>
    if c = 0 then some ⟨some (s + lead), s + lead + len, buf⟩
    else some ⟨some (s + lead), s + lead + len + 1, buf.set (s + lead + len) 0⟩

/-- The pointers returned by the calls, and the array behind the last one. -/
structure Calls where
  ptrs : List (Option Nat)
  buf : List UInt8

/-- Calls of `strtok_r`, the first with `s` and the others with a null pointer. -/
def strtokCalls (s : Option Nat) : List (List UInt8) → Option Nat → List UInt8 → Option Calls
  | [], _, buf => some ⟨[], buf⟩
  | delim :: delims, ptr, buf =>
    (strtokR s (delim ++ [0]) ptr buf).bind fun r =>
      (strtokCalls none delims (some r.ptr) r.buf).map fun rs => ⟨r.tmp :: rs.ptrs, rs.buf⟩

/-! ## What is asked of it -/

/-- What is left behind the leading delimiters. -/
def overread (delim r : List UInt8) : List UInt8 := r.dropWhile (· ∈ delim)

/-- The run of other bytes there. -/
def token (delim r : List UInt8) : List UInt8 := (overread delim r).takeWhile (· ∉ delim)

/-- What is left behind the run and the delimiter that ends it. -/
def left (delim r : List UInt8) : List UInt8 := ((overread delim r).dropWhile (· ∉ delim)).drop 1

/-- The tokens of the calls with their places, from `o` on. -/
def tokens : List (List UInt8) → Nat → List UInt8 → List (Option (Nat × List UInt8))
  | [], _, _ => []
  | delim :: delims, o, r =>
    (if overread delim r = [] then none
      else some (o + (r.length - (overread delim r).length), token delim r)) ::
      tokens delims (o + (r.length - (left delim r).length)) (left delim r)

/-- `x` is made of runs of delimiters and of the tokens, each as long as can be. -/
inductive Parts (delim : List UInt8) : List UInt8 → List (List UInt8) → Prop where
  | done {d : List UInt8} (hd : ∀ c ∈ d, c ∈ delim) : Parts delim d []
  | more {d t r : List UInt8} {ts : List (List UInt8)} (hd : ∀ c ∈ d, c ∈ delim) (ht : t ≠ [])
      (htok : ∀ c ∈ t, c ∉ delim) (hr : ∀ c ∈ r.head?, c ∈ delim) (h : Parts delim r ts) :
      Parts delim (d ++ t ++ r) (t :: ts)

/-- The calls return the places of the tokens, which are strings there in the end, and no more than the
array is written. Where the delimiters are the same in all calls, tokens and delimiters make up the
string, and behind the last token every call returns a null pointer. -/
structure StrtokRight (x : List UInt8) (delims : List (List UInt8)) : Prop where
  calls : ∃ rs, strtokCalls (some 0) delims none (x ++ [0]) = some rs ∧
    rs.ptrs = (tokens delims 0 x).map (Option.map Prod.fst) ∧
    rs.buf.length = x.length + 1 ∧
    ∀ p t, some (p, t) ∈ tokens delims 0 x → cstring rs.buf p = t ∧ (x.drop p).take t.length = t
  partition : ∀ delim n, delims = List.replicate n delim → ∃ ts, Parts delim x ts ∧
    (tokens delims 0 x).map (Option.map Prod.snd) =
      (ts.map some ++ List.replicate n none).take n

/-- Every call that finds a token has a set of delimiters that an `int` can count. -/
def DelimsFit : List (List UInt8) → List UInt8 → Prop
  | [], _ => True
  | delim :: delims, r =>
    (delim.length < 2 ^ 31 ∨ overread delim r = []) ∧ DelimsFit delims (left delim r)

variable {x r t delim buf : List UInt8} {delims ts : List (List UInt8)} {o p : Nat} {c : UInt8}

/-! ## `strspn` and `strcspn` -/

theorem strspnInner_eq (h0 : 0 ∉ delim) (c : UInt8) :
    ∃ a, strspnInner c (delim ++ [0]) = some a ∧ (a = 0 ↔ c ∉ delim) := by
  induction delim with
  | nil => exact ⟨0, rfl, by simp⟩
  | cons a delim ih =>
    obtain ⟨ha, h0⟩ := not_or.mp (mt List.mem_cons.mpr h0)
    rw [List.cons_append, strspnInner]
    by_cases hca : c = a
    · subst hca
      exact ⟨c, if_neg fun h => h.2 rfl, iff_of_false (Ne.symm ha) (by simp)⟩
    · obtain ⟨b, hb, hiff⟩ := ih h0
      refine ⟨b, (if_pos ⟨Ne.symm ha, hca⟩).trans hb, hiff.trans ?_⟩
      rw [List.mem_cons, not_or, and_iff_right hca]

theorem strspn_eq (h0 : 0 ∉ delim) (hr : 0 ∉ r) :
    strspn (delim ++ [0]) (r ++ [0]) = some (r.takeWhile (· ∈ delim)).length := by
  induction r with
  | nil => rfl
  | cons c r ih =>
    obtain ⟨hc, hr⟩ := not_or.mp (mt List.mem_cons.mpr hr)
    obtain ⟨a, ha, hiff⟩ := strspnInner_eq h0 c
    rw [List.cons_append, strspn, if_neg (Ne.symm hc), ha, Option.bind_some]
    by_cases hmem : c ∈ delim
    · rw [if_neg fun h => hiff.mp h hmem, ih hr, List.takeWhile_cons_of_pos (by simpa using hmem)]
      rfl
    · rw [if_pos (hiff.mpr hmem), List.takeWhile_cons_of_neg (by simpa using hmem)]
      rfl

theorem strcspnInner_eq (h0 : 0 ∉ delim) (c : UInt8) {i : Int} (hi : 0 ≤ i)
    (hlen : i + delim.length < 2 ^ 31) :
    strcspnInner c i (delim ++ [0]) = some (decide (c ∈ delim)) := by
  induction delim generalizing i with
  | nil => rfl
  | cons a delim ih =>
    obtain ⟨ha, h0⟩ := not_or.mp (mt List.mem_cons.mpr h0)
    rw [List.length_cons] at hlen
    rw [List.cons_append, strcspnInner, if_neg (Ne.symm ha)]
    by_cases hca : c = a
    · simp [hca]
    · rw [if_neg hca, CInt.sval_of_fits (by rw [CInt.fits32]; omega), Option.bind_some,
        ih h0 (by omega) (by omega)]
      simp [hca]

/-- A byte that is no delimiter is compared with all of them. -/
theorem strcspnInner_overflow (h0 : 0 ∉ delim) (hc : c ∉ delim) {i : Int} (hi : i < 2 ^ 31)
    (hlen : 2 ^ 31 ≤ i + delim.length) : strcspnInner c i (delim ++ [0]) = none := by
  induction delim generalizing i with
  | nil =>
    rw [List.length_nil] at hlen
    omega
  | cons a delim ih =>
    obtain ⟨ha, h0⟩ := not_or.mp (mt List.mem_cons.mpr h0)
    obtain ⟨hca, hc⟩ := not_or.mp (mt List.mem_cons.mpr hc)
    rw [List.length_cons] at hlen
    rw [List.cons_append, strcspnInner, if_neg (Ne.symm ha), if_neg hca]
    by_cases hfit : CInt.Fits 32 (i + 1)
    · rw [CInt.sval_of_fits hfit]
      rw [CInt.fits32] at hfit
      exact ih h0 hc (by omega) (by omega)
    · rw [CInt.sval_eq_none hfit]
      rfl

theorem strcspn_eq (h0 : 0 ∉ delim) (hlen : delim.length < 2 ^ 31) (hr : 0 ∉ r) :
    strcspn (delim ++ [0]) (r ++ [0]) = some (r.takeWhile (· ∉ delim)).length := by
  induction r with
  | nil => rfl
  | cons c r ih =>
    obtain ⟨hc, hr⟩ := not_or.mp (mt List.mem_cons.mpr hr)
    rw [List.cons_append, strcspn, if_neg (Ne.symm hc),
      strcspnInner_eq h0 c (le_refl 0) (by omega), Option.bind_some, ih hr]
    by_cases hmem : c ∈ delim
    · simp [hmem]
    · simp [hmem]

/-! ## One call -/

/-- The parts of what is left: delimiters, the token, and what follows. -/
theorem parts_eq (delim r : List UInt8) :
    r = r.takeWhile (· ∈ delim) ++ (token delim r ++ (overread delim r).dropWhile (· ∉ delim)) := by
  rw [token, List.takeWhile_append_dropWhile, overread, List.takeWhile_append_dropWhile]

theorem drop_lead (delim r w : List UInt8) :
    (r ++ w).drop (r.takeWhile (· ∈ delim)).length = overread delim r ++ w := by
  obtain ⟨l, hl⟩ : ∃ l, l = r.takeWhile (· ∈ delim) := ⟨_, rfl⟩
  have hr : r = l ++ overread delim r := by rw [hl, overread, List.takeWhile_append_dropWhile]
  rw [← hl]
  conv_lhs => rw [hr]
  rw [List.append_assoc, List.drop_left]

theorem lead_eq (delim r : List UInt8) :
    (r.takeWhile (· ∈ delim)).length = r.length - (overread delim r).length := by
  have h := congrArg List.length (List.takeWhile_append_dropWhile (p := (· ∈ delim)) (l := r))
  rw [List.length_append] at h
  rw [overread]
  omega

/-- The places that a call may not change: those in front of its pointer, and the terminators. -/
def Keeps (buf buf' : List UInt8) (o : Nat) : Prop :=
  ∀ i, i < o ∨ buf[i]? = some 0 → buf'[i]? = buf[i]?

theorem Keeps.trans {buf buf' buf'' : List UInt8} {o' : Nat} (h : Keeps buf buf' o)
    (h' : Keeps buf' buf'' o') (ho : o ≤ o') : Keeps buf buf'' o := by
  intro i hi
  have hkeep := h i hi
  rw [h' i, hkeep]
  rw [hkeep]
  exact hi.imp (fun hlt => by omega) id

/-- A token in front of the pointer stays. -/
theorem Keeps.token {buf buf' : List UInt8} (h : Keeps buf buf' o) (hle : p + t.length ≤ o)
    (ht : t ++ [0] <+: buf.drop p) : t ++ [0] <+: buf'.drop p := by
  rw [List.prefix_iff_getElem?] at ht ⊢
  intro i hi
  have hget := ht i hi
  rw [List.getElem?_drop] at hget ⊢
  rw [h (p + i) ?_, hget]
  rw [List.length_append, List.length_singleton] at hi
  by_cases hlt : i < t.length
  · exact .inl (by omega)
  · obtain rfl : i = t.length := by omega
    refine .inr ?_
    rw [hget]
    simp

/-- What a call with the pointer `o` does, where `r` is left. -/
structure Step (delim buf r : List UInt8) (o : Nat) (res : Scan) : Prop where
  tmp : res.tmp = if overread delim r = [] then none
    else some (o + (r.length - (overread delim r).length))
  ptr : res.ptr = o + (r.length - (left delim r).length)
  rest : res.buf.drop res.ptr = left delim r ++ [0]
  keeps : Keeps buf res.buf o
  length : res.buf.length = buf.length
  token : overread delim r ≠ [] →
    token delim r ++ [0] <+: res.buf.drop (o + (r.length - (overread delim r).length)) ∧
      o + (r.length - (overread delim r).length) + (token delim r).length ≤ res.ptr

theorem strtokR_eq {s ptr : Option Nat} (hs : s.or ptr = some o) (hbuf : buf.drop o = r ++ [0])
    (h0 : 0 ∉ delim) (hr : 0 ∉ r) : strtokR s (delim ++ [0]) ptr buf =
      buf[o + (r.takeWhile (· ∈ delim)).length]?.bind fun c =>
        if c = 0 then some ⟨none, o + (r.takeWhile (· ∈ delim)).length, buf⟩
        else
          (strcspn (delim ++ [0]) (overread delim r ++ [0])).bind fun len =>
          buf[o + (r.takeWhile (· ∈ delim)).length + len]?.bind fun c =>
          if c = 0 then some ⟨some (o + (r.takeWhile (· ∈ delim)).length),
            o + (r.takeWhile (· ∈ delim)).length + len, buf⟩
          else some ⟨some (o + (r.takeWhile (· ∈ delim)).length),
            o + (r.takeWhile (· ∈ delim)).length + len + 1,
            buf.set (o + (r.takeWhile (· ∈ delim)).length + len) 0⟩ := by
  have hdrop : buf.drop (o + (r.takeWhile (· ∈ delim)).length) = overread delim r ++ [0] := by
    rw [← List.drop_drop, hbuf, drop_lead]
  rw [strtokR, hs, Option.bind_some, hbuf, strspn_eq h0 hr, Option.bind_some, hdrop]

/-- The byte where a part of the array starts. -/
theorem getElem?_of_drop {w : List UInt8} (h : buf.drop o = c :: w) : buf[o]? = some c := by
  have hget : (buf.drop o)[0]? = buf[o + 0]? := List.getElem?_drop
  rw [← Nat.add_zero o, ← hget, h]
  rfl

theorem left_of_overread_nil (h : overread delim r = []) : left delim r = [] := by
  rw [left, h]
  rfl

/-- A token does not start with a delimiter. -/
theorem overread_cons (h : overread delim r ≠ []) :
    ∃ c w, overread delim r = c :: w ∧ c ∉ delim := by
  obtain ⟨c, w, hcw⟩ := List.exists_cons_of_ne_nil h
  refine ⟨c, w, hcw, fun hmem => ?_⟩
  have hhead := List.head_dropWhile_not (· ∈ delim) h
  have hc : (r.dropWhile (· ∈ delim)).head h = c := by
    rw [overread] at hcw
    simp [hcw]
  rw [hc] at hhead
  exact absurd hmem (by simpa using hhead)

theorem mem_overread (h : c ∈ overread delim r) : c ∈ r :=
  (List.dropWhile_suffix _).subset h

/-- A call is undefined if it finds a token with delimiters that an `int` cannot count. -/
theorem strtokR_none {s ptr : Option Nat} (hs : s.or ptr = some o) (hbuf : buf.drop o = r ++ [0])
    (h0 : 0 ∉ delim) (hr : 0 ∉ r) (hlen : 2 ^ 31 ≤ delim.length) (hne : overread delim r ≠ []) :
    strtokR s (delim ++ [0]) ptr buf = none := by
  obtain ⟨c, w, hcw, hc⟩ := overread_cons hne
  have hc0 : c ≠ 0 := fun h => hr (mem_overread (h ▸ hcw ▸ List.mem_cons_self))
  have hdrop : buf.drop (o + (r.takeWhile (· ∈ delim)).length) = c :: (w ++ [0]) := by
    rw [← List.drop_drop, hbuf, drop_lead, hcw]
    rfl
  rw [strtokR_eq hs hbuf h0 hr, getElem?_of_drop hdrop, Option.bind_some, if_neg hc0, hcw,
    List.cons_append, strcspn, if_neg hc0, strcspnInner_overflow h0 hc (by decide) (by omega)]
  rfl

/-- Behind the token `strtok_r` writes a terminator, unless there is one. -/
theorem step_of_token {q : Nat} (hq : q = o + (r.length - (overread delim r).length))
    (hdrop : buf.drop q = overread delim r ++ [0]) (h0 : 0 ∉ overread delim r)
    (hle : (overread delim r).length ≤ r.length) (hne : overread delim r ≠ []) :
    ∃ res, (buf[q + (token delim r).length]?.bind fun c =>
        if c = 0 then some ⟨some q, q + (token delim r).length, buf⟩
        else some ⟨some q, q + (token delim r).length + 1,
          buf.set (q + (token delim r).length) 0⟩) = some res ∧ Step delim buf r o res := by
  obtain ⟨t, ht⟩ : ∃ t, t = (overread delim r).dropWhile (· ∉ delim) := ⟨_, rfl⟩
  have hparts : overread delim r = token delim r ++ t := by
    rw [ht, token, List.takeWhile_append_dropWhile]
  have hleft : left delim r = t.drop 1 := by rw [ht, left]
  have hlen := congrArg List.length hparts
  rw [List.length_append] at hlen
  have hbehind : buf.drop (q + (token delim r).length) = t ++ [0] := by
    rw [← List.drop_drop, hdrop, hparts, List.append_assoc, List.drop_left]
  have htmp : (some q : Option Nat) = if overread delim r = [] then none
      else some (o + (r.length - (overread delim r).length)) := by rw [if_neg hne, hq]
  cases t with
  | nil =>
    rw [getElem?_of_drop hbehind, Option.bind_some, if_pos rfl]
    refine ⟨_, rfl, htmp, ?_, ?_, fun _ _ => rfl, rfl, fun _ => ?_⟩
    · rw [hleft, hq]
      simp only [List.length_nil, List.drop_nil] at hlen ⊢
      omega
    · rw [hleft]
      exact hbehind
    · rw [← hq]
      refine ⟨?_, le_refl _⟩
      rw [hdrop, hparts, List.append_nil]
  | cons e t =>
    have he0 : e ≠ 0 := fun he => h0 (by rw [hparts, he]; simp)
    have he := getElem?_of_drop hbehind
    have hlt : q + (token delim r).length < buf.length := (List.getElem?_eq_some_iff.mp he).1
    rw [he, Option.bind_some, if_neg he0]
    refine ⟨_, rfl, htmp, ?_, ?_, fun i hi => ?_, List.length_set, fun _ => ?_⟩
    · rw [hleft, hq, List.drop_one, List.tail_cons]
      rw [List.length_cons] at hlen
      dsimp only
      omega
    · rw [hleft]
      dsimp only
      rw [List.drop_set_of_lt (Nat.lt_succ_self _), Nat.succ_eq_add_one, ← List.drop_drop, hbehind]
      rfl
    · refine List.getElem?_set_ne fun hi' => ?_
      subst hi'
      rcases hi with hi | hi
      · omega
      · exact he0 (Option.some.inj (he.symm.trans hi))
    · rw [← hq]
      refine ⟨⟨t ++ [0], ?_⟩, Nat.le_succ _⟩
      dsimp only
      rw [List.drop_set, if_neg (by omega), Nat.add_sub_cancel_left, hdrop, hparts,
        List.append_assoc, List.append_assoc, List.set_append_right _ _ (le_refl _), Nat.sub_self]
      rfl

/-- **One call** finds the token. -/
theorem strtokR_spec {s ptr : Option Nat} (hs : s.or ptr = some o) (hbuf : buf.drop o = r ++ [0])
    (h0 : 0 ∉ delim) (hr : 0 ∉ r) (hfit : delim.length < 2 ^ 31 ∨ overread delim r = []) :
    ∃ res, strtokR s (delim ++ [0]) ptr buf = some res ∧ Step delim buf r o res := by
  have hdrop : buf.drop (o + (r.takeWhile (· ∈ delim)).length) = overread delim r ++ [0] := by
    rw [← List.drop_drop, hbuf, drop_lead]
  rw [strtokR_eq hs hbuf h0 hr]
  rw [lead_eq] at hdrop ⊢
  have hle : (overread delim r).length ≤ r.length := (List.dropWhile_suffix _).length_le
  by_cases hne : overread delim r = []
  · have hend : buf[o + (r.length - (overread delim r).length)]? = some 0 := by
      refine getElem?_of_drop (w := []) ?_
      rw [hdrop, hne]
      rfl
    rw [hend, Option.bind_some, if_pos rfl]
    refine ⟨_, rfl, ?_, ?_, ?_, fun _ _ => rfl, rfl, fun h => absurd hne h⟩
    · rw [if_pos hne]
    · rw [left_of_overread_nil hne, hne]
    · rw [left_of_overread_nil hne, hdrop, hne]
  · obtain ⟨c, w, hcw, hc⟩ := overread_cons hne
    have hc0 : c ≠ 0 := fun h => hr (mem_overread (h ▸ hcw ▸ List.mem_cons_self))
    have ht0 : 0 ∉ overread delim r := fun h => hr (mem_overread h)
    have hfirst : buf[o + (r.length - (overread delim r).length)]? = some c := by
      refine getElem?_of_drop (w := w ++ [0]) ?_
      rw [hdrop, hcw]
      rfl
    rw [hfirst, Option.bind_some, if_neg hc0, strcspn_eq h0 (hfit.resolve_right hne) ht0,
      Option.bind_some]
    exact step_of_token rfl hdrop ht0 hle hne

/-! ## All calls -/

theorem left_suffix (delim r : List UInt8) : left delim r <:+ r :=
  ((List.drop_suffix 1 _).trans (List.dropWhile_suffix _)).trans (List.dropWhile_suffix _)

theorem strtokCalls_cons {s ptr : Option Nat} {res : Scan}
    (h : strtokR s (delim ++ [0]) ptr buf = some res) :
    strtokCalls s (delim :: delims) ptr buf =
      (strtokCalls none delims (some res.ptr) res.buf).map fun rs => ⟨res.tmp :: rs.ptrs, rs.buf⟩ := by
  rw [strtokCalls, h, Option.bind_some]

/-- **The calls**, by induction: the pointer stands in front of what is left of the string. -/
theorem strtokCalls_spec (hfit : DelimsFit delims r) (h0 : ∀ d ∈ delims, 0 ∉ d) (hr : 0 ∉ r)
    {s ptr : Option Nat} (hs : s.or ptr = some o) (hbuf : buf.drop o = r ++ [0]) :
    ∃ rs, strtokCalls s delims ptr buf = some rs ∧
      rs.ptrs = (tokens delims o r).map (Option.map Prod.fst) ∧ rs.buf.length = buf.length ∧
      Keeps buf rs.buf o ∧ ∀ p t, some (p, t) ∈ tokens delims o r → t ++ [0] <+: rs.buf.drop p := by
  induction delims generalizing s ptr o r buf with
  | nil => exact ⟨_, rfl, rfl, rfl, fun _ _ => rfl, fun p t h => absurd h List.not_mem_nil⟩
  | cons delim delims ih =>
    obtain ⟨hhead, htail⟩ := hfit
    obtain ⟨res, hres, hstep⟩ := strtokR_spec hs hbuf (h0 delim List.mem_cons_self) hr hhead
    have hleft0 : 0 ∉ left delim r := fun h => hr ((left_suffix delim r).subset h)
    have hor : (none : Option Nat).or (some res.ptr) = some res.ptr := rfl
    obtain ⟨rs, hrs, hptrs, hlen, hkeeps, htoks⟩ :=
      ih htail (fun d hd => h0 d (List.mem_cons_of_mem _ hd)) hleft0 hor hstep.rest
    have ho : o ≤ res.ptr := by rw [hstep.ptr]; omega
    refine ⟨⟨res.tmp :: rs.ptrs, rs.buf⟩, ?_, ?_, hlen.trans hstep.length,
      hstep.keeps.trans hkeeps ho, fun p t hmem => ?_⟩
    · rw [strtokCalls_cons hres, hrs]
      rfl
    · rw [tokens, List.map_cons, ← hstep.ptr, ← hptrs, hstep.tmp]
      split <;> rfl
    · rw [tokens, ← hstep.ptr, List.mem_cons] at hmem
      rcases hmem with he | hmem
      · by_cases hne : overread delim r = []
        · rw [if_pos hne] at he
          cases he
        · rw [if_neg hne] at he
          obtain ⟨rfl, rfl⟩ := Prod.mk.inj (Option.some.inj he)
          obtain ⟨hpre, hle⟩ := hstep.token hne
          exact hkeeps.token hle hpre
      · exact htoks p t hmem

theorem strtokCalls_none (hfit : ¬DelimsFit delims r) (h0 : ∀ d ∈ delims, 0 ∉ d) (hr : 0 ∉ r)
    {s ptr : Option Nat} (hs : s.or ptr = some o) (hbuf : buf.drop o = r ++ [0]) :
    strtokCalls s delims ptr buf = none := by
  induction delims generalizing s ptr o r buf with
  | nil => exact absurd trivial hfit
  | cons delim delims ih =>
    by_cases hhead : delim.length < 2 ^ 31 ∨ overread delim r = []
    · obtain ⟨res, hres, hstep⟩ := strtokR_spec hs hbuf (h0 delim List.mem_cons_self) hr hhead
      have hleft0 : 0 ∉ left delim r := fun h => hr ((left_suffix delim r).subset h)
      have hor : (none : Option Nat).or (some res.ptr) = some res.ptr := rfl
      rw [strtokCalls_cons hres, ih (fun htail => hfit ⟨hhead, htail⟩)
        (fun d hd => h0 d (List.mem_cons_of_mem _ hd)) hleft0 hor hstep.rest]
      rfl
    · obtain ⟨hlen, hne⟩ := not_or.mp hhead
      rw [strtokCalls, strtokR_none hs hbuf (h0 delim List.mem_cons_self) hr (not_lt.mp hlen) hne]
      rfl

/-- The tokens are parts of the string. -/
theorem tokens_prefix (h : x.drop o = r) (hmem : some (p, t) ∈ tokens delims o r) :
    t <+: x.drop p := by
  induction delims generalizing o r with
  | nil => exact absurd hmem List.not_mem_nil
  | cons delim delims ih =>
    have hdrop : ∀ {y : List UInt8}, y <:+ r → x.drop (o + (r.length - y.length)) = y := by
      rintro y ⟨w, rfl⟩
      rw [← List.drop_drop, h, List.length_append, Nat.add_sub_cancel, List.drop_left]
    rw [tokens, List.mem_cons] at hmem
    rcases hmem with he | hmem
    · by_cases hne : overread delim r = []
      · rw [if_pos hne] at he
        cases he
      · rw [if_neg hne] at he
        obtain ⟨rfl, rfl⟩ := Prod.mk.inj (Option.some.inj he)
        have hsuf : overread delim r <:+ r := List.dropWhile_suffix _
        rw [hdrop hsuf]
        exact List.takeWhile_prefix _
    · exact ih (hdrop (left_suffix delim r)) hmem

/-! ## A constant set -/

theorem tokens_nil (delim : List UInt8) (n o : Nat) :
    tokens (List.replicate n delim) o [] = List.replicate n none := by
  induction n generalizing o with
  | zero => rfl
  | succ n ih =>
    have hnil : overread delim [] = [] := rfl
    rw [List.replicate_succ, tokens, if_pos hnil, left_of_overread_nil hnil, List.replicate_succ]
    exact congrArg _ (ih _)

theorem Parts.cons (h : Parts delim r ts) (hc : c ∈ delim) : Parts delim (c :: r) ts := by
  have hall : ∀ {d : List UInt8}, (∀ b ∈ d, b ∈ delim) → ∀ b ∈ c :: d, b ∈ delim := by
    intro d hd b hb
    rcases List.mem_cons.mp hb with rfl | hb
    · exact hc
    · exact hd b hb
  cases h with
  | done hd => exact .done (hall hd)
  | more hd ht htok hr h => exact Parts.more (hall hd) ht htok hr h

theorem overread_eq_nil : overread delim r = [] ↔ ∀ c ∈ r, c ∈ delim := by
  rw [overread, List.dropWhile_eq_nil_iff]
  simp

/-- The parts when a token is found: what follows it is empty, or a delimiter and what is left. -/
theorem split_of_overread (hne : overread delim r ≠ []) :
    ∃ d w, r = d ++ token delim r ++ w ∧ (∀ c ∈ d, c ∈ delim) ∧ token delim r ≠ [] ∧
      (∀ c ∈ token delim r, c ∉ delim) ∧ (∀ c ∈ w.head?, c ∈ delim) ∧ left delim r = w.drop 1 := by
  refine ⟨r.takeWhile (· ∈ delim), (overread delim r).dropWhile (· ∉ delim), ?_, fun c hc => ?_, ?_,
    fun c hc => ?_, fun c hc => ?_, rfl⟩
  · rw [List.append_assoc]
    exact parts_eq delim r
  · simpa using List.mem_takeWhile_imp hc
  · obtain ⟨c, w, hcw, hc⟩ := overread_cons hne
    rw [token, hcw, List.takeWhile_cons_of_pos (by simpa using hc)]
    exact List.cons_ne_nil _ _
  · simpa using List.mem_takeWhile_imp hc
  · have hnot := List.head?_dropWhile_not (fun b => decide (b ∉ delim)) (overread delim r)
    rw [Option.mem_def] at hc
    rw [hc] at hnot
    simpa using hnot

/-- The tokens of a constant set and the delimiters make up the string. -/
theorem tokens_parts (delim r : List UInt8) : ∃ ts, Parts delim r ts ∧
    ∀ n o, (tokens (List.replicate n delim) o r).map (Option.map Prod.snd) =
      (ts.map some ++ List.replicate n none).take n := by
  induction hn : r.length using Nat.strong_induction_on generalizing r with
  | _ n ih =>
    by_cases hne : overread delim r = []
    · refine ⟨[], .done (overread_eq_nil.mp hne), ?_⟩
      rintro (- | n) o
      · rfl
      · rw [List.replicate_succ, tokens, if_pos hne, left_of_overread_nil hne, tokens_nil]
        simp [List.replicate_succ]
    · obtain ⟨d, w, hr, hd, ht, htok, hw, hleft⟩ := split_of_overread hne
      have hlen : 0 < (token delim r).length := List.length_pos_iff.mpr ht
      obtain ⟨ts, hts, htoks⟩ := ih (w.drop 1).length (by
        rw [← hn, hr, List.length_append, List.length_append, List.length_drop]
        omega) (w.drop 1) rfl
      have hparts : Parts delim w ts := by
        cases w with
        | nil => exact hts
        | cons c w => exact Parts.cons hts (hw c rfl)
      refine ⟨token delim r :: ts, ?_, ?_⟩
      · have hmore := Parts.more hd ht htok hw hparts
        rwa [← hr] at hmore
      · rintro (- | n) o
        · rfl
        · rw [List.replicate_succ, tokens, if_neg hne, List.map_cons, hleft, htoks]
          have hle : n ≤ (ts.map some ++ List.replicate n none).length := by
            rw [List.length_append, List.length_replicate]
            omega
          rw [List.map_cons, List.cons_append, List.take_succ_cons, List.replicate_succ',
            ← List.append_assoc, List.take_append_of_le_length hle]
          rfl

theorem strtokRight_of_fit (h0 : 0 ∉ x) (hD : ∀ d ∈ delims, 0 ∉ d) (hfit : DelimsFit delims x) :
    StrtokRight x delims := by
  have hor : (some 0).or (none : Option Nat) = some 0 := rfl
  obtain ⟨rs, hrs, hptrs, hlen, -, htoks⟩ := strtokCalls_spec hfit hD h0 hor (List.drop_zero)
  refine ⟨⟨rs, hrs, hptrs, hlen.trans List.length_append, fun p t hmem => ?_⟩, ?_⟩
  · have hpre : t <+: x.drop p := tokens_prefix rfl hmem
    have ht0 : 0 ∉ t := fun h => h0 (List.mem_of_mem_drop (hpre.subset h))
    exact ⟨cstring_of_drop ht0 (htoks p t hmem), (List.prefix_iff_eq_take.mp hpre).symm⟩
  · rintro delim n rfl
    obtain ⟨ts, hparts, htoks⟩ := tokens_parts delim x
    exact ⟨ts, hparts, htoks n 0⟩

theorem not_strtokRight (h0 : 0 ∉ x) (hD : ∀ d ∈ delims, 0 ∉ d) (hfit : ¬DelimsFit delims x) :
    ¬StrtokRight x delims := by
  rintro ⟨⟨rs, hrs, -⟩, -⟩
  have hor : (some 0).or (none : Option Nat) = some 0 := rfl
  have hnone := strtokCalls_none hfit hD h0 hor (List.drop_zero)
  rw [hnone] at hrs
  cases hrs

/-- **The calls return the tokens exactly if** an `int` can count every set of delimiters that a token is
compared with. -/
theorem strtok_right_iff (h0 : 0 ∉ x) (hD : ∀ d ∈ delims, 0 ∉ d) :
    StrtokRight x delims ↔ DelimsFit delims x :=
  ⟨fun h => by_contra fun hfit => not_strtokRight h0 hD hfit h, strtokRight_of_fit h0 hD⟩

/-- `"a b"`, taken apart at blanks. -/
theorem strtok_right_iff_blank :
    StrtokRight [97, 32, 98] [[32], [32], [32]] ↔ DelimsFit [[32], [32], [32]] [97, 32, 98] :=
  strtok_right_iff (by decide) (by decide)

/-- The set is a string of 2³¹ bytes. -/
theorem strtok_overflows : ¬StrtokRight [98] [List.replicate (2 ^ 31) 97] := by
  refine not_strtokRight (by decide) (fun d hd h => ?_) fun hfit => ?_
  · rw [List.mem_singleton.mp hd] at h
    exact absurd (List.eq_of_mem_replicate h) (by decide)
  · rcases hfit.1 with hlt | hnil
    · rw [List.length_replicate] at hlt
      exact lt_irrefl _ hlt
    · have hmem := overread_eq_nil.mp hnil 98 List.mem_cons_self
      exact absurd (List.eq_of_mem_replicate hmem) (by decide)

end Dietlibc.Strings
