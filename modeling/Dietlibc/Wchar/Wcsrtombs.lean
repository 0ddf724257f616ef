import Dietlibc.Base.Mem
import Dietlibc.Wchar.Mbsrtowcs

/-!
# wcsrtombs

`wcsrtombs` in UTF-8 on a wide string that is the list of its characters in front of the null
character. `dest` has `len` bytes and is at the start of a memory. A write behind it, or behind the
side buffer of `MB_CUR_MAX` bytes, is undefined, and the call has no result.
-/

namespace Dietlibc.Wchar

open Mem

/-- `MB_CUR_MAX` -/
def mbCurMax : Nat := 5

/-- `wcrtomb` with a null pointer for `s`. -/
def wcrtombNull (wc : Int) : Nat := if 0x80 ≤ wc then 1 else 0

/-- The result, the memory of `dest`, and the string at `*src`. -/
structure Stored where
  ret : Nat
  dest : Mem
  src : List Int

/-- The loop and the end of `wcsrtombs`. The difference of `len` and `cur` is a `size_t`. -/
def wcsrtombsLoop (hasDest : Bool) (len : Nat) : List Int → Nat → Mem → Option Stored
  | [], cur, m => some ⟨cur, if hasDest ∧ cur < len then store m cur [0] else m, []⟩
  | c :: cs, cur, m =>
    let (n, bytes) := wcrtomb .utf8 c
    if mbCurMax ≤ CInt.usub 64 len cur then
      if hasDest then
        if cur + n ≤ len then wcsrtombsLoop hasDest len cs (cur + n) (store m cur bytes) else none
      else wcsrtombsLoop hasDest len cs (cur + wcrtombNull c) m
    else if mbCurMax < n then none
    else if hasDest then
      if len < n then some ⟨cur, m, c :: cs⟩
      else if cur + n ≤ len then wcsrtombsLoop hasDest len cs (cur + n) (store m cur bytes)
      else none
    else wcsrtombsLoop hasDest len cs (cur + n) m

def wcsrtombs (hasDest : Bool) (wcs : List Int) (len : Nat) (m : Mem) : Option Stored :=
  wcsrtombsLoop hasDest (if hasDest then len else 2 ^ 64 - 1) wcs 0 m

/-- The longest prefix of characters whose bytes fit. -/
def LongestFit (wcs : List Int) (len : Nat) (p : List Int) : Prop :=
  p <+: wcs ∧ (encode p).length ≤ len ∧
    ∀ q, q <+: wcs → (encode q).length ≤ len → q.length ≤ p.length

/-- **What `wcsrtombs` is for**: the bytes of the longest prefix that fits are stored and their number
is returned, with a NUL behind the whole string when there is room. Without `dest` it counts the
bytes. -/
def Delivers (hasDest : Bool) (wcs : List Int) (len : Nat) (m : Mem) (r : Stored) : Prop :=
  if hasDest then
    ∃ p, LongestFit wcs len p ∧ r.ret = (encode p).length ∧
      r.dest = store m 0 (encode p ++ if p = wcs ∧ (encode p).length < len then [0] else [])
  else r.ret = (encode wcs).length

variable {hasDest : Bool} {c : Int} {cs p q wcs : List Int} {len cur : Nat} {m : Mem} {r : Stored}

/-- A character of a wide string. -/
def IsChar (c : Int) : Prop := 1 ≤ c ∧ c < 2 ^ 31

theorem IsChar.length (h : IsChar c) : (wcrtomb .utf8 c).2.length = (wcrtomb .utf8 c).1 ∧
    1 ≤ (wcrtomb .utf8 c).1 ∧ (wcrtomb .utf8 c).1 ≤ 6 := by
  unfold IsChar at h
  exact wcrtomb_length (by omega)

theorem length_encode_cons (h : IsChar c) (cs : List Int) :
    (encode (c :: cs)).length = (wcrtomb .utf8 c).1 + (encode cs).length := by
  rw [encode_cons, List.length_append, h.length.1]

theorem length_encode_append (p q : List Int) :
    (encode (p ++ q)).length = (encode p).length + (encode q).length := by
  unfold encode
  rw [List.flatMap_append, List.length_append]

/-! ## The loop with a destination -/

/-- A turn with a character that fits, in place or over the side buffer. -/
theorem wcsrtombs_fits (hlen : len < 2 ^ 64) (hfit : cur + (wcrtomb .utf8 c).1 ≤ len) :
    wcsrtombsLoop true len (c :: cs) cur m =
      wcsrtombsLoop true len cs (cur + (wcrtomb .utf8 c).1) (store m cur (wcrtomb .utf8 c).2) := by
  have hroom : CInt.usub 64 len cur = len - cur := CInt.usub_of_le (by omega) hlen
  have hmax : mbCurMax = 5 := rfl
  rw [wcsrtombsLoop]
  simp only [hroom, if_true, hfit]
  split
  · rfl
  · rw [if_neg (by omega), if_neg (by omega)]

/-- A turn with a character that does not fit: the only one that ends well is longer than `dest`. -/
theorem wcsrtombs_unfit (h : IsChar c) (hlen : len < 2 ^ 64) (hcur : cur ≤ len)
    (hfit : len < cur + (wcrtomb .utf8 c).1) :
    wcsrtombsLoop true len (c :: cs) cur m =
      if len < (wcrtomb .utf8 c).1 ∧ (wcrtomb .utf8 c).1 ≤ 5 then some ⟨cur, m, c :: cs⟩
      else none := by
  have hroom : CInt.usub 64 len cur = len - cur := CInt.usub_of_le hcur hlen
  have hmax : mbCurMax = 5 := rfl
  have hsix := h.length.2.2
  have hnot : ¬cur + (wcrtomb .utf8 c).1 ≤ len := Nat.not_le_of_lt hfit
  rw [wcsrtombsLoop]
  simp only [hroom, if_true, hnot, if_false, hmax]
  by_cases hplace : 5 ≤ len - cur
  · rw [if_pos hplace, if_neg (by omega)]
  · rw [if_neg hplace]
    by_cases hbuf : 5 < (wcrtomb .utf8 c).1
    · rw [if_pos hbuf, if_neg (by omega)]
    · rw [if_neg hbuf]
      by_cases hstop : len < (wcrtomb .utf8 c).1
      · rw [if_pos hstop, if_pos ⟨hstop, by omega⟩]
      · rw [if_neg hstop, if_neg (fun h => hstop h.1)]

/-- **The characters that fit are stored** one behind the other. -/
theorem wcsrtombs_run (hp : ∀ c ∈ p, IsChar c) (hlen : len < 2 ^ 64)
    (hfit : cur + (encode p).length ≤ len) :
    wcsrtombsLoop true len (p ++ cs) cur m =
      wcsrtombsLoop true len cs (cur + (encode p).length) (store m cur (encode p)) := by
  induction p generalizing cur m with
  | nil =>
    rw [show encode [] = [] from rfl, store_nil]
    rfl
  | cons c p ih =>
    obtain ⟨hc, hp⟩ := List.forall_mem_cons.1 hp
    rw [length_encode_cons hc] at hfit ⊢
    rw [List.cons_append, wcsrtombs_fits hlen (by omega), ih hp (by omega), encode_cons,
      ← hc.length.1, store_append, Nat.add_assoc]

/-! ## The longest prefix -/

/-- Either all characters fit or there is a first one that does not. -/
theorem fit_cases (hwcs : ∀ c ∈ wcs, IsChar c) (len : Nat) : (encode wcs).length ≤ len ∨
    ∃ p c cs, wcs = p ++ c :: cs ∧ (encode p).length ≤ len ∧
      len < (encode p).length + (wcrtomb .utf8 c).1 := by
  induction wcs generalizing len with
  | nil => exact Or.inl (Nat.zero_le _)
  | cons c cs ih =>
    obtain ⟨hc, hcs⟩ := List.forall_mem_cons.1 hwcs
    by_cases hfit : (wcrtomb .utf8 c).1 ≤ len
    · rcases ih hcs (len - (wcrtomb .utf8 c).1) with hall | ⟨p, d, ds, rfl, hp, hd⟩
      · left
        rw [length_encode_cons hc]
        omega
      · right
        refine ⟨c :: p, d, ds, rfl, ?_, ?_⟩
        · rw [length_encode_cons hc]
          omega
        · rw [length_encode_cons hc]
          omega
    · exact Or.inr ⟨[], c, cs, rfl, Nat.zero_le _, (Nat.zero_add _).symm ▸ Nat.lt_of_not_le hfit⟩

theorem longestFit_whole (h : (encode wcs).length ≤ len) : LongestFit wcs len wcs :=
  ⟨List.prefix_rfl, h, fun _ hq _ => hq.length_le⟩

/-- A prefix up to a character that does not fit is the longest. -/
theorem longestFit_split (cs : List Int) (hp : (encode p).length ≤ len)
    (hc : len < (encode p).length + (wcrtomb .utf8 c).1) (hchar : IsChar c) :
    LongestFit (p ++ c :: cs) len p := by
  refine ⟨List.prefix_append _ _, hp, fun q hq hfit => ?_⟩
  by_contra hlong
  have hsub : p ++ [c] <+: q := by
    refine List.prefix_of_prefix_length_le ?_ hq ?_
    · exact ⟨cs, by rw [List.append_assoc]; rfl⟩
    · rw [List.length_append, List.length_singleton]
      omega
  obtain ⟨t, rfl⟩ := hsub
  rw [length_encode_append, length_encode_append, length_encode_cons hchar] at hfit
  omega

theorem longestFit_unique (hp : LongestFit wcs len p) (hq : LongestFit wcs len q) : p = q := by
  have hle := hq.2.2 p hp.1 hp.2.1
  have hge := hp.2.2 q hq.1 hq.2.1
  exact (List.prefix_of_prefix_length_le hp.1 hq.1 hle).eq_of_length (Nat.le_antisymm hle hge)

/-! ## The call -/

/-- The whole string fits, or the first character that does not fit is longer than `dest` and not
longer than the side buffer. -/
def StopsWell (wcs : List Int) (len : Nat) : Prop :=
  (encode wcs).length ≤ len ∨
    ∃ p c cs, wcs = p ++ c :: cs ∧ (encode p).length ≤ len ∧
      len < (encode p).length + (wcrtomb .utf8 c).1 ∧ len < (wcrtomb .utf8 c).1 ∧
      (wcrtomb .utf8 c).1 ≤ 5

theorem wcsrtombs_whole (hwcs : ∀ c ∈ wcs, IsChar c) (hlen : len < 2 ^ 64)
    (hfit : (encode wcs).length ≤ len) :
    ∃ r, wcsrtombs true wcs len m = some r ∧ Delivers true wcs len m r := by
  have hrun : wcsrtombsLoop true len (wcs ++ []) 0 m =
      wcsrtombsLoop true len [] (0 + (encode wcs).length) (store m 0 (encode wcs)) :=
    wcsrtombs_run hwcs hlen (by omega)
  rw [List.append_nil, Nat.zero_add] at hrun
  refine ⟨_, hrun, wcs, longestFit_whole hfit, rfl, ?_⟩
  by_cases hroom : (encode wcs).length < len
  · have hnul := store_append (m := m) (a := 0) (encode wcs) [0]
    rw [Nat.zero_add] at hnul
    simp only [hroom, and_self, if_true]
    exact hnul
  · simp only [hroom, and_false, if_false, List.append_nil]

theorem wcsrtombs_split (cs : List Int) (m : Mem) (hp : ∀ c ∈ p, IsChar c) (hc : IsChar c)
    (hlen : len < 2 ^ 64) (hfit : (encode p).length ≤ len)
    (hover : len < (encode p).length + (wcrtomb .utf8 c).1) :
    wcsrtombs true (p ++ c :: cs) len m =
      if len < (wcrtomb .utf8 c).1 ∧ (wcrtomb .utf8 c).1 ≤ 5 then
        some ⟨(encode p).length, store m 0 (encode p), c :: cs⟩
      else none := by
  have hcall : wcsrtombs true (p ++ c :: cs) len m = wcsrtombsLoop true len (p ++ c :: cs) 0 m := rfl
  rw [hcall, wcsrtombs_run hp hlen (by omega), Nat.zero_add, wcsrtombs_unfit hc hlen hfit hover]

/-- With `dest` the call does what it is for exactly when it stops well. -/
theorem delivers_dest_iff (hwcs : ∀ c ∈ wcs, IsChar c) (hlen : len < 2 ^ 64) :
    (∃ r, wcsrtombs true wcs len m = some r ∧ Delivers true wcs len m r) ↔ StopsWell wcs len := by
  rcases fit_cases hwcs len with hall | ⟨p, c, cs, rfl, hfit, hover⟩
  · exact iff_of_true (wcsrtombs_whole hwcs hlen hall) (Or.inl hall)
  have hp : ∀ c ∈ p, IsChar c := fun x hx => hwcs x (List.mem_append_left _ hx)
  have hc : IsChar c := hwcs c (List.mem_append_right _ List.mem_cons_self)
  have hsplit := wcsrtombs_split cs m hp hc hlen hfit hover
  constructor
  · rintro ⟨r, hr, -⟩
    rw [hsplit] at hr
    split at hr
    · exact Or.inr ⟨p, c, cs, rfl, hfit, hover, ‹_ ∧ _›⟩
    · cases hr
  · intro hstop
    have hlong := longestFit_split cs hfit hover hc
    have hne : p ≠ p ++ c :: cs := by simp
    have hwell : len < (wcrtomb .utf8 c).1 ∧ (wcrtomb .utf8 c).1 ≤ 5 := by
      rcases hstop with hall | ⟨q, d, ds, heq, hq, hd, hwell⟩
      · rw [length_encode_append, length_encode_cons hc] at hall
        omega
      · have hd' : IsChar d := hwcs d (heq ▸ List.mem_append_right _ List.mem_cons_self)
        have hpq : p = q := longestFit_unique hlong (heq ▸ longestFit_split ds hq hd hd')
        rw [hpq, List.append_cancel_left_eq] at heq
        rw [(List.cons.inj heq).1]
        exact hwell
    rw [if_pos hwell] at hsplit
    refine ⟨_, hsplit, p, hlong, rfl, ?_⟩
    simp only [hne, false_and, if_false, List.append_nil]

/-- Without `dest` a call counts the characters from `0x80` on. -/
theorem wcsrtombs_null (hsize : cur + cs.length < 2 ^ 63) :
    wcsrtombsLoop false (2 ^ 64 - 1) cs cur m =
      some ⟨cur + cs.countP (fun c => decide (0x80 ≤ c)), m, []⟩ := by
  induction cs generalizing cur with
  | nil => simp [wcsrtombsLoop]
  | cons c cs ih =>
    rw [List.length_cons] at hsize
    have hroom : mbCurMax ≤ CInt.usub 64 (2 ^ 64 - 1) cur := by
      rw [CInt.usub_of_le (by omega) (by norm_num)]
      unfold mbCurMax
      omega
    have hone : wcrtombNull c = if decide (0x80 ≤ c) = true then 1 else 0 := by
      unfold wcrtombNull
      simp only [decide_eq_true_eq]
    have hle : wcrtombNull c ≤ 1 := by
      unfold wcrtombNull
      split <;> decide
    rw [wcsrtombsLoop]
    simp only [hroom, if_true, Bool.false_eq_true, if_false]
    rw [ih (by omega), List.countP_cons, ← hone, Nat.add_assoc, Nat.add_comm (wcrtombNull c)]

/-- A character has more bytes than the call counts. -/
theorem countP_lt_encode (hwcs : ∀ c ∈ wcs, IsChar c) :
    wcs.countP (fun c => decide (0x80 ≤ c)) + wcs.length ≤ (encode wcs).length := by
  induction wcs with
  | nil => exact Nat.zero_le _
  | cons c cs ih =>
    obtain ⟨hc, hcs⟩ := List.forall_mem_cons.1 hwcs
    have htail := ih hcs
    have hone : (if decide (0x80 ≤ c) = true then 1 else 0) + 1 ≤ (wcrtomb .utf8 c).1 := by
      unfold IsChar at hc
      rcases wcrtomb_utf8 (show 0 ≤ c ∧ c < 2 ^ 31 by omega) with ⟨hlt, he⟩ | ⟨j, d, h1, -, hge, he, -⟩
      · rw [he, if_neg (by simpa using hlt)]
      · rw [he, if_pos (by simpa using hge)]
        show 1 + 1 ≤ j + 1
        omega
    rw [List.countP_cons, List.length_cons, length_encode_cons hc]
    omega

/-- **`wcsrtombs` respects its limit exactly when it stops well**, and without `dest` it counts only
the empty string right. -/
theorem wcsrtombs_delivers_iff (hwcs : ∀ c ∈ wcs, 1 ≤ c ∧ c ≤ 0x7fffffff) (hsize : wcs.length < 2 ^ 62)
    (hlen : len < 2 ^ 64) :
    (∃ r, wcsrtombs hasDest wcs len m = some r ∧ Delivers hasDest wcs len m r) ↔
      if hasDest then StopsWell wcs len else wcs = [] := by
  have hchars : ∀ c ∈ wcs, IsChar c := fun c hc => by
    have := hwcs c hc
    exact ⟨this.1, by omega⟩
  cases hasDest with
  | true => exact delivers_dest_iff hchars hlen
  | false =>
    have hcall : wcsrtombs false wcs len m = wcsrtombsLoop false (2 ^ 64 - 1) wcs 0 m := rfl
    have hcount := countP_lt_encode hchars
    rw [hcall, wcsrtombs_null (by omega), Nat.zero_add]
    constructor
    · rintro ⟨r, hr, hret⟩
      obtain rfl := Option.some.inj hr
      have hret' : wcs.countP (fun c => decide (0x80 ≤ c)) = (encode wcs).length := hret
      exact List.eq_nil_of_length_eq_zero (by omega)
    · rintro rfl
      exact ⟨_, rfl, rfl⟩

/-- Two characters with room for a third byte. -/
theorem wcsrtombs_delivers_two :
    ∃ r, wcsrtombs true [0x41, 0x42] 3 (fun _ => 0xff) = some r ∧
      Delivers true [0x41, 0x42] 3 (fun _ => 0xff) r := by
  have hwcs : ∀ c ∈ [(0x41 : Int), 0x42], 1 ≤ c ∧ c ≤ 0x7fffffff := by simp
  refine (wcsrtombs_delivers_iff hwcs (by norm_num) (by norm_num)).2 ?_
  exact Or.inl (by decide : (encode [0x41, 0x42]).length ≤ 3)

/-- Two characters of two bytes in three: the second one is written behind `dest`. -/
theorem wcsrtombs_behind : ¬∀ (hasDest : Bool) (wcs : List Int) (len : Nat) (m : Mem),
    (∀ c ∈ wcs, 1 ≤ c ∧ c ≤ 0x7fffffff) → wcs.length < 2 ^ 62 → len < 2 ^ 64 →
    ∃ r, wcsrtombs hasDest wcs len m = some r ∧ Delivers hasDest wcs len m r := by
  intro h
  obtain ⟨r, hr, -⟩ := h true [0xe9, 0xe9] 3 (fun _ => 0) (by simp) (by norm_num) (by norm_num)
  have hnone : wcsrtombs true [0xe9, 0xe9] 3 (fun _ => 0) = none := by decide
  cases hnone.symm.trans hr

end Dietlibc.Wchar
