import Dietlibc.Wchar.Restart

/-!
# mbsrtowcs

`mbsrtowcs` in UTF-8 on a string that is the list of its bytes with the NUL. `*src` is an offset in the
string, or the null pointer. `dest` is what has been stored in its elements. A read behind the NUL is
undefined, and the call has no result.
-/

namespace Dietlibc.Wchar

/-- The result, the elements of `dest` that have been stored, and `*src`. -/
structure Converted where
  ret : Nat
  dest : Nat → Option Int
  src : Option Nat
  ps : MbState

/-- The loop from index `i` and offset `pos` on, with `k` turns to go. `mbrtowc` gets `len` for the
number of bytes. -/
def mbsrtowcsLoop (hasDest : Bool) (s : List UInt8) (len : Nat) :
    Nat → Nat → Nat → (Nat → Option Int) → MbState → Option Converted
  | 0, i, pos, dest, ps => some ⟨i, dest, some pos, ps⟩
  | k + 1, i, pos, dest, ps =>
    let (n, wc, ps) := mbrtowc .utf8 ((s.drop pos).take len) ps
    let dest := if hasDest ∧ wc ≠ none then Function.update dest i wc else dest
    if n = illegal then some ⟨illegal, dest, some pos, ps⟩
    else if wc = none ∧ (s.drop pos).length < len then none
    else if n = 0 then some ⟨i, dest, some pos, ps⟩
    else mbsrtowcsLoop hasDest s len k (i + 1) (pos + n) dest ps

/-- `mbsrtowcs` of the string `s`. -/
def mbsrtowcs (hasDest : Bool) (s : List UInt8) (len : Nat) (ps : MbState) : Option Converted :=
  let len := if hasDest then len else 2 ^ 64 - 1
  mbsrtowcsLoop hasDest s len len 0 0 (fun _ => none) ps

/-- The bytes of characters. -/
def encode (wcs : List Int) : List UInt8 := wcs.flatMap fun wc => (wcrtomb .utf8 wc).2

/-- **What `mbsrtowcs` is for**: it stores up to `len` characters and the null character behind them,
returns their number and steps over their bytes, or to the null pointer behind the null character.
Without `dest` it counts. -/
def Converts (hasDest : Bool) (wcs : List Int) (len : Nat) (r : Converted) : Prop :=
  if hasDest then
    r.ret = min len wcs.length ∧
    (∀ i, r.dest i = if i < min len wcs.length then wcs[i]?
      else if i = wcs.length ∧ wcs.length < len then some 0 else none) ∧
    r.src = if wcs.length < len then none else some (encode (wcs.take len)).length
  else r.ret = wcs.length

variable {hasDest : Bool} {s : List UInt8} {wc : Int} {rest : List Int} {len k i pos : Nat}
  {dest : Nat → Option Int} {ps : MbState} {r : Converted}

/-! ## One turn -/

theorem encode_cons (wc : Int) (rest : List Int) :
    encode (wc :: rest) = (wcrtomb .utf8 wc).2 ++ encode rest := List.flatMap_cons

/-- A character that fits in `len` bytes. -/
theorem mbrtowc_fits (h : 1 ≤ wc ∧ wc < 2 ^ 31) (hps : ps.Initial)
    (hfit : (wcrtomb .utf8 wc).1 ≤ len) :
    mbrtowc .utf8 ((encode (wc :: rest) ++ [0]).take len) ps =
      ((wcrtomb .utf8 wc).1, some wc, ⟨0, 0⟩) := by
  have hlen := (wcrtomb_length (show 0 ≤ wc ∧ wc < 2 ^ 31 by omega)).1
  rw [encode_cons, List.append_assoc, List.take_append, List.take_of_length_le (by omega)]
  exact mbrtowc_wcrtomb h hps _

/-- A character that does not fit is left open. -/
theorem mbrtowc_cut (rest : List Int) (h : 1 ≤ wc ∧ wc < 2 ^ 31) (hps : ps.Initial)
    (hfit : len < (wcrtomb .utf8 wc).1) :
    ∃ ps', mbrtowc .utf8 ((encode (wc :: rest) ++ [0]).take len) ps = (len, none, ps') := by
  have hlen := (wcrtomb_length (show 0 ≤ wc ∧ wc < 2 ^ 31 by omega)).1
  have hwhole : mbrtowcLoop .utf8 ((wcrtomb .utf8 wc).2.take len ++ (wcrtomb .utf8 wc).2.drop len) 0
      ps = (0 + ((wcrtomb .utf8 wc).2.take len ++ (wcrtomb .utf8 wc).2.drop len).length, some wc,
        ⟨0, 0⟩) := by
    have hall := mbrtowc_wcrtomb h hps []
    rw [List.append_nil] at hall
    rw [List.take_append_drop, Nat.zero_add, hlen]
    exact hall
  have htake : (encode (wc :: rest) ++ [0]).take len = (wcrtomb .utf8 wc).2.take len := by
    rw [encode_cons, List.append_assoc, List.take_append_of_le_length (by omega)]
  have hne : (wcrtomb .utf8 wc).2.drop len ≠ [] := by
    rw [ne_eq, List.drop_eq_nil_iff]
    omega
  obtain ⟨ps', hcut, -⟩ := mbrtowcLoop_split hne hwhole
  refine ⟨ps', ?_⟩
  rw [htake]
  unfold mbrtowc
  rw [hcut, List.length_take, Nat.zero_add, Nat.min_eq_left (by omega)]

theorem mbrtowc_nul (hps : ps.Initial) (hlen : 0 < len) :
    mbrtowc .utf8 ((encode [] ++ [0]).take len) ps = (0, some 0, ⟨0, 0⟩) := by
  obtain ⟨m, rfl⟩ : ∃ m, len = m + 1 := ⟨len - 1, by omega⟩
  show mbrtowcLoop .utf8 (0 :: List.take m []) 0 ps = _
  have hturn := turn_ascii (k := 0) (by decide) hps
  have hzero : UInt8.ofInt ((0 : Nat) : Int) = 0 := rfl
  rw [hzero] at hturn
  rw [mbrtowcLoop, hturn]
  rfl

/-! ## Runs -/

theorem drop_step (hs : s.drop pos = encode (wc :: rest) ++ [0]) (h : 0 ≤ wc ∧ wc < 2 ^ 31) :
    s.drop (pos + (wcrtomb .utf8 wc).1) = encode rest ++ [0] := by
  have hlen := (wcrtomb_length h).1
  rw [← List.drop_drop, hs, encode_cons, List.append_assoc, ← hlen, List.drop_left]

/-- A turn with a character that fits. -/
theorem loop_fits (h : 1 ≤ wc ∧ wc < 2 ^ 31) (hps : ps.Initial)
    (hs : s.drop pos = encode (wc :: rest) ++ [0]) (hfit : (wcrtomb .utf8 wc).1 ≤ len) :
    mbsrtowcsLoop hasDest s len (k + 1) i pos dest ps =
      mbsrtowcsLoop hasDest s len k (i + 1) (pos + (wcrtomb .utf8 wc).1)
        (if hasDest then Function.update dest i (some wc) else dest) ⟨0, 0⟩ := by
  obtain ⟨-, h1, h6⟩ := wcrtomb_length (show 0 ≤ wc ∧ wc < 2 ^ 31 by omega)
  have hne : (wcrtomb .utf8 wc).1 ≠ illegal := by unfold illegal; omega
  rw [mbsrtowcsLoop, hs, mbrtowc_fits h hps hfit]
  simp only [hne, if_false, reduceCtorEq, false_and, ne_eq, not_false_eq_true, and_true,
    Nat.ne_of_gt h1]

/-- A turn with a character that does not fit. -/
theorem loop_cut (h : 1 ≤ wc ∧ wc < 2 ^ 31) (hps : ps.Initial)
    (hs : s.drop pos = encode (wc :: rest) ++ [0]) (hlen : 0 < len)
    (hfit : len < (wcrtomb .utf8 wc).1) :
    ∃ ps', mbsrtowcsLoop hasDest s len (k + 1) i pos dest ps =
      mbsrtowcsLoop hasDest s len k (i + 1) (pos + len) dest ps' := by
  obtain ⟨hl, h1, h6⟩ := wcrtomb_length (show 0 ≤ wc ∧ wc < 2 ^ 31 by omega)
  obtain ⟨ps', hcut⟩ := mbrtowc_cut rest h hps hfit
  have hne : len ≠ illegal := by unfold illegal; omega
  have hin : ¬(encode (wc :: rest) ++ [0]).length < len := by
    rw [encode_cons, List.length_append, List.length_append]
    omega
  refine ⟨ps', ?_⟩
  rw [mbsrtowcsLoop, hs, hcut]
  simp only [hne, if_false, ne_eq, not_true_eq_false, and_false, hin, Nat.ne_of_gt hlen]

theorem loop_nul (hps : ps.Initial) (hs : s.drop pos = encode [] ++ [0]) (hlen : 0 < len) :
    mbsrtowcsLoop hasDest s len (k + 1) i pos dest ps =
      some ⟨i, if hasDest then Function.update dest i (some 0) else dest, some pos, ⟨0, 0⟩⟩ := by
  have hne : (0 : Nat) ≠ illegal := by decide
  rw [mbsrtowcsLoop, hs, mbrtowc_nul hps hlen]
  simp only [hne, if_false, reduceCtorEq, false_and, ne_eq, not_false_eq_true, and_true, if_true]

/-- What `k` turns from index `i` on store of the characters `rest`. -/
def stores (rest : List Int) (k i : Nat) (dest : Nat → Option Int) : Nat → Option Int := fun j =>
  if i ≤ j ∧ j < i + min k rest.length then rest[j - i]?
  else if j = i + rest.length ∧ rest.length < k then some 0 else dest j

theorem stores_zero (rest : List Int) (i : Nat) : stores rest 0 i dest = dest := by
  funext j
  unfold stores
  rw [if_neg (by omega), if_neg (by omega)]

theorem stores_nil (k i : Nat) : stores [] (k + 1) i dest = Function.update dest i (some 0) := by
  funext j
  unfold stores
  rw [if_neg (by rw [List.length_nil]; omega), Function.update_apply]
  congr 1
  exact propext ⟨fun h => h.1, fun h => ⟨h, Nat.succ_pos k⟩⟩

theorem stores_cons (wc : Int) (rest : List Int) (k i : Nat) :
    stores rest k (i + 1) (Function.update dest i (some wc)) = stores (wc :: rest) (k + 1) i dest := by
  funext j
  unfold stores
  rw [List.length_cons, Function.update_apply]
  rcases Nat.lt_trichotomy j i with hj | rfl | hj
  · rw [if_neg (by omega), if_neg (by omega), if_neg (by omega), if_neg (by omega),
      if_neg (by omega)]
  · rw [if_neg (by omega), if_neg (by omega), if_pos rfl, if_pos (by omega), Nat.sub_self]
    rfl
  · obtain ⟨m, rfl⟩ : ∃ m, j = i + 1 + m := ⟨j - (i + 1), by omega⟩
    rw [if_neg (by omega : ¬i + 1 + m = i), show i + 1 + m - (i + 1) = m by omega,
      show i + 1 + m - i = m + 1 by omega, List.getElem?_cons_succ]
    congr 1
    · exact propext (by omega)
    · congr 1
      exact propext (by omega)

/-- **A run over characters that fit**: what is stored, where it ends and what it returns. -/
theorem loop_run (hlen : 0 < len) (hrest : ∀ wc ∈ rest, 1 ≤ wc ∧ wc < 2 ^ 31) (hps : ps.Initial)
    (hs : s.drop pos = encode rest ++ [0])
    (hfit : ∀ wc ∈ rest.take k, (wcrtomb .utf8 wc).1 ≤ len) :
    ∃ ps', mbsrtowcsLoop hasDest s len k i pos dest ps =
      some ⟨i + min k rest.length, if hasDest then stores rest k i dest else dest,
        some (pos + (encode (rest.take k)).length), ps'⟩ := by
  induction k generalizing rest i pos dest ps with
  | zero =>
    refine ⟨ps, ?_⟩
    rw [stores_zero, Nat.zero_min, List.take_zero, ite_self]
    rfl
  | succ k ih =>
    cases rest with
    | nil =>
      refine ⟨⟨0, 0⟩, ?_⟩
      rw [loop_nul hps hs hlen, stores_nil]
      rfl
    | cons wc rest =>
      obtain ⟨hwc, hrest⟩ := List.forall_mem_cons.1 hrest
      rw [List.take_succ_cons] at hfit
      obtain ⟨hfit1, hfit⟩ := List.forall_mem_cons.1 hfit
      have hl := (wcrtomb_length (show 0 ≤ wc ∧ wc < 2 ^ 31 by omega)).1
      rw [loop_fits hwc hps hs hfit1]
      obtain ⟨ps', hrun⟩ := @ih rest (i + 1) (pos + (wcrtomb .utf8 wc).1)
        (if hasDest then Function.update dest i (some wc) else dest) ⟨0, 0⟩ hrest rfl
        (drop_step hs (by omega)) hfit
      refine ⟨ps', ?_⟩
      rw [hrun, List.take_succ_cons, encode_cons, List.length_append, hl,
        List.length_cons]
      congr 2
      · omega
      · cases hasDest
        · rfl
        · exact stores_cons wc rest k i
      · rw [Nat.add_assoc]

/-- What is below the index stays. -/
theorem loop_frame (h : mbsrtowcsLoop hasDest s len k i pos dest ps = some r) {j : Nat} (hj : j < i) :
    r.dest j = dest j := by
  induction k generalizing i pos dest ps with
  | zero =>
    cases h
    rfl
  | succ k ih =>
    have hstore : ∀ wc : Option Int,
        (if hasDest ∧ wc ≠ none then Function.update dest i wc else dest) j = dest j := by
      intro wc
      split
      · exact Function.update_of_ne hj.ne _ _
      · rfl
    rw [mbsrtowcsLoop] at h
    dsimp only at h
    split at h
    · cases h
      exact hstore _
    · split at h
      · cases h
      · split at h
        · cases h
          exact hstore _
        · exact (ih h (Nat.lt_succ_of_lt hj)).trans (hstore _)

/-- **A character that does not fit leaves an element out.** -/
theorem loop_gap (hlen : 0 < len) (hrest : ∀ wc ∈ rest, 1 ≤ wc ∧ wc < 2 ^ 31) (hps : ps.Initial)
    (hs : s.drop pos = encode rest ++ [0]) (hgap : ∃ wc ∈ rest.take k, len < (wcrtomb .utf8 wc).1)
    (hdest : ∀ j, i ≤ j → dest j = none)
    (h : mbsrtowcsLoop true s len k i pos dest ps = some r) :
    ∃ j < min k rest.length, r.dest (i + j) = none := by
  induction k generalizing rest i pos dest ps with
  | zero =>
    obtain ⟨wc, hwc, -⟩ := hgap
    cases hwc
  | succ k ih =>
    cases rest with
    | nil =>
      obtain ⟨wc, hwc, -⟩ := hgap
      cases hwc
    | cons wc rest =>
      obtain ⟨hwc, hrest⟩ := List.forall_mem_cons.1 hrest
      by_cases hfit : (wcrtomb .utf8 wc).1 ≤ len
      · rw [loop_fits hwc hps hs hfit, if_pos rfl] at h
        have hgap' : ∃ wc ∈ rest.take k, len < (wcrtomb .utf8 wc).1 := by
          obtain ⟨w, hw, hlt⟩ := hgap
          rw [List.take_succ_cons] at hw
          rcases List.mem_cons.1 hw with rfl | hw
          · exact absurd hfit (Nat.not_le_of_lt hlt)
          · exact ⟨w, hw, hlt⟩
        have hdest' : ∀ j, i + 1 ≤ j → Function.update dest i (some wc) j = none := fun j hj =>
          (Function.update_of_ne (by omega) _ _).trans (hdest j (by omega))
        obtain ⟨j, hj, hnone⟩ := @ih rest (i + 1) _ _ ⟨0, 0⟩ hrest rfl
          (drop_step hs (by omega)) hgap' hdest' h
        refine ⟨j + 1, by rw [List.length_cons]; omega, ?_⟩
        rw [← Nat.add_assoc, Nat.add_right_comm]
        exact hnone
      · obtain ⟨ps', hcut⟩ : ∃ ps', mbsrtowcsLoop true s len (k + 1) i pos dest ps =
            mbsrtowcsLoop true s len k (i + 1) (pos + len) dest ps' :=
          loop_cut hwc hps hs hlen (Nat.lt_of_not_le hfit)
        rw [hcut] at h
        refine ⟨0, by rw [List.length_cons]; omega, ?_⟩
        rw [Nat.add_zero, loop_frame h (Nat.lt_succ_self i)]
        exact hdest i le_rfl

/-- The condition on the characters and `len`: none or at least one character behind the first `len`,
and the bytes of each of the first `len` fit in `len` bytes. -/
def Fits (wcs : List Int) (len : Nat) : Prop :=
  len ≤ wcs.length ∧ ∀ wc ∈ wcs.take len, (wcrtomb .utf8 wc).1 ≤ len

theorem length_le_encode (wcs : List Int) (h : ∀ wc ∈ wcs, 1 ≤ wc ∧ wc < 2 ^ 31) :
    wcs.length ≤ (encode wcs).length := by
  induction wcs with
  | nil => exact Nat.zero_le _
  | cons wc wcs ih =>
    obtain ⟨hwc, hrest⟩ := List.forall_mem_cons.1 h
    obtain ⟨hl, h1, -⟩ := wcrtomb_length (show 0 ≤ wc ∧ wc < 2 ^ 31 by omega)
    have := ih hrest
    rw [encode_cons, List.length_append, List.length_cons]
    omega

/-- The whole call over characters that fit. -/
theorem loop_whole {wcs : List Int} (hlen : 0 < len) (h : ∀ wc ∈ wcs, 1 ≤ wc ∧ wc < 2 ^ 31)
    (hps : ps.Initial) (hfit : ∀ wc ∈ wcs.take len, (wcrtomb .utf8 wc).1 ≤ len) :
    ∃ ps', mbsrtowcsLoop hasDest (encode wcs ++ [0]) len len 0 0 (fun _ => none) ps =
      some ⟨min len wcs.length,
        if hasDest then stores wcs len 0 (fun _ => none) else fun _ => none,
        some (encode (wcs.take len)).length, ps'⟩ := by
  have hrun := @loop_run hasDest (encode wcs ++ [0]) wcs len len 0 0 (fun _ => none) ps hlen h hps
    rfl hfit
  rwa [Nat.zero_add, Nat.zero_add] at hrun

/-- With `dest` the call does what it is for exactly when the characters fit. -/
theorem converts_dest_iff {wcs : List Int} (h : ∀ wc ∈ wcs, 1 ≤ wc ∧ wc < 2 ^ 31) (hps : ps.Initial) :
    (∃ r, mbsrtowcs true (encode wcs ++ [0]) len ps = some r ∧ Converts true wcs len r) ↔
      Fits wcs len := by
  have hcall : mbsrtowcs true (encode wcs ++ [0]) len ps =
      mbsrtowcsLoop true (encode wcs ++ [0]) len len 0 0 (fun _ => none) ps := rfl
  rw [hcall]
  rcases Nat.eq_zero_or_pos len with rfl | hlen
  · refine ⟨fun _ => ⟨Nat.zero_le _, by simp⟩, fun _ => ⟨_, rfl, ?_⟩⟩
    simp [Converts, encode]
  constructor
  · rintro ⟨r, hr, hret, hdest, hsrc⟩
    have hfits : ∀ wc ∈ wcs.take len, (wcrtomb .utf8 wc).1 ≤ len := by
      by_contra hgap
      push Not at hgap
      obtain ⟨j, hj, hnone⟩ := loop_gap hlen h hps rfl hgap (fun _ _ => rfl) hr
      rw [Nat.zero_add, hdest j, if_pos hj, List.getElem?_eq_none_iff] at hnone
      omega
    refine ⟨?_, hfits⟩
    obtain ⟨ps', hrun⟩ := @loop_whole true len ps wcs hlen h hps hfits
    obtain rfl := Option.some.inj (hr.symm.trans hrun)
    by_contra hshort
    rw [if_pos (Nat.lt_of_not_le hshort)] at hsrc
    cases hsrc
  · rintro ⟨hle, hfits⟩
    obtain ⟨ps', hrun⟩ := @loop_whole true len ps wcs hlen h hps hfits
    refine ⟨_, hrun, rfl, fun j => ?_, ?_⟩
    · show stores wcs len 0 (fun _ => none) j = _
      unfold stores
      simp only [Nat.zero_le, true_and, Nat.zero_add, Nat.sub_zero]
    · exact (if_neg (Nat.not_lt.2 hle)).symm

/-- Without `dest` the call counts. -/
theorem converts_null {wcs : List Int} (h : ∀ wc ∈ wcs, 1 ≤ wc ∧ wc < 2 ^ 31) (hps : ps.Initial)
    (hsize : (encode wcs).length < 2 ^ 64 - 1) :
    ∃ r, mbsrtowcs false (encode wcs ++ [0]) len ps = some r ∧ Converts false wcs len r := by
  have hle := length_le_encode wcs h
  obtain ⟨n, hn⟩ : ∃ n, n = 2 ^ 64 - 1 := ⟨_, rfl⟩
  have hcall : mbsrtowcs false (encode wcs ++ [0]) len ps =
      mbsrtowcsLoop false (encode wcs ++ [0]) n n 0 0 (fun _ => none) ps := by
    rw [hn]
    rfl
  have hfits : ∀ wc ∈ wcs.take n, (wcrtomb .utf8 wc).1 ≤ n := by
    intro wc hmem
    have hwc := h wc (List.mem_of_mem_take hmem)
    have := (wcrtomb_length (show 0 ≤ wc ∧ wc < 2 ^ 31 by omega)).2.2
    omega
  obtain ⟨ps', hrun⟩ := @loop_whole false n ps wcs (by omega) h hps hfits
  refine ⟨_, hcall.trans hrun, ?_⟩
  show min n wcs.length = wcs.length
  omega

/-- **`mbsrtowcs` converts exactly when `dest` is null or the characters fit**: the terminator must
not be reached, and no character may have more than `len` bytes. -/
theorem mbsrtowcs_converts_iff {wcs : List Int} (h : ∀ wc ∈ wcs, 1 ≤ wc ∧ wc ≤ 0x7fffffff)
    (hps : ps.Initial) (hsize : (encode wcs).length < 2 ^ 64 - 1) :
    (∃ r, mbsrtowcs hasDest (encode wcs ++ [0]) len ps = some r ∧ Converts hasDest wcs len r) ↔
      hasDest = false ∨ Fits wcs len := by
  have hwcs : ∀ wc ∈ wcs, 1 ≤ wc ∧ wc < 2 ^ 31 := fun wc hm => by
    have := h wc hm
    omega
  cases hasDest with
  | false => exact iff_of_true (converts_null hwcs hps hsize) (Or.inl rfl)
  | true =>
    rw [converts_dest_iff hwcs hps]
    simp

/-- Two characters of a string of three. -/
theorem mbsrtowcs_converts_two :
    ∃ r, mbsrtowcs true (encode [0x41, 0xe9, 0x42] ++ [0]) 2 ⟨0, 0⟩ = some r ∧
      Converts true [0x41, 0xe9, 0x42] 2 r := by
  have hchars : ∀ wc ∈ [(0x41 : Int), 0xe9, 0x42], 1 ≤ wc ∧ wc ≤ 0x7fffffff := by simp
  have hinit : MbState.Initial ⟨0, 0⟩ := rfl
  have hsize : (encode [0x41, 0xe9, 0x42]).length < 2 ^ 64 - 1 := by
    rw [show (encode [0x41, 0xe9, 0x42]).length = 4 from rfl]
    norm_num
  refine (mbsrtowcs_converts_iff hchars hinit hsize).2 (Or.inr ⟨by decide, ?_⟩)
  exact List.forall_mem_cons.2 ⟨by decide, List.forall_mem_singleton.2 (by decide)⟩

/-- The euro sign with room for one element: nothing is stored, and the call returns 1. -/
theorem mbsrtowcs_euro : ¬∀ (hasDest : Bool) (wcs : List Int) (len : Nat) (ps : MbState),
    (∀ wc ∈ wcs, 1 ≤ wc ∧ wc ≤ 0x7fffffff) → ps.Initial → (encode wcs).length < 2 ^ 64 - 1 →
    ∃ r, mbsrtowcs hasDest (encode wcs ++ [0]) len ps = some r ∧ Converts hasDest wcs len r := by
  intro h
  have hsize : (encode [0x20ac]).length < 2 ^ 64 - 1 := by
    rw [show (encode [0x20ac]).length = 3 from rfl]
    norm_num
  obtain ⟨r, hr, -, hdest, -⟩ := h true [0x20ac] 1 ⟨0, 0⟩ (by simp) rfl hsize
  cases hr
  have hzero := hdest 0
  simp at hzero

end Dietlibc.Wchar
