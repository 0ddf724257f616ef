import Dietlibc.Stdio.Reading

/-!
# `getdelim`

A `Line` is `*lineptr` and `*n`: the block has `n` bytes, and a write behind them is a fault. `Delivers`
says which bytes `fgetc` gives before it gives `EOF`. A call returns the next record when the block has
a byte more than the record, and otherwise writes the terminator behind the block.
-/

namespace Dietlibc.Stdio

/-- A write outside the block. -/
inductive Stop where
  | fault
  deriving DecidableEq

/-- `*lineptr` and `*n` -/
structure Line where
  null : Bool
  n : Nat
  buf : Mem

/-- `(*lineptr)[i]=c` -/
def Line.put (l : Line) (i : Nat) (c : UInt8) : Except Stop Line :=
  if i < l.n then .ok { l with buf := l.buf.store i [c] } else .error .fault

/-- `int tmp=*n+100`, as a `size_t`. -/
def Line.more (l : Line) : Nat := (CInt.conv 32 (l.n + 100) % 2 ^ 64).toNat

/-- `realloc` if the block is full; `room` says for which sizes there is memory. -/
def Line.grow (room : Nat → Bool) (i : Nat) (l : Line) : Option Line :=
  if l.n ≤ i then if room l.more then some ⟨false, l.more, l.buf⟩ else none else some l

section

variable {σ : Type} (d : Dev σ) (room : Nat → Bool) (delim : Int)

/-- The loop of `getdelim`: the number returned, `none` for -1. -/
def getdelimLoop (i : Nat) (l : Line) (f : File) (s : σ) :
    Except Stop (Option Nat × Line × File × σ) :=
  match _h : l.grow room i with
  | none => .ok (none, l, f, s)
  | some l' =>
    match fgetcUnlocked d f s with
    | (none, f, s) =>
      if i = 0 then .ok (none, l', f, s) else (l'.put i 0).map fun l => (some i, l, f, s)
    | (some c, f, s) =>
      if i < l'.n then
        let l := { l' with buf := l'.buf.store i [c] }
        if (c.toNat : Int) = delim ∨ l'.n ≤ i + 1 then
          (l.put (i + 1) 0).map fun l => (some (i + 1), l, f, s)
        else getdelimLoop (i + 1) l f s
      else .error .fault
termination_by ((if i < l.n then 0 else 1 : Nat), l.n - i)
decreasing_by
  rename_i hlt hmore
  have hnext : i + 1 < l'.n := by omega
  simp only [if_pos hnext]
  unfold Line.grow at _h
  split at _h
  · rename_i hfull
    rw [if_neg (by omega)]
    exact Prod.Lex.left _ _ (by omega)
  · rename_i hroom
    cases _h
    rw [if_pos (by omega)]
    exact Prod.Lex.right _ (by omega)

/-- `getdelim` -/
def getdelim (l : Line) (f : File) (s : σ) : Except Stop (Option Nat × Line × File × σ) :=
  getdelimLoop d room delim 0 (if l.null then { l with n := 0 } else l) f s

end

/-! ## What a stream delivers -/

variable {σ : Type} {d : Dev σ} {room : Nat → Bool} {delim : Int} {l l' : Line} {f f' : File} {s s' : σ}
  {bytes t : List UInt8} {i : Nat}

/-- `fgetc` gives `bytes`, and then `EOF` whenever it is called. -/
def Delivers (d : Dev σ) (f : File) (s : σ) (bytes : List UInt8) : Prop :=
  ∃ R : List UInt8 → File → σ → Prop, R bytes f s ∧ ∀ bytes f s, R bytes f s →
    ∃ f' s', fgetcUnlocked d f s = (bytes.head?, f', s') ∧ R bytes.tail f' s'

theorem Delivers.fgetc (h : Delivers d f s bytes) :
    ∃ f' s', fgetcUnlocked d f s = (bytes.head?, f', s') ∧ Delivers d f' s' bytes.tail := by
  obtain ⟨R, hR, hstep⟩ := h
  obtain ⟨f', s', hget, hR'⟩ := hstep bytes f s hR
  exact ⟨f', s', hget, R, hR', hstep⟩

/-- A regular file delivers what is ahead. -/
theorem delivers_ahead {s : Regular} (h : Held f s) : Delivers regular f s (ahead f s) := by
  refine ⟨fun bytes f s => Held f s ∧ bytes = ahead f s, ⟨h, rfl⟩, ?_⟩
  rintro bytes f s ⟨h, rfl⟩
  obtain ⟨f', s', hget, hmoved⟩ := fgetc_spec h
  refine ⟨f', s', hget, hmoved.held, ?_⟩
  rw [hmoved.rest, List.drop_one]

/-! ## Records -/

/-- The next record, with its delimiter. -/
def record (delim : Int) : List UInt8 → List UInt8
  | [] => []
  | c :: t => if (c.toNat : Int) = delim then [c] else c :: record delim t

theorem record_eq_nil : record delim bytes = [] ↔ bytes = [] := by
  cases bytes with
  | nil => exact Iff.rfl
  | cons c t =>
    refine iff_of_false ?_ (List.cons_ne_nil c t)
    unfold record
    split <;> exact List.cons_ne_nil _ _

/-- A record is a prefix. -/
theorem record_append_drop (delim : Int) (bytes : List UInt8) :
    record delim bytes ++ bytes.drop (record delim bytes).length = bytes := by
  induction bytes with
  | nil => rfl
  | cons c t ih =>
    unfold record
    split
    · rfl
    · exact congrArg (c :: ·) ih

/-- The size of the block that a call uses. -/
def Line.cap (l : Line) : Nat := if l.null ∨ l.n = 0 then 100 else l.n

/-- The call returns the next record: its length, or -1 if there is no byte, with the record and a NUL in
the block, and it leaves the bytes behind the record. -/
def ReturnsRecord (d : Dev σ) (room : Nat → Bool) (delim : Int) (l : Line) (f : File) (s : σ)
    (bytes : List UInt8) : Prop :=
  ∃ r l' f' s', getdelim d room delim l f s = .ok (r, l', f', s') ∧
    r = (if bytes = [] then none else some (record delim bytes).length) ∧
    (bytes ≠ [] → l'.null = false ∧ (record delim bytes).length < l'.n ∧
      l'.buf.load 0 ((record delim bytes).length + 1) = record delim bytes ++ [0]) ∧
    Delivers d f' s' (bytes.drop (record delim bytes).length)

/-! ## The loop -/

theorem grow_eq (room : Nat → Bool) (h : i < l.n) : l.grow room i = some l := if_neg (by omega)

theorem put_eq {c : UInt8} (h : i < l.n) : l.put i c = .ok { l with buf := l.buf.store i [c] } := if_pos h

theorem put_fault {c : UInt8} (h : l.n ≤ i) : l.put i c = .error .fault := if_neg (by omega)

theorem store_cons (m : Mem) (i : Nat) (c : UInt8) (x : List UInt8) :
    (m.store i [c]).store (i + 1) x = m.store i (c :: x) :=
  Mem.store_append [c] x

/-- At the end of the stream. -/
theorem loop_eof (hg : l.grow room i = some l') (hget : fgetcUnlocked d f s = (none, f', s')) :
    getdelimLoop d room delim i l f s = if i = 0 then .ok (none, l', f', s') else
      (l'.put i 0).map fun l => (some i, l, f', s') := by
  unfold getdelimLoop
  split
  · rename_i hnone
    rw [hg] at hnone
    cases hnone
  · rename_i u hsome
    rw [hg] at hsome
    cases hsome
    simp only [hget]

/-- At the last byte of a record, or of the block. -/
theorem loop_end {c : UInt8} (hg : l.grow room i = some l') (hi : i < l'.n)
    (hget : fgetcUnlocked d f s = (some c, f', s')) (hend : (c.toNat : Int) = delim ∨ l'.n ≤ i + 1) :
    getdelimLoop d room delim i l f s =
      (Line.put { l' with buf := l'.buf.store i [c] } (i + 1) 0).map fun l => (some (i + 1), l, f', s') := by
  unfold getdelimLoop
  split
  · rename_i hnone
    rw [hg] at hnone
    cases hnone
  · rename_i u hsome
    rw [hg] at hsome
    cases hsome
    simp only [hget, if_pos hi, if_pos hend]

theorem loop_more {c : UInt8} (hg : l.grow room i = some l') (hi : i < l'.n)
    (hget : fgetcUnlocked d f s = (some c, f', s')) (hend : ¬ ((c.toNat : Int) = delim ∨ l'.n ≤ i + 1)) :
    getdelimLoop d room delim i l f s =
      getdelimLoop d room delim (i + 1) { l' with buf := l'.buf.store i [c] } f' s' := by
  conv_lhs => unfold getdelimLoop
  split
  · rename_i hnone
    rw [hg] at hnone
    cases hnone
  · rename_i u hsome
    rw [hg] at hsome
    cases hsome
    simp only [hget, if_pos hi, if_neg hend]

/-- With room for the record and a terminator behind the bytes that are there. -/
theorem loop_record (hg : l.grow room i = some l') (h : Delivers d f s bytes)
    (hfit : i + (record delim bytes).length < l'.n) :
    ∃ f' s', getdelimLoop d room delim i l f s = .ok (if i = 0 ∧ bytes = [] then (none, l', f', s') else
      (some (i + (record delim bytes).length),
        { l' with buf := l'.buf.store i (record delim bytes ++ [0]) }, f', s')) ∧
      Delivers d f' s' (bytes.drop (record delim bytes).length) := by
  induction bytes generalizing i l l' f s with
  | nil =>
    obtain ⟨f', s', hget, hrest⟩ := h.fgetc
    refine ⟨f', s', ?_, hrest⟩
    have hlt : i < l'.n := hfit
    rw [loop_eof hg hget, put_eq hlt]
    by_cases hi : i = 0
    · rw [if_pos hi, if_pos ⟨hi, rfl⟩]
    · rw [if_neg hi, if_neg fun hc => hi hc.1]
      rfl
  | cons c t ih =>
    obtain ⟨f', s', hget, hrest⟩ := h.fgetc
    have hne : ¬ (i = 0 ∧ c :: t = []) := fun hc => List.cons_ne_nil c t hc.2
    simp only [if_neg hne]
    by_cases hc : (c.toNat : Int) = delim
    · have hrec : record delim (c :: t) = [c] := if_pos hc
      rw [hrec] at hfit ⊢
      refine ⟨f', s', ?_, hrest⟩
      have hlt : i + 1 < l'.n := hfit
      rw [loop_end hg (Nat.lt_of_succ_lt hlt) hget (.inl hc),
        put_eq (l := { l' with buf := l'.buf.store i [c] }) hlt]
      simp only [Except.map, store_cons]
      rfl
    · have hrec : record delim (c :: t) = c :: record delim t := if_neg hc
      rw [hrec, List.length_cons] at hfit ⊢
      have hend : ¬ ((c.toNat : Int) = delim ∨ l'.n ≤ i + 1) := by
        rintro (he | he)
        · exact hc he
        · omega
      obtain ⟨f₁, s₁, hrun, hdel⟩ := ih (i := i + 1) (l := { l' with buf := l'.buf.store i [c] })
        (grow_eq room (Nat.lt_of_not_le fun he => hend (.inr he))) hrest (by simp only; omega)
      refine ⟨f₁, s₁, ?_, hdel⟩
      rw [loop_more hg (by omega) hget hend, hrun, if_neg fun hc => by omega]
      simp only [store_cons]
      rw [show i + 1 + (record delim t).length = i + ((record delim t).length + 1) by omega]
      rfl

/-- Without: the terminator is written behind the block. -/
theorem loop_fault (hg : l.grow room i = some l') (hi : i < l'.n) (h : Delivers d f s bytes)
    (hfull : l'.n ≤ i + (record delim bytes).length) :
    getdelimLoop d room delim i l f s = .error .fault := by
  induction bytes generalizing i l l' f s with
  | nil => exact absurd hi (by simpa [record] using hfull)
  | cons c t ih =>
    obtain ⟨f', s', hget, hrest⟩ := h.fgetc
    by_cases hend : (c.toNat : Int) = delim ∨ l'.n ≤ i + 1
    · have hle : l'.n ≤ i + 1 := by
        rcases hend with hc | hle
        · rwa [show record delim (c :: t) = [c] from if_pos hc] at hfull
        · exact hle
      rw [loop_end hg hi hget hend, put_fault (l := { l' with buf := l'.buf.store i [c] }) hle]
      rfl
    · have hc : record delim (c :: t) = c :: record delim t := if_neg fun hc => hend (.inl hc)
      rw [hc, List.length_cons] at hfull
      rw [loop_more hg hi hget hend]
      exact ih (grow_eq room (Nat.lt_of_not_le fun he => hend (.inr he)))
        (Nat.lt_of_not_le fun he => hend (.inr he)) hrest (by simp only; omega)

/-! ## A call -/

theorem grow_first (hroom : ∀ k, room k = true) (l : Line) :
    ∃ l', (if l.null then { l with n := 0 } else l).grow room 0 = some l' ∧ l'.n = l.cap ∧
      l'.null = false := by
  by_cases hfull : l.null = true ∨ l.n = 0
  · have hn : (if l.null then { l with n := 0 } else l).n = 0 := by
      split
      · rfl
      · exact hfull.resolve_left ‹_›
    refine ⟨⟨false, (if l.null then { l with n := 0 } else l).more,
      (if l.null then { l with n := 0 } else l).buf⟩, ?_, ?_, rfl⟩
    · rw [Line.grow, if_pos (Nat.le_of_eq hn), if_pos (hroom _)]
    · rw [Line.cap, if_pos hfull, Line.more, hn]
      show (CInt.conv 32 (0 + 100) % 2 ^ 64).toNat = 100
      decide
  · obtain ⟨hnull, hn⟩ := not_or.mp hfull
    rw [if_neg hnull, grow_eq room (Nat.pos_of_ne_zero hn), Line.cap, if_neg hfull]
    exact ⟨l, rfl, rfl, Bool.eq_false_iff.mpr hnull⟩

theorem cap_pos (l : Line) : 0 < l.cap := by
  unfold Line.cap
  split
  · decide
  · rename_i hcap
    exact Nat.pos_of_ne_zero (not_or.mp hcap).2

/-- What a call does when the block has room. -/
theorem getdelim_fits (hroom : ∀ k, room k = true) (h : Delivers d f s bytes)
    (hfit : (record delim bytes).length < l.cap) :
    ∃ l' f' s', getdelim d room delim l f s = .ok (if bytes = [] then (none, l', f', s') else
        (some (record delim bytes).length,
          { l' with buf := l'.buf.store 0 (record delim bytes ++ [0]) }, f', s')) ∧
      l'.n = l.cap ∧ l'.null = false ∧ Delivers d f' s' (bytes.drop (record delim bytes).length) := by
  obtain ⟨l', hg, hn, hnull⟩ := grow_first hroom l
  have hfit' : 0 + (record delim bytes).length < l'.n := by omega
  obtain ⟨f', s', hrun, hdel⟩ := loop_record hg h hfit'
  refine ⟨l', f', s', ?_, hn, hnull, hdel⟩
  rw [getdelim, hrun]
  simp only [true_and, Nat.zero_add]

/-- **A call returns the next record exactly when the record is shorter than the block.** -/
theorem getdelim_record_iff (hroom : ∀ k, room k = true) (h : Delivers d f s bytes) :
    ReturnsRecord d room delim l f s bytes ↔ (record delim bytes).length < l.cap := by
  constructor
  · rintro ⟨r, u, f', s', hrun, -⟩
    by_contra hfull
    obtain ⟨l', hg, hn, -⟩ := grow_first hroom l
    have hpos := cap_pos l
    rw [getdelim, loop_fault hg (by omega) h (by omega)] at hrun
    cases hrun
  · intro hfit
    obtain ⟨l', f', s', hcall, hn, hnull, hdel⟩ := getdelim_fits hroom h hfit
    by_cases hnil : bytes = []
    · rw [if_pos hnil] at hcall
      exact ⟨none, l', f', s', hcall, (if_pos hnil).symm, fun hne => absurd hnil hne, hdel⟩
    · rw [if_neg hnil] at hcall
      refine ⟨_, _, f', s', hcall, (if_neg hnil).symm, fun _ => ⟨hnull, ?_, ?_⟩, hdel⟩
      · exact lt_of_lt_of_eq hfit hn.symm
      · exact Mem.load_store_self (by rw [List.length_append]; rfl)

/-- A stream that `fopen` has made, with a buffer of four bytes. -/
def reader4 : File where
  error := false
  eof := false
  bufinput := true
  buflinewise := false
  nobuf := false
  fdpipe := false
  canread := true
  canwrite := true
  checklinewise := false
  bs := 0
  bm := 0
  buflen := 4
  buf := fun _ => 0
  ungetbuf := 0
  ungotten := false

theorem delivers_reader4 : Delivers regular reader4 ⟨[97, 98, 10, 99], 0⟩ [97, 98, 10, 99] := by
  have hheld : Held reader4 ⟨[97, 98, 10, 99], 0⟩ :=
    ⟨⟨⟨rfl, rfl, rfl, rfl, by decide, by decide⟩, le_refl 0, Nat.zero_le 4, le_refl 0,
      fun i hi => absurd hi (Nat.not_lt_zero i), nofun⟩, nofun⟩
  exact delivers_ahead hheld

/-- A null pointer becomes a block of 100 bytes. -/
theorem getdelim_null : ReturnsRecord regular (fun _ => true) 10 ⟨true, 7, fun _ => 0⟩ reader4
    ⟨[97, 98, 10, 99], 0⟩ [97, 98, 10, 99] :=
  (getdelim_record_iff (fun _ => rfl) delivers_reader4).mpr (by decide)

/-- The record has as many bytes as the block. -/
theorem getdelim_overruns : ¬ ∀ {σ : Type} (d : Dev σ) (room : Nat → Bool) (delim : Int) (l : Line) (f : File)
    (s : σ) (bytes : List UInt8), (∀ k, room k = true) → Delivers d f s bytes →
      ReturnsRecord d room delim l f s bytes := by
  intro h
  obtain ⟨r, l', f', s', hrun, -⟩ := h regular (fun _ => true) 10 ⟨false, 3, fun _ => 0⟩ reader4 _ _
    (fun _ => rfl) delivers_reader4
  have hfault : getdelimLoop regular (fun _ => true) 10 0 ⟨false, 3, fun _ => 0⟩ reader4
      ⟨[97, 98, 10, 99], 0⟩ = .error .fault :=
    loop_fault (show Line.grow (fun _ => true) 0 ⟨false, 3, fun _ => 0⟩ = some ⟨false, 3, fun _ => 0⟩
      from rfl) (by decide) delivers_reader4 (by decide)
  have hrun' := hfault.symm.trans hrun
  cases hrun'

/-! ## Successive calls -/

/-- The lines that calls return until one returns -1. -/
inductive Lines (d : Dev σ) (room : Nat → Bool) (delim : Int) :
    Line → File → σ → List (List UInt8) → Prop
  | done {l l' : Line} {f f' : File} {s s' : σ} : getdelim d room delim l f s = .ok (none, l', f', s') →
      Lines d room delim l f s []
  | more {l l' : Line} {f f' : File} {s s' : σ} {k : Nat} {rest : List (List UInt8)} :
      getdelim d room delim l f s = .ok (some k, l', f', s') → Lines d room delim l' f' s' rest →
      Lines d room delim l f s (l'.buf.load 0 k :: rest)

theorem load_store_prefix (m : Mem) (x y : List UInt8) : (m.store 0 (x ++ y)).load 0 x.length = x := by
  rw [← Mem.store_append, Mem.load_store_out (.inl (by omega)), Mem.load_store_self rfl]

/-- **Successive calls take the stream apart** when every record is shorter than the block. -/
theorem lines_partition (hroom : ∀ k, room k = true) (h : Delivers d f s bytes)
    (hshort : ∀ k, (record delim (bytes.drop k)).length < l.cap) :
    ∃ rest, Lines d room delim l f s rest ∧ rest.flatten = bytes := by
  induction hlen : bytes.length using Nat.strong_induction_on generalizing bytes l f s with
  | _ len ih =>
    obtain ⟨l', f', s', hcall, hn, hnull, hdel⟩ := getdelim_fits hroom h (hshort 0)
    by_cases hnil : bytes = []
    · rw [if_pos hnil] at hcall
      exact ⟨[], .done hcall, hnil.symm⟩
    · rw [if_neg hnil] at hcall
      have hpos : 0 < (record delim bytes).length :=
        List.length_pos_iff.mpr fun he => hnil (record_eq_nil.mp he)
      have hcap : Line.cap { l' with buf := l'.buf.store 0 (record delim bytes ++ [0]) } = l.cap := by
        have hcap' := cap_pos l
        rw [Line.cap, if_neg (by rw [not_or, hnull]; exact ⟨nofun, by simp only; omega⟩)]
        exact hn
      have hlong : (record delim bytes).length ≤ bytes.length := by
        have := congrArg List.length (record_append_drop delim bytes)
        rw [List.length_append] at this
        omega
      obtain ⟨rest, hlines, hrest⟩ := ih _ (by rw [List.length_drop]; omega) hdel (fun k => by
        rw [hcap, List.drop_drop]
        exact hshort _) rfl
      refine ⟨_, .more hcall hlines, ?_⟩
      rw [List.flatten_cons, hrest, load_store_prefix, record_append_drop]

end Dietlibc.Stdio
