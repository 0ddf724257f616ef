import Mathlib.Data.List.GetD
import Dietlibc.Stdio.Reading

/-!
# What `fgetc` gives

What a descriptor still gives is a list of events (`Source`), of which a `read` takes bytes as it likes.
`view` lists what `fgetc` returns on a stream for input, call by call, and each call takes its head.
-/

namespace Dietlibc.Stdio

/-! ## What a descriptor gives -/

/-- A byte, a `read` that fails, or one that finds the end. -/
inductive Event where
  | byte (c : UInt8)
  | error
  | fin
  deriving DecidableEq

/-- What a `read` may answer, and what is left. Behind the last event is the end. -/
inductive Given : List Event → Option (List UInt8) → List Event → Prop
  | bytes (c : UInt8) (cs : List UInt8) (rest : List Event) :
    Given ((c :: cs).map .byte ++ rest) (some (c :: cs)) rest
  | error (rest : List Event) : Given (.error :: rest) none rest
  | fin (rest : List Event) : Given (.fin :: rest) (some []) rest
  | done : Given [] (some []) []

section

variable {σ : Type}

/-- A descriptor with its script. -/
def Source (d : Dev σ) (script : σ → List Event) : Prop :=
  ∀ s n, 0 < n → Given (script s) (d.read s n).1 (script (d.read s n).2)

/-- What is written does not change what is to be read. -/
def Apart (d : Dev σ) (script : σ → List Event) : Prop :=
  ∀ s data, script (d.write s data).2 = script s

/-- Whether a `read` gives a byte. -/
def byteNext : List Event → Bool
  | .byte _ :: _ => true
  | _ => false

/-- What `fgetc` returns, `none` for `EOF`. The end is remembered, so that nothing comes behind it. -/
def seen : List Event → List (Option UInt8)
  | .byte c :: l => some c :: seen l
  | .error :: l => none :: seen l
  | _ => []

/-! ## Calls of `fgetc` -/

/-- What so many calls of `fgetc` return. -/
def gets (d : Dev σ) : Nat → File → σ → List (Option UInt8)
  | 0, _, _ => []
  | n + 1, f, s =>
    match fgetcUnlocked d f s with
    | (c, f, s) => c :: gets d n f s

/-- A stream for reading whose counters are in its buffer. -/
structure Readable (f : File) : Prop where
  canread : f.canread = true
  bm_le : f.bm ≤ f.buflen
  bs_le : f.bs ≤ f.buflen
  buflen_pos : 0 < f.buflen
  buflen_lt : f.buflen < 2 ^ 32
  input : f.bufinput = true → f.bm ≤ f.bs

end

/-! ## Lists of answers -/

/-- The bytes in front, so many at most. -/
def took : Nat → List (Option UInt8) → List UInt8
  | k + 1, some c :: v => c :: took k v
  | _, _ => []

/-- What is left behind these calls, the first `EOF` among them. -/
def passed : Nat → List (Option UInt8) → List (Option UInt8)
  | 0, v => v
  | k + 1, some _ :: v => passed k v
  | _ + 1, none :: v => v
  | _ + 1, [] => []

/-- The answers to so many calls. -/
def firsts : Nat → List (Option UInt8) → List (Option UInt8)
  | 0, _ => []
  | n + 1, v => v.headD none :: firsts n v.tail

section

variable {k : Nat}

theorem took_append (bs : List UInt8) (k : Nat) (v : List (Option UInt8)) :
    took (bs.length + k) (bs.map some ++ v) = bs ++ took k v := by
  induction bs with
  | nil => rw [List.length_nil, Nat.zero_add]; rfl
  | cons c bs ih =>
    rw [List.length_cons, Nat.add_right_comm]
    exact congrArg (c :: ·) ih

theorem passed_append (bs : List UInt8) (k : Nat) (v : List (Option UInt8)) :
    passed (bs.length + k) (bs.map some ++ v) = passed k v := by
  induction bs with
  | nil => rw [List.length_nil, Nat.zero_add]; rfl
  | cons c bs ih =>
    rw [List.length_cons, Nat.add_right_comm]
    exact ih

theorem firsts_append (v w : List (Option UInt8)) (n : Nat) :
    firsts (v.length + n) (v ++ w) = v ++ firsts n w := by
  induction v with
  | nil => rw [List.length_nil, Nat.zero_add]; rfl
  | cons c v ih =>
    rw [List.length_cons, Nat.add_right_comm]
    exact congrArg (c :: ·) ih

theorem took_zero (v : List (Option UInt8)) : took 0 v = [] := rfl

theorem took_none (k : Nat) (v : List (Option UInt8)) : took k (none :: v) = [] := by
  cases k <;> rfl

theorem took_nil (k : Nat) : took k [] = [] := by
  cases k <;> rfl

theorem passed_none (hk : 0 < k) (v : List (Option UInt8)) : passed k (none :: v) = v := by
  cases k with
  | zero => cases hk
  | succ k => rfl

theorem passed_nil (k : Nat) : passed k [] = [] := by
  cases k <;> rfl

theorem length_took_le (k : Nat) (v : List (Option UInt8)) :
    (took k v).length ≤ k ∧ (took k v).length ≤ v.length := by
  induction k generalizing v with
  | zero => exact ⟨le_rfl, Nat.zero_le _⟩
  | succ k ih =>
    rcases v with - | ⟨- | c, v⟩
    · exact ⟨Nat.zero_le _, le_rfl⟩
    · exact ⟨Nat.zero_le _, Nat.zero_le _⟩
    · exact ⟨Nat.succ_le_succ (ih v).1, Nat.succ_le_succ (ih v).2⟩

/-- Two lists give the same answers for ever. -/
def Alike (v w : List (Option UInt8)) : Prop := ∀ n, firsts n v = firsts n w

variable {v w : List (Option UInt8)}

theorem Alike.head (h : Alike v w) : v.headD none = w.headD none := (List.cons.inj (h 1)).1

theorem Alike.tail (h : Alike v w) : Alike v.tail w.tail := fun n => (List.cons.inj (h (n + 1))).2

theorem Alike.getD (h : Alike v w) (i : Nat) : v.getD i none = w.getD i none := by
  induction i generalizing v w with
  | zero => simpa [List.headD_eq_head?_getD, List.getD_eq_getElem?_getD, ← List.head?_eq_getElem?]
      using h.head
  | succ i ih => simpa [List.getD_eq_getElem?_getD] using ih h.tail

theorem Alike.append (h : Alike v w) (u : List (Option UInt8)) : Alike (u ++ v) (u ++ w) := by
  induction u with
  | nil => exact h
  | cons c u ih =>
    intro n
    cases n with
    | zero => rfl
    | succ n => exact congrArg (c :: ·) (ih n)

theorem Alike.drop {u : List (Option UInt8)} (h : Alike (u ++ v) (u ++ w)) : Alike v w := fun n => by
  have hn := h (u.length + n)
  rw [firsts_append, firsts_append] at hn
  exact List.append_cancel_left hn

/-- Nothing else stands behind itself. -/
theorem not_alike_bytes (c : UInt8) (cs : List UInt8) (w : List (Option UInt8)) :
    ¬Alike ((c :: cs).map some ++ w) w := by
  intro h
  have hlen : ((c :: cs).map some).length = cs.length + 1 := by rw [List.length_map]; rfl
  have hall (m : Nat) : w.getD (m * (cs.length + 1)) none = some c := by
    induction m with
    | zero => rw [Nat.zero_mul, ← h.getD 0]; rfl
    | succ m ih =>
      rw [← h.getD, List.getD_append_right _ _ _ _ (by rw [hlen]; nlinarith), hlen,
        show (m + 1) * (cs.length + 1) - (cs.length + 1) = m * (cs.length + 1) by
          rw [Nat.succ_mul, Nat.add_sub_cancel], ih]
  have hend := hall w.length
  rw [List.getD_eq_default _ _ (by nlinarith)] at hend
  cases hend

/-- No byte is in a list that a further `EOF` in front does not change. -/
theorem Alike.none_mem (h : Alike (none :: w) w) : ∀ c ∈ w, c = none := by
  have hall (i : Nat) : w.getD i none = none := by
    induction i with
    | zero => exact (h.getD 0).symm
    | succ i ih => rw [← h.getD, List.getD_cons_succ, ih]
  intro c hc
  obtain ⟨i, hi, rfl⟩ := List.getElem_of_mem hc
  rw [← List.getD_eq_getElem w none hi, hall]

theorem firsts_none (h : ∀ c ∈ w, c = none) (n : Nat) : firsts n w = List.replicate n none := by
  induction n generalizing w with
  | zero => rfl
  | succ n ih =>
    cases w with
    | nil => exact congrArg (none :: ·) (ih h)
    | cons c w =>
      rw [h c List.mem_cons_self]
      exact congrArg (none :: ·) (ih fun c hc => h c (List.mem_cons_of_mem _ hc))

end

/-! ## What a stream gives -/

section

variable {σ : Type} {d : Dev σ} {script : σ → List Event} {f : File} {s : σ} {k n : Nat}

theorem seen_bytes (bs : List UInt8) (l : List Event) :
    seen (bs.map .byte ++ l) = bs.map some ++ seen l := by
  induction bs with
  | nil => rfl
  | cons c bs ih => exact congrArg (some c :: ·) ih

theorem Source.read (hd : Source d script) (s : σ) (hn : 0 < n) :
    (∃ c cs s', d.read s n = (some (c :: cs), s') ∧
      script s = (c :: cs).map .byte ++ script s') ∨
    (∃ s', d.read s n = (none, s') ∧ script s = .error :: script s') ∨
    ∃ s', d.read s n = (some [], s') ∧ seen (script s) = [] ∧ byteNext (script s) = false := by
  have hg := hd s n hn
  rcases hr : d.read s n with ⟨r, s'⟩
  rw [hr] at hg
  generalize hl : script s = l at hg
  generalize hl' : script s' = l' at hg
  cases hg with
  | bytes c cs rest => exact .inl ⟨c, cs, s', rfl, by rw [hl']⟩
  | error rest => exact .inr (.inl ⟨s', rfl, by rw [hl']⟩)
  | fin rest => exact .inr (.inr ⟨s', rfl, rfl, rfl⟩)
  | done => exact .inr (.inr ⟨s', rfl, rfl, rfl⟩)

/-- What comes behind the buffer. -/
def behind (script : σ → List Event) (f : File) (s : σ) : List (Option UInt8) :=
  if f.eof then [] else seen (script s)

/-- What `fgetc` returns, call by call. -/
def view (script : σ → List Event) (f : File) (s : σ) : List (Option UInt8) :=
  (if f.ungotten then [some f.ungetbuf] else []) ++
    ((f.buf.load f.bm (f.bs - f.bm)).map some ++ behind script f s)

theorem view_pushed (hu : f.ungotten = true) :
    view script f s = some f.ungetbuf :: view script { f with ungotten := false } s := by
  unfold view
  rw [if_pos hu, if_neg nofun]
  rfl

theorem view_free (hu : f.ungotten = false) :
    view script f s = (f.buf.load f.bm (f.bs - f.bm)).map some ++ behind script f s := by
  unfold view
  rw [if_neg (by simp [hu])]
  rfl

theorem view_empty (hu : f.ungotten = false) (hb : f.bs ≤ f.bm) :
    view script f s = behind script f s := by
  rw [view_free hu, Nat.sub_eq_zero_of_le hb]
  rfl

/-- A stream on which `fgetc` goes on as `view` says. -/
structure Live (f : File) : Prop extends Readable f where
  bm_le_bs : f.bm ≤ f.bs
  dir : f.bufinput = false → f.bs = 0

/-- Where an empty buffer is turned to input nothing is written. -/
theorem fflush4_live (h : Live f) (hu : f.ungotten = false) (hb : f.bs ≤ f.bm) (s : σ) :
    fflush4 d f s true = (true, { f with bufinput := true }, s) := by
  unfold fflush4
  cases hd : f.bufinput with
  | true =>
    rw [if_pos rfl, ← hd]
  | false =>
    have hbm : f.bm = 0 := by
      have := h.dir hd
      have := h.bm_le_bs
      omega
    have hflush : fflushUnlocked d f s = (true, { f with ungotten := false }, s) := by
      unfold fflushUnlocked
      rw [if_neg (by simp [hd]), if_pos hbm]
    rw [if_neg nofun, hflush, ← hu]

/-- **`fgetc`** takes the first of the list. -/
theorem fgetc_view (hd : Source d script) (h : Live f) (s : σ) : ∃ f' s',
    fgetcUnlocked d f s = ((view script f s).headD none, f', s') ∧ Live f' ∧
      view script f' s' = (view script f s).tail := by
  unfold fgetcUnlocked
  rw [if_neg (by simp [h.canread])]
  cases hu : f.ungotten with
  | true =>
    rw [if_pos rfl, view_pushed hu]
    exact ⟨_, s, rfl, ⟨⟨h.canread, h.bm_le, h.bs_le, h.buflen_pos, h.buflen_lt, h.input⟩,
      h.bm_le_bs, h.dir⟩, rfl⟩
  | false =>
    rw [if_neg nofun]
    by_cases hlt : f.bm < f.bs
    · have hload : f.buf.load f.bm (f.bs - f.bm) =
          f.buf f.bm :: f.buf.load (f.bm + 1) (f.bs - (f.bm + 1)) := by
        rw [← Mem.load_cons, show f.bs - (f.bm + 1) + 1 = f.bs - f.bm by omega]
      rw [if_pos hlt, view_free hu, hload]
      have hbm : f.bm + 1 ≤ f.buflen := hlt.trans_le h.bs_le
      refine ⟨_, s, rfl, ⟨⟨h.canread, hbm, h.bs_le, h.buflen_pos, h.buflen_lt, fun _ => hlt⟩,
        hlt, h.dir⟩, ?_⟩
      rw [view_free (by rfl)]
      rfl
    · rw [if_neg hlt, view_empty hu (Nat.le_of_not_lt hlt)]
      cases he : f.eof with
      | true =>
        rw [if_pos rfl, behind, if_pos he]
        refine ⟨f, s, rfl, h, ?_⟩
        rw [view_empty hu (Nat.le_of_not_lt hlt), behind, if_pos he]
        rfl
      | false =>
        rw [if_neg nofun, fflush4_live h hu (Nat.le_of_not_lt hlt)]
        dsimp only
        rw [if_pos (Nat.le_of_not_lt hlt), behind, if_neg (by simp [he])]
        unfold refill
        dsimp only
        obtain ⟨c, cs, s', hr, hs⟩ | ⟨s', hr, hs⟩ | ⟨s', hr, hs, -⟩ := hd.read s h.buflen_pos
        · have hlen := d.read_le s _ _ _ hr
          have hload : (f.buf.store 0 (c :: cs)).load 0 (c :: cs).length = c :: cs :=
            Mem.load_store_self rfl
          rw [List.length_cons, Mem.load_cons, List.cons.injEq] at hload
          rw [hr, hs, seen_bytes]
          dsimp only
          rw [hload.1]
          refine ⟨_, s', rfl, ⟨⟨h.canread, h.buflen_pos, hlen, h.buflen_pos, h.buflen_lt,
            fun _ => ?_⟩, ?_, nofun⟩, ?_⟩
          · exact Nat.succ_le_succ (Nat.zero_le _)
          · exact Nat.succ_le_succ (Nat.zero_le _)
          · rw [view_free (by exact hu), behind, if_neg (by simp [he])]
            dsimp only [List.length_cons]
            rw [Nat.add_sub_cancel, show (1 : Nat) = 0 + 1 from rfl, hload.2]
            rfl
        · rw [hr, hs]
          refine ⟨_, s', rfl, ⟨⟨h.canread, h.bm_le, h.bs_le, h.buflen_pos, h.buflen_lt,
            fun _ => h.bm_le_bs⟩, h.bm_le_bs, nofun⟩, ?_⟩
          rw [view_empty (by exact hu) (by exact Nat.le_of_not_lt hlt), behind, if_neg (by simp [he])]
          rfl
        · rw [hr, hs]
          refine ⟨_, s', rfl, ⟨⟨h.canread, h.bm_le, h.bs_le, h.buflen_pos, h.buflen_lt,
            fun _ => h.bm_le_bs⟩, h.bm_le_bs, nofun⟩, ?_⟩
          rw [view_empty (by exact hu) (by exact Nat.le_of_not_lt hlt), behind, if_pos rfl]
          rfl

/-- The stream gives these answers, and then `EOF`. -/
def Gives (d : Dev σ) (f : File) (s : σ) (v : List (Option UInt8)) : Prop :=
  ∀ n, gets d n f s = firsts n v

theorem Gives.cons {c : Option UInt8} {f' : File} {s' : σ} {v : List (Option UInt8)}
    (hget : fgetcUnlocked d f s = (c, f', s')) (h : Gives d f' s' v) : Gives d f s (c :: v) := by
  intro n
  cases n with
  | zero => rfl
  | succ n =>
    rw [gets, hget]
    exact congrArg (c :: ·) (h n)

theorem Live.gives (hd : Source d script) (h : Live f) (s : σ) : Gives d f s (view script f s) := by
  intro n
  induction n generalizing f s with
  | zero => rfl
  | succ n ih =>
    obtain ⟨f', s', hget, h', hview⟩ := fgetc_view hd h s
    rw [gets, hget, firsts]
    dsimp only
    rw [ih h', hview]

/-- So many calls of `fgetc`, up to the first `EOF`. -/
theorem getcLoop_view (hd : Source d script) (h : Live f) (k : Nat) (out : List UInt8) (s : σ) :
    ∃ f' s', getcLoop d k out f s = (decide ((took k (view script f s)).length = k),
      out ++ took k (view script f s), f', s') ∧ Live f' ∧
        view script f' s' = passed k (view script f s) := by
  induction k generalizing out f s with
  | zero => exact ⟨f, s, by simp [getcLoop, took], h, rfl⟩
  | succ k ih =>
    obtain ⟨f', s', hget, h', hview⟩ := fgetc_view hd h s
    rw [getcLoop, hget]
    rcases hv : view script f s with - | ⟨- | c, v⟩
    · rw [hv] at hview
      exact ⟨f', s', by simp [took], h', hview⟩
    · rw [hv] at hview
      exact ⟨f', s', by simp [took], h', hview⟩
    · rw [hv] at hview
      obtain ⟨f'', s'', hloop, h'', hview'⟩ := ih h' (out ++ [c]) s'
      rw [hview, List.tail_cons] at hloop hview'
      refine ⟨f'', s'', ?_, h'', hview'⟩
      dsimp only [List.headD_cons]
      rw [hloop, took, List.length_cons, List.append_assoc, List.singleton_append]
      simp

end

end Dietlibc.Stdio
